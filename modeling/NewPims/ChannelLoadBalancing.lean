import Mathlib.Algebra.Order.Floor.Div
import Mathlib.Data.Nat.Log
import NewPims.Lib.Balancing
import NewPims.Lib.Transition

/-! `channel_load_balancing.py`: the channels that the requests of a trace are given to. Its `/` is
the division of Python, whose result is a double. -/
namespace NewPims.ChannelLoadBalancing

open Greedy Transition

def dramPageSize : ℕ := 512
def dramBanksPerCh : ℕ := 32
def gwriteLatency : ℕ := 100
def gemvLatency : ℕ := 184

def E : ℕ := 4096
def nTp : ℕ := 4
def nh : ℕ := 32
def dk : ℕ := E / nh

inductive PyError
  /-- `min` of nothing. -/
  | valueError
  | indexError
  /-- A quotient beyond the doubles. -/
  | overflowError
  deriving DecidableEq, Repr

/-- The number with the 53 leading digits of `n`, rounded to nearest, ties to even. -/
def roundDouble (n : ℕ) : ℕ :=
  let unit := 2 ^ (n.log2 + 1 - 53)
  let rest := n % unit
  if unit < 2 * rest ∨ 2 * rest = unit ∧ n / unit % 2 = 1 then n - rest + unit else n - rest

/-- The doubles end below `2 ^ maxExponent`, a number that no proof computes. -/
@[irreducible] def maxExponent : ℕ := 1024

/-- `math.ceil(a / b)`, for a power of two `b`, by which a double is divided exactly. -/
def ceilQuotient (a b : ℕ) : Except PyError ℕ :=
  if 2 ^ maxExponent * b ≤ roundDouble a then .error .overflowError else .ok (roundDouble a ⌈/⌉ b)

def estimateMhaLatency (seqLen : ℕ) : Except PyError ℕ := do
  let effectiveE := E / nTp
  -- key * query
  let chunks ← ceilQuotient effectiveE dramPageSize
  let tiles ← ceilQuotient seqLen dramBanksPerCh
  let latency := chunks * gwriteLatency + chunks * tiles * gemvLatency
  -- logit * value
  let pages ← ceilQuotient seqLen dramPageSize
  let chunks := pages * nh
  let tiles ← ceilQuotient dk dramBanksPerCh
  .ok (latency + chunks * gwriteLatency + chunks * tiles * gemvLatency)

def sumLoad (seqLens : List ℕ) : Except PyError ℕ :=
  seqLens.foldlM (fun acc seqLen => do
    let latency ← estimateMhaLatency seqLen
    .ok (acc + latency)) 0

/-- `min(range(k), key=…)`: the first of the channels with the least load. -/
def minSumIndex (channelsLoad : List ℕ) (k : ℕ) : Except PyError ℕ :=
  if channelsLoad.length < k then .error .indexError
  else
    match (List.range k).argmin fun i => channelsLoad.getD i 0 with
    | none => .error .valueError
    | some i => .ok i

/-- The body of the loop, on `channels_seqlen` and `channels_load`. -/
def distribute (k : ℕ) (channels : List (List ℕ) × List ℕ) (element : ℕ) :
    Except PyError (List (List ℕ) × List ℕ) := do
  let i ← minSumIndex channels.2 k
  let latency ← estimateMhaLatency element
  .ok (channels.1.modify i (· ++ [element]), channels.2.modify i (· + latency))

def distributeRequests (newSeqLens : List ℕ) (channelsSeqlen : List (List ℕ)) (k : ℕ) :
    Except PyError (List (List ℕ)) := do
  let channelsLoad ← channelsSeqlen.mapM sumLoad
  let channels ← (newSeqLens.mergeSort fun a b => decide (b ≤ a)).foldlM (distribute k)
    (channelsSeqlen, channelsLoad)
  .ok channels.1

/-- A length whose quotient by the banks is rounded to a double. -/
def Divisible (seqLen : ℕ) : Prop :=
  seqLen < (2 ^ maxExponent - 2 ^ (maxExponent - 54)) * dramBanksPerCh

variable {channels : List (List ℕ)} {xs : List ℕ} {j k bound element n m seqLen : ℕ}

section Division

theorem roundDouble_of_lt (h : n < 2 ^ 53) : roundDouble n = n := by
  have hlog : n.log2 + 1 - 53 = 0 := by
    rcases Nat.eq_zero_or_pos n with rfl | hpos
    · rfl
    · have hlt : n.log2 < 53 := (Nat.log2_lt (by omega)).mpr h
      omega
  simp only [roundDouble, hlog, Nat.pow_zero, Nat.mod_one]
  rw [if_neg (by omega), Nat.sub_zero]

/-- A number of `k` digits more than 53, with its leading digits and the rest. -/
theorem exists_leading (hle : 2 ^ (k + 52) ≤ n) (hlt : n < 2 ^ (k + 53)) :
    ∃ q r, n = q * 2 ^ k + r ∧ r < 2 ^ k ∧ 2 ^ 52 ≤ q ∧ q < 2 ^ 53 ∧
      roundDouble n =
        if 2 ^ k < 2 * r ∨ 2 * r = 2 ^ k ∧ q % 2 = 1 then q * 2 ^ k + 2 ^ k else q * 2 ^ k := by
  have hunit := Nat.two_pow_pos k
  have hlog : n.log2 + 1 - 53 = k := by
    have hpos := Nat.lt_of_lt_of_le (Nat.two_pow_pos (k + 52)) hle
    have hge : k + 52 ≤ n.log2 := (Nat.le_log2 (by omega)).mpr hle
    have hless : n.log2 < k + 53 := (Nat.log2_lt (by omega)).mpr hlt
    omega
  have hsum : n / 2 ^ k * 2 ^ k + n % 2 ^ k = n := Nat.div_add_mod' n (2 ^ k)
  refine ⟨n / 2 ^ k, n % 2 ^ k, hsum.symm, Nat.mod_lt _ hunit, ?_, ?_, ?_⟩
  · rw [Nat.le_div_iff_mul_le hunit, ← Nat.pow_add, Nat.add_comm]
    exact hle
  · rw [Nat.div_lt_iff_lt_mul hunit, ← Nat.pow_add, Nat.add_comm]
    exact hlt
  · have hlead : n - n % 2 ^ k = n / 2 ^ k * 2 ^ k := by omega
    simp only [roundDouble, hlog, hlead]

/-- A rounded number reaches a power of two from half a unit below it. -/
theorem roundDouble_lt_iff : roundDouble n < 2 ^ (m + 54) ↔ n < 2 ^ (m + 54) - 2 ^ m := by
  have hhalf : 2 ^ (m + 54) = 2 ^ (m + 53) + 2 ^ (m + 53) := by rw [Nat.pow_succ]; omega
  have hunit : 2 ^ m ≤ 2 ^ (m + 53) := Nat.pow_le_pow_right (by decide) (by omega)
  have hpos := Nat.two_pow_pos m
  rcases Nat.lt_or_ge n (2 ^ 53) with hsmall | hlarge
  · have hle : 2 ^ 53 ≤ 2 ^ (m + 53) := Nat.pow_le_pow_right (by decide) (by omega)
    rw [roundDouble_of_lt hsmall]
    omega
  · have hlog : 53 ≤ n.log2 := (Nat.le_log2 (by omega)).mpr hlarge
    obtain ⟨k, hk⟩ : ∃ k, n.log2 = k + 52 := ⟨n.log2 - 52, by omega⟩
    have hle : 2 ^ (k + 52) ≤ n := hk ▸ Nat.log2_self_le (by omega)
    have hlt : n < 2 ^ (k + 53) := by
      have := Nat.lt_log2_self (n := n)
      rwa [hk] at this
    obtain ⟨q, r, hn, hr, hq, hq', hround⟩ := exists_leading hle hlt
    have hlead : 2 ^ (k + 52) = 2 ^ 52 * 2 ^ k := by rw [Nat.pow_add, Nat.mul_comm]
    have hnext : 2 ^ (k + 53) = 2 ^ 53 * 2 ^ k := by rw [Nat.pow_add, Nat.mul_comm]
    have hlow := Nat.mul_le_mul_right (2 ^ k) hq
    have hhigh := Nat.mul_le_mul_right (2 ^ k) (Nat.le_sub_one_of_lt hq')
    rcases Nat.lt_trichotomy k (m + 1) with hless | heq | hmore
    · have hpow : 2 ^ (k + 53) ≤ 2 ^ (m + 53) := Nat.pow_le_pow_right (by decide) (by omega)
      refine iff_of_true ?_ (by omega)
      rw [hround]
      split_ifs <;> omega
    · subst heq
      have hdouble : 2 ^ (m + 1) = 2 * 2 ^ m := Nat.pow_succ'
      have hend : 2 ^ (m + 1 + 53) = 2 ^ (m + 54) := by rw [Nat.add_right_comm]
      rcases Nat.lt_or_ge q (2 ^ 53 - 1) with hsmaller | hlast
      · have hbelow := Nat.mul_le_mul_right (2 ^ (m + 1)) (Nat.le_sub_one_of_lt hsmaller)
        refine iff_of_true ?_ (by omega)
        rw [hround]
        split_ifs <;> omega
      · -- the last significand, which is odd: half a unit more is rounded up
        obtain rfl : q = 2 ^ 53 - 1 := by omega
        rw [hround]
        split_ifs with hup <;> omega
    · have hpow : 2 ^ (m + 54) ≤ 2 ^ (k + 52) := Nat.pow_le_pow_right (by decide) (by omega)
      refine iff_of_false ?_ (by omega)
      rw [hround]
      split_ifs <;> omega

/-- The numbers that are rounded into the doubles, times a power of two. -/
theorem roundDouble_lt_max : roundDouble n < 2 ^ maxExponent * 2 ^ j ↔
    n < (2 ^ maxExponent - 2 ^ (maxExponent - 54)) * 2 ^ j := by
  obtain ⟨m, hm⟩ : ∃ m, maxExponent = m + 54 := ⟨970, by rw [maxExponent]⟩
  have hmax : 2 ^ (m + 54) * 2 ^ j = 2 ^ (m + j + 54) := by
    rw [← Nat.pow_add, Nat.add_right_comm]
  have hhalf : 2 ^ (m + 54 - 54) * 2 ^ j = 2 ^ (m + j) := by
    rw [← Nat.pow_add, Nat.add_sub_cancel]
  rw [hm, Nat.sub_mul, hmax, hhalf]
  exact roundDouble_lt_iff

theorem ceilQuotient_of_lt (h : n < (2 ^ maxExponent - 2 ^ (maxExponent - 54)) * 2 ^ j) :
    ceilQuotient n (2 ^ j) = .ok (roundDouble n ⌈/⌉ 2 ^ j) :=
  if_neg (Nat.not_le.mpr (roundDouble_lt_max.mpr h))

theorem ceilQuotient_of_le (h : (2 ^ maxExponent - 2 ^ (maxExponent - 54)) * 2 ^ j ≤ n) :
    ceilQuotient n (2 ^ j) = .error .overflowError :=
  if_pos (Nat.not_lt.mp fun hlt => absurd (roundDouble_lt_max.mp hlt) (Nat.not_lt.mpr h))

end Division

section Estimates

/-- The estimate of a length, where there is one. -/
def latency (seqLen : ℕ) : ℕ := (estimateMhaLatency seqLen).toOption.getD 0

theorem estimateMhaLatency_ok (h : Divisible seqLen) :
    estimateMhaLatency seqLen = .ok (latency seqLen) := by
  have hchunks : ceilQuotient (E / nTp) dramPageSize = .ok 2 := by decide +kernel
  have htiles : ceilQuotient dk dramBanksPerCh = .ok 4 := by decide +kernel
  have hbanks : ceilQuotient seqLen dramBanksPerCh = .ok _ := ceilQuotient_of_lt (j := 5) h
  have hpages : ceilQuotient seqLen dramPageSize = .ok _ :=
    ceilQuotient_of_lt (j := 9) (Nat.lt_of_lt_of_le h (Nat.mul_le_mul_left _ (by decide)))
  have hok : ∃ n, estimateMhaLatency seqLen = .ok n := by
    rw [estimateMhaLatency, hchunks, hbanks, hpages, htiles]
    exact ⟨_, rfl⟩
  obtain ⟨n, hn⟩ := hok
  rw [latency, hn]
  rfl

theorem estimateMhaLatency_overflow (h : ¬ Divisible seqLen) :
    estimateMhaLatency seqLen = .error .overflowError := by
  have hchunks : ceilQuotient (E / nTp) dramPageSize = .ok 2 := by decide +kernel
  have hbanks : ceilQuotient seqLen dramBanksPerCh = .error .overflowError :=
    ceilQuotient_of_le (j := 5) (Nat.not_lt.mp h)
  rw [estimateMhaLatency, hchunks, hbanks]
  rfl

/-- The sum of the estimates of some lengths. -/
def load (seqLens : List ℕ) : ℕ := (seqLens.map latency).sum

theorem sumLoad_ok (h : ∀ x ∈ xs, Divisible x) : sumLoad xs = .ok (load xs) := by
  have hfold : ∀ acc, xs.foldlM (fun acc seqLen => do
      let latency ← estimateMhaLatency seqLen
      .ok (acc + latency)) acc = .ok (acc + load xs) := by
    induction xs with
    | nil => exact fun acc => rfl
    | cons x xs ih =>
      intro acc
      have hx := estimateMhaLatency_ok (h x List.mem_cons_self)
      rw [List.foldlM_cons, hx]
      refine (ih (fun y hy => h y (List.mem_cons_of_mem x hy)) (acc + latency x)).trans ?_
      rw [load, load, List.map_cons, List.sum_cons, Nat.add_assoc]
  exact (hfold 0).trans (by rw [Nat.zero_add])

theorem load_append : load (xs ++ [element]) = load xs + latency element := by
  rw [load, load, List.map_append, List.sum_append, List.map_singleton, List.sum_singleton]

end Estimates

theorem minSumIndex_ok (loads : List ℕ) (hk : 1 ≤ loads.length) :
    ∃ i, minSumIndex loads loads.length = .ok i ∧
      ∃ hi : i < loads.length, ∀ y ∈ loads, loads[i] ≤ y := by
  rw [minSumIndex, if_neg (Nat.lt_irrefl _)]
  cases hmin : (List.range loads.length).argmin fun i => loads.getD i 0 with
  | none =>
    rw [List.argmin_eq_none, List.range_eq_nil] at hmin
    omega
  | some i => exact ⟨i, rfl, getElem_argmin hmin⟩

/-- The loads that are kept are those of the lists. -/
theorem map_load_modify {i : ℕ} : (channels.modify i (· ++ [element])).map load =
    (channels.map load).modify i (· + latency element) := by
  apply List.ext_getElem (by simp)
  intro j hj hj'
  rw [List.getElem_map, List.getElem_modify, List.getElem_modify, List.getElem_map]
  split_ifs
  · exact load_append
  · rfl

/-- One turn of the loop: the request goes to a channel with the least load. -/
theorem distribute_ok (hk : 1 ≤ channels.length) (h : Within bound (channels.map load))
    (hdivisible : Divisible element) (helement : latency element ≤ bound) :
    ∃ i < channels.length,
      distribute channels.length (channels, channels.map load) element =
        .ok (channels.modify i (· ++ [element]), (channels.modify i (· ++ [element])).map load) ∧
      Within bound ((channels.modify i (· ++ [element])).map load) := by
  have hlength : (channels.map load).length = channels.length := List.length_map load
  obtain ⟨i, hmin, hi, hleast⟩ := minSumIndex_ok (channels.map load) (by omega)
  rw [hlength] at hmin
  refine ⟨i, by omega, ?_, ?_⟩
  · rw [distribute, hmin, estimateMhaLatency_ok hdivisible, map_load_modify]
    rfl
  · rw [map_load_modify]
    exact within_raise h hi hleast helement

/-- The loop: what it puts behind the lists are the requests it goes through. -/
theorem foldlM_distribute (hk : 1 ≤ channels.length) (h : Within bound (channels.map load))
    (hxs : ∀ x ∈ xs, Divisible x ∧ latency x ≤ bound) :
    ∃ appended : List (List ℕ), appended.length = channels.length ∧ appended.flatten.Perm xs ∧
      xs.foldlM (distribute channels.length) (channels, channels.map load) =
        .ok (List.zipWith (· ++ ·) channels appended,
          (List.zipWith (· ++ ·) channels appended).map load) ∧
      Within bound ((List.zipWith (· ++ ·) channels appended).map load) := by
  induction xs generalizing channels with
  | nil =>
    have hnone : List.zipWith (· ++ ·) channels (List.replicate channels.length []) = channels := by
      apply List.ext_getElem (by simp)
      intro j hj hj'
      simp
    refine ⟨List.replicate channels.length [], List.length_replicate, ?_, ?_, ?_⟩
    · rw [List.flatten_replicate_nil]
    · rw [hnone]
      rfl
    · rwa [hnone]
  | cons x xs ih =>
    obtain ⟨hdivisible, hle⟩ := hxs x List.mem_cons_self
    obtain ⟨i, hi, hstep, hwithin⟩ := distribute_ok hk h hdivisible hle
    have hlength : (channels.modify i (· ++ [x])).length = channels.length := List.length_modify _ _ _
    have hk' : 1 ≤ (channels.modify i (· ++ [x])).length := le_of_le_of_eq hk hlength.symm
    obtain ⟨appended, happended, hperm, hrest, hbound⟩ := ih hk' hwithin
      fun y hy => hxs y (List.mem_cons_of_mem x hy)
    rw [hlength] at happended hrest
    rw [zipWith_modify] at hrest hbound
    refine ⟨appended.modify i (x :: ·), by rw [List.length_modify, happended], ?_, ?_, hbound⟩
    · exact (flatten_modify (by rwa [happended])).trans (hperm.cons x)
    · rw [List.foldlM_cons]
      exact bind_ok.mpr ⟨_, hstep, hrest⟩

/-- Every request is put behind the list of one of the channels, and the loads come no further apart
than they were, or than the estimate of a request, where the quotients of all lengths are doubles. -/
theorem distributeRequests_balances (newSeqLens : List ℕ) (channelsSeqlen : List (List ℕ)) (k : ℕ)
    (hk : 1 ≤ k) (hlength : channelsSeqlen.length = k) (hnew : ∀ x ∈ newSeqLens, Divisible x)
    (hold : ∀ xs ∈ channelsSeqlen, ∀ x ∈ xs, Divisible x) :
    ∃ result, distributeRequests newSeqLens channelsSeqlen k = .ok result ∧
      (∃ appended : List (List ℕ), appended.length = k ∧
        result = List.zipWith (· ++ ·) channelsSeqlen appended ∧
        appended.flatten.Perm newSeqLens) ∧
      ∃ oldLoads loads estimates, channelsSeqlen.mapM sumLoad = .ok oldLoads ∧
        result.mapM sumLoad = .ok loads ∧
        newSeqLens.mapM estimateMhaLatency = .ok estimates ∧
        spread loads ≤ max (spread oldLoads) (estimates.max?.getD 0) := by
  subst hlength
  have hsorted := List.mergeSort_perm newSeqLens fun a b => decide (b ≤ a)
  have hloads : channelsSeqlen.mapM sumLoad = .ok (channelsSeqlen.map load) :=
    mapM_ok fun xs hxs => sumLoad_ok (hold xs hxs)
  have hestimates : newSeqLens.mapM estimateMhaLatency = .ok (newSeqLens.map latency) :=
    mapM_ok fun x hx => estimateMhaLatency_ok (hnew x hx)
  have hwithin : Within (max (spread (channelsSeqlen.map load))
      ((newSeqLens.map latency).max?.getD 0)) (channelsSeqlen.map load) :=
    within_le (within_iff.mpr (Nat.le_refl _)) (Nat.le_max_left _ _)
  have hbounds : ∀ x ∈ newSeqLens.mergeSort fun a b => decide (b ≤ a), Divisible x ∧
      latency x ≤ max (spread (channelsSeqlen.map load)) ((newSeqLens.map latency).max?.getD 0) := by
    intro x hx
    have hmem := hsorted.mem_iff.mp hx
    refine ⟨hnew x hmem, Nat.le_trans ?_ (Nat.le_max_right _ _)⟩
    exact List.le_max?_getD_of_mem (List.mem_map_of_mem (f := latency) hmem)
  obtain ⟨appended, happended, hperm, hrun, hspread⟩ := foldlM_distribute hk hwithin hbounds
  have hperm' := hperm.trans hsorted
  refine ⟨List.zipWith (· ++ ·) channelsSeqlen appended, ?_, ⟨appended, happended, rfl, hperm'⟩,
    _, _, _, hloads, ?_, hestimates, within_iff.mp hspread⟩
  · rw [distributeRequests, hloads]
    refine bind_ok.mpr ⟨_, rfl, ?_⟩
    rw [hrun]
    rfl
  · -- the new lists are made of old and new lengths
    refine mapM_ok fun xs hxs => sumLoad_ok fun x hx => ?_
    obtain ⟨j, hj, rfl⟩ := List.mem_iff_getElem.mp hxs
    rw [List.length_zipWith] at hj
    rw [List.getElem_zipWith] at hx
    rcases List.mem_append.mp hx with hx | hx
    · exact hold _ (List.getElem_mem _) x hx
    · exact hnew x (hperm'.mem_iff.mp (List.mem_flatten.mpr ⟨_, List.getElem_mem _, hx⟩))

/-- The requests and the channels that the script itself distributes. -/
theorem distributeRequests_balances_usage :
    ∃ result, distributeRequests [5, 8, 3, 2, 7] [[4, 6], [8, 1], [3, 9]] 3 = .ok result ∧
      ∃ oldLoads loads estimates,
        [[4, 6], [8, 1], [3, 9]].mapM sumLoad = .ok oldLoads ∧ result.mapM sumLoad = .ok loads ∧
        [5, 8, 3, 2, 7].mapM estimateMhaLatency = .ok estimates ∧
        spread loads ≤ max (spread oldLoads) (estimates.max?.getD 0) := by
  have hsmall : ∀ x ≤ 9, Divisible x := by
    unfold Divisible
    decide +kernel
  have hnew : ∀ x ∈ [5, 8, 3, 2, 7], Divisible x := by
    intro x hx
    refine hsmall x ?_
    revert x
    decide
  have hold : ∀ xs ∈ [[4, 6], [8, 1], [3, 9]], ∀ x ∈ xs, Divisible x := by
    intro xs hxs x hx
    refine hsmall x ?_
    revert xs x
    decide
  obtain ⟨result, hok, -, hspread⟩ :=
    distributeRequests_balances [5, 8, 3, 2, 7] [[4, 6], [8, 1], [3, 9]] 3 (by decide) rfl hnew hold
  exact ⟨result, hok, hspread⟩

/-- A length without an estimate stops the loop. -/
theorem distributeRequests_overflow (h : ¬ Divisible element) :
    distributeRequests [element] [[]] 1 = .error .overflowError := by
  have hload : [[]].mapM sumLoad = .ok [0] := rfl
  have hmin : minSumIndex [0] 1 = .ok 0 := rfl
  have hrun : [element].foldlM (distribute 1) ([[]], [0]) = .error .overflowError := by
    rw [List.foldlM_cons, distribute, hmin, estimateMhaLatency_overflow h]
    rfl
  simp only [distributeRequests, hload, List.mergeSort_singleton, bind, Except.bind, hrun]

/-- The quotient of a length of 401 decimal digits is no double. -/
theorem distributeRequests_too_long :
    distributeRequests [10 ^ 400] [[]] 1 = .error .overflowError := by
  apply distributeRequests_overflow
  unfold Divisible
  decide +kernel

end NewPims.ChannelLoadBalancing

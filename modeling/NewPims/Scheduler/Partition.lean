import Mathlib.Data.List.GetD
import NewPims.Scheduler.Requests

/-! How `group_sub_batches` divides the batched requests between the two sub-batches: every
request goes to one of them, and when neither of them stays empty. -/
namespace NewPims

section Table

variable {l : List ℕ} {i j : ℕ}

theorem dpEntry_zero : dpEntry l i 0 = true := by
  cases i <;> rfl

theorem dpEntry_succ (hj : 0 < j) : dpEntry l (i + 1) j = true ↔
    dpEntry l i j = true ∨ l.getD i 0 ≤ j ∧ dpEntry l i (j - l.getD i 0) = true := by
  rw [dpEntry, if_neg (Nat.ne_of_gt hj)]
  simp

/-- A positive sum needs a latency that is not larger. -/
theorem exists_of_dpEntry (h : dpEntry l i j = true) (hj : 0 < j) :
    ∃ k < i, 0 < l.getD k 0 ∧ l.getD k 0 ≤ j := by
  induction i generalizing j with
  | zero =>
    rw [dpEntry] at h
    have := of_decide_eq_true h
    omega
  | succ i ih =>
    rcases (dpEntry_succ hj).mp h with h | ⟨hle, h⟩
    · obtain ⟨k, hk, hpos, hkj⟩ := ih h hj
      exact ⟨k, by omega, hpos, hkj⟩
    · by_cases hzero : l.getD i 0 = 0
      · rw [hzero, Nat.sub_zero] at h
        obtain ⟨k, hk, hpos, hkj⟩ := ih h hj
        exact ⟨k, by omega, hpos, hkj⟩
      · exact ⟨i, Nat.lt_succ_self i, Nat.pos_of_ne_zero hzero, hle⟩

/-- A latency is a sum. -/
theorem dpEntry_of_lt {k : ℕ} (hk : k < i) : dpEntry l i (l.getD k 0) = true := by
  by_cases hzero : l.getD k 0 = 0
  · rw [hzero]
    exact dpEntry_zero
  have hpos := Nat.pos_of_ne_zero hzero
  induction i with
  | zero => exact absurd hk (Nat.not_lt_zero k)
  | succ i ih =>
    rw [dpEntry_succ hpos]
    rcases Nat.lt_succ_iff_lt_or_eq.mp hk with hlt | rfl
    · exact .inl (ih hlt)
    · refine .inr ⟨Nat.le_refl _, ?_⟩
      rw [Nat.sub_self]
      exact dpEntry_zero

theorem maxSum_spec (bound : ℕ) : maxSum l i bound ≤ bound ∧ dpEntry l i (maxSum l i bound) = true ∧
    ∀ j ≤ bound, dpEntry l i j = true → j ≤ maxSum l i bound := by
  induction bound with
  | zero => exact ⟨Nat.le_refl 0, dpEntry_zero, fun j hj _ => hj⟩
  | succ bound ih =>
    obtain ⟨hle, hentry, hmax⟩ := ih
    rw [maxSum]
    split
    · next h => exact ⟨Nat.le_refl _, h, fun j hj _ => hj⟩
    · next h =>
      refine ⟨by omega, hentry, fun j hj hj' => ?_⟩
      rcases Nat.le_succ_iff.mp hj with hj | rfl
      · exact hmax j hj hj'
      · exact absurd hj' h

end Table

section Lists

variable {l : List ℕ} {i j : ℕ}

theorem reconstruct_perm :
    ((reconstruct l i j).1 ++ (reconstruct l i j).2).Perm (List.range i) := by
  induction i generalizing j with
  | zero => exact List.Perm.refl _
  | succ i ih =>
    rw [reconstruct, List.range_succ]
    split
    · exact ((List.Perm.cons i ih).trans (List.perm_append_singleton i _).symm)
    · exact (List.perm_middle.trans (List.Perm.cons i ih)).trans
        (List.perm_append_singleton i _).symm

theorem reconstruct_zero : (reconstruct l i 0).1 = [] := by
  induction i with
  | zero => rfl
  | succ i ih =>
    rw [reconstruct, if_neg (by simp)]
    exact ih

/-- The latencies of the first list add up to the sum that was asked for. -/
theorem reconstruct_sum (h : dpEntry l i j = true) :
    ((reconstruct l i j).1.map (l.getD · 0)).sum = j := by
  induction i generalizing j with
  | zero =>
    rw [dpEntry] at h
    exact (of_decide_eq_true h).symm
  | succ i ih =>
    rw [reconstruct]
    split
    · next hcond =>
      rcases (dpEntry_succ hcond.1).mp h with hi | ⟨hle, hrest⟩
      · exact absurd hi hcond.2.2
      · rw [List.map_cons, List.sum_cons, ih hrest]
        exact Nat.add_sub_cancel' hle
    · next hcond =>
      refine ih ?_
      rcases Nat.eq_zero_or_pos j with rfl | hj
      · exact dpEntry_zero
      · by_contra hi
        exact hcond ⟨hj, h, hi⟩

theorem map_getD_range (l : List ℕ) : (List.range l.length).map (l.getD · 0) = l := by
  refine List.ext_getElem (by simp) fun k _ hk => ?_
  rw [List.getElem_map, List.getElem_range, List.getD_eq_getElem l 0 hk]

theorem partitionListsDp_perm :
    ((partitionListsDp l).1 ++ (partitionListsDp l).2).Perm (List.range l.length) :=
  reconstruct_perm

theorem bmod_int {n : ℕ} (h : n < 2 ^ 31) : (n : ℤ).bmod (2 ^ 32) = n :=
  Int.bmod_eq_of_le (by omega) (by omega)

theorem bmod_le (n : ℕ) : (n : ℤ).bmod (2 ^ 32) ≤ n := by
  rw [Int.bmod_def]
  split <;> omega

/-- A total in the range of an `int` is halved. -/
theorem targetSum_eq (h : l.sum < 2 ^ 31) : targetSum l = l.sum / 2 := by
  unfold targetSum totalSum
  simp only [bmod_int h]
  rfl

theorem targetSum_le : targetSum l ≤ l.sum / 2 := by
  have hhalf : (totalSum l).tdiv 2 ≤ (l.sum : ℤ).tdiv 2 :=
    Int.tdiv_le_tdiv (by decide) (bmod_le _)
  exact Int.toNat_le.mpr hhalf

/-- The first list stays empty where every positive latency exceeds half of the total. -/
theorem partitionListsDp_fst : (partitionListsDp l).1 ≠ [] ↔ ∃ x ∈ l, 0 < x ∧ x ≤ targetSum l := by
  obtain ⟨hle, hentry, hmax⟩ := maxSum_spec (l := l) (i := l.length) (targetSum l)
  have hsum := reconstruct_sum hentry
  constructor
  · intro hne
    have hpos : 0 < maxSum l l.length (targetSum l) := by
      refine Nat.pos_of_ne_zero fun hzero => hne ?_
      rw [partitionListsDp, hzero]
      exact reconstruct_zero
    obtain ⟨k, hk, hkpos, hkle⟩ := exists_of_dpEntry hentry hpos
    rw [List.getD_eq_getElem l 0 hk] at hkpos hkle
    exact ⟨l[k], List.getElem_mem hk, hkpos, by omega⟩
  · rintro ⟨x, hx, hpos, hhalf⟩ hnil
    obtain ⟨k, hk, rfl⟩ := List.getElem_of_mem hx
    have hentryx := dpEntry_of_lt (l := l) hk
    rw [List.getD_eq_getElem l 0 hk] at hentryx
    have := hmax _ hhalf hentryx
    rw [partitionListsDp] at hnil
    rw [hnil] at hsum
    simp only [List.map_nil, List.sum_nil] at hsum
    omega

/-- The second list takes a lone request. -/
theorem partitionListsDp_snd (h : (partitionListsDp l).2 = []) : l = [] := by
  obtain ⟨hle, hentry, -⟩ := maxSum_spec (l := l) (i := l.length) (targetSum l)
  have hsum := reconstruct_sum hentry
  have hperm := partitionListsDp_perm (l := l)
  rw [h, List.append_nil] at hperm
  have htotal : ((partitionListsDp l).1.map (l.getD · 0)).sum = l.sum := by
    rw [(hperm.map (l.getD · 0)).sum_nat, map_getD_range]
  have hzero : maxSum l l.length (targetSum l) = 0 := by
    have hhalf := targetSum_le (l := l)
    rw [partitionListsDp] at htotal
    omega
  have hnil : (partitionListsDp l).1 = [] := by
    rw [partitionListsDp, hzero]
    exact reconstruct_zero
  rw [hnil] at hperm
  exact List.eq_nil_of_length_eq_zero (by simpa using hperm.length_eq.symm)

end Lists

namespace RequestState

section Groups

variable {config : SimulationConfig} {s t : RequestState} {channels : List ℕ} {turn : Bool}

/-- The state with more requests in the two sub-batches. -/
def join (s : RequestState) (lists : List ℕ × List ℕ) : RequestState :=
  { s with breq1 := s.breq1 ++ lists.1, breq2 := s.breq2 ++ lists.2 }

theorem join_join (s : RequestState) (xs ys : List ℕ × List ℕ) :
    (s.join xs).join ys = s.join (xs.1 ++ ys.1, xs.2 ++ ys.2) := by
  simp only [join, List.append_assoc]

/-- The two parts of a division contain every request once. -/
def Divided (reqs : List ℕ) (lists : List ℕ × List ℕ) : Prop := (lists.1 ++ lists.2).Perm reqs

theorem divided_append {reqs reqs' : List ℕ} {lists lists' : List ℕ × List ℕ}
    (h : Divided reqs lists) (h' : Divided reqs' lists') :
    Divided (reqs ++ reqs') (lists.1 ++ lists'.1, lists.2 ++ lists'.2) := by
  unfold Divided at h h' ⊢
  rw [List.perm_iff_count] at h h' ⊢
  intro r
  have hr := h r
  have hr' := h' r
  simp only [List.count_append] at hr hr' ⊢
  omega

theorem groupDp_spec {reqQueue latencyQueue : List ℕ}
    (hlength : reqQueue.length = latencyQueue.length) :
    ∃ lists, s.groupDp reqQueue latencyQueue = s.join lists ∧ Divided reqQueue lists ∧
      (lists.1 ≠ [] ↔ ∃ x ∈ latencyQueue, 0 < x ∧ x ≤ targetSum latencyQueue) ∧
      (lists.2 = [] → reqQueue = []) := by
  refine ⟨((partitionListsDp latencyQueue).1.map fun i => reqQueue.getD i 0,
    (partitionListsDp latencyQueue).2.map fun i => reqQueue.getD i 0), rfl, ?_, ?_, ?_⟩
  · have hperm := (partitionListsDp_perm (l := latencyQueue)).map (reqQueue.getD · 0)
    rw [← hlength, map_getD_range, List.map_append] at hperm
    exact hperm
  · rw [← partitionListsDp_fst]
    exact not_congr List.map_eq_nil_iff
  · intro h
    have := partitionListsDp_snd (List.map_eq_nil_iff.mp h)
    rw [this] at hlength
    exact List.eq_nil_of_length_eq_zero hlength

theorem groupSimple_spec (s : RequestState) (turn : Bool) (reqQueue : List ℕ) :
    ∃ lists, (s.groupSimple turn reqQueue).1 = s.join lists ∧ Divided reqQueue lists ∧
      lists.1.length = (reqQueue.length + turn.toNat) / 2 ∧
      (s.groupSimple turn reqQueue).2.toNat = (reqQueue.length + turn.toNat) % 2 := by
  let sb1Size := if reqQueue.length % 2 ≠ 0 ∧ turn then ceilDiv reqQueue.length 2
    else reqQueue.length / 2
  refine ⟨(reqQueue.take sb1Size, reqQueue.drop sb1Size), rfl, ?_, ?_, ?_⟩
  · rw [Divided, List.take_append_drop]
  · rw [List.length_take]
    rcases Nat.mod_two_eq_zero_or_one reqQueue.length with hmod | hmod <;> cases turn <;>
      simp [sb1Size, ceilDiv, hmod] <;> omega
  · rw [groupSimple]
    rcases Nat.mod_two_eq_zero_or_one reqQueue.length with hmod | hmod <;> cases turn <;>
      simp [hmod] <;> omega

/-- Where the loop over the channels leaves both parts filled. -/
def Filled (config : SimulationConfig) (queues latencies : ℕ → List ℕ) (channels : List ℕ) : Prop :=
  if config.partitionAlgSimple then 2 ≤ (channels.flatMap queues).length
  else ∃ ch ∈ channels, ∃ x ∈ latencies ch, 0 < x ∧ x ≤ targetSum (latencies ch)

theorem filled_simple {queues latencies : ℕ → List ℕ} (h : config.partitionAlgSimple = true) :
    Filled config queues latencies channels ↔ 2 ≤ (channels.flatMap queues).length := by
  rw [Filled, if_pos h]

/-- Of an odd number of requests the simple partition gives the first sub-batch one more, if it is
its turn. -/
theorem groupLoop_simple (hsimple : config.partitionAlgSimple = true)
    (h : groupLoop config channels turn s = .ok t) :
    ∃ lists, t = s.join lists ∧ Divided (channels.flatMap s.activeRequestQueues) lists ∧
      lists.1.length = ((channels.flatMap s.activeRequestQueues).length + turn.toNat) / 2 := by
  induction channels generalizing turn s with
  | nil =>
    cases h
    refine ⟨([], []), ?_, List.Perm.refl _, ?_⟩
    · simp only [join, List.append_nil]
    · cases turn <;> simp
  | cons ch channels ih =>
    rw [groupLoop] at h
    dsimp only at h
    split at h
    · cases h
    · obtain ⟨lists, hjoin, hdivided, hlength, hturn⟩ :=
        groupSimple_spec s turn (s.activeRequestQueues ch)
      rw [hjoin] at h
      obtain ⟨rest, rfl, hdivided', hlength'⟩ := ih h
      refine ⟨_, join_join s lists rest, divided_append hdivided hdivided', ?_⟩
      rw [List.flatMap_cons, List.length_append, List.length_append, hlength, hlength', hturn]
      simp only [join]
      omega

theorem groupLoop_dp (hdp : config.partitionAlgSimple = false)
    (h : groupLoop config channels turn s = .ok t) :
    ∃ lists, t = s.join lists ∧ Divided (channels.flatMap s.activeRequestQueues) lists ∧
      (lists.1 ≠ [] ↔ Filled config s.activeRequestQueues s.activeRequestLatencyQueues channels) ∧
      (lists.2 = [] → channels.flatMap s.activeRequestQueues = []) := by
  induction channels generalizing turn s with
  | nil =>
    cases h
    refine ⟨([], []), ?_, List.Perm.refl _, ?_, fun _ => rfl⟩
    · simp only [join, List.append_nil]
    · simp [Filled, hdp]
  | cons ch channels ih =>
    rw [groupLoop] at h
    dsimp only at h
    split at h
    · cases h
    · next hlength =>
      rw [hdp, if_neg Bool.false_ne_true] at h
      split at h
      · cases h
      obtain ⟨lists, hjoin, hdivided, hfirst, hsecond⟩ :=
        groupDp_spec (s := s) (not_not.mp hlength)
      rw [hjoin] at h
      obtain ⟨rest, rfl, hdivided', hfirst', hsecond'⟩ := ih h
      refine ⟨_, join_join s lists rest, divided_append hdivided hdivided', ?_, ?_⟩
      · simp only [Filled, hdp, Bool.false_eq_true, if_false, List.mem_cons, exists_eq_or_imp]
          at hfirst' ⊢
        rw [← hfirst, ne_eq, List.append_eq_nil_iff, not_and_or]
        exact or_congr_right hfirst'
      · intro hnil
        obtain ⟨hnil1, hnil2⟩ := List.append_eq_nil_iff.mp hnil
        rw [List.flatMap_cons, hsecond hnil1]
        exact hsecond' hnil2

/-- The part that gets the request of a channel with one only, and the part that does not. -/
def lone (config : SimulationConfig) (lists : List ℕ × List ℕ) : List ℕ :=
  if config.partitionAlgSimple then lists.1 else lists.2

def other (config : SimulationConfig) (lists : List ℕ × List ℕ) : List ℕ :=
  if config.partitionAlgSimple then lists.2 else lists.1

theorem groupLoop_spec (h : groupLoop config channels true s = .ok t) :
    ∃ lists, t = s.join lists ∧ Divided (channels.flatMap s.activeRequestQueues) lists ∧
      (lone config lists = [] → channels.flatMap s.activeRequestQueues = []) ∧
      (other config lists ≠ [] ↔
        Filled config s.activeRequestQueues s.activeRequestLatencyQueues channels) := by
  cases hsimple : config.partitionAlgSimple with
  | true =>
    obtain ⟨lists, rfl, hdivided, hlength⟩ := groupLoop_simple hsimple h
    have htotal := hdivided.length_eq
    rw [List.length_append] at htotal
    rw [Bool.toNat_true] at hlength
    refine ⟨lists, rfl, hdivided, ?_, ?_⟩
    · intro hnil
      rw [lone, if_pos hsimple] at hnil
      rw [hnil, List.length_nil] at hlength
      exact List.eq_nil_of_length_eq_zero (by omega)
    · rw [other, if_pos hsimple, filled_simple hsimple, ← List.length_pos_iff]
      omega
  | false =>
    obtain ⟨lists, rfl, hdivided, hfirst, hsecond⟩ := groupLoop_dp hsimple h
    refine ⟨lists, rfl, hdivided, ?_, ?_⟩
    · rw [lone, hsimple, if_neg Bool.false_ne_true]
      exact hsecond
    · rw [other, hsimple, if_neg Bool.false_ne_true]
      exact hfirst

/-- Every total that the dynamic program halves leaves its matrix a column. -/
def Summed (config : SimulationConfig) (latencies : ℕ → List ℕ) (channels : List ℕ) : Prop :=
  config.partitionAlgSimple = false → ∀ ch ∈ channels, -1 ≤ totalSum (latencies ch)

theorem groupLoop_summed (h : groupLoop config channels turn s = .ok t) :
    Summed config s.activeRequestLatencyQueues channels := by
  intro hdp
  induction channels generalizing turn s with
  | nil => nofun
  | cons ch channels ih =>
    rw [groupLoop] at h
    dsimp only at h
    rw [hdp, if_neg Bool.false_ne_true] at h
    split_ifs at h with hlength hsum
    have hrest := ih h
    exact List.forall_mem_cons.mpr ⟨Int.not_lt.mp hsum, hrest⟩

theorem exists_groupLoop (h : ∀ ch ∈ channels,
    (s.activeRequestQueues ch).length = (s.activeRequestLatencyQueues ch).length)
    (hsummed : Summed config s.activeRequestLatencyQueues channels) :
    ∃ t, groupLoop config channels turn s = .ok t := by
  induction channels generalizing turn s with
  | nil => exact ⟨s, rfl⟩
  | cons ch channels ih =>
    rw [groupLoop]
    dsimp only
    rw [if_neg (not_not.mpr (h ch List.mem_cons_self))]
    have hrest : ∀ c ∈ channels,
        (s.activeRequestQueues c).length = (s.activeRequestLatencyQueues c).length :=
      fun c hc => h c (List.mem_cons_of_mem _ hc)
    have hrestSummed : Summed config s.activeRequestLatencyQueues channels :=
      fun hdp c hc => hsummed hdp c (List.mem_cons_of_mem _ hc)
    split_ifs with hsimple hsum
    · exact ih hrest hrestSummed
    · have hdp : config.partitionAlgSimple = false := Bool.eq_false_iff.mpr hsimple
      exact absurd hsum (Int.not_lt.mpr (hsummed hdp ch List.mem_cons_self))
    · exact ih hrest hrestSummed

end Groups

end RequestState

end NewPims

import NewPims.KVCacheAlloc
import NewPims.Lib.Bank
import NewPims.Scheduler.Validity

/-! The key and value tensors of the requests. The loop of `allocate_requests` is repeated with
them; what it does to the requests is the same, and a session with tensors is a session. -/
namespace NewPims

open Scheduler (Call Session)

/-- The allocator, and the tensors of the requests by position. -/
structure KVCache where
  alloc : KVCacheAlloc
  kCache : ℕ → List PIMTensor := fun _ => []
  vCache : ℕ → List PIMTensor := fun _ => []

namespace KVCache

section Allocation

variable (config : SimulationConfig)

/-- The tensors of a request that is admitted. -/
def allocate (kv : KVCache) (r : ℕ) (x : InferRequest) : Except Fault KVCache := do
  let nh := config.modelNHead / config.nTp
  let dk := config.modelNEmbd / config.modelNHead
  let (k, alloc) ← PIMTensor.new config x.channel [nh, dk, x.inputSize] .KEY kv.alloc
  let (v, alloc) ← PIMTensor.new config x.channel [nh, x.inputSize, dk] .VALUE alloc
  return {
    alloc
    kCache := Function.update kv.kCache r (kv.kCache r ++ [k])
    vCache := Function.update kv.vCache r (kv.vCache r ++ [v]) }

/-- The loop of `allocate_requests` with the tensors. -/
def allocateLoop : List ℕ → ℕ → RequestState → KVCache → Except Fault (RequestState × KVCache)
  | [], _, s, kv => .ok (s, kv)
  | r :: rest, batchSize, s, kv =>
    let x := s.request r
    if batchSize = RequestState.maxBatchSize then .ok (s, kv)
    else if ¬ x.generated < x.outputSize then .error .requestDone
    else if x.isInitiated then allocateLoop rest (batchSize + 1) s kv
    else if ¬ x.channel < config.dramChannels then .error .channelRange
    else if RequestState.maxActiveReqs ≤ s.activeReqs then allocateLoop rest batchSize s kv
    else
      match kv.allocate config r x with
      | .ok kv => allocateLoop rest (batchSize + 1) (s.activate config r) kv
      | .error f => .error f

variable {config} {kv kv' : KVCache} {s t : RequestState} {rest rs : List ℕ} {b r : ℕ}
  {x : InferRequest}

/-- Without the tensors it is the loop of the requests. -/
theorem allocateLoop_requests (h : allocateLoop config rest b s kv = .ok (t, kv')) :
    RequestState.allocateLoop config rest b s = .ok t := by
  induction rest generalizing b s kv with
  | nil =>
    cases h
    rfl
  | cons r rest ih =>
    rw [allocateLoop] at h
    rw [RequestState.allocateLoop]
    split_ifs at h ⊢
    · cases h
      rfl
    · exact ih h
    · exact ih h
    · split at h
      · exact ih h
      · cases h

/-- The rows of a channel that the tensors of a request hold. -/
def rowsOf (kv : KVCache) (r ch : ℕ) : List ℕ :=
  ((kv.kCache r ++ kv.vCache r).filter (·.ch = ch)).flatMap (·.rows)

/-- The rows of a channel that are free or held by one of the requests. -/
def account (kv : KVCache) (rs : List ℕ) (ch : ℕ) : List ℕ :=
  kv.alloc.rows ch ++ Bank.contents rs (kv.rowsOf · ch)

theorem rowsOf_allocate {k v : PIMTensor} {ks vs : List PIMTensor} {ch : ℕ} :
    (((ks ++ [k] ++ (vs ++ [v])).filter (·.ch = ch)).flatMap (·.rows)).Perm
      (((ks ++ vs).filter (·.ch = ch)).flatMap (·.rows) ++
        ([k, v].filter (·.ch = ch)).flatMap (·.rows)) := by
  rw [← List.flatMap_append, ← List.filter_append]
  refine List.Perm.flatMap_right _ (List.Perm.filter _ ?_)
  rw [List.append_assoc, List.append_assoc, List.singleton_append]
  refine List.Perm.append_left ks ?_
  exact List.perm_middle.symm

/-- The rows of the new tensors go from the free rows to the request. -/
theorem account_allocate (h : kv.allocate config r x = .ok kv') (hnodup : rs.Nodup) (hr : r ∈ rs)
    (ch : ℕ) : (kv'.account rs ch).Perm (kv.account rs ch) ∧
      ∀ q, q ≠ r → kv'.kCache q = kv.kCache q ∧ kv'.vCache q = kv.vCache q := by
  obtain ⟨⟨k, alloc⟩, hk, h⟩ := Transition.bind_ok.mp h
  obtain ⟨⟨v, alloc'⟩, hv, h⟩ := Transition.bind_ok.mp h
  cases h
  obtain ⟨hkch, hkrows, hkframe⟩ := KVCacheAlloc.pimTensor_ok hk
  obtain ⟨hvch, hvrows, hvframe⟩ := KVCacheAlloc.pimTensor_ok hv
  let kv' : KVCache := {
    alloc := alloc'
    kCache := Function.update kv.kCache r (kv.kCache r ++ [k])
    vCache := Function.update kv.vCache r (kv.vCache r ++ [v]) }
  have hframe : ∀ q, q ≠ r → kv'.kCache q = kv.kCache q ∧ kv'.vCache q = kv.vCache q :=
    fun q hq => ⟨Function.update_of_ne hq _ _, Function.update_of_ne hq _ _⟩
  refine ⟨?_, hframe⟩
  let taken := ([k, v].filter (·.ch = ch)).flatMap (·.rows)
  have hrows : kv.alloc.rows ch = taken ++ alloc'.rows ch := by
    by_cases hch : x.channel = ch
    · have htaken : taken = k.rows ++ v.rows := by simp [taken, hkch, hvch, hch]
      rw [htaken, ← hch, hkrows, hvrows, List.append_assoc]
    · have htaken : taken = [] := by simp [taken, hkch, hvch, hch]
      rw [htaken, List.nil_append, hvframe ch (Ne.symm hch), hkframe ch (Ne.symm hch)]
  have hself : (kv'.rowsOf r ch).Perm (kv.rowsOf r ch ++ taken) := by
    dsimp only [rowsOf, kv']
    rw [Function.update_self, Function.update_self]
    exact rowsOf_allocate
  have hother : ∀ q, q ≠ r → kv'.rowsOf q ch = kv.rowsOf q ch := fun q hq => by
    rw [rowsOf, rowsOf, (hframe q hq).1, (hframe q hq).2]
  have hheld : (Bank.contents rs (kv'.rowsOf · ch)).Perm
      (Bank.contents rs (kv.rowsOf · ch) ++ taken) :=
    Bank.perm_contents_put hnodup hr hself hother
  calc (alloc'.rows ch ++ Bank.contents rs (kv'.rowsOf · ch)).Perm
        (alloc'.rows ch ++ (Bank.contents rs (kv.rowsOf · ch) ++ taken)) := hheld.append_left _
    List.Perm _ (alloc'.rows ch ++ (taken ++ Bank.contents rs (kv.rowsOf · ch))) :=
      List.perm_append_comm.append_left _
    List.Perm _ (alloc'.rows ch ++ taken ++ Bank.contents rs (kv.rowsOf · ch)) := by
      rw [List.append_assoc]
    List.Perm _ (taken ++ alloc'.rows ch ++ Bank.contents rs (kv.rowsOf · ch)) :=
      List.perm_append_comm.append_right _
    _ = kv.account rs ch := by rw [account, hrows]

/-- The loop moves rows to requests that it visits. -/
theorem account_allocateLoop (h : allocateLoop config rest b s kv = .ok (t, kv'))
    (hnodup : rs.Nodup) (hrest : ∀ r ∈ rest, r ∈ rs) :
    (∀ ch, (kv'.account rs ch).Perm (kv.account rs ch)) ∧
      ∀ q, q ∉ rs → kv'.kCache q = kv.kCache q ∧ kv'.vCache q = kv.vCache q := by
  induction rest generalizing b s kv with
  | nil =>
    cases h
    exact ⟨fun _ => .refl _, fun _ _ => ⟨rfl, rfl⟩⟩
  | cons r rest ih =>
    obtain ⟨hr, hrest⟩ := List.forall_mem_cons.mp hrest
    rw [allocateLoop] at h
    split_ifs at h
    · cases h
      exact ⟨fun _ => .refl _, fun _ _ => ⟨rfl, rfl⟩⟩
    · exact ih h hrest
    · exact ih h hrest
    · split at h
      · next kv₁ hkv₁ =>
        obtain ⟨haccount, hframe⟩ := ih h hrest
        refine ⟨fun ch => (haccount ch).trans (account_allocate hkv₁ hnodup hr ch).1, ?_⟩
        intro q hq
        have hqr : q ≠ r := fun heq => hq (heq ▸ hr)
        obtain ⟨hk, hv⟩ := (account_allocate hkv₁ hnodup hr 0).2 q hqr
        exact ⟨(hframe q hq).1.trans hk, (hframe q hq).2.trans hv⟩
      · cases h

end Allocation

section Room

variable {config : SimulationConfig} {kv kv' : KVCache} {s t : RequestState} {rs rest : List ℕ}
  {b r : ℕ} {x : InferRequest}

/-- The rows that the tensors of a request take. -/
def rowsRequired (config : SimulationConfig) (x : InferRequest) : Except Fault ℕ := do
  let k ← PIMTensor.numRequiredAlloc config x.inputSize .KEY
  let v ← PIMTensor.numRequiredAlloc config x.inputSize .VALUE
  return k + v

def rowsCount (config : SimulationConfig) (x : InferRequest) : ℕ :=
  (rowsRequired config x).toOption.getD 0

/-- The rows of a channel that the tensors of the requests take. -/
def rowsDemand (config : SimulationConfig) (s : RequestState) (rs : List ℕ) (ch : ℕ) : ℕ :=
  ((rs.filter fun r => (s.request r).channel = ch).map fun r =>
    rowsCount config (s.request r)).sum

/-- The free rows of every channel suffice for the tensors of the requests. -/
structure HasRoom (config : SimulationConfig) (kv : KVCache) (s : RequestState) (rs : List ℕ) :
    Prop where
  defined : ∀ r ∈ rs, ∃ n, rowsRequired config (s.request r) = .ok n
  room : ∀ ch, rowsDemand config s rs ch ≤ (kv.alloc.rows ch).length

/-- The tensors of several requests, one after the other. -/
def allocateAll (config : SimulationConfig) (s : RequestState) :
    List ℕ → KVCache → Except Fault KVCache
  | [], kv => .ok kv
  | r :: rs, kv => do
    let kv ← kv.allocate config r (s.request r)
    allocateAll config s rs kv

theorem rowsCount_ok {n : ℕ} (h : rowsRequired config x = .ok n) : rowsCount config x = n := by
  rw [rowsCount, h]
  rfl

theorem rowsDemand_cons {n : ℕ} (h : rowsRequired config (s.request r) = .ok n) (ch : ℕ) :
    rowsDemand config s (r :: rs) ch =
      (if (s.request r).channel = ch then n else 0) + rowsDemand config s rs ch := by
  rw [rowsDemand, List.filter_cons]
  by_cases hch : (s.request r).channel = ch
  · rw [if_pos (decide_eq_true hch), if_pos hch, List.map_cons, List.sum_cons, rowsCount_ok h]
    rfl
  · rw [if_neg (by simpa using hch), if_neg hch, Nat.zero_add]
    rfl

/-- The rows that a request takes come from its channel. -/
theorem allocate_required (h : kv.allocate config r x = .ok kv') :
    ∃ n, rowsRequired config x = .ok n ∧
      ∀ ch, (kv.alloc.rows ch).length =
        (kv'.alloc.rows ch).length + if x.channel = ch then n else 0 := by
  obtain ⟨⟨k, alloc⟩, hk, h⟩ := Transition.bind_ok.mp h
  obtain ⟨⟨v, alloc'⟩, hv, h⟩ := Transition.bind_ok.mp h
  cases h
  obtain ⟨n, hn, hkeys⟩ := KVCacheAlloc.pimTensor_required rfl hk
  obtain ⟨m, hm, hvalues⟩ := KVCacheAlloc.pimTensor_required rfl hv
  obtain ⟨-, hkrows, hkframe⟩ := KVCacheAlloc.pimTensor_ok hk
  obtain ⟨-, hvrows, hvframe⟩ := KVCacheAlloc.pimTensor_ok hv
  refine ⟨n + m, Transition.bind_ok.mpr ⟨n, hn, Transition.bind_ok.mpr ⟨m, hm, rfl⟩⟩, ?_⟩
  intro ch
  dsimp only
  by_cases hch : x.channel = ch
  · subst hch
    rw [if_pos rfl, hkrows, hvrows, List.length_append, List.length_append,
      KVCacheAlloc.allocateRows_length hkeys, KVCacheAlloc.allocateRows_length hvalues]
    omega
  · rw [if_neg hch, hvframe ch (Ne.symm hch), hkframe ch (Ne.symm hch), Nat.add_zero]

/-- The tensors of a request are made exactly if its channel has the rows they take. -/
theorem exists_allocate : (∃ kv', kv.allocate config r x = .ok kv') ↔
    ∃ n, rowsRequired config x = .ok n ∧ n ≤ (kv.alloc.rows x.channel).length := by
  constructor
  · rintro ⟨kv', h⟩
    obtain ⟨n, hn, hlength⟩ := allocate_required h
    have hchannel := hlength x.channel
    rw [if_pos rfl] at hchannel
    exact ⟨n, hn, by omega⟩
  · rintro ⟨_, h, hroom⟩
    obtain ⟨n, hn, h⟩ := Transition.bind_ok.mp h
    obtain ⟨m, hm, h⟩ := Transition.bind_ok.mp h
    cases h
    let nh := config.modelNHead / config.nTp
    let dk := config.modelNEmbd / config.modelNHead
    obtain ⟨k, alloc, hk⟩ : ∃ k alloc, PIMTensor.new config x.channel [nh, dk, x.inputSize] .KEY
        kv.alloc = .ok (k, alloc) :=
      (KVCacheAlloc.exists_pimTensor rfl).mpr ⟨n, hn, Nat.le_trans (Nat.le_add_right n m) hroom⟩
    have hlength : (kv.alloc.rows x.channel).length = n + (alloc.rows x.channel).length := by
      obtain ⟨n', hn', hkeys⟩ := KVCacheAlloc.pimTensor_required rfl hk
      obtain rfl := Except.ok.inj (hn.symm.trans hn')
      rw [(KVCacheAlloc.pimTensor_ok hk).2.1, List.length_append,
        KVCacheAlloc.allocateRows_length hkeys]
    have hrest : m ≤ (alloc.rows x.channel).length := by omega
    obtain ⟨v, alloc', hv⟩ : ∃ v alloc', PIMTensor.new config x.channel [nh, x.inputSize, dk] .VALUE
        alloc = .ok (v, alloc') := (KVCacheAlloc.exists_pimTensor rfl).mpr ⟨m, hm, hrest⟩
    exact ⟨_, Transition.bind_ok.mpr ⟨_, hk, Transition.bind_ok.mpr ⟨_, hv, rfl⟩⟩⟩

/-- The tensors of all requests are made exactly if there is room for them together. -/
theorem exists_allocateAll :
    (∃ kv', allocateAll config s rs kv = .ok kv') ↔ HasRoom config kv s rs := by
  induction rs generalizing kv with
  | nil => exact ⟨fun _ => ⟨nofun, fun _ => Nat.zero_le _⟩, fun _ => ⟨kv, rfl⟩⟩
  | cons r rs ih =>
    constructor
    · rintro ⟨kv', h⟩
      obtain ⟨kv₁, hkv₁, h⟩ := Transition.bind_ok.mp h
      obtain ⟨n, hn, hlength⟩ := allocate_required hkv₁
      obtain ⟨hdefined, hroom⟩ := ih.mp ⟨kv', h⟩
      refine ⟨List.forall_mem_cons.mpr ⟨⟨n, hn⟩, hdefined⟩, fun ch => ?_⟩
      have hrest := hroom ch
      rw [rowsDemand_cons hn, hlength ch]
      omega
    · rintro ⟨hdefined, hroom⟩
      obtain ⟨⟨n, hn⟩, hdefined⟩ := List.forall_mem_cons.mp hdefined
      have hself := hroom (s.request r).channel
      rw [rowsDemand_cons hn, if_pos rfl] at hself
      have hfree : n ≤ (kv.alloc.rows (s.request r).channel).length := by omega
      obtain ⟨kv₁, hkv₁⟩ : ∃ kv₁, kv.allocate config r (s.request r) = .ok kv₁ :=
        exists_allocate.mpr ⟨n, hn, hfree⟩
      obtain ⟨n', hn', hlength⟩ := allocate_required hkv₁
      obtain rfl := Except.ok.inj (hn.symm.trans hn')
      have hrest : HasRoom config kv₁ s rs := by
        refine ⟨hdefined, fun ch => ?_⟩
        have hall := hroom ch
        rw [rowsDemand_cons hn, hlength ch] at hall
        omega
      obtain ⟨kv', h⟩ := ih.mpr hrest
      exact ⟨kv', Transition.bind_ok.mpr ⟨kv₁, hkv₁, h⟩⟩

theorem allocateAll_congr (h : ∀ r ∈ rs, s.request r = t.request r) :
    allocateAll config s rs kv = allocateAll config t rs kv := by
  induction rs generalizing kv with
  | nil => rfl
  | cons r rs ih =>
    obtain ⟨hr, hrs⟩ := List.forall_mem_cons.mp h
    rw [allocateAll, allocateAll, hr]
    exact bind_congr fun kv₁ => ih hrs

/-- Where the loop of the requests ends, the loop with the tensors makes those of the requests that
are admitted. -/
theorem allocateLoop_eq (hnodup : rest.Nodup) (hb : b ≤ RequestState.maxBatchSize)
    (hactive : s.activeReqs ≤ b + (rest.take (RequestState.maxBatchSize - b)).countP
      fun r => (s.request r).isInitiated)
    (h : RequestState.allocateLoop config rest b s = .ok t) :
    allocateLoop config rest b s kv =
      (allocateAll config s ((rest.take (RequestState.maxBatchSize - b)).filter
        fun r => ¬ (s.request r).isInitiated) kv).map (t, ·) := by
  induction rest generalizing b s kv with
  | nil =>
    cases h
    rw [List.take_nil]
    rfl
  | cons r rest ih =>
    obtain ⟨hr, hrest⟩ := List.nodup_cons.mp hnodup
    rw [RequestState.allocateLoop] at h
    rw [allocateLoop]
    by_cases hfull : b = RequestState.maxBatchSize
    · rw [if_pos hfull] at h ⊢
      cases h
      rw [hfull, Nat.sub_self, List.take_zero]
      rfl
    have hsucc : RequestState.maxBatchSize - b = RequestState.maxBatchSize - (b + 1) + 1 := by omega
    rw [hsucc, List.take_succ_cons] at hactive ⊢
    rw [if_neg hfull] at h ⊢
    by_cases hdone : (s.request r).generated < (s.request r).outputSize
    · rw [if_neg (not_not.mpr hdone)] at h ⊢
      cases hinit : (s.request r).isInitiated with
      | true =>
        rw [List.countP_cons, if_pos hinit] at hactive
        rw [hinit, if_pos rfl] at h
        rw [if_pos rfl, List.filter_cons_of_neg (by simp [hinit])]
        exact ih hrest (by omega) (by omega) h
      | false =>
        rw [List.countP_cons, if_neg (by simp [hinit])] at hactive
        rw [hinit, if_neg Bool.false_ne_true] at h
        rw [if_neg Bool.false_ne_true, List.filter_cons_of_pos (by simp [hinit])]
        split_ifs at h ⊢ with hchannel hmax
        · have hfew := List.countP_le_length (p := fun q => (s.request q).isInitiated)
            (l := rest.take (RequestState.maxBatchSize - (b + 1)))
          rw [List.length_take] at hfew
          have hsame : RequestState.maxActiveReqs = RequestState.maxBatchSize := rfl
          omega
        have hnot : r ∉ rest.take (RequestState.maxBatchSize - (b + 1)) := mt List.mem_of_mem_take hr
        obtain ⟨hsame, hcount, hfilter⟩ := RequestState.activate_others hnot
        rw [allocateAll]
        cases hkv : kv.allocate config r (s.request r) with
        | error f => rfl
        | ok kv₁ =>
          have hactive' : (s.activate config r).activeReqs = s.activeReqs + 1 := rfl
          dsimp only
          rw [ih hrest (by omega) (by rw [hcount, hactive']; omega) h, hfilter,
            allocateAll_congr fun q hq => hsame q (List.mem_filter.mp hq).1]
          rfl
    · rw [if_pos hdone] at h
      cases h

/-- `allocate_requests` ends exactly if the requests of the batch pass its assertions and there is
room for the tensors of those that it admits. -/
theorem exists_allocateLoop (hqueues : s.Queues config) (hfew : s.FewActive) :
    (∃ t kv', allocateLoop config s.requestQueue 0 s kv = .ok (t, kv')) ↔
      (∀ r ∈ s.batch, RequestState.Admissible config (s.request r)) ∧
        HasRoom config kv s s.admitted := by
  have hloop : ∀ {t}, s.allocateRequests config = .ok t →
      allocateLoop config s.requestQueue 0 s kv = (allocateAll config s s.admitted kv).map (t, ·) :=
    fun h => allocateLoop_eq hqueues.requestQueue_nodup (Nat.zero_le _)
      (by rw [Nat.zero_add]; exact hfew) h
  rw [← exists_allocateAll]
  constructor
  · rintro ⟨t, kv', h⟩
    have hrequests := allocateLoop_requests h
    rw [hloop hrequests] at h
    obtain ⟨kv₁, hkv₁, -⟩ := Transition.map_ok h
    exact ⟨((RequestState.allocateRequests_ok hqueues hfew).mp hrequests).1, kv₁, hkv₁⟩
  · rintro ⟨hadmissible, kv', h⟩
    have hrequests := (RequestState.allocateRequests_ok hqueues hfew).mpr ⟨hadmissible, rfl⟩
    rw [hloop hrequests, h]
    exact ⟨_, kv', rfl⟩

end Room

end KVCache

/-- A session with the tensors of its requests. -/
structure KVSession where
  session : Session := {}
  kv : KVCache

namespace KVSession

open Transition

def start (config : SimulationConfig) (baseAddr : AddrType) : KVSession where
  kv := { alloc := KVCacheAlloc.initPimLayout config baseAddr }

/-- The last 18 rows of each bank are left for the KV cache. -/
def sampleBaseAddr : AddrType := BitVec.ofNat 64 (32749 * 2 ^ 20)

/-- The call enters `allocate_requests`. -/
def allocates (s : Scheduler) : Call → Bool
  | .cycle _ => s.noProgram ∧ s.stage = Scheduler.initStage ∧ s.requests.requestQueue ≠ []
  | _ => false

/-- What a call does to the tensors. -/
def allocation (cfg : SchedulerConfig) (X : KVSession) (c : Call) : Except Fault KVCache :=
  if allocates X.session.sched c then
    let s := X.session.sched.requests
    (KVCache.allocateLoop cfg.config s.requestQueue 0 s X.kv).map (·.2)
  else .ok X.kv

def step (cfg : SchedulerConfig) (X : KVSession) (c : Call) : Except Fault KVSession :=
  match X.allocation cfg c with
  | .error f => .error f
  | .ok kv =>
    match X.session.step cfg c with
    | .ok session => .ok { session, kv }
    | .error f => .error f

variable {cfg : SchedulerConfig} {X Y : KVSession} {c : Call} {cs : List Call}

theorem step_eq : X.step cfg c = .ok Y ↔
    X.allocation cfg c = .ok Y.kv ∧ X.session.step cfg c = .ok Y.session := by
  unfold step
  constructor
  · intro h
    split at h
    · cases h
    · next kv hkv =>
      split at h
      · next session hsession =>
        cases h
        exact ⟨hkv, hsession⟩
      · cases h
  · rintro ⟨hkv, hsession⟩
    rw [hkv, hsession]

theorem step_ok (h : X.step cfg c = .ok Y) : X.session.step cfg c = .ok Y.session ∧
    (allocates X.session.sched c = true ∧ (∃ t, KVCache.allocateLoop cfg.config
      X.session.sched.requests.requestQueue 0 X.session.sched.requests X.kv = .ok (t, Y.kv)) ∨
    allocates X.session.sched c = false ∧ Y.kv = X.kv) := by
  obtain ⟨hkv, hsession⟩ := step_eq.mp h
  refine ⟨hsession, ?_⟩
  unfold allocation at hkv
  split_ifs at hkv with hallocates
  · obtain ⟨⟨t, kv⟩, hloop, rfl⟩ := map_ok hkv
    exact .inl ⟨hallocates, t, hloop⟩
  · exact .inr ⟨Bool.eq_false_iff.mpr hallocates, (Except.ok.inj hkv).symm⟩

/-- Without its tensors it is a session. -/
theorem run_session (h : run (step cfg) X cs = .ok Y) :
    run (Session.step cfg) X.session cs = .ok Y.session :=
  run_map KVSession.session (fun _ _ _ hok => (step_ok hok).1) h

end KVSession

end NewPims

import Mathlib.Data.List.Nodup
import NewPims.Lib.Transition
import NewPims.Scheduler.Partition

/-! What `init_batches` does as a whole: the requests at the front of the queue that are not yet
initiated join the queues of their channels, and all requests there join the sub-batches. -/
namespace NewPims

/-- What never changes of a request. -/
def InferRequest.fixed (x : InferRequest) : InferRequest :=
  { x with isInitiated := false, generated := 0 }

namespace RequestState

variable {config : SimulationConfig} {s t : RequestState} {r q : ℕ} {rs : List ℕ}

section Heap

theorem request_setRequest_ne {x : InferRequest} (hne : q ≠ r) :
    (s.setRequest r x).request q = s.request q := by
  rw [request, request, setRequest, List.getD_eq_getElem?_getD, List.getD_eq_getElem?_getD,
    List.getElem?_set_ne (Ne.symm hne)]

theorem request_setRequest_self {x : InferRequest} (hr : r < s.heap.length) :
    (s.setRequest r x).request r = x := by
  rw [request, setRequest, List.getD_eq_getElem?_getD, List.getElem?_set_self hr]
  rfl

theorem request_addRequest {x : InferRequest} (hr : r < s.heap.length) :
    (s.addRequest x).request r = s.request r := by
  rw [request, request, addRequest, List.getD_append _ _ _ _ hr]

theorem request_addRequest_new {x : InferRequest} :
    (s.addRequest x).request s.heap.length = x := by
  simp [request, addRequest]

end Heap

section Admission

/-- The requests that `allocate_requests` visits. -/
def batch (s : RequestState) : List ℕ := s.requestQueue.take maxBatchSize

/-- Those of them that it admits. -/
def admitted (s : RequestState) : List ℕ := s.batch.filter fun r => ¬ (s.request r).isInitiated

/-- A request passes the assertions of `allocate_requests`. -/
def Admissible (config : SimulationConfig) (x : InferRequest) : Prop :=
  x.generated < x.outputSize ∧ (x.isInitiated ∨ x.channel < config.dramChannels)

def activateAll (config : SimulationConfig) (s : RequestState) (rs : List ℕ) : RequestState :=
  rs.foldl (activate config) s

theorem request_activate_ne (hne : q ≠ r) : (s.activate config r).request q = s.request q :=
  request_setRequest_ne hne

theorem request_activate_self (hr : r < s.heap.length) :
    (s.activate config r).request r = { s.request r with isInitiated := true } :=
  request_setRequest_self hr

theorem heap_length_activate : (s.activate config r).heap.length = s.heap.length := by
  simp [activate]

/-- Activating a request leaves the others as they are. -/
theorem activate_others {rest : List ℕ} (hr : r ∉ rest) :
    (∀ q ∈ rest, (s.activate config r).request q = s.request q) ∧
      (rest.countP fun q => ((s.activate config r).request q).isInitiated) =
        (rest.countP fun q => (s.request q).isInitiated) ∧
      (rest.filter fun q => ¬ ((s.activate config r).request q).isInitiated) =
        rest.filter fun q => ¬ (s.request q).isInitiated := by
  have hsame : ∀ q ∈ rest, (s.activate config r).request q = s.request q :=
    fun q hq => request_activate_ne fun heq => hr (heq ▸ hq)
  exact ⟨hsame, List.countP_congr fun q hq => by rw [hsame q hq],
    List.filter_congr fun q hq => by rw [hsame q hq]⟩

/-- The loop visits the requests up to the batch size; as no more than these are active, it
admits all that are not initiated. -/
theorem allocateLoop_ok {rest : List ℕ} {b : ℕ} (hnodup : rest.Nodup) (hb : b ≤ maxBatchSize)
    (hactive : s.activeReqs ≤
      b + (rest.take (maxBatchSize - b)).countP fun r => (s.request r).isInitiated) :
    allocateLoop config rest b s = .ok t ↔
      (∀ r ∈ rest.take (maxBatchSize - b), Admissible config (s.request r)) ∧
        t = s.activateAll config
          ((rest.take (maxBatchSize - b)).filter fun r => ¬ (s.request r).isInitiated) := by
  induction rest generalizing b s with
  | nil =>
    rw [allocateLoop, List.take_nil]
    exact ⟨fun h => ⟨fun r hr => absurd hr List.not_mem_nil, (Except.ok.inj h).symm⟩,
      fun h => congrArg _ h.2.symm⟩
  | cons r rest ih =>
    obtain ⟨hr, hrest⟩ := List.nodup_cons.mp hnodup
    rw [allocateLoop]
    by_cases hfull : b = maxBatchSize
    · rw [if_pos hfull, hfull, Nat.sub_self, List.take_zero]
      exact ⟨fun h => ⟨fun r hr => absurd hr List.not_mem_nil, (Except.ok.inj h).symm⟩,
        fun h => congrArg _ h.2.symm⟩
    have hsucc : maxBatchSize - b = maxBatchSize - (b + 1) + 1 := by omega
    rw [hsucc, List.take_succ_cons] at hactive ⊢
    rw [if_neg hfull, List.forall_mem_cons]
    by_cases hdone : (s.request r).generated < (s.request r).outputSize
    · rw [if_neg (not_not.mpr hdone)]
      cases hinit : (s.request r).isInitiated with
      | true =>
        rw [List.countP_cons, if_pos hinit] at hactive
        rw [if_pos rfl, ih hrest (by omega) (by omega), List.filter_cons_of_neg (by simp [hinit])]
        have hself : Admissible config (s.request r) := ⟨hdone, .inl hinit⟩
        simp only [hself, true_and]
      | false =>
        rw [List.countP_cons, if_neg (by simp [hinit])] at hactive
        rw [if_neg Bool.false_ne_true, List.filter_cons_of_pos (by simp [hinit])]
        by_cases hchannel : (s.request r).channel < config.dramChannels
        · have hfew := List.countP_le_length (p := fun q => (s.request q).isInitiated)
            (l := rest.take (maxBatchSize - (b + 1)))
          rw [List.length_take] at hfew
          have hmax : maxActiveReqs = maxBatchSize := rfl
          rw [if_neg (not_not.mpr hchannel), if_neg (by omega)]
          have hnot : r ∉ rest.take (maxBatchSize - (b + 1)) := mt List.mem_of_mem_take hr
          obtain ⟨hsame, hcount, hfilter⟩ := activate_others hnot
          have hactive' : (s.activate config r).activeReqs = s.activeReqs + 1 := rfl
          rw [ih hrest (by omega) (by rw [hcount, hactive']; omega), hfilter]
          have hself : Admissible config (s.request r) := ⟨hdone, .inr hchannel⟩
          have hall : (∀ q ∈ rest.take (maxBatchSize - (b + 1)),
              Admissible config ((s.activate config r).request q)) ↔
                ∀ q ∈ rest.take (maxBatchSize - (b + 1)), Admissible config (s.request q) :=
            forall₂_congr fun q hq => by rw [hsame q hq]
          rw [hall]
          simp only [hself, true_and]
          rfl
        · rw [if_pos hchannel]
          constructor
          · intro h
            cases h
          · rintro ⟨⟨⟨-, h⟩, -⟩, -⟩
            rcases h with h | h
            · rw [hinit] at h
              cases h
            · exact absurd h hchannel
    · rw [if_pos hdone]
      constructor
      · intro h
        cases h
      · rintro ⟨⟨h, -⟩, -⟩
        exact absurd h.1 hdone

end Admission

section AdmitAll

variable (config) (s) (r) (q) (rs)

theorem fixed_activate : ((s.activate config r).request q).fixed = (s.request q).fixed := by
  by_cases hqr : q = r
  · subst hqr
    by_cases hq : q < s.heap.length
    · rw [request_activate_self hq]
      rfl
    · rw [request, request, activate, List.set_eq_of_length_le (Nat.le_of_not_lt hq)]
  · rw [request_activate_ne hqr]

theorem activateAll_cons :
    s.activateAll config (r :: rs) = (s.activate config r).activateAll config rs := rfl

/-- The queue and the sub-batches stay as they are. -/
theorem activateAll_frame :
    (s.activateAll config rs).requestQueue = s.requestQueue ∧
      (s.activateAll config rs).completedRequestQueue = s.completedRequestQueue ∧
      (s.activateAll config rs).breq1 = s.breq1 ∧ (s.activateAll config rs).breq2 = s.breq2 ∧
      (s.activateAll config rs).heap.length = s.heap.length ∧
      (s.activateAll config rs).activeReqs = s.activeReqs + rs.length := by
  induction rs generalizing s with
  | nil => exact ⟨rfl, rfl, rfl, rfl, rfl, rfl⟩
  | cons r rs ih =>
    obtain ⟨h1, h2, h3, h4, h5, h6⟩ := ih (s.activate config r)
    refine ⟨h1, h2, h3, h4, h5.trans heap_length_activate, h6.trans ?_⟩
    rw [List.length_cons, activate]
    dsimp only
    omega

theorem fixed_activateAll : ((s.activateAll config rs).request q).fixed = (s.request q).fixed := by
  induction rs generalizing s with
  | nil => rfl
  | cons r rs ih => rw [activateAll_cons, ih, fixed_activate]

theorem channel_activate : ((s.activate config r).request q).channel = (s.request q).channel := by
  have hchannel := congrArg InferRequest.channel (fixed_activate config s r q)
  exact hchannel

theorem latency_activate :
    estimateMhaLatency config ((s.activate config r).request q) =
      estimateMhaLatency config (s.request q) := by
  have hsize := congrArg InferRequest.inputSize (fixed_activate config s r q)
  change ((s.activate config r).request q).inputSize = (s.request q).inputSize at hsize
  rw [estimateMhaLatency, estimateMhaLatency, mhaLatency, mhaLatency, hsize]

/-- The admitted requests join the queues of their channels in their order. -/
theorem activateAll_queues (ch : ℕ) :
    (s.activateAll config rs).activeRequestQueues ch =
        s.activeRequestQueues ch ++ rs.filter (fun r => (s.request r).channel = ch) ∧
      (s.activateAll config rs).activeRequestLatencyQueues ch =
        s.activeRequestLatencyQueues ch ++ (rs.filter fun r => (s.request r).channel = ch).map
          fun r => estimateMhaLatency config (s.request r) := by
  induction rs generalizing s with
  | nil => exact ⟨(List.append_nil _).symm, (List.append_nil _).symm⟩
  | cons r rs ih =>
    obtain ⟨hqueue, hlatency⟩ := ih (s.activate config r)
    rw [activateAll_cons, hqueue, hlatency]
    simp only [channel_activate, latency_activate]
    by_cases hch : (s.request r).channel = ch
    · rw [List.filter_cons_of_pos (by simpa using hch)]
      simp [activate, hch]
    · rw [List.filter_cons_of_neg (by simpa using hch)]
      simp [activate, Function.update_of_ne (Ne.symm hch)]

theorem request_activateAll (hlt : ∀ r ∈ rs, r < s.heap.length) :
    (s.activateAll config rs).request q =
      if q ∈ rs then { s.request q with isInitiated := true } else s.request q := by
  induction rs generalizing s with
  | nil => rfl
  | cons r rs ih =>
    obtain ⟨hr, hrest⟩ := List.forall_mem_cons.mp hlt
    rw [activateAll_cons, ih (s.activate config r) (by rwa [heap_length_activate])]
    by_cases hqr : q = r
    · subst hqr
      rw [request_activate_self hr, if_pos List.mem_cons_self]
      split <;> rfl
    · rw [request_activate_ne hqr]
      simp only [List.mem_cons, hqr, false_or]

end AdmitAll

section Init

/-- The requests of a channel that `init_batches` groups. -/
def batched (s : RequestState) (ch : ℕ) : List ℕ :=
  s.activeRequestQueues ch ++ s.admitted.filter fun r => (s.request r).channel = ch

/-- All requests that `init_batches` groups. -/
def allBatched (config : SimulationConfig) (s : RequestState) : List ℕ :=
  (List.range config.dramChannels).flatMap s.batched

/-- Both sub-batches get a request. -/
def Divides (config : SimulationConfig) (s : RequestState) : Prop :=
  Filled config s.batched (fun ch => (s.batched ch).map fun r =>
    estimateMhaLatency config (s.request r)) (List.range config.dramChannels)

/-- The latencies of the batched requests of a channel have a total that can be halved. -/
def Sums (config : SimulationConfig) (s : RequestState) : Prop :=
  Summed config (fun ch => (s.batched ch).map fun r =>
    estimateMhaLatency config (s.request r)) (List.range config.dramChannels)

/-- The queues hold requests of their channels, with their latencies. -/
structure Queues (config : SimulationConfig) (s : RequestState) : Prop where
  requestQueue_nodup : s.requestQueue.Nodup
  requestQueue_lt : ∀ r ∈ s.requestQueue, r < s.heap.length
  active : ∀ ch, ∀ r ∈ s.activeRequestQueues ch, r < s.heap.length ∧ (s.request r).channel = ch ∧
    ch < config.dramChannels ∧ (s.request r).isInitiated = true
  active_nodup : ∀ ch, (s.activeRequestQueues ch).Nodup
  latency : ∀ ch, s.activeRequestLatencyQueues ch =
    (s.activeRequestQueues ch).map fun r => estimateMhaLatency config (s.request r)

/-- No more requests are active than the batch has initiated ones. -/
def FewActive (s : RequestState) : Prop :=
  s.activeReqs ≤ s.batch.countP fun r => (s.request r).isInitiated

theorem mem_admitted : r ∈ s.admitted ↔ r ∈ s.batch ∧ (s.request r).isInitiated = false := by
  simp [admitted]

theorem admitted_lt (h : s.Queues config) : ∀ r ∈ s.admitted, r < s.heap.length :=
  fun r hr => h.requestQueue_lt r (List.mem_of_mem_take (mem_admitted.mp hr).1)

/-- The admission changes no token count. -/
theorem tokens_activateAll (h : s.Queues config) :
    ((s.activateAll config s.admitted).request r).outputSize = (s.request r).outputSize ∧
      ((s.activateAll config s.admitted).request r).generated = (s.request r).generated := by
  rw [request_activateAll config s r s.admitted (admitted_lt h)]
  split <;> exact ⟨rfl, rfl⟩

/-- After the admission all requests of the batch are initiated. -/
theorem initiated_activateAll (h : s.Queues config) (hr : r ∈ s.batch) :
    ((s.activateAll config s.admitted).request r).isInitiated = true := by
  rw [request_activateAll config s r s.admitted (admitted_lt h)]
  split
  · rfl
  · next hnot =>
    by_contra hinit
    exact hnot (mem_admitted.mpr ⟨hr, Bool.eq_false_iff.mpr hinit⟩)

theorem length_batch : s.batch.length =
    (s.batch.countP fun r => (s.request r).isInitiated) + s.admitted.length := by
  rw [admitted, ← List.countP_eq_length_filter]
  simpa using List.length_eq_countP_add_countP fun r => (s.request r).isInitiated

theorem batched_nodup (h : s.Queues config) (ch : ℕ) : (s.batched ch).Nodup := by
  have hadmitted : s.admitted.Nodup := (h.requestQueue_nodup.sublist (List.take_sublist _ _)).filter _
  refine List.nodup_append.mpr ⟨h.active_nodup ch, hadmitted.filter _, ?_⟩
  rintro r hr q hq rfl
  have hinit := (h.active ch r hr).2.2.2
  have hnot := (mem_admitted.mp (List.mem_filter.mp hq).1).2
  rw [hinit] at hnot
  cases hnot

theorem channel_of_batched (h : s.Queues config) {ch : ℕ} (hr : r ∈ s.batched ch) :
    (s.request r).channel = ch := by
  rcases List.mem_append.mp hr with hr | hr
  · exact (h.active ch r hr).2.1
  · exact of_decide_eq_true (List.mem_filter.mp hr).2

/-- No request is grouped twice. -/
theorem allBatched_nodup (h : s.Queues config) : (allBatched config s).Nodup := by
  rw [allBatched, List.nodup_flatMap]
  refine ⟨fun ch _ => batched_nodup h ch, List.nodup_range.imp fun hne => ?_⟩
  intro r hr hr'
  exact hne ((channel_of_batched h hr).symm.trans (channel_of_batched h hr'))

theorem allocateRequests_ok (h : s.Queues config) (hfew : s.FewActive) :
    s.allocateRequests config = .ok t ↔
      (∀ r ∈ s.batch, Admissible config (s.request r)) ∧ t = s.activateAll config s.admitted := by
  have hloop : allocateLoop config s.requestQueue 0 s = .ok t ↔ _ :=
    allocateLoop_ok h.requestQueue_nodup (Nat.zero_le _) (by rw [Nat.zero_add]; exact hfew)
  exact hloop

theorem activateAll_batched :
    (s.activateAll config s.admitted).activeRequestQueues = s.batched :=
  funext fun ch => (activateAll_queues config s s.admitted ch).1

theorem activateAll_latencies (h : s.Queues config) :
    (s.activateAll config s.admitted).activeRequestLatencyQueues = fun ch =>
      (s.batched ch).map fun r => estimateMhaLatency config (s.request r) := by
  funext ch
  rw [(activateAll_queues config s s.admitted ch).2, h.latency ch, batched, List.map_append]

/-- The effect of `init_batches`. -/
theorem initBatches_ok (h : s.Queues config) (hfew : s.FewActive)
    (hok : s.initBatches config = .ok t) :
    (∀ r ∈ s.batch, Admissible config (s.request r)) ∧ ∃ lists,
      t = (s.activateAll config s.admitted).join lists ∧ Divided (allBatched config s) lists ∧
      (config.subBatchMode = false → lists = (allBatched config s, [])) ∧
      (config.subBatchMode = true →
        (lone config lists = [] → allBatched config s = []) ∧
          (other config lists ≠ [] ↔ Divides config s)) := by
  rw [initBatches] at hok
  split at hok
  · next u hu =>
    obtain ⟨hadmissible, rfl⟩ := (allocateRequests_ok h hfew).mp hu
    refine ⟨hadmissible, ?_⟩
    rw [groupSubBatches] at hok
    split at hok
    · next hmode =>
      obtain ⟨lists, hjoin, hdivided, hlone, hother⟩ := groupLoop_spec hok
      rw [activateAll_batched] at hdivided hlone hother
      rw [activateAll_latencies h] at hother
      refine ⟨lists, hjoin, hdivided, fun hoff => ?_, fun _ => ⟨hlone, hother⟩⟩
      rw [hmode] at hoff
      cases hoff
    · next hmode =>
      cases hok
      refine ⟨(allBatched config s, []), ?_, ?_, fun _ => rfl, fun hon => absurd hon hmode⟩
      · have hall : allBatched config s = (List.range config.dramChannels).flatMap
            (s.activateAll config s.admitted).activeRequestQueues := by
          rw [activateAll_batched]
          rfl
        rw [join, List.append_nil, hall]
      · rw [Divided, List.append_nil]
  · cases hok

theorem initBatches_sums (h : s.Queues config) (hfew : s.FewActive)
    (hok : s.initBatches config = .ok t) (hmode : config.subBatchMode = true) : Sums config s := by
  rw [initBatches] at hok
  split at hok
  · next u hu =>
    obtain ⟨-, rfl⟩ := (allocateRequests_ok h hfew).mp hu
    rw [groupSubBatches, if_pos hmode] at hok
    have hsummed := groupLoop_summed hok
    rwa [activateAll_latencies h] at hsummed
  · cases hok

/-- Nothing else stops it. -/
theorem exists_initBatches (h : s.Queues config) (hfew : s.FewActive)
    (hadmissible : ∀ r ∈ s.batch, Admissible config (s.request r))
    (hsums : config.subBatchMode = true → Sums config s) :
    ∃ t, s.initBatches config = .ok t := by
  have hallocate := (allocateRequests_ok h hfew).mpr ⟨hadmissible, rfl⟩
  rw [initBatches, hallocate]
  dsimp only
  rw [groupSubBatches]
  split
  · next hmode =>
    refine exists_groupLoop (fun ch _ => ?_) ?_
    · rw [activateAll_batched, activateAll_latencies h, List.length_map]
    · rw [activateAll_latencies h]
      exact hsums hmode
  · exact ⟨_, rfl⟩

end Init

end RequestState

end NewPims

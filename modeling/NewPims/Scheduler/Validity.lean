import NewPims.Scheduler.Control

/-! The queues of the channels and the sub-batches stay well-formed in all runs, and in the first
stage without a program only one of the sub-batches can have requests. -/
namespace NewPims

namespace RequestState

variable {config : SimulationConfig} {s t : RequestState} {r q : ℕ} {x : InferRequest}

section Cleanup

/-- What a step may do to the requests that exist: the queues of the channels stay, as does what is
fixed, and a request that is initiated remains so. -/
structure Keeps (s t : RequestState) : Prop where
  requestQueue : t.requestQueue.Sublist s.requestQueue
  length : t.heap.length = s.heap.length
  queues : t.activeRequestQueues = s.activeRequestQueues
  latencies : t.activeRequestLatencyQueues = s.activeRequestLatencyQueues
  fixed : ∀ q, (t.request q).fixed = (s.request q).fixed
  initiated : ∀ q, (s.request q).isInitiated = true → (t.request q).isInitiated = true

theorem keeps_refl (s : RequestState) : Keeps s s :=
  ⟨List.Sublist.refl _, rfl, rfl, rfl, fun _ => rfl, fun _ h => h⟩

theorem keeps_trans {u : RequestState} (h : Keeps s t) (h' : Keeps t u) : Keeps s u :=
  ⟨h'.requestQueue.trans h.requestQueue, h'.length.trans h.length, h'.queues.trans h.queues,
    h'.latencies.trans h.latencies, fun q => (h'.fixed q).trans (h.fixed q),
    fun q hq => h'.initiated q (h.initiated q hq)⟩

/-- The request after a clean-up of it. -/
def cleaned (x : InferRequest) : InferRequest :=
  { x with isInitiated := true, generated := x.generated + 1 }

theorem request_set (hx : x.fixed = (s.request r).fixed) (hinit : x.isInitiated = true) :
    ((s.setRequest r x).request q).fixed = (s.request q).fixed ∧
      ((s.request q).isInitiated = true → ((s.setRequest r x).request q).isInitiated = true) := by
  by_cases hqr : q = r
  · subst hqr
    by_cases hq : q < s.heap.length
    · rw [request_setRequest_self hq]
      exact ⟨hx, fun _ => hinit⟩
    · rw [request, request, setRequest, List.set_eq_of_length_le (Nat.le_of_not_lt hq)]
      exact ⟨rfl, fun h => h⟩
  · rw [request_setRequest_ne hqr]
    exact ⟨rfl, fun h => h⟩

theorem keeps_cleanupRequest : Keeps s (s.cleanupRequest r) := by
  have hset : ∀ q, ((s.setRequest r (cleaned (s.request r))).request q).fixed =
      (s.request q).fixed ∧ ((s.request q).isInitiated = true →
        ((s.setRequest r (cleaned (s.request r))).request q).isInitiated = true) :=
    fun q => request_set rfl rfl
  have hlength : (s.setRequest r (cleaned (s.request r))).heap.length = s.heap.length :=
    List.length_set
  unfold cleanupRequest
  dsimp only
  split
  · exact ⟨List.filter_sublist, hlength, rfl, rfl, fun q => (hset q).1, fun q => (hset q).2⟩
  · exact ⟨List.Sublist.refl _, hlength, rfl, rfl, fun q => (hset q).1, fun q => (hset q).2⟩

theorem keeps_cleanupSubBatch (rs : List ℕ) : Keeps s (s.cleanupSubBatch rs) := by
  induction rs generalizing s with
  | nil => exact keeps_refl s
  | cons r rs ih => exact keeps_trans keeps_cleanupRequest ih

theorem keeps_endIteration : Keeps s s.endIteration := by
  have h := keeps_trans (keeps_cleanupSubBatch (s := s) s.breq1) (keeps_cleanupSubBatch s.breq2)
  exact ⟨h.requestQueue, h.length, h.queues, h.latencies, h.fixed, h.initiated⟩

end Cleanup

section Queues

theorem channel_of_fixed {x y : InferRequest} (h : x.fixed = y.fixed) : x.channel = y.channel := by
  have hchannel := congrArg InferRequest.channel h
  exact hchannel

theorem id_of_fixed {x y : InferRequest} (h : x.fixed = y.fixed) : x.id = y.id := by
  have hid := congrArg InferRequest.id h
  exact hid

theorem latency_of_fixed {x y : InferRequest} (h : x.fixed = y.fixed) :
    estimateMhaLatency config x = estimateMhaLatency config y := by
  have hsize := congrArg InferRequest.inputSize h
  change x.inputSize = y.inputSize at hsize
  rw [estimateMhaLatency, estimateMhaLatency, mhaLatency, mhaLatency, hsize]

theorem queues_of_keeps (h : s.Queues config) (hkeeps : Keeps s t) : t.Queues config where
  requestQueue_nodup := h.requestQueue_nodup.sublist hkeeps.requestQueue
  requestQueue_lt := fun r hr => by
    rw [hkeeps.length]
    exact h.requestQueue_lt r (hkeeps.requestQueue.subset hr)
  active := fun ch r hr => by
    rw [hkeeps.queues] at hr
    obtain ⟨hlt, hchannel, hch, hinit⟩ := h.active ch r hr
    exact ⟨by rwa [hkeeps.length], (channel_of_fixed (hkeeps.fixed r)).trans hchannel, hch,
      hkeeps.initiated r hinit⟩
  active_nodup := fun ch => by
    rw [hkeeps.queues]
    exact h.active_nodup ch
  latency := fun ch => by
    rw [hkeeps.latencies, hkeeps.queues, h.latency ch]
    exact List.map_congr_left fun r _ => (latency_of_fixed (hkeeps.fixed r)).symm

theorem queues_addRequest (h : s.Queues config) : (s.addRequest x).Queues config where
  requestQueue_nodup := by
    refine List.nodup_append.mpr ⟨h.requestQueue_nodup, List.nodup_singleton _, ?_⟩
    rintro r hr q hq rfl
    have := h.requestQueue_lt r hr
    rw [List.mem_singleton.mp hq] at this
    exact Nat.lt_irrefl _ this
  requestQueue_lt := fun r hr => by
    rw [addRequest, List.length_append]
    rcases List.mem_append.mp hr with hr | hr
    · exact Nat.lt_add_right _ (h.requestQueue_lt r hr)
    · rw [List.mem_singleton.mp hr]
      exact Nat.lt_succ_self _
  active := fun ch r hr => by
    obtain ⟨hlt, hrest⟩ := h.active ch r hr
    rw [request_addRequest hlt, addRequest, List.length_append]
    exact ⟨Nat.lt_add_right _ hlt, hrest⟩
  active_nodup := h.active_nodup
  latency := fun ch => by
    refine (h.latency ch).trans (List.map_congr_left fun r hr => ?_)
    rw [request_addRequest (h.active ch r hr).1]

/-- Batching keeps the queues well-formed. -/
theorem queues_activateAll (h : s.Queues config)
    (hadmissible : ∀ r ∈ s.batch, Admissible config (s.request r)) :
    (s.activateAll config s.admitted).Queues config := by
  obtain ⟨hqueue, -, -, -, hlength, -⟩ := activateAll_frame config s s.admitted
  have hlt := admitted_lt h
  refine ⟨by rw [hqueue]; exact h.requestQueue_nodup, ?_, ?_, ?_, ?_⟩
  · rw [hqueue, hlength]
    exact h.requestQueue_lt
  · intro ch r hr
    rw [activateAll_batched] at hr
    rw [hlength, channel_of_fixed (fixed_activateAll config s r s.admitted), channel_of_batched h hr,
      request_activateAll config s r s.admitted hlt]
    rcases List.mem_append.mp hr with hr | hr
    · obtain ⟨hr, -, hch, hinit⟩ := h.active ch r hr
      refine ⟨hr, rfl, hch, ?_⟩
      split
      · rfl
      · exact hinit
    · obtain ⟨hr, hchannel⟩ := List.mem_filter.mp hr
      obtain ⟨hbatch, hnot⟩ := mem_admitted.mp hr
      refine ⟨hlt r hr, rfl, ?_, by rw [if_pos hr]⟩
      rcases (hadmissible r hbatch).2 with hinit | hch
      · rw [hnot] at hinit
        cases hinit
      · rwa [of_decide_eq_true hchannel] at hch
  · rw [activateAll_batched]
    exact batched_nodup h
  · intro ch
    rw [activateAll_latencies h, activateAll_batched]
    exact List.map_congr_left fun r _ =>
      (latency_of_fixed (fixed_activateAll config s r s.admitted)).symm

theorem queues_join (h : s.Queues config) (lists : List ℕ × List ℕ) :
    (s.join lists).Queues config :=
  ⟨h.requestQueue_nodup, h.requestQueue_lt, h.active, h.active_nodup, h.latency⟩

end Queues

end RequestState

namespace Control

open RequestState
open Scheduler (Call initStage stageAfter)

variable {config : SimulationConfig} {v w : Control} {requests : RequestState} {c : Call}

/-- The first stage, before its programs. -/
def Waiting (v : Control) : Prop := v.idle = true ∧ v.stage = initStage

def breqs (v : Control) : List ℕ × List ℕ := (v.requests.breq1, v.requests.breq2)

structure Valid (config : SimulationConfig) (v : Control) : Prop where
  queues : v.requests.Queues config
  breqs : ∀ r ∈ v.breqs.1 ++ v.breqs.2,
    r < v.requests.heap.length ∧ (v.requests.request r).isInitiated = true
  few : v.Waiting → v.requests.FewActive
  /-- In the first stage only the sub-batch that gets lone requests can have requests. -/
  other : v.Waiting → config.subBatchMode = true → other config v.breqs = []
  empty : v.Waiting → config.subBatchMode = false → v.breqs = ([], [])
  queued : v.Waiting → v.requests.requestQueue = [] → v.breqs = ([], [])
  single : config.subBatchMode = false → v.breqs.2 = []
  both : ¬ v.Waiting → config.subBatchMode = true → (v.breqs.1 = [] ↔ v.breqs.2 = [])

section Stages

theorem stageAfter_ne_init (stage : Stage) : stageAfter config stage ≠ initStage := by
  unfold stageAfter
  cases stage <;> cases config.subBatchMode <;> decide

theorem not_waiting_moved (h : Moved config v w) : ¬ w.Waiting := by
  rintro ⟨hidle, hstage⟩
  rcases h.2 with ⟨hbusy, -⟩ | ⟨-, hnext⟩
  · rw [hidle] at hbusy
    cases hbusy
  · exact stageAfter_ne_init _ (hnext.symm.trans hstage)

end Stages

section Batches

/-- What a cycle's batching leaves: at the first stage the batch, later what was there. -/
theorem batches_cases (h : v.Batches config requests) :
    (v.Enters ∧ v.requests.initBatches config = .ok requests) ∨ requests = v.requests :=
  h.imp_right And.right

theorem breqs_join {lists : List ℕ × List ℕ} {s : RequestState} :
    ((s.join lists).breq1, (s.join lists).breq2) =
      (s.breq1 ++ lists.1, s.breq2 ++ lists.2) := rfl

theorem mem_allBatched {s : RequestState} (h : s.Queues config) {r : ℕ}
    (hr : r ∈ allBatched config s) : r < s.heap.length ∧
      ((s.request r).isInitiated = true ∨ r ∈ s.admitted) := by
  obtain ⟨ch, -, hr⟩ := List.mem_flatMap.mp hr
  rcases List.mem_append.mp hr with hr | hr
  · obtain ⟨hlt, -, -, hinit⟩ := h.active ch r hr
    exact ⟨hlt, .inl hinit⟩
  · have hadmitted := (List.mem_filter.mp hr).1
    exact ⟨admitted_lt h r hadmitted, .inr hadmitted⟩

theorem fewActive_activateAll {s : RequestState} (h : s.Queues config) (hfew : s.FewActive) :
    (s.activateAll config s.admitted).FewActive := by
  obtain ⟨hqueue, -, -, -, -, hactive⟩ := activateAll_frame config s s.admitted
  have hbatch : (s.activateAll config s.admitted).batch = s.batch := by
    rw [batch, batch, hqueue]
  have hcount := length_batch (s := s)
  have hall : (s.batch.countP fun r =>
      ((s.activateAll config s.admitted).request r).isInitiated) = s.batch.length :=
    List.countP_eq_length.mpr fun r hr => initiated_activateAll h hr
  unfold FewActive at hfew ⊢
  rw [hbatch, hall, hactive]
  omega

/-- After the first part of `cycle` everything but the last condition holds. -/
theorem batches_valid (hv : Valid config v) (h : v.Batches config requests) :
    requests.Queues config ∧
      (∀ r ∈ requests.breq1 ++ requests.breq2,
        r < requests.heap.length ∧ (requests.request r).isInitiated = true) ∧
      (v.Waiting → requests.FewActive) := by
  rcases batches_cases h with ⟨henters, hinit⟩ | rfl
  · have hwaiting : v.Waiting := ⟨henters.1, henters.2.1⟩
    obtain ⟨hadmissible, lists, rfl, hdivided, -⟩ :=
      initBatches_ok hv.queues (hv.few hwaiting) hinit
    obtain ⟨hqueue, -, hbreq1, hbreq2, hlength, hactive⟩ :=
      activateAll_frame config v.requests v.requests.admitted
    have hlt := admitted_lt hv.queues
    refine ⟨queues_join (queues_activateAll hv.queues hadmissible) lists, ?_, fun _ => ?_⟩
    · intro r hr
      have hmem : r ∈ v.breqs.1 ++ v.breqs.2 ∨ r ∈ allBatched config v.requests := by
        rw [← hdivided.mem_iff]
        simp only [join, hbreq1, hbreq2, List.mem_append] at hr ⊢
        tauto
      have hrequest := request_activateAll config v.requests r v.requests.admitted hlt
      change r < (v.requests.activateAll config v.requests.admitted).heap.length ∧
        ((v.requests.activateAll config v.requests.admitted).request r).isInitiated = true
      rw [hlength, hrequest]
      rcases hmem with hr | hr
      · obtain ⟨hlt, hinit⟩ := hv.breqs r hr
        refine ⟨hlt, ?_⟩
        split
        · rfl
        · exact hinit
      · obtain ⟨hlt, hinit | hadmitted⟩ := mem_allBatched hv.queues hr
        · refine ⟨hlt, ?_⟩
          split
          · rfl
          · exact hinit
        · exact ⟨hlt, by rw [if_pos hadmitted]⟩
    · exact fewActive_activateAll hv.queues (hv.few hwaiting)
  · exact ⟨hv.queues, hv.breqs, hv.few⟩

/-- Without sub-batches everything is in the first one. -/
theorem batches_breq2 (hv : Valid config v) (h : v.Batches config requests)
    (hmode : config.subBatchMode = false) : requests.breq2 = [] := by
  have hold : v.requests.breq2 = [] := hv.single hmode
  rcases batches_cases h with ⟨henters, hinit⟩ | rfl
  · obtain ⟨-, lists, rfl, -, hone, -⟩ :=
      initBatches_ok hv.queues (hv.few ⟨henters.1, henters.2.1⟩) hinit
    obtain ⟨-, -, -, hbreq2, -⟩ := activateAll_frame config v.requests v.requests.admitted
    rw [hone hmode]
    exact (List.append_nil _).trans (hbreq2.trans hold)
  · exact hold

end Batches

section Steps

theorem letsMake_idle {idle : Bool} (h : letsMake config idle requests = true) : idle = true := by
  unfold letsMake at h
  split at h
  · exact (Bool.and_eq_true_iff.mp (Bool.and_eq_true_iff.mp h).1).1
  · exact (Bool.and_eq_true_iff.mp h).1

theorem letsMake_sub (hmode : config.subBatchMode = true) :
    letsMake config true requests = true ↔ requests.breq1 ≠ [] ∧ requests.breq2 ≠ [] := by
  rw [letsMake, if_pos hmode]
  simp

theorem letsMake_one (hmode : config.subBatchMode = false) :
    letsMake config true requests = true ↔ requests.breq1 ≠ [] ∨ requests.breq2 ≠ [] := by
  rw [letsMake, hmode, if_neg Bool.false_ne_true]
  simp [or_comm]

/-- Both sub-batches are filled exactly if both parts are. -/
theorem lone_other (config : SimulationConfig) (lists : List ℕ × List ℕ) :
    lists.1 ≠ [] ∧ lists.2 ≠ [] ↔ lone config lists ≠ [] ∧ other config lists ≠ [] := by
  rw [lone, other]
  split
  · rfl
  · exact and_comm

theorem lone_append {xs ys : List ℕ × List ℕ} :
    lone config (xs.1 ++ ys.1, xs.2 ++ ys.2) = lone config xs ++ lone config ys := by
  simp only [lone]
  split <;> rfl

theorem other_append {xs ys : List ℕ × List ℕ} :
    other config (xs.1 ++ ys.1, xs.2 ++ ys.2) = other config xs ++ other config ys := by
  simp only [other]
  split <;> rfl

theorem other_of_divided {reqs : List ℕ} {lists : List ℕ × List ℕ} (h : Divided reqs lists)
    (hnil : reqs = []) : other config lists = [] := by
  rw [Divided, hnil] at h
  obtain ⟨h1, h2⟩ := List.append_eq_nil_iff.mp h.eq_nil
  rw [other, h1, h2, ite_self]

/-- The sub-batches after `init_batches` in the first stage. -/
theorem breqs_init (hv : Valid config v) (hwaiting : v.Waiting)
    (hinit : v.requests.initBatches config = .ok requests) (hmode : config.subBatchMode = true) :
    (other config (requests.breq1, requests.breq2) ≠ [] ↔ Divides config v.requests) ∧
      (Divides config v.requests → lone config (requests.breq1, requests.breq2) ≠ []) := by
  have hold := hv.other hwaiting hmode
  obtain ⟨-, lists, rfl, hdivided, -, hparts⟩ := initBatches_ok hv.queues (hv.few hwaiting) hinit
  obtain ⟨hlone, hother⟩ := hparts hmode
  obtain ⟨-, -, hbreq1, hbreq2, -⟩ := activateAll_frame config v.requests v.requests.admitted
  have hjoin : ((((v.requests.activateAll config v.requests.admitted).join lists).breq1),
      ((v.requests.activateAll config v.requests.admitted).join lists).breq2) =
        (v.breqs.1 ++ lists.1, v.breqs.2 ++ lists.2) := by
    rw [breqs_join, hbreq1, hbreq2]
    rfl
  rw [hjoin, other_append, lone_append, hold, List.nil_append]
  refine ⟨hother, fun hdivides hnil => hother.mpr hdivides ?_⟩
  exact other_of_divided hdivided (hlone (List.append_eq_nil_iff.mp hnil).2)

/-- Programs are made of a division that fills both sub-batches. -/
theorem letsMake_init (hv : Valid config v) (hwaiting : v.Waiting)
    (hinit : v.requests.initBatches config = .ok requests) (hmode : config.subBatchMode = true) :
    letsMake config true requests = true ↔ Divides config v.requests := by
  obtain ⟨hother, hlone⟩ := breqs_init hv hwaiting hinit hmode
  rw [letsMake_sub hmode, lone_other config (requests.breq1, requests.breq2), hother]
  exact ⟨And.right, fun hdivides => ⟨hlone hdivides, hdivides⟩⟩

/-- Where no programs are made in the first stage, the other sub-batch is empty still. -/
theorem other_wait (hv : Valid config v) (h : v.Batches config requests)
    (hlets : letsMake config v.idle requests = false) (hwaiting : v.Waiting)
    (hmode : config.subBatchMode = true) :
    other config (requests.breq1, requests.breq2) = [] := by
  rcases batches_cases h with ⟨-, hinit⟩ | rfl
  · rw [hwaiting.1] at hlets
    have hnot := mt (letsMake_init hv hwaiting hinit hmode).mpr (Bool.eq_false_iff.mp hlets)
    by_contra hother
    exact hnot ((breqs_init hv hwaiting hinit hmode).1.mp hother)
  · exact hv.other hwaiting hmode

theorem empty_wait (hlets : letsMake config v.idle requests = false) (hwaiting : v.Waiting)
    (hmode : config.subBatchMode = false) : requests.breq1 = [] ∧ requests.breq2 = [] := by
  rw [hwaiting.1] at hlets
  have hmake : letsMake config true requests = true ↔ _ := letsMake_one hmode
  have hnot := mt hmake.mpr (Bool.eq_false_iff.mp hlets)
  rw [not_or, not_not, not_not] at hnot
  exact hnot

theorem valid_initial : Valid config {} where
  queues := ⟨List.nodup_nil, fun _ h => absurd h List.not_mem_nil,
    fun _ _ h => absurd h List.not_mem_nil, fun _ => List.nodup_nil, fun _ => rfl⟩
  breqs := fun _ h => absurd h List.not_mem_nil
  few := fun _ => Nat.zero_le _
  other := fun _ _ => by
    rw [other]
    exact ite_self _
  empty := fun _ _ => rfl
  queued := fun _ _ => rfl
  single := fun _ => rfl
  both := fun _ _ => ⟨fun _ => rfl, fun _ => rfl⟩

theorem valid_addRequest (hv : Valid config v) (x : InferRequest) :
    Valid config { v with requests := v.requests.addRequest x } where
  queues := queues_addRequest hv.queues
  breqs := fun r hr => by
    obtain ⟨hlt, hinit⟩ := hv.breqs r hr
    dsimp only
    rw [request_addRequest hlt, addRequest, List.length_append]
    exact ⟨Nat.lt_add_right _ hlt, hinit⟩
  few := fun hwaiting => by
    have hfew := hv.few hwaiting
    have hcount : (v.requests.batch.countP fun r =>
        ((v.requests.addRequest x).request r).isInitiated) =
          v.requests.batch.countP fun r => (v.requests.request r).isInitiated :=
      List.countP_congr fun r hr => by
        rw [request_addRequest (hv.queues.requestQueue_lt r (List.mem_of_mem_take hr))]
    unfold FewActive at hfew ⊢
    have hbatch : v.requests.batch.Sublist (v.requests.addRequest x).batch := by
      rw [batch, batch, addRequest, List.take_append]
      exact List.sublist_append_left _ _
    rw [← hcount] at hfew
    exact Nat.le_trans hfew hbatch.countP_le
  other := hv.other
  empty := hv.empty
  queued := fun _ hnil => absurd hnil (List.append_ne_nil_of_right_ne_nil _ (List.cons_ne_nil _ _))
  single := hv.single
  both := hv.both

/-- Programs are made from sub-batches that are filled as the mode asks for. -/
theorem valid_makeProgram (hv : Valid config v) (h : v.Batches config requests)
    (hlets : letsMake config v.idle requests = true)
    (hmoved : Moved config { v with requests } w) : Valid config w := by
  obtain ⟨hqueues, hbreqs, -⟩ := batches_valid hv h
  have hnot := not_waiting_moved hmoved
  obtain ⟨requestsw, stagew, idlew⟩ := w
  obtain rfl : requestsw = requests := hmoved.1
  refine ⟨hqueues, hbreqs, fun hw => absurd hw hnot, fun hw => absurd hw hnot,
    fun hw => absurd hw hnot, fun hw => absurd hw hnot, batches_breq2 hv h, fun _ hmode => ?_⟩
  rw [letsMake_idle hlets] at hlets
  obtain ⟨h1, h2⟩ := (letsMake_sub hmode).mp hlets
  exact ⟨fun hnil => absurd hnil h1, fun hnil => absurd hnil h2⟩

theorem valid_step (hv : Valid config v) (h : Step config v c w) : Valid config w := by
  cases h with
  | addRequest x => exact valid_addRequest hv x
  | popCompletedRequest requests hpop =>
    unfold popCompletedRequest at hpop
    split at hpop
    · cases hpop
    · cases hpop
      exact ⟨⟨hv.queues.requestQueue_nodup, hv.queues.requestQueue_lt, hv.queues.active,
        hv.queues.active_nodup, hv.queues.latency⟩, hv.breqs, hv.few, hv.other, hv.empty,
        hv.queued, hv.single, hv.both⟩
  | wait now requests hbatches hlets =>
    obtain ⟨hqueues, hbreqs, hfew⟩ := batches_valid hv hbatches
    refine ⟨hqueues, hbreqs, hfew, ?_, ?_, ?_, batches_breq2 hv hbatches, ?_⟩
    · intro hwaiting hmode
      exact other_wait (v := v) hv hbatches hlets hwaiting hmode
    · intro hwaiting hmode
      obtain ⟨h1, h2⟩ := empty_wait hlets hwaiting hmode
      exact Prod.ext h1 h2
    · intro hwaiting hnil
      rcases batches_cases hbatches with ⟨henters, hinit⟩ | rfl
      · obtain ⟨-, lists, rfl, -⟩ := initBatches_ok hv.queues (hv.few hwaiting) hinit
        exact absurd ((activateAll_frame config _ _).1.symm.trans hnil) henters.2.2
      · exact hv.queued hwaiting hnil
    · intro hnot hmode
      rcases batches_cases hbatches with ⟨henters, -⟩ | rfl
      · exact absurd ⟨henters.1, henters.2.1⟩ hnot
      · exact hv.both hnot hmode
  | endIteration now requests hbatches hlets hfinish =>
    obtain ⟨hqueues, -, -⟩ := batches_valid hv hbatches
    have hnot : ¬ v.Waiting := fun hw => by
      rw [hw.2] at hfinish
      cases hfinish
    refine ⟨queues_of_keeps hqueues keeps_endIteration, fun r hr => absurd hr List.not_mem_nil,
      fun hw => absurd hw hnot, fun hw => absurd hw hnot, fun hw => absurd hw hnot,
      fun hw => absurd hw hnot, fun _ => rfl, fun _ _ => ⟨fun _ => rfl, fun _ => rfl⟩⟩
  | makeProgram now requests w hbatches hlets hfinish hmoved =>
    exact valid_makeProgram hv hbatches hlets hmoved
  | getTile => exact hv
  | finishTile now tile w hbusy hmoved =>
    have hnotv : ¬ v.Waiting := fun hw => by
      rw [hw.1] at hbusy
      cases hbusy
    have hnot := not_waiting_moved hmoved
    obtain ⟨requestsw, stagew, idlew⟩ := w
    obtain rfl : requestsw = v.requests := hmoved.1
    exact ⟨hv.queues, hv.breqs, fun hw => absurd hw hnot, fun hw => absurd hw hnot,
      fun hw => absurd hw hnot, fun hw => absurd hw hnot, hv.single, fun _ => hv.both hnotv⟩

end Steps

end Control

end NewPims

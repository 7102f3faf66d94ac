import NewPims.Scheduler.Batches

/-! Where the initiated requests of the queue are: in the queues of their channels, and from the
first programs on in the sub-batches, until the iteration ends. -/
namespace NewPims

open RequestState
open Scheduler (Call)

namespace Control

variable {config : SimulationConfig} {v w : Control} {requests : RequestState} {c : Call}

structure Grouped (v : Control) : Prop where
  active : v.Waiting → ∀ r ∈ v.requests.requestQueue, (v.requests.request r).isInitiated = true →
    r ∈ v.requests.activeRequestQueues (v.requests.request r).channel
  breqs : ¬ v.Waiting → ∀ r ∈ v.requests.requestQueue,
    (v.requests.request r).isInitiated = true → r ∈ v.breqs.1 ++ v.breqs.2

theorem grouped_initial : Grouped {} :=
  ⟨fun _ _ h => absurd h List.not_mem_nil, fun _ _ h => absurd h List.not_mem_nil⟩

theorem grouped_addRequest (hv : Valid config v) (h : Grouped v) {x : InferRequest}
    (hx : x.isInitiated = false) : Grouped { v with requests := v.requests.addRequest x } := by
  -- the new request is not initiated
  have hold : ∀ r ∈ (v.requests.addRequest x).requestQueue,
      ((v.requests.addRequest x).request r).isInitiated = true →
        r ∈ v.requests.requestQueue ∧ (v.requests.addRequest x).request r = v.requests.request r := by
    intro r hr hinit
    rcases List.mem_append.mp hr with hr | hr
    · exact ⟨hr, request_addRequest (hv.queues.requestQueue_lt r hr)⟩
    · rw [List.mem_singleton.mp hr, request_addRequest_new, hx] at hinit
      cases hinit
  refine ⟨fun hwaiting r hr hinit => ?_, fun hnot r hr hinit => ?_⟩
  · obtain ⟨hr, hrequest⟩ := hold r hr hinit
    dsimp only at hinit ⊢
    rw [hrequest] at hinit ⊢
    exact h.active hwaiting r hr hinit
  · obtain ⟨hr, hrequest⟩ := hold r hr hinit
    dsimp only at hinit
    rw [hrequest] at hinit
    exact h.breqs hnot r hr hinit

/-- After the batching of the first stage all initiated requests are active and in a sub-batch. -/
theorem grouped_init (hv : Valid config v) (h : Grouped v) (henters : v.Enters)
    (hinit : v.requests.initBatches config = .ok requests) :
    ∀ r ∈ requests.requestQueue, (requests.request r).isInitiated = true →
      r ∈ requests.activeRequestQueues (requests.request r).channel ∧
        r ∈ requests.breq1 ++ requests.breq2 := by
  have hwaiting : v.Waiting := ⟨henters.1, henters.2.1⟩
  have hqueues := (batches_valid hv (.inl ⟨henters, hinit⟩)).1
  obtain ⟨-, lists, rfl, hdivided, -⟩ := initBatches_ok hv.queues (hv.few hwaiting) hinit
  obtain ⟨hqueue, -⟩ := activateAll_frame config v.requests v.requests.admitted
  intro r hr hinitiated
  change r ∈ (v.requests.activateAll config v.requests.admitted).requestQueue at hr
  change ((v.requests.activateAll config v.requests.admitted).request r).isInitiated = true
    at hinitiated
  have hchannel := channel_of_fixed (fixed_activateAll config v.requests r v.requests.admitted)
  have hbatched : r ∈ v.requests.batched (v.requests.request r).channel := by
    rw [hqueue] at hr
    rw [request_activateAll config v.requests r _ (admitted_lt hv.queues)] at hinitiated
    rw [batched, List.mem_append]
    split at hinitiated
    · next hadmitted => exact .inr (List.mem_filter.mpr ⟨hadmitted, decide_eq_true rfl⟩)
    · exact .inl (h.active hwaiting r hr hinitiated)
  have hactive : r ∈ (v.requests.activateAll config v.requests.admitted).activeRequestQueues
      ((v.requests.activateAll config v.requests.admitted).request r).channel := by
    rw [activateAll_batched, hchannel]
    exact hbatched
  have hch := (hqueues.active _ r hactive).2.2.1
  rw [hchannel] at hch
  have hmem : r ∈ lists.1 ++ lists.2 := hdivided.mem_iff.mpr
    (List.mem_flatMap.mpr ⟨_, List.mem_range.mpr hch, hbatched⟩)
  refine ⟨hactive, ?_⟩
  simp only [join, List.mem_append] at hmem ⊢
  exact hmem.imp .inr .inr

/-- All steps but the end of the iteration keep the initiated requests together. -/
theorem grouped_step (hv : Valid config v) (h : Grouped v) (hstep : Step config v c w)
    (hadd : ∀ x, c = .addRequest x → x.isInitiated = false) :
    Grouped w ∨ ¬ v.Waiting ∧ (∃ now, c = .cycle now) ∧ v.stage = .Finish ∧
      w = { v with requests := v.requests.endIteration } := by
  cases hstep with
  | addRequest x => exact .inl (grouped_addRequest hv h (hadd x rfl))
  | popCompletedRequest requests hpop =>
    unfold popCompletedRequest at hpop
    split at hpop
    · cases hpop
    · cases hpop
      exact .inl ⟨h.active, h.breqs⟩
  | wait now requests hbatches hlets =>
    rcases hbatches with ⟨henters, hinit⟩ | ⟨-, rfl⟩
    · have hall := grouped_init hv h henters hinit
      exact .inl ⟨fun _ r hr hi => (hall r hr hi).1, fun _ r hr hi => (hall r hr hi).2⟩
    · exact .inl h
  | endIteration now requests hbatches hlets hfinish =>
    have hnot : ¬ v.Waiting := fun hw => by
      rw [hw.2] at hfinish
      cases hfinish
    rcases hbatches with ⟨henters, -⟩ | ⟨-, rfl⟩
    · exact absurd ⟨henters.1, henters.2.1⟩ hnot
    · exact .inr ⟨hnot, ⟨now, rfl⟩, hfinish, rfl⟩
  | makeProgram now requests w hbatches hlets hfinish hmoved =>
    have hnotw := not_waiting_moved hmoved
    have hidle := letsMake_idle hlets
    obtain ⟨requestsw, stagew, idlew⟩ := w
    obtain rfl : requestsw = requests := hmoved.1
    refine .inl ⟨fun hw => absurd hw hnotw, fun _ => ?_⟩
    rcases hbatches with ⟨henters, hinit⟩ | ⟨hnot, rfl⟩
    · exact fun r hr hi => (grouped_init hv h henters hinit r hr hi).2
    · intro r hr hi
      refine h.breqs (fun hw => hnot ⟨hw.1, hw.2, ?_⟩) r hr hi
      exact List.ne_nil_of_mem hr
  | getTile => exact .inl h
  | finishTile now tile w hbusy hmoved =>
    have hnot : ¬ v.Waiting := fun hw => by
      rw [hw.1] at hbusy
      cases hbusy
    have hnotw := not_waiting_moved hmoved
    obtain ⟨requestsw, stagew, idlew⟩ := w
    obtain rfl : requestsw = v.requests := hmoved.1
    exact .inl ⟨fun hw => absurd hw hnotw, fun _ => h.breqs hnot⟩

end Control

end NewPims

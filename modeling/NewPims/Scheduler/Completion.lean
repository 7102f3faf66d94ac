import NewPims.Scheduler.Cleanup
import NewPims.Scheduler.Grouping

/-! Which requests the one iteration completes: those that come before its first programs, fit into
its batch and need one more token. -/
namespace NewPims

open RequestState
open Scheduler (Call)

namespace RequestState

variable {config : SimulationConfig} {s t : RequestState} {r : ℕ} {x : InferRequest}

section Single

/-- The queue holds the requests that one more iteration completes, and all of them fit into one
batch. -/
structure Single (s : RequestState) : Prop where
  queued : ∀ r < s.heap.length, r ∈ s.requestQueue ↔ Due (s.request r)
  due : ∀ r < s.heap.length, Due (s.request r) ∨
    (s.request r).outputSize ≤ (s.request r).generated
  short : s.requestQueue.length ≤ maxBatchSize

theorem single_addRequest (hs : s.Single) (hshort : s.requestQueue.length < maxBatchSize)
    (hx : Due x) : (s.addRequest x).Single := by
  have hlength : (s.addRequest x).heap.length = s.heap.length + 1 := List.length_append
  have hold : ∀ r < (s.addRequest x).heap.length, r < s.heap.length ∨ r = s.heap.length :=
    fun r hr => by omega
  refine ⟨fun r hr => ?_, fun r hr => ?_, ?_⟩
  · have hmem : r ∈ (s.addRequest x).requestQueue ↔ r ∈ s.requestQueue ∨ r = s.heap.length := by
      simp [addRequest]
    rw [hmem]
    rcases hold r hr with hr | rfl
    · rw [request_addRequest hr, ← hs.queued r hr]
      exact or_iff_left (Nat.ne_of_lt hr)
    · rw [request_addRequest_new]
      exact iff_of_true (.inr rfl) hx
  · rcases hold r hr with hr | rfl
    · rw [request_addRequest hr]
      exact hs.due r hr
    · rw [request_addRequest_new]
      exact .inl hx
  · rw [addRequest, List.length_append]
    exact hshort

theorem single_initBatches (hs : s.Single) (hqueues : s.Queues config) (hfew : s.FewActive)
    (hinit : s.initBatches config = .ok t) :
    t.Single ∧ t.requestQueue = s.requestQueue ∧
      t.completedRequestQueue = s.completedRequestQueue ∧ t.heap.length = s.heap.length ∧
      ∀ r ∈ t.requestQueue, (t.request r).isInitiated = true := by
  obtain ⟨-, lists, rfl, -⟩ := initBatches_ok hqueues hfew hinit
  obtain ⟨hqueue, hcompleted, -, -, hlength, -⟩ := activateAll_frame config s s.admitted
  have htokens := fun r => tokens_activateAll (r := r) hqueues
  have hdue : ∀ r, Due ((s.activateAll config s.admitted).request r) ↔ Due (s.request r) := fun r => by
    rw [Due, Due, (htokens r).1, (htokens r).2]
  refine ⟨⟨fun r hr => ?_, fun r hr => ?_, ?_⟩, hqueue, hcompleted, hlength, fun r hr => ?_⟩
  · change r ∈ (s.activateAll config s.admitted).requestQueue ↔
      Due ((s.activateAll config s.admitted).request r)
    rw [hqueue, hdue]
    exact hs.queued r (hr.trans_eq hlength)
  · change Due ((s.activateAll config s.admitted).request r) ∨
      ((s.activateAll config s.admitted).request r).outputSize ≤
        ((s.activateAll config s.admitted).request r).generated
    rw [hdue, (htokens r).1, (htokens r).2]
    exact hs.due r (hr.trans_eq hlength)
  · change (s.activateAll config s.admitted).requestQueue.length ≤ maxBatchSize
    rw [hqueue]
    exact hs.short
  · -- the batch is the whole queue
    have hbatch : r ∈ s.batch := by
      rw [batch, List.take_of_length_le hs.short, ← hqueue]
      exact hr
    exact initiated_activateAll hqueues hbatch

/-- If all queued requests are in the sub-batches, the end of the iteration returns all. -/
theorem single_endIteration (hs : s.Single) (hqueues : s.Queues config)
    (hlt : ∀ r ∈ s.breq1 ++ s.breq2, r < s.heap.length)
    (hplaced : ∀ r ∈ s.requestQueue, r ∈ s.breq1 ++ s.breq2) :
    s.endIteration.Single ∧ s.endIteration.requestQueue = [] ∧
      ∃ returned, s.endIteration.completedRequestQueue = s.completedRequestQueue ++ returned ∧
        returned.Perm s.requestQueue := by
  obtain ⟨returned, hcompleted, hnodup, hmem, hqueue, hall⟩ := cleanup_spec hlt hs.due
  rw [endIteration_eq]
  have hnil : (s.cleanupSubBatch (s.breq1 ++ s.breq2)).requestQueue = [] := by
    rw [List.eq_nil_iff_forall_not_mem]
    intro r hr
    obtain ⟨hold, hnot⟩ := hqueue r hr
    exact hnot (hplaced r hold) ((hs.queued r (hqueues.requestQueue_lt r hold)).mp hold)
  have hlength : (s.cleanupSubBatch (s.breq1 ++ s.breq2)).heap.length = s.heap.length :=
    (keeps_cleanupSubBatch _).length
  refine ⟨⟨fun r hr => ?_, fun r hr => ?_, ?_⟩, hnil, returned, hcompleted, ?_⟩
  · obtain ⟨hdue, -⟩ := hall r (hr.trans_eq hlength)
    change r ∈ (s.cleanupSubBatch (s.breq1 ++ s.breq2)).requestQueue ↔
      Due ((s.cleanupSubBatch (s.breq1 ++ s.breq2)).request r)
    rw [hnil, hdue]
    refine iff_of_false List.not_mem_nil fun h => h.2 (hplaced r ?_)
    exact (hs.queued r (hr.trans_eq hlength)).mpr h.1
  · exact (hall r (hr.trans_eq hlength)).2
  · change (s.cleanupSubBatch (s.breq1 ++ s.breq2)).requestQueue.length ≤ maxBatchSize
    rw [hnil]
    exact Nat.zero_le _
  · refine (List.perm_ext_iff_of_nodup hnodup hqueues.requestQueue_nodup).mpr fun r => ?_
    rw [hmem]
    constructor
    · rintro ⟨hr, hdue⟩
      exact (hs.queued r (hlt r hr)).mpr hdue
    · exact fun hr => ⟨hplaced r hr, (hs.queued r (hqueues.requestQueue_lt r hr)).mp hr⟩

end Single

end RequestState

namespace Control

variable {config : SimulationConfig} {v w : Control} {requests : RequestState} {c : Call}
  {past : List Call}

/-- A request is added before the first programs, while the batch has room for it, and the next
iteration completes it. -/
def InTime (v : Control) : Call → Prop
  | .addRequest x => v.Waiting ∧ v.requests.requestQueue.length < maxBatchSize ∧
      x.isInitiated = false ∧ Due x
  | _ => True

structure OneIteration (config : SimulationConfig) (v : Control) : Prop where
  valid : Valid config v
  grouped : Grouped v
  single : v.requests.Single
  placed : ¬ v.Waiting → ∀ r ∈ v.requests.requestQueue, r ∈ v.breqs.1 ++ v.breqs.2

def isPop : Call → Bool
  | .popCompletedRequest => true
  | _ => false

/-- Of the requests added so far each is popped, waits to be popped, or is queued. -/
def Ledger (past : List Call) (v : Control) : Prop :=
  ∃ popped : List ℕ, popped.length = past.countP isPop ∧
    (popped ++ v.requests.completedRequestQueue ++ v.requests.requestQueue).Perm
      (List.range v.requests.heap.length)

theorem ledger_of_perm (h : Ledger past v) (hc : isPop c = false)
    (hlength : w.requests.heap.length = v.requests.heap.length)
    (hperm : (w.requests.completedRequestQueue ++ w.requests.requestQueue).Perm
      (v.requests.completedRequestQueue ++ v.requests.requestQueue)) : Ledger (past ++ [c]) w := by
  obtain ⟨popped, hcount, hall⟩ := h
  refine ⟨popped, ?_, ?_⟩
  · rw [List.countP_append, List.countP_singleton, hc, hcount]
    rfl
  · rw [hlength]
    rw [List.append_assoc] at hall ⊢
    exact (hperm.append_left popped).trans hall

theorem ledger_addRequest (h : Ledger past v) (x : InferRequest) :
    Ledger (past ++ [.addRequest x]) { v with requests := v.requests.addRequest x } := by
  obtain ⟨popped, hcount, hall⟩ := h
  refine ⟨popped, ?_, ?_⟩
  · rw [List.countP_append, List.countP_singleton, hcount]
    rfl
  · dsimp only [addRequest]
    rw [List.length_append, List.length_singleton, List.range_succ, ← List.append_assoc]
    exact hall.append_right _

theorem ledger_pop (h : Ledger past v) (hpop : v.requests.popCompletedRequest = .ok requests) :
    Ledger (past ++ [.popCompletedRequest]) { v with requests } := by
  obtain ⟨popped, hcount, hall⟩ := h
  unfold popCompletedRequest at hpop
  split at hpop
  · cases hpop
  · next r rest hcompleted =>
    cases hpop
    refine ⟨popped ++ [r], ?_, ?_⟩
    · rw [List.countP_append, List.countP_singleton, List.length_append, hcount]
      rfl
    · rw [hcompleted] at hall
      simpa only [List.append_assoc, List.singleton_append] using hall

/-- Batching keeps the account of the requests, and where it takes place all become initiated. -/
theorem batches_single (h : OneIteration config v) (hbatches : v.Batches config requests) :
    requests.Single ∧ requests.requestQueue = v.requests.requestQueue ∧
      requests.completedRequestQueue = v.requests.completedRequestQueue ∧
      requests.heap.length = v.requests.heap.length ∧
      (v.Waiting → ∀ r ∈ requests.requestQueue, r ∈ requests.breq1 ++ requests.breq2) := by
  rcases hbatches with ⟨henters, hinit⟩ | ⟨hnot, rfl⟩
  · have hwaiting : v.Waiting := ⟨henters.1, henters.2.1⟩
    obtain ⟨hsingle, hqueue, hcompleted, hlength, hinitiated⟩ :=
      single_initBatches h.single h.valid.queues (h.valid.few hwaiting) hinit
    refine ⟨hsingle, hqueue, hcompleted, hlength, fun _ r hr => ?_⟩
    exact (grouped_init h.valid h.grouped henters hinit r hr (hinitiated r hr)).2
  · refine ⟨h.single, rfl, rfl, rfl, fun hwaiting r hr => absurd ⟨hwaiting.1, hwaiting.2, ?_⟩ hnot⟩
    exact List.ne_nil_of_mem hr

theorem oneIteration_initial : OneIteration config {} where
  valid := valid_initial
  grouped := grouped_initial
  single := ⟨fun r hr => absurd hr (Nat.not_lt_zero r), fun r hr => absurd hr (Nat.not_lt_zero r),
    Nat.zero_le _⟩
  placed := fun _ _ hr => absurd hr List.not_mem_nil

/-- The end of the iteration completes everything. -/
theorem oneIteration_end (h : OneIteration config v) (hledger : Ledger past v)
    (hnot : ¬ v.Waiting) (now : CycleType)
    (hvalid : Valid config { v with requests := v.requests.endIteration }) :
    OneIteration config { v with requests := v.requests.endIteration } ∧
      Ledger (past ++ [.cycle now]) { v with requests := v.requests.endIteration } := by
  obtain ⟨hsingle, hnil, returned, hcompleted, hreturned⟩ := single_endIteration h.single
    h.valid.queues (fun r hr => (h.valid.breqs r hr).1) (h.placed hnot)
  have hempty : ∀ r, r ∉ v.requests.endIteration.requestQueue := fun r hr => by
    rw [hnil] at hr
    cases hr
  refine ⟨⟨hvalid, ?_, hsingle, fun _ r hr => absurd hr (hempty r)⟩, ?_⟩
  · exact ⟨fun hw => absurd hw hnot, fun _ r hr => absurd hr (hempty r)⟩
  · refine ledger_of_perm hledger rfl keeps_endIteration.length ?_
    dsimp only
    rw [hnil, hcompleted, List.append_nil]
    exact hreturned.append_left _

theorem oneIteration_step (h : OneIteration config v) (hledger : Ledger past v)
    (hc : v.InTime c) (hstep : Step config v c w) :
    OneIteration config w ∧ Ledger (past ++ [c]) w := by
  have hvalid := valid_step h.valid hstep
  have hadd : ∀ x, c = .addRequest x → x.isInitiated = false := by
    rintro x rfl
    exact hc.2.2.1
  rcases grouped_step h.valid h.grouped hstep hadd with hgrouped | ⟨hnot, ⟨now, rfl⟩, -, rfl⟩
  · cases hstep with
    | addRequest x =>
      obtain ⟨hwaiting, hshort, hinit, hdue⟩ := hc
      refine ⟨⟨hvalid, hgrouped, single_addRequest h.single hshort hdue, ?_⟩,
        ledger_addRequest hledger x⟩
      exact fun hnot => absurd hwaiting hnot
    | popCompletedRequest requests hpop =>
      refine ⟨⟨hvalid, hgrouped, ?_, ?_⟩, ledger_pop hledger hpop⟩
      all_goals
        unfold popCompletedRequest at hpop
        split at hpop <;> cases hpop
      · exact ⟨h.single.queued, h.single.due, h.single.short⟩
      · exact h.placed
    | wait now requests hbatches hlets =>
      obtain ⟨hsingle, hqueue, hcompleted, hlength, -⟩ := batches_single h hbatches
      refine ⟨⟨hvalid, hgrouped, hsingle, fun hnot => ?_⟩, ?_⟩
      · rcases hbatches with ⟨henters, -⟩ | ⟨-, rfl⟩
        · exact absurd ⟨henters.1, henters.2.1⟩ hnot
        · exact h.placed hnot
      · refine ledger_of_perm hledger rfl hlength ?_
        dsimp only
        rw [hqueue, hcompleted]
    | endIteration now requests hbatches hlets hfinish =>
      have hnot : ¬ v.Waiting := fun hw => by
        rw [hw.2] at hfinish
        cases hfinish
      rcases hbatches with ⟨henters, -⟩ | ⟨-, rfl⟩
      · exact absurd ⟨henters.1, henters.2.1⟩ hnot
      · exact oneIteration_end h hledger hnot now hvalid
    | makeProgram now requests w hbatches hlets hfinish hmoved =>
      obtain ⟨hsingle, hqueue, hcompleted, hlength, hwaiting⟩ := batches_single h hbatches
      obtain ⟨requestsw, stagew, idlew⟩ := w
      obtain rfl : requestsw = requests := hmoved.1
      refine ⟨⟨hvalid, hgrouped, hsingle, fun _ => ?_⟩, ?_⟩
      · -- the requests were batched now or before
        by_cases hw : v.Waiting
        · exact hwaiting hw
        · rcases hbatches with ⟨henters, -⟩ | ⟨-, rfl⟩
          · exact absurd ⟨henters.1, henters.2.1⟩ hw
          · exact h.placed hw
      · refine ledger_of_perm hledger rfl hlength ?_
        dsimp only
        rw [hqueue, hcompleted]
    | getTile => exact ⟨h, ledger_of_perm hledger rfl rfl (.refl _)⟩
    | finishTile now tile w hbusy hmoved =>
      have hnot : ¬ v.Waiting := fun hw => by
        rw [hw.1] at hbusy
        cases hbusy
      obtain ⟨requestsw, stagew, idlew⟩ := w
      obtain rfl : requestsw = v.requests := hmoved.1
      exact ⟨⟨hvalid, hgrouped, h.single, fun _ => h.placed hnot⟩,
        ledger_of_perm hledger rfl rfl (.refl _)⟩
  · exact oneIteration_end h hledger hnot now hvalid

end Control

namespace Scheduler

open Transition

/-- If every request is in time, none is left when nothing more can happen: those added are those
completed, in the order of completion the ones popped first. -/
theorem no_request_stranded (cfg : SchedulerConfig) (cs : List Call) (S : Session)
    (hcalls : AllCalls (Session.step cfg) (fun S c => S.sched.control.InTime c) {} cs)
    (hrun : run (Session.step cfg) {} cs = .ok S) (hstage : S.sched.stage = .Finish)
    (hbreqs : S.sched.requests.breq1 = [] ∧ S.sched.requests.breq2 = []) :
    S.sched.requests.requestQueue = [] ∧
      ∃ popped : List ℕ, popped.length = cs.countP Control.isPop ∧
        (popped ++ S.sched.requests.completedRequestQueue).Perm
          (List.range S.sched.requests.heap.length) := by
  have hinitial : Control.OneIteration cfg.config ({} : Session).sched.control ∧
      Control.Ledger [] ({} : Session).sched.control :=
    ⟨Control.oneIteration_initial, [], rfl, .refl _⟩
  obtain ⟨hone, popped, hcount, hall⟩ := run_history
    (fun past S => Control.OneIteration cfg.config S.sched.control ∧
      Control.Ledger past S.sched.control) _
    (fun past S c T h hc hok => Control.oneIteration_step h.1 h.2 hc (step_control hok))
    hinitial hcalls hrun
  have hnil : S.sched.requests.requestQueue = [] := by
    rw [List.eq_nil_iff_forall_not_mem]
    intro r hr
    have hnot : ¬ S.sched.control.Waiting := fun hw => by
      have hinit : S.sched.stage = initStage := hw.2
      rw [hstage] at hinit
      cases hinit
    have hmem : r ∈ S.sched.requests.breq1 ++ S.sched.requests.breq2 := hone.placed hnot r hr
    rw [hbreqs.1, hbreqs.2] at hmem
    cases hmem
  change (popped ++ S.sched.requests.completedRequestQueue ++ S.sched.requests.requestQueue).Perm
    (List.range S.sched.requests.heap.length) at hall
  rw [hnil, List.append_nil] at hall
  exact ⟨hnil, popped, hcount, hall⟩

theorem no_request_stranded_sample : ∃ S : Session,
    run (Session.step sampleScheduler) {} (.addRequest sampleRequest :: iterationCalls) = .ok S ∧
      S.sched.requests.requestQueue = [] := by
  have hrun : (run (Session.step sampleScheduler) {}
      (.addRequest sampleRequest :: iterationCalls)).map (fun S =>
        (S.sched.stage, S.sched.requests.breq1, S.sched.requests.breq2)) =
      .ok (.Finish, [], []) := by decide
  obtain ⟨S, hS, hfacts⟩ := map_ok hrun
  simp only [Prod.mk.injEq] at hfacts
  obtain ⟨hstage, hbreqs⟩ := hfacts
  refine ⟨S, hS, (no_request_stranded sampleScheduler _ S ?_ hS hstage hbreqs).1⟩
  refine ⟨⟨⟨rfl, rfl⟩, by decide, rfl, rfl⟩, fun T _ => allCalls_of_forall fun c hc U => ?_⟩
  cases c with
  | addRequest x => simp [iterationCalls, onTile] at hc
  | _ => trivial

/-- A request of two tokens gets one and stays in the queue. -/
theorem request_stranded :
    ¬ ∀ (cfg : SchedulerConfig) (cs : List Call) (S : Session),
      run (Session.step cfg) {} cs = .ok S →
        (∀ x, .addRequest x ∈ cs → x.isInitiated = false ∧ x.generated < x.outputSize) →
        S.sched.stage = .Finish → S.sched.noProgram = true →
        S.sched.requests.breq1 = [] ∧ S.sched.requests.breq2 = [] →
        S.sched.requests.requestQueue = [] := by
  intro hall
  have hrun : (run (Session.step sampleScheduler) {}
      (.addRequest { sampleRequest with outputSize := 2 } :: iterationCalls)).map (fun S =>
        (S.sched.noProgram, S.sched.stage, S.sched.requests.breq1 ++ S.sched.requests.breq2,
          S.sched.requests.requestQueue)) = .ok (true, .Finish, [], [0]) := by decide
  obtain ⟨S, hS, hfacts⟩ := map_ok hrun
  simp only [Prod.mk.injEq, List.append_eq_nil_iff] at hfacts
  obtain ⟨hidle, hstage, hbreqs, hqueue⟩ := hfacts
  have hnil := hall sampleScheduler _ S hS (fun x hx => ?_) hstage hidle hbreqs
  · rw [hqueue] at hnil
    cases hnil
  · simp only [iterationCalls, onTile, List.mem_cons, List.mem_append, List.mem_flatMap,
      Call.addRequest.injEq, reduceCtorEq, List.not_mem_nil, or_self, and_false, exists_false,
      or_false] at hx
    rw [hx]
    exact ⟨rfl, by decide⟩

end Scheduler

end NewPims

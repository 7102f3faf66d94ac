import NewPims.Scheduler.Cleanup
import NewPims.Scheduler.Batches

/-! Requests of one token with ids of their own: each is queued until the end of the iteration
that served it, and the count of the active requests is right. -/
namespace NewPims

namespace RequestState

variable {config : SimulationConfig} {s t : RequestState} {r q : ℕ} {rs : List ℕ}

section Cleanup

/-- With ids of their own, just the cleaned requests leave the queue. -/
theorem cleanup_queued (hids : ∀ q < s.heap.length, (s.request q).id = q)
    (hlt : ∀ q ∈ s.requestQueue, q < s.heap.length) (hqueue : s.requestQueue.Nodup)
    (hnodup : rs.Nodup) (hrs : ∀ r ∈ rs, r ∈ s.requestQueue ∧ Due (s.request r)) :
    (s.cleanupSubBatch rs).completedRequestQueue = s.completedRequestQueue ++ rs ∧
      (s.cleanupSubBatch rs).requestQueue = s.requestQueue.filter (· ∉ rs) ∧
      (s.cleanupSubBatch rs).activeReqs = s.activeReqs - rs.length ∧
      ∀ q, (s.cleanupSubBatch rs).request q =
        if q ∈ rs then cleaned (s.request q) else s.request q := by
  induction rs generalizing s with
  | nil =>
    exact ⟨(List.append_nil _).symm, (List.filter_eq_self.mpr (by simp)).symm, rfl, fun _ => rfl⟩
  | cons r rs ih =>
    obtain ⟨hr, hrest⟩ := List.nodup_cons.mp hnodup
    obtain ⟨⟨hmem, hdue⟩, hrs⟩ := List.forall_mem_cons.mp hrs
    have hself := request_cleanup_self (hlt r hmem)
    have hne : ∀ {q}, q ≠ r → (s.cleanupRequest r).request q = s.request q := request_cleanup_ne
    -- no other request has its id
    have hfilter : (s.cleanupRequest r).requestQueue = s.requestQueue.filter (· ≠ r) := by
      rw [cleanupRequest_due hdue]
      refine List.filter_congr fun q hq => ?_
      rw [hids q (hlt q hq), hids r (hlt r hmem)]
    have hcount : (s.requestQueue.countP fun q => (s.request q).id = (s.request r).id) = 1 := by
      rw [← List.count_eq_one_of_mem hqueue hmem, List.count_eq_countP]
      refine List.countP_congr fun q hq => ?_
      rw [hids q (hlt q hq), hids r (hlt r hmem)]
      simp
    have hactive : (s.cleanupRequest r).activeReqs = s.activeReqs - 1 := by
      rw [cleanupRequest_due hdue]
      dsimp only
      rw [hcount]
    have hcompleted : (s.cleanupRequest r).completedRequestQueue =
        s.completedRequestQueue ++ [r] := by
      rw [cleanupRequest_due hdue]
    have hids' : ∀ q < (s.cleanupRequest r).heap.length,
        ((s.cleanupRequest r).request q).id = q := fun q hq =>
      (congrArg InferRequest.id (keeps_cleanupRequest.fixed q)).trans
        (hids q (hq.trans_eq heap_length_cleanup))
    have hlt' : ∀ q ∈ (s.cleanupRequest r).requestQueue, q < (s.cleanupRequest r).heap.length := by
      intro q hq
      rw [hfilter] at hq
      rw [heap_length_cleanup]
      exact hlt q (List.mem_filter.mp hq).1
    have hrs' : ∀ q ∈ rs, q ∈ (s.cleanupRequest r).requestQueue ∧
        Due ((s.cleanupRequest r).request q) := by
      intro q hq
      have hqr : q ≠ r := fun heq => hr (heq ▸ hq)
      rw [hfilter, hne hqr]
      exact ⟨List.mem_filter.mpr ⟨(hrs q hq).1, decide_eq_true hqr⟩, (hrs q hq).2⟩
    have hstep : (s.cleanupRequest r).cleanupSubBatch rs = s.cleanupSubBatch (r :: rs) := rfl
    obtain ⟨hcompleted', hqueue', hactive', hrequest⟩ :=
      ih hids' hlt' (hfilter ▸ hqueue.filter _) hrest hrs'
    rw [hstep] at hcompleted' hqueue' hactive' hrequest
    refine ⟨?_, ?_, ?_, fun q => ?_⟩
    · rw [hcompleted', hcompleted, List.append_assoc, List.singleton_append]
    · rw [hqueue', hfilter, List.filter_filter]
      refine List.filter_congr fun q _ => ?_
      simp only [List.mem_cons, not_or, Bool.decide_and, Bool.and_comm]
    · rw [hactive', hactive, List.length_cons]
      omega
    · rw [hrequest]
      by_cases hqr : q = r
      · subst hqr
        rw [if_neg hr, if_pos List.mem_cons_self, hself]
      · rw [hne hqr]
        simp only [List.mem_cons, hqr, false_or]

end Cleanup

section Batching

theorem countP_activateAll (h : s.Queues config) :
    (s.requestQueue.countP fun r => ((s.activateAll config s.admitted).request r).isInitiated) =
      (s.requestQueue.countP fun r => (s.request r).isInitiated) + s.admitted.length := by
  -- the requests after the batch are as they were
  have hsplit : s.batch ++ s.requestQueue.drop maxBatchSize = s.requestQueue :=
    List.take_append_drop _ _
  have hnodup := h.requestQueue_nodup
  rw [← hsplit] at hnodup ⊢
  have hbatch : (s.batch.countP fun r =>
      ((s.activateAll config s.admitted).request r).isInitiated) = s.batch.length :=
    List.countP_eq_length.mpr fun r hr => initiated_activateAll h hr
  have hrest : ((s.requestQueue.drop maxBatchSize).countP fun r =>
      ((s.activateAll config s.admitted).request r).isInitiated) =
        (s.requestQueue.drop maxBatchSize).countP fun r => (s.request r).isInitiated := by
    refine List.countP_congr fun r hr => ?_
    have hnot : r ∉ s.admitted := fun hadmitted =>
      (List.nodup_append.mp hnodup).2.2 r (mem_admitted.mp hadmitted).1 r hr rfl
    rw [request_activateAll config s r s.admitted (admitted_lt h), if_neg hnot]
  rw [List.countP_append, List.countP_append, hbatch, hrest, length_batch]
  omega

/-- A second batching would group the same requests. -/
theorem batched_activateAll (h : s.Queues config) :
    (s.activateAll config s.admitted).batched = s.batched := by
  obtain ⟨hqueue, -⟩ := activateAll_frame config s s.admitted
  have hnone : (s.activateAll config s.admitted).admitted = [] := by
    refine List.eq_nil_iff_forall_not_mem.mpr fun r hr => ?_
    obtain ⟨hbatch, hinit⟩ := mem_admitted.mp hr
    rw [batch, hqueue] at hbatch
    rw [initiated_activateAll h hbatch] at hinit
    cases hinit
  funext ch
  rw [batched, hnone, List.filter_nil, List.append_nil, activateAll_batched]

theorem divides_activateAll (h : s.Queues config) :
    Divides config (s.activateAll config s.admitted) ↔ Divides config s := by
  have hlatency : ∀ r, estimateMhaLatency config ((s.activateAll config s.admitted).request r) =
      estimateMhaLatency config (s.request r) :=
    fun r => latency_of_fixed (fixed_activateAll config s r s.admitted)
  simp only [Divides, batched_activateAll h, hlatency]

end Batching

/-- A step keeps what is fixed of the requests, and each is still queued or completed. -/
structure Kept (s t : RequestState) : Prop where
  length : t.heap.length = s.heap.length
  fixed : ∀ r, (t.request r).fixed = (s.request r).fixed
  perm : (t.completedRequestQueue ++ t.requestQueue).Perm
    (s.completedRequestQueue ++ s.requestQueue)

theorem kept_refl (s : RequestState) : Kept s s := ⟨rfl, fun _ => rfl, .refl _⟩

/-- Every request has an id of its own and needs one token, which it has got when it is completed;
the active requests are those initiated in the queue. -/
structure Account (s : RequestState) : Prop where
  id : ∀ r < s.heap.length, (s.request r).id = r
  outputSize : ∀ r < s.heap.length, (s.request r).outputSize = 1
  queued : ∀ r ∈ s.requestQueue, (s.request r).generated = 0
  done : ∀ r ∈ s.completedRequestQueue, r < s.heap.length ∧ (s.request r).generated = 1
  active : s.activeReqs = s.requestQueue.countP fun r => (s.request r).isInitiated
  few : s.activeReqs ≤ maxActiveReqs

theorem account_initial : Account {} where
  id := fun r hr => absurd hr (Nat.not_lt_zero r)
  outputSize := fun r hr => absurd hr (Nat.not_lt_zero r)
  queued := fun _ hr => absurd hr List.not_mem_nil
  done := fun _ hr => absurd hr List.not_mem_nil
  active := rfl
  few := Nat.zero_le _

section Account

variable {x : InferRequest}

theorem account_addRequest (h : s.Account) (hqueues : s.Queues config)
    (hid : x.id = s.heap.length) (hsize : x.outputSize = 1) (hgenerated : x.generated = 0)
    (hinit : x.isInitiated = false) : (s.addRequest x).Account := by
  have hlength : (s.addRequest x).heap.length = s.heap.length + 1 := List.length_append
  have hall : ∀ {P : ℕ → InferRequest → Prop}, (∀ r < s.heap.length, P r (s.request r)) →
      P s.heap.length x → ∀ r < (s.addRequest x).heap.length, P r ((s.addRequest x).request r) := by
    intro P hold hnew r hr
    rcases Nat.lt_succ_iff_lt_or_eq.mp (hlength ▸ hr) with hr | rfl
    · rw [request_addRequest hr]
      exact hold r hr
    · rw [request_addRequest_new]
      exact hnew
  refine ⟨hall (P := fun r y => y.id = r) h.id hid, hall (P := fun _ y => y.outputSize = 1)
    h.outputSize hsize, fun r hr => ?_, fun r hr => ?_, ?_, h.few⟩
  · rcases List.mem_append.mp hr with hr | hr
    · rw [request_addRequest (hqueues.requestQueue_lt r hr)]
      exact h.queued r hr
    · rw [List.mem_singleton.mp hr, request_addRequest_new]
      exact hgenerated
  · obtain ⟨hlt, hdone⟩ := h.done r hr
    rw [request_addRequest hlt, hlength]
    exact ⟨Nat.lt_succ_of_lt hlt, hdone⟩
  · have hcount : (s.requestQueue.countP fun r => ((s.addRequest x).request r).isInitiated) =
        s.requestQueue.countP fun r => (s.request r).isInitiated :=
      List.countP_congr fun r hr => by rw [request_addRequest (hqueues.requestQueue_lt r hr)]
    change s.activeReqs = (s.requestQueue ++ [s.heap.length]).countP _
    rw [List.countP_append, hcount, List.countP_singleton, request_addRequest_new, hinit, h.active]
    rfl

/-- Batching initiates no more requests than one batch has. -/
theorem account_initBatches (h : s.Account) (hqueues : s.Queues config) (hfew : s.FewActive)
    (hinit : s.initBatches config = .ok t) :
    t.Account ∧ Kept s t ∧ (∀ r ∈ t.batch, (t.request r).isInitiated = true) ∧
      t.requestQueue = s.requestQueue ∧ (Divides config t ↔ Divides config s) := by
  obtain ⟨-, lists, rfl, -⟩ := initBatches_ok hqueues hfew hinit
  obtain ⟨hqueue, hcompleted, -, -, hlength, hactive⟩ := activateAll_frame config s s.admitted
  have hfixed := fun r => fixed_activateAll config s r s.admitted
  have htokens := fun r => tokens_activateAll (r := r) hqueues
  have hkept : Kept s (s.activateAll config s.admitted) := ⟨hlength, hfixed, by rw [hqueue, hcompleted]⟩
  have haccount : (s.activateAll config s.admitted).Account := by
    refine ⟨fun r hr => ?_, fun r hr => ?_, fun r hr => ?_, fun r hr => ?_, ?_, ?_⟩
    · exact (congrArg InferRequest.id (hfixed r)).trans (h.id r (hr.trans_eq hlength))
    · exact (htokens r).1.trans (h.outputSize r (hr.trans_eq hlength))
    · rw [hqueue] at hr
      exact (htokens r).2.trans (h.queued r hr)
    · rw [hcompleted] at hr
      rw [hlength, (htokens r).2]
      exact h.done r hr
    · rw [hactive, hqueue, countP_activateAll hqueues, h.active]
    · have hbatch : s.batch.length ≤ maxActiveReqs := List.length_take_le _ _
      have hcount := length_batch (s := s)
      unfold FewActive at hfew
      rw [hactive]
      omega
  refine ⟨⟨haccount.id, haccount.outputSize, haccount.queued, haccount.done, haccount.active,
    haccount.few⟩, ⟨hkept.length, hkept.fixed, hkept.perm⟩, fun r hr => ?_, hqueue,
    divides_activateAll hqueues⟩
  have hbatch : r ∈ s.batch := by
    rw [batch, ← hqueue]
    exact hr
  exact initiated_activateAll hqueues hbatch

/-- The end of the iteration completes the requests of the sub-batches. -/
theorem account_endIteration (h : s.Account) (hqueues : s.Queues config)
    (hnodup : (s.breq1 ++ s.breq2).Nodup)
    (hbreqs : ∀ r ∈ s.breq1 ++ s.breq2, r ∈ s.requestQueue ∧ (s.request r).isInitiated = true) :
    s.endIteration.Account ∧ Kept s s.endIteration := by
  have hdue : ∀ r ∈ s.breq1 ++ s.breq2, r ∈ s.requestQueue ∧ Due (s.request r) := by
    intro r hr
    obtain ⟨hmem, -⟩ := hbreqs r hr
    refine ⟨hmem, ?_⟩
    rw [Due, h.outputSize r (hqueues.requestQueue_lt r hmem), h.queued r hmem]
  obtain ⟨hcompleted, hqueue, hactive, hrequest⟩ := cleanup_queued h.id hqueues.requestQueue_lt
    hqueues.requestQueue_nodup hnodup hdue
  have hkeeps := keeps_cleanupSubBatch (s := s) (s.breq1 ++ s.breq2)
  rw [endIteration_eq]
  -- the queue is split into what is cleaned up and what remains
  have hserved : (s.requestQueue.filter (· ∈ s.breq1 ++ s.breq2)).Perm (s.breq1 ++ s.breq2) := by
    refine (List.perm_ext_iff_of_nodup (hqueues.requestQueue_nodup.filter _) hnodup).mpr fun r => ?_
    rw [List.mem_filter, decide_eq_true_iff]
    exact ⟨And.right, fun hr => ⟨(hbreqs r hr).1, hr⟩⟩
  have hrest : (s.requestQueue.filter fun r => !decide (r ∈ s.breq1 ++ s.breq2)) =
      s.requestQueue.filter (· ∉ s.breq1 ++ s.breq2) :=
    List.filter_congr fun r _ => decide_not.symm
  have hsame : ∀ r ∈ s.requestQueue.filter (· ∉ s.breq1 ++ s.breq2),
      (s.cleanupSubBatch (s.breq1 ++ s.breq2)).request r = s.request r := fun r hr => by
    rw [hrequest, if_neg (of_decide_eq_true (List.mem_filter.mp hr).2)]
  refine ⟨⟨fun r hr => ?_, fun r hr => ?_, fun r hr => ?_, fun r hr => ?_, ?_, ?_⟩,
    hkeeps.length, hkeeps.fixed, ?_⟩
  · exact (congrArg InferRequest.id (hkeeps.fixed r)).trans (h.id r (hr.trans_eq hkeeps.length))
  · exact (congrArg InferRequest.outputSize (hkeeps.fixed r)).trans
      (h.outputSize r (hr.trans_eq hkeeps.length))
  · change r ∈ (s.cleanupSubBatch (s.breq1 ++ s.breq2)).requestQueue at hr
    change ((s.cleanupSubBatch (s.breq1 ++ s.breq2)).request r).generated = 0
    rw [hqueue] at hr
    rw [hsame r hr]
    exact h.queued r (List.mem_filter.mp hr).1
  · change r ∈ (s.cleanupSubBatch (s.breq1 ++ s.breq2)).completedRequestQueue at hr
    change r < (s.cleanupSubBatch (s.breq1 ++ s.breq2)).heap.length ∧
      ((s.cleanupSubBatch (s.breq1 ++ s.breq2)).request r).generated = 1
    rw [hcompleted] at hr
    rw [hkeeps.length, hrequest]
    rcases List.mem_append.mp hr with hr | hr
    · obtain ⟨hlt, hdone⟩ := h.done r hr
      refine ⟨hlt, ?_⟩
      rw [if_neg, hdone]
      intro hserved
      rw [h.queued r (hbreqs r hserved).1] at hdone
      cases hdone
    · refine ⟨hqueues.requestQueue_lt r (hbreqs r hr).1, ?_⟩
      rw [if_pos hr, cleaned, h.queued r (hbreqs r hr).1]
  · change (s.cleanupSubBatch (s.breq1 ++ s.breq2)).activeReqs =
      (s.cleanupSubBatch (s.breq1 ++ s.breq2)).requestQueue.countP fun r =>
        ((s.cleanupSubBatch (s.breq1 ++ s.breq2)).request r).isInitiated
    have hcount : ((s.requestQueue.filter (· ∉ s.breq1 ++ s.breq2)).countP fun r =>
        ((s.cleanupSubBatch (s.breq1 ++ s.breq2)).request r).isInitiated) =
          (s.requestQueue.filter (· ∉ s.breq1 ++ s.breq2)).countP fun r =>
            (s.request r).isInitiated :=
      List.countP_congr fun r hr => by rw [hsame r hr]
    have hall : ((s.breq1 ++ s.breq2).countP fun r => (s.request r).isInitiated) =
        (s.breq1 ++ s.breq2).length := List.countP_eq_length.mpr fun r hr => (hbreqs r hr).2
    rw [hactive, hqueue, hcount, h.active,
      List.countP_eq_countP_filter_add s.requestQueue _ fun r => decide (r ∈ s.breq1 ++ s.breq2),
      hserved.countP_eq, hall, hrest, Nat.add_sub_cancel_left]
  · change (s.cleanupSubBatch (s.breq1 ++ s.breq2)).activeReqs ≤ maxActiveReqs
    rw [hactive]
    exact (Nat.sub_le _ _).trans h.few
  · change ((s.cleanupSubBatch (s.breq1 ++ s.breq2)).completedRequestQueue ++
      (s.cleanupSubBatch (s.breq1 ++ s.breq2)).requestQueue).Perm _
    rw [hcompleted, hqueue, List.append_assoc, ← hrest]
    refine List.Perm.append_left _ ?_
    exact (hserved.symm.append_right _).trans (List.filter_append_perm _ _)

end Account

end RequestState

namespace Control

open RequestState
open Scheduler (Call Once initStage)

variable {config : SimulationConfig} {v w : Control} {requests : RequestState} {c : Call}

/-- Nothing has been batched yet. -/
structure Fresh (v : Control) : Prop where
  waiting : v.Waiting
  breqs : v.breqs = ([], [])
  active : ∀ ch, v.requests.activeRequestQueues ch = []
  activeReqs : v.requests.activeReqs = 0
  uninitiated : ∀ r ∈ v.requests.requestQueue, (v.requests.request r).isInitiated = false

/-- The batch does not fill both sub-batches, and stays as it is. -/
structure Stuck (config : SimulationConfig) (v : Control) : Prop where
  waiting : v.Waiting
  mode : config.subBatchMode = true
  divides : ¬ Divides config v.requests
  initiated : ∀ r ∈ v.requests.batch, (v.requests.request r).isInitiated = true

structure Delivery (config : SimulationConfig) (v : Control) : Prop where
  valid : Valid config v
  account : v.requests.Account
  waiting : v.Waiting → Fresh v ∨ Stuck config v
  running : ¬ v.Waiting → (v.breqs.1 ++ v.breqs.2).Nodup ∧
    ∀ r ∈ v.breqs.1 ++ v.breqs.2, r ∈ v.requests.requestQueue

theorem fresh_initial : Fresh {} :=
  ⟨⟨rfl, rfl⟩, rfl, fun _ => rfl, rfl, fun _ hr => absurd hr List.not_mem_nil⟩

theorem delivery_initial : Delivery config {} where
  valid := valid_initial
  account := account_initial
  waiting := fun _ => .inl fresh_initial
  running := fun hnot => absurd ⟨rfl, rfl⟩ hnot

theorem once_of_fresh (h : Fresh v) : Once v := by
  refine ⟨?_, fun _ => ⟨h.breqs, h.active⟩⟩
  rw [h.breqs]
  exact List.nodup_nil

theorem delivery_addRequest {x : InferRequest} (h : Delivery config v) (hfresh : Fresh v)
    (hid : x.id = v.requests.heap.length) (hsize : x.outputSize = 1) (hgenerated : x.generated = 0)
    (hinit : x.isInitiated = false) :
    Delivery config { v with requests := v.requests.addRequest x } ∧
      Fresh { v with requests := v.requests.addRequest x } := by
  have hnew : Fresh { v with requests := v.requests.addRequest x } := by
    refine ⟨hfresh.waiting, hfresh.breqs, hfresh.active, hfresh.activeReqs, fun r hr => ?_⟩
    rcases List.mem_append.mp hr with hr | hr
    · dsimp only
      rw [request_addRequest (h.valid.queues.requestQueue_lt r hr)]
      exact hfresh.uninitiated r hr
    · dsimp only
      rw [List.mem_singleton.mp hr, request_addRequest_new]
      exact hinit
  refine ⟨⟨valid_addRequest h.valid x, account_addRequest h.account h.valid.queues hid hsize
    hgenerated hinit, fun _ => .inl hnew, fun hnot => absurd hfresh.waiting hnot⟩, hnew⟩

/-- The popped request has its token. -/
theorem delivery_pop (h : Delivery config v) {r : ℕ} {rest : List ℕ}
    (hcompleted : v.requests.completedRequestQueue = r :: rest) :
    ((v.requests.request r).generated = (v.requests.request r).outputSize) ∧
      Delivery config
        { v with requests := { v.requests with completedRequestQueue := rest } } := by
  have hpop : v.requests.popCompletedRequest =
      .ok { v.requests with completedRequestQueue := rest } := by
    rw [popCompletedRequest, hcompleted]
  have hvalid := valid_step h.valid (.popCompletedRequest _ hpop)
  have hmem : ∀ q, q ∈ r :: rest → q ∈ v.requests.completedRequestQueue := fun q hq =>
    hcompleted ▸ hq
  obtain ⟨hlt, hdone⟩ := h.account.done r (hmem r List.mem_cons_self)
  refine ⟨hdone.trans (h.account.outputSize r hlt).symm, hvalid, ?_, ?_, h.running⟩
  · exact ⟨h.account.id, h.account.outputSize, h.account.queued,
      fun q hq => h.account.done q (hmem q (List.mem_cons_of_mem r hq)), h.account.active,
      h.account.few⟩
  · intro hwaiting
    refine (h.waiting hwaiting).imp (fun hfresh => ?_) fun hstuck => ?_
    · exact ⟨hfresh.waiting, hfresh.breqs, hfresh.active, hfresh.activeReqs, hfresh.uninitiated⟩
    · exact ⟨hstuck.waiting, hstuck.mode, hstuck.divides, hstuck.initiated⟩

/-- In the first stage a fresh batch is batched, or the batch is stuck. -/
theorem init_cases (h : Delivery config v) (henters : v.Enters)
    (hinit : v.requests.initBatches config = .ok requests) :
    letsMake config v.idle requests = true ∧ Fresh v ∨
      letsMake config v.idle requests = false ∧ Stuck config { v with requests } := by
  have hwaiting : v.Waiting := ⟨henters.1, henters.2.1⟩
  obtain ⟨-, -, hinitiated, -, hdivides⟩ :=
    account_initBatches h.account h.valid.queues (h.valid.few hwaiting) hinit
  rw [henters.1]
  cases hmode : config.subBatchMode with
  | true =>
    have hmake := letsMake_init h.valid hwaiting hinit hmode
    cases hlets : letsMake config true requests with
    | true =>
      refine .inl ⟨rfl, (h.waiting hwaiting).resolve_right fun hstuck => ?_⟩
      exact hstuck.divides (hmake.mp hlets)
    | false =>
      refine .inr ⟨rfl, ⟨rfl, hwaiting.2⟩, hmode, fun hdiv => ?_, hinitiated⟩
      rw [hmake.mpr (hdivides.mp hdiv)] at hlets
      cases hlets
  | false =>
    have hfresh : Fresh v := (h.waiting hwaiting).resolve_right fun hstuck => by
      rw [hstuck.mode] at hmode
      cases hmode
    refine .inl ⟨?_, hfresh⟩
    obtain ⟨hadmissible, -⟩ := initBatches_ok h.valid.queues (h.valid.few hwaiting) hinit
    obtain ⟨hdivided, -⟩ := Scheduler.init_lists h.valid (once_of_fresh hfresh) henters hinit
    -- the first request of the queue is batched
    obtain ⟨r, rest, hqueue⟩ := List.exists_cons_of_ne_nil henters.2.2
    have hr : r ∈ v.requests.requestQueue := hqueue ▸ List.mem_cons_self
    have hbatch : r ∈ v.requests.batch := by
      rw [batch, hqueue]
      exact List.mem_cons_self
    have hnot := hfresh.uninitiated r hr
    have hch : (v.requests.request r).channel < config.dramChannels := by
      rcases (hadmissible r hbatch).2 with hinitiated | hch
      · rw [hnot] at hinitiated
        cases hinitiated
      · exact hch
    have hmem : r ∈ allBatched config v.requests := by
      refine List.mem_flatMap.mpr ⟨_, List.mem_range.mpr hch, List.mem_append_right _ ?_⟩
      exact List.mem_filter.mpr ⟨mem_admitted.mpr ⟨hbatch, hnot⟩, decide_eq_true rfl⟩
    rw [letsMake_one hmode]
    rcases List.mem_append.mp (hdivided.mem_iff.mpr hmem) with hmem | hmem
    · exact .inl (List.ne_nil_of_mem hmem)
    · exact .inr (List.ne_nil_of_mem hmem)

theorem batches_account (h : Delivery config v) (hbatches : v.Batches config requests) :
    requests.Account ∧ Kept v.requests requests := by
  rcases hbatches with ⟨henters, hinit⟩ | ⟨-, rfl⟩
  · obtain ⟨haccount, hkept, -⟩ := account_initBatches h.account h.valid.queues
      (h.valid.few ⟨henters.1, henters.2.1⟩) hinit
    exact ⟨haccount, hkept⟩
  · exact ⟨h.account, kept_refl _⟩

/-- The sub-batches that programs are made of hold queued requests, each once. -/
theorem batches_running (h : Delivery config v) (hbatches : v.Batches config requests)
    (hlets : letsMake config v.idle requests = true) :
    (requests.breq1 ++ requests.breq2).Nodup ∧
      ∀ r ∈ requests.breq1 ++ requests.breq2, r ∈ requests.requestQueue := by
  rcases hbatches with ⟨henters, hinit⟩ | ⟨hnot, rfl⟩
  · obtain ⟨-, hfresh⟩ := (init_cases h henters hinit).resolve_right fun hstuck => by
      rw [hstuck.1] at hlets
      cases hlets
    have honce := once_of_fresh hfresh
    obtain ⟨-, -, -, hqueue, -⟩ := account_initBatches h.account h.valid.queues
      (h.valid.few hfresh.waiting) hinit
    obtain ⟨hdivided, -⟩ := Scheduler.init_lists h.valid honce henters hinit
    refine ⟨hdivided.nodup_iff.mpr (allBatched_nodup h.valid.queues), fun r hr => ?_⟩
    obtain ⟨ch, -, hmem⟩ := List.mem_flatMap.mp (hdivided.mem_iff.mp hr)
    rw [batched, hfresh.active, List.nil_append] at hmem
    rw [hqueue]
    exact List.mem_of_mem_take (mem_admitted.mp (List.mem_filter.mp hmem).1).1
  · by_cases hwaiting : v.Waiting
    · -- without requests in the queue the sub-batches are empty
      have hnil : v.requests.requestQueue = [] := by
        by_contra hne
        exact hnot ⟨hwaiting.1, hwaiting.2, hne⟩
      obtain ⟨h1, h2⟩ := Prod.mk.inj (h.valid.queued hwaiting hnil)
      rw [h1, h2]
      exact ⟨List.nodup_nil, fun r hr => absurd hr List.not_mem_nil⟩
    · exact h.running hwaiting

theorem delivery_step (h : Delivery config v) (hstep : Step config v c w)
    (hadd : ∀ x, c ≠ .addRequest x) (hpop : c ≠ .popCompletedRequest) :
    Delivery config w ∧ Kept v.requests w.requests := by
  have hvalid := valid_step h.valid hstep
  cases hstep with
  | addRequest x => exact absurd rfl (hadd x)
  | popCompletedRequest => exact absurd rfl hpop
  | wait now requests hbatches hlets =>
    obtain ⟨haccount, hkept⟩ := batches_account h hbatches
    refine ⟨⟨hvalid, haccount, fun hwaiting => ?_, fun hnot => ?_⟩, hkept⟩
    · rcases hbatches with ⟨henters, hinit⟩ | ⟨-, rfl⟩
      · refine .inr ((init_cases h henters hinit).resolve_left fun hmade => ?_).2
        rw [hmade.1] at hlets
        cases hlets
      · exact h.waiting hwaiting
    · rcases hbatches with ⟨henters, -⟩ | ⟨-, rfl⟩
      · exact absurd ⟨henters.1, henters.2.1⟩ hnot
      · exact h.running hnot
  | endIteration now requests hbatches hlets hfinish =>
    have hnot : ¬ v.Waiting := fun hw => by
      rw [hw.2] at hfinish
      cases hfinish
    rcases hbatches with ⟨henters, -⟩ | ⟨-, rfl⟩
    · exact absurd ⟨henters.1, henters.2.1⟩ hnot
    obtain ⟨hnodup, hqueued⟩ := h.running hnot
    obtain ⟨haccount, hkept⟩ := account_endIteration h.account h.valid.queues hnodup
      fun r hr => ⟨hqueued r hr, (h.valid.breqs r hr).2⟩
    refine ⟨⟨hvalid, haccount, fun hw => absurd hw hnot, fun _ => ?_⟩, hkept⟩
    exact ⟨List.nodup_nil, fun r hr => absurd hr List.not_mem_nil⟩
  | makeProgram now requests w hbatches hlets hfinish hmoved =>
    obtain ⟨haccount, hkept⟩ := batches_account h hbatches
    have hrunning := batches_running h hbatches hlets
    have hnotw := not_waiting_moved hmoved
    obtain ⟨requestsw, stagew, idlew⟩ := w
    obtain rfl : requestsw = requests := hmoved.1
    exact ⟨⟨hvalid, haccount, fun hw => absurd hw hnotw, fun _ => hrunning⟩, hkept⟩
  | getTile => exact ⟨h, kept_refl _⟩
  | finishTile now tile w hbusy hmoved =>
    have hnot : ¬ v.Waiting := fun hw => by
      rw [hw.1] at hbusy
      cases hbusy
    have hnotw := not_waiting_moved hmoved
    obtain ⟨requestsw, stagew, idlew⟩ := w
    obtain rfl : requestsw = v.requests := hmoved.1
    exact ⟨⟨hvalid, h.account, fun hw => absurd hw hnotw, fun _ => h.running hnot⟩, kept_refl _⟩

/-- Before any request is queued nothing happens. -/
theorem fresh_step (hfresh : Fresh v) (hnil : v.requests.requestQueue = [])
    (hstep : Step config v c w) (hadd : ∀ x, c ≠ .addRequest x)
    (hpop : c ≠ .popCompletedRequest) : w = v := by
  have hbatches : ∀ {requests}, v.Batches config requests → requests = v.requests := by
    rintro requests (⟨henters, -⟩ | ⟨-, rfl⟩)
    · exact absurd hnil henters.2.2
    · rfl
  have hlets : letsMake config v.idle v.requests = false := by
    obtain ⟨h1, h2⟩ := Prod.mk.inj hfresh.breqs
    rw [letsMake, h1, h2]
    cases config.subBatchMode <;> simp
  cases hstep with
  | addRequest x => exact absurd rfl (hadd x)
  | popCompletedRequest => exact absurd rfl hpop
  | wait now requests hb =>
    rw [hbatches hb]
  | endIteration now requests hb hmake =>
    rw [hbatches hb, hlets] at hmake
    cases hmake
  | makeProgram now requests w hb hmake =>
    rw [hbatches hb, hlets] at hmake
    cases hmake
  | getTile => rfl
  | finishTile now tile w hbusy =>
    rw [hfresh.waiting.1] at hbusy
    cases hbusy

end Control

end NewPims

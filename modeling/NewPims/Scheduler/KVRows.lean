import NewPims.Scheduler.Cleanup
import NewPims.Scheduler.KVCache

/-! The rows of the KV cache: they are free or held by queued requests, until a request that holds
rows is completed. -/
namespace NewPims

open RequestState Transition
open Scheduler (Call Session initStage)

namespace Control

variable {config : SimulationConfig} {v w : Control} {c : Call}

/-- A call adds a request, leaves the queue as it is, or ends the iteration. -/
theorem queue_step (hv : Valid config v) (hstep : Step config v c w) :
    (∃ x, c = .addRequest x ∧ w.requests = v.requests.addRequest x) ∨
      (w.requests.requestQueue = v.requests.requestQueue ∧
        w.requests.heap.length = v.requests.heap.length) ∨
      v.stage = .Finish ∧ (∃ now, c = .cycle now) ∧ w.requests = v.requests.endIteration := by
  have hbatches : ∀ {requests}, v.Batches config requests →
      requests.requestQueue = v.requests.requestQueue ∧
        requests.heap.length = v.requests.heap.length := by
    rintro requests (⟨henters, hinit⟩ | ⟨-, rfl⟩)
    · obtain ⟨-, lists, rfl, -⟩ :=
        initBatches_ok hv.queues (hv.few ⟨henters.1, henters.2.1⟩) hinit
      obtain ⟨hqueue, -, -, -, hlength, -⟩ := activateAll_frame config v.requests v.requests.admitted
      exact ⟨hqueue, hlength⟩
    · exact ⟨rfl, rfl⟩
  cases hstep with
  | addRequest x => exact .inl ⟨x, rfl, rfl⟩
  | popCompletedRequest requests hpop =>
    unfold popCompletedRequest at hpop
    split at hpop
    · cases hpop
    · cases hpop
      exact .inr (.inl ⟨rfl, rfl⟩)
  | wait now requests h => exact .inr (.inl (hbatches h))
  | endIteration now requests h hlets hfinish =>
    refine .inr (.inr ⟨hfinish, ⟨now, rfl⟩, ?_⟩)
    rcases h with ⟨henters, -⟩ | ⟨-, rfl⟩
    · rw [henters.2.1] at hfinish
      cases hfinish
    · rfl
  | makeProgram now requests w h hlets hfinish hmoved =>
    rw [hmoved.1]
    exact .inr (.inl (hbatches h))
  | getTile => exact .inr (.inl ⟨rfl, rfl⟩)
  | finishTile now tile w hbusy hmoved =>
    rw [hmoved.1]
    exact .inr (.inl ⟨rfl, rfl⟩)

end Control

namespace KVSession

open KVCache (rowsOf)
open KVCacheAlloc (initPimLayout rowPerBank)

variable {cfg : SchedulerConfig} {baseAddr : AddrType} {X Y : KVSession} {c : Call}
  {cs : List Call}

def requests (X : KVSession) : RequestState := X.session.sched.requests

/-- The rows of a channel that the queued requests hold. -/
def held (X : KVSession) (ch : ℕ) : List ℕ :=
  Bank.contents X.requests.requestQueue (X.kv.rowsOf · ch)

/-- The clean-up of the last stage completes no request that holds rows. -/
def KeepsRows (X : KVSession) : Call → Prop
  | .cycle _ => X.session.sched.stage = .Finish →
      ∀ r ∈ X.requests.requestQueue, (∃ ch, X.kv.rowsOf r ch ≠ []) →
        ∀ q ∈ X.requests.breq1 ++ X.requests.breq2,
          (X.requests.request q).id = (X.requests.request r).id →
            ¬ Completes X.requests (X.requests.breq1 ++ X.requests.breq2) q
  | _ => True

structure Tensors (cfg : SchedulerConfig) (X : KVSession) : Prop where
  valid : Control.Valid cfg.config X.session.sched.control
  /-- Requests that are not there yet have no tensors. -/
  fresh : ∀ r, X.requests.heap.length ≤ r → X.kv.kCache r = [] ∧ X.kv.vCache r = []

theorem tensors_start : Tensors cfg (start cfg.config baseAddr) :=
  ⟨Control.valid_initial, fun _ _ => ⟨rfl, rfl⟩⟩

theorem rowsOf_fresh (h : Tensors cfg X) {r : ℕ} (ch : ℕ) (hr : X.requests.heap.length ≤ r) :
    X.kv.rowsOf r ch = [] := by
  rw [rowsOf, (h.fresh r hr).1, (h.fresh r hr).2]
  rfl

/-- The allocation of a call moves rows from the free ones to queued requests. -/
theorem allocation_moves (h : Tensors cfg X) (hstep : X.step cfg c = .ok Y) :
    (∀ ch, (Y.kv.account X.requests.requestQueue ch).Perm
      (X.kv.account X.requests.requestQueue ch)) ∧
      ∀ q, q ∉ X.requests.requestQueue →
        Y.kv.kCache q = X.kv.kCache q ∧ Y.kv.vCache q = X.kv.vCache q := by
  obtain ⟨-, ⟨-, t, hloop⟩ | ⟨-, hkv⟩⟩ := step_ok hstep
  · exact KVCache.account_allocateLoop hloop h.valid.queues.requestQueue_nodup fun _ hr => hr
  · rw [hkv]
    exact ⟨fun _ => .refl _, fun _ _ => ⟨rfl, rfl⟩⟩

/-- In the last stage nothing is allocated. -/
theorem kv_of_finish (hstep : X.step cfg c = .ok Y) (hfinish : X.session.sched.stage = .Finish) :
    Y.kv = X.kv := by
  obtain ⟨-, ⟨hallocates, -⟩ | ⟨-, hkv⟩⟩ := step_ok hstep
  · cases c with
    | cycle now =>
      have hinit := (of_decide_eq_true hallocates).2.1
      rw [hfinish] at hinit
      cases hinit
    | _ => cases hallocates
  · exact hkv

/-- The requests that the end of an iteration removes hold no rows, if the condition is met. -/
theorem rowsOf_removed (h : Tensors cfg X) {now : CycleType} (hkeeps : X.KeepsRows (.cycle now))
    (hfinish : X.session.sched.stage = .Finish) {r : ℕ} (hr : r ∈ X.requests.requestQueue)
    (hremoved : r ∉ X.requests.endIteration.requestQueue) (ch : ℕ) : X.kv.rowsOf r ch = [] := by
  rw [endIteration_eq] at hremoved
  obtain ⟨q, hq, hid, hcompletes⟩ :=
    removed_cleanup (fun q hq => (h.valid.breqs q hq).1) hr hremoved
  by_contra hrows
  exact hkeeps hfinish r hr ⟨ch, hrows⟩ q hq hid hcompletes

/-- What the queued requests hold after a call: nothing is lost if the condition is met. -/
theorem held_step (h : Tensors cfg X) (hstep : X.step cfg c = .ok Y) (ch : ℕ) :
    (Y.held ch).Sublist (Bank.contents X.requests.requestQueue (Y.kv.rowsOf · ch)) ∧
      (X.KeepsRows c → Y.held ch = Bank.contents X.requests.requestQueue (Y.kv.rowsOf · ch)) := by
  obtain ⟨hsession, halloc⟩ := step_ok hstep
  have hcontrol := Scheduler.step_control hsession
  rcases Control.queue_step h.valid hcontrol with
    ⟨x, rfl, hadd⟩ | ⟨hqueue, -⟩ | ⟨hfinish, ⟨now, rfl⟩, hend⟩
  · have hqueue : Y.requests.requestQueue =
        X.requests.requestQueue ++ [X.requests.heap.length] :=
      congrArg RequestState.requestQueue hadd
    have hkv : Y.kv = X.kv := by
      rcases halloc with ⟨hallocates, -⟩ | ⟨-, hkv⟩
      · cases hallocates
      · exact hkv
    -- the new request has no tensors yet
    have heq : Y.held ch = Bank.contents X.requests.requestQueue (Y.kv.rowsOf · ch) := by
      have hnew := rowsOf_fresh h ch (Nat.le_refl X.requests.heap.length)
      rw [held, hqueue, hkv, Bank.contents, List.flatMap_append, List.flatMap_singleton, hnew,
        List.append_nil, Bank.contents]
    exact ⟨heq ▸ List.Sublist.refl _, fun _ => heq⟩
  · have hqueue' : Y.requests.requestQueue = X.requests.requestQueue := hqueue
    rw [held, hqueue']
    exact ⟨List.Sublist.refl _, fun _ => rfl⟩
  · have hqueue : Y.requests.requestQueue = X.requests.endIteration.requestQueue :=
      congrArg RequestState.requestQueue hend
    have hsub : Y.requests.requestQueue.Sublist X.requests.requestQueue := by
      rw [hqueue]
      exact keeps_endIteration.requestQueue
    refine ⟨Bank.contents_sublist hsub, fun hkeeps => ?_⟩
    refine Bank.contents_of_sublist hsub h.valid.queues.requestQueue_nodup fun r hr hnot => ?_
    rw [hqueue] at hnot
    rw [kv_of_finish hstep hfinish]
    exact rowsOf_removed h hkeeps hfinish hr hnot ch

theorem tensors_step (h : Tensors cfg X) (hstep : X.step cfg c = .ok Y) : Tensors cfg Y := by
  obtain ⟨hsession, -⟩ := step_ok hstep
  have hcontrol := Scheduler.step_control hsession
  refine ⟨Control.valid_step h.valid hcontrol, fun r hr => ?_⟩
  have hlength : X.requests.heap.length ≤ Y.requests.heap.length := by
    rcases Control.queue_step h.valid hcontrol with
      ⟨x, -, hadd⟩ | ⟨-, hlength⟩ | ⟨-, -, hend⟩
    · have hheap : Y.requests.heap.length = X.requests.heap.length + 1 :=
        (congrArg (·.heap.length) hadd).trans List.length_append
      omega
    · exact Nat.le_of_eq hlength.symm
    · have hheap : Y.requests.heap.length = X.requests.heap.length :=
        (congrArg (·.heap.length) hend).trans keeps_endIteration.length
      omega
  have hout : r ∉ X.requests.requestQueue := fun hmem => by
    have hlt : r < X.requests.heap.length := h.valid.queues.requestQueue_lt r hmem
    omega
  obtain ⟨hk, hv⟩ := (allocation_moves h hstep).2 r hout
  obtain ⟨hk', hv'⟩ := h.fresh r (by omega)
  exact ⟨hk.trans hk', hv.trans hv'⟩

/-- The free rows and the rows held are rows of the channel, none of them twice; as long as the
condition is met they are all of them. -/
theorem account_step (h : Tensors cfg X) (hstep : X.step cfg c = .ok Y) (ch : ℕ) :
    (Y.kv.alloc.rows ch ++ Y.held ch).Subperm (X.kv.alloc.rows ch ++ X.held ch) ∧
      (X.KeepsRows c →
        (Y.kv.alloc.rows ch ++ Y.held ch).Perm (X.kv.alloc.rows ch ++ X.held ch)) := by
  have hmoves := (allocation_moves h hstep).1 ch
  obtain ⟨hsub, heq⟩ := held_step h hstep ch
  refine ⟨(hsub.append_left _).subperm.trans hmoves.subperm, fun hkeeps => ?_⟩
  rw [heq hkeeps]
  exact hmoves

theorem account_run (hrun : run (step cfg) (start cfg.config baseAddr) cs = .ok X) (ch : ℕ) :
    (X.kv.alloc.rows ch ++ X.held ch).Subperm ((initPimLayout cfg.config baseAddr).rows ch) := by
  have hinvariant := run_invariant
    (fun X : KVSession => Tensors cfg X ∧ (X.kv.alloc.rows ch ++ X.held ch).Subperm
      ((initPimLayout cfg.config baseAddr).rows ch))
    (fun X c Y h hok => ⟨tensors_step h.1 hok, (account_step h.1 hok ch).1.trans h.2⟩)
    ⟨tensors_start, by rw [held]; exact (List.append_nil _).symm ▸ List.Subperm.refl _⟩ hrun
  exact hinvariant.2

/-- In all runs no row is handed out twice. -/
theorem rows_nodup (cfg : SchedulerConfig) (baseAddr : AddrType) (cs : List Call) (X : KVSession)
    (hrun : run (step cfg) (start cfg.config baseAddr) cs = .ok X) (ch : ℕ) :
    (X.kv.alloc.rows ch ++ X.held ch).Nodup := by
  obtain ⟨l, hperm, hsub⟩ := account_run hrun ch
  exact hperm.nodup_iff.mp ((KVCacheAlloc.initPimLayout_rows baseAddr ch).1.sublist hsub)

/-- The tensors of queued requests hold rows of a bank, as the kernels on them rely on. -/
theorem tensor_rows_lt (cfg : SchedulerConfig) (baseAddr : AddrType) (cs : List Call)
    (X : KVSession) (hrun : run (step cfg) (start cfg.config baseAddr) cs = .ok X) (r : ℕ)
    (hr : r ∈ X.requests.requestQueue) (t : PIMTensor) (ht : t ∈ X.kv.kCache r ++ X.kv.vCache r) :
    ∀ row ∈ t.rows, row < rowPerBank := by
  intro row hrow
  have hrows : row ∈ X.kv.rowsOf r t.ch :=
    List.mem_flatMap.mpr ⟨t, List.mem_filter.mpr ⟨ht, decide_eq_true rfl⟩, hrow⟩
  have hheld : row ∈ X.held t.ch := Bank.mem_contents.mpr ⟨r, hr, hrows⟩
  have hinit := (account_run hrun t.ch).subset (List.mem_append_right _ hheld)
  exact (KVCacheAlloc.initPimLayout_rows baseAddr t.ch).2 row hinit

/-- If no request that holds rows is completed, the rows are conserved. -/
theorem rows_conserved (cfg : SchedulerConfig) (baseAddr : AddrType) (cs : List Call)
    (X : KVSession) (hcalls : AllCalls (step cfg) KeepsRows (start cfg.config baseAddr) cs)
    (hrun : run (step cfg) (start cfg.config baseAddr) cs = .ok X) (ch : ℕ) :
    (X.kv.alloc.rows ch ++ X.held ch).Perm ((initPimLayout cfg.config baseAddr).rows ch) ∧
      (X.held ch).Nodup := by
  have hinvariant := run_invariant_of
    (fun X : KVSession => Tensors cfg X ∧ (X.kv.alloc.rows ch ++ X.held ch).Perm
      ((initPimLayout cfg.config baseAddr).rows ch)) KeepsRows
    (fun X c Y h hc hok => ⟨tensors_step h.1 hok, ((account_step h.1 hok ch).2 hc).trans h.2⟩)
    ⟨tensors_start, by rw [held]; exact (List.append_nil _).symm ▸ List.Perm.refl _⟩ hcalls hrun
  refine ⟨hinvariant.2, ?_⟩
  have hnodup := hinvariant.2.nodup_iff.mpr (KVCacheAlloc.initPimLayout_rows baseAddr ch).1
  exact hnodup.sublist (List.sublist_append_right _ _)

/-- No clean-up completes a request. -/
def CompletesNone (X : KVSession) (_ : Call) : Prop :=
  X.session.sched.stage = .Finish → ∀ q ∈ X.requests.breq1 ++ X.requests.breq2,
    ¬ Completes X.requests (X.requests.breq1 ++ X.requests.breq2) q

instance (X : KVSession) (c : Call) : Decidable (CompletesNone X c) := by
  unfold CompletesNone Completes
  infer_instance

theorem keepsRows_of_none {X : KVSession} {c : Call} (h : CompletesNone X c) : KeepsRows X c := by
  cases c with
  | cycle now => exact fun hfinish _ _ _ q hq _ => h hfinish q hq
  | _ => trivial

/-- A request of two tokens keeps its rows through the clean-up after the first one. -/
def twoTokenCalls : List Call :=
  .addRequest { Scheduler.sampleRequest with outputSize := 2 } :: Scheduler.iterationCalls

theorem rows_conserved_admitted : ∃ X : KVSession,
    run (step Scheduler.sampleScheduler) (start Scheduler.sampleScheduler.config sampleBaseAddr)
      twoTokenCalls = .ok X ∧
      X.session.sched.stage = .Finish ∧ X.requests.breq1 = [] ∧ (X.held 0).length = 9 ∧
      (X.kv.alloc.rows 0 ++ X.held 0).Perm
        ((initPimLayout Scheduler.sampleScheduler.config sampleBaseAddr).rows 0) := by
  have hrun : (run (step Scheduler.sampleScheduler)
      (start Scheduler.sampleScheduler.config sampleBaseAddr) twoTokenCalls).map (fun X =>
        (X.session.sched.stage, X.requests.breq1, (X.held 0).length)) =
      .ok (.Finish, [], 9) := by decide +kernel
  obtain ⟨X, hX, hfacts⟩ := map_ok hrun
  simp only [Prod.mk.injEq] at hfacts
  obtain ⟨hstage, hbreq1, hlength⟩ := hfacts
  have hnone : AllCalls (step Scheduler.sampleScheduler) CompletesNone
      (start Scheduler.sampleScheduler.config sampleBaseAddr) twoTokenCalls := by decide +kernel
  exact ⟨X, hX, hstage, hbreq1, hlength, (rows_conserved Scheduler.sampleScheduler sampleBaseAddr
    _ X (allCalls_mono (fun _ _ => keepsRows_of_none) hnone) hX 0).1⟩

/-- The rows of a request are lost when it is completed. -/
theorem rows_lost :
    ¬ ∀ (cfg : SchedulerConfig) (baseAddr : AddrType) (cs : List Call) (X : KVSession) (ch : ℕ),
      run (step cfg) (start cfg.config baseAddr) cs = .ok X →
        (X.kv.alloc.rows ch ++ X.held ch).Perm ((initPimLayout cfg.config baseAddr).rows ch) := by
  intro hall
  have hrun : (run (step Scheduler.sampleScheduler)
      (start Scheduler.sampleScheduler.config sampleBaseAddr)
      (.addRequest Scheduler.sampleRequest :: Scheduler.iterationCalls)).map (fun X =>
        (X.kv.alloc.rows 0 ++ X.held 0).length) = .ok 9 := by decide
  obtain ⟨X, hX, hlength⟩ := map_ok hrun
  have hperm := (hall Scheduler.sampleScheduler sampleBaseAddr _ X 0 hX).length_eq
  rw [hlength] at hperm
  exact absurd hperm (by decide)

end KVSession

end NewPims

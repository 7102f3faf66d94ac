import NewPims.Simulator

/-! Every request of the table is created once, and is always in one place of the exchange between
the client and the scheduler. -/
namespace NewPims

namespace Client

variable {c : Client} {rows : List Row}

/-- The loop issues a request for each row, numbered on from the next id. -/
theorem issueRequests_eq : issueRequests rows c =
    { c with
      rowIndex := c.rowIndex + rows.length
      nextRid := c.nextRid + rows.length + 1
      waitingQueue := c.waitingQueue ++ rows.mapIdx fun i => newRequest (c.nextRid + i)
      issuedCnt := c.issuedCnt + rows.length
      touch := true } := by
  induction rows generalizing c with
  | nil =>
    rw [issueRequests, List.mapIdx_nil, List.append_nil]
    rfl
  | cons row rows ih =>
    have hshift : (fun i => newRequest (c.nextRid + 1 + i)) =
        fun i => newRequest (c.nextRid + (i + 1)) := by
      funext i
      rw [Nat.add_assoc, Nat.add_comm 1 i]
    rw [issueRequests, ih, List.mapIdx_cons, hshift, List.append_assoc, List.singleton_append,
      List.length_cons]
    simp only [Nat.add_zero, Nat.add_comm, Nat.add_left_comm]

/-- The requests that `cycle` creates for the rows of a table. -/
def created (rows : List Row) : List InferRequest := rows.mapIdx newRequest

theorem created_ids : (created rows).map (·.id) = List.range rows.length := by
  refine List.ext_getElem (by simp [created]) fun i hi hi' => ?_
  simp [created, newRequest]

/-- What follows in the list of the created requests has its position as its id, and no token. -/
theorem created_at {xs rest : List InferRequest} {x : InferRequest}
    (h : xs ++ x :: rest = created rows) : ∃ row, x = newRequest xs.length row := by
  have hx : (created rows)[xs.length]? = some x := by
    rw [← h, List.getElem?_append_right (Nat.le_refl _), Nat.sub_self]
    rfl
  rw [created, List.getElem?_mapIdx] at hx
  obtain ⟨row, -, hrow⟩ := Option.map_eq_some_iff.mp hx
  exact ⟨row, hrow.symm⟩

end Client

namespace RequestState

theorem fixed_heap {s t : RequestState} (h : Kept s t) :
    t.heap.map InferRequest.fixed = s.heap.map InferRequest.fixed := by
  refine List.ext_getElem (by rw [List.length_map, List.length_map, h.length]) fun r hr hr' => ?_
  rw [List.length_map] at hr hr'
  have hfixed := h.fixed r
  rw [request, request, List.getD_eq_getElem _ _ hr, List.getD_eq_getElem _ _ hr'] at hfixed
  rw [List.getElem_map, List.getElem_map]
  exact hfixed

end RequestState

namespace Simulator

open RequestState Transition
open Control (Delivery Fresh)
open Client (created newRequest)
open Scheduler (Call)

variable {cfg : SchedulerConfig} {table : List Row} {M N : Simulator} {e : Event}

def requests (M : Simulator) : RequestState := M.session.sched.requests

/-- The ids of the requests in a queue. -/
def ids (M : Simulator) (rs : List ℕ) : List ℕ := rs.map fun r => (M.requests.request r).id

structure Accounted (table : List Row) (M : Simulator) : Prop where
  issued : M.client.issuedCnt = if M.client.touch then table.length else 0
  /-- One request is created for each row; those not handed over are as they were created. -/
  created : M.requests.heap.map InferRequest.fixed ++ M.client.waitingQueue =
    created (table.take M.client.issuedCnt)
  /-- Each of them is in one place. -/
  once : (M.client.waitingQueue.map (·.id) ++ M.ids M.requests.requestQueue ++
    M.ids M.requests.completedRequestQueue ++ M.ids M.received).Perm
      (List.range M.client.issuedCnt)
  active : M.requests.activeReqs =
    M.requests.requestQueue.countP fun r => (M.requests.request r).isInitiated
  few : M.requests.activeReqs ≤ maxActiveReqs
  completed : M.client.completedCnt = M.received.length
  total : M.client.totalCnt = table.length ∧ M.client.completedCnt ≤ M.client.totalCnt

structure Invariant (cfg : SchedulerConfig) (table : List Row) (M : Simulator) : Prop where
  delivery : Delivery cfg.config M.session.sched.control
  ledger : (M.received ++ (M.requests.completedRequestQueue ++ M.requests.requestQueue)).Perm
    (List.range M.requests.heap.length)
  created : M.requests.heap.map InferRequest.fixed ++ M.client.waitingQueue =
    created (table.take M.client.issuedCnt)
  rows : M.client.table = table ∧ M.client.totalCnt = table.length
  counted : M.client.completedCnt = M.received.length
  issued : M.client.touch = true → M.client.issuedCnt = table.length
  /-- Before its first row the client has done nothing. -/
  untouched : M.client.touch = false → M.client.rowIndex = 0 ∧ M.client.nextRid = 0 ∧
    M.client.issuedCnt = 0
  /-- While requests wait to be handed over the scheduler has not batched any. -/
  fresh : M.client.touch = false ∨ M.client.waitingQueue ≠ [] → Fresh M.session.sched.control
  empty : M.phase ≠ .handOver → M.client.waitingQueue ≠ [] → M.requests.heap = []

section Steps

theorem call_ok {c : Call} (h : M.call cfg c = .ok N) :
    ∃ session, M.session.step cfg c = .ok session ∧ N = { M with session } := by
  unfold call at h
  split at h
  · next session hsession =>
    cases h
    exact ⟨session, hsession, rfl⟩
  · cases h

theorem invariant_start : Invariant cfg table (start table) where
  delivery := Control.delivery_initial
  ledger := .refl _
  created := rfl
  rows := ⟨rfl, rfl⟩
  counted := rfl
  issued := nofun
  untouched := fun _ => ⟨rfl, rfl, rfl⟩
  fresh := fun _ => Control.fresh_initial
  empty := fun h => absurd rfl h

theorem heap_of_untouched (h : Invariant cfg table M) (htouch : M.client.touch = false) :
    M.requests.heap = [] ∧ M.client.waitingQueue = [] := by
  have hcreated := h.created
  rw [(h.untouched htouch).2.2, List.take_zero] at hcreated
  obtain ⟨hheap, hwaiting⟩ := List.append_eq_nil_iff.mp hcreated
  exact ⟨List.map_eq_nil_iff.mp hheap, hwaiting⟩

/-- The calls of the scheduler that neither add nor pop. -/
theorem invariant_call {c : Call} (h : Invariant cfg table M) (hadd : ∀ x, c ≠ .addRequest x)
    (hpop : c ≠ .popCompletedRequest) (hphase : M.phase ≠ .handOver)
    (hcall : M.call cfg c = .ok N) : Invariant cfg table N := by
  obtain ⟨session, hstep, rfl⟩ := call_ok hcall
  have hcontrol := Scheduler.step_control hstep
  obtain ⟨hdelivery, hkept⟩ := Control.delivery_step h.delivery hcontrol hadd hpop
  have hlength : session.sched.requests.heap.length = M.requests.heap.length := hkept.length
  -- what waits has not reached the scheduler, which has nothing to do
  have hidle : M.client.touch = false ∨ M.client.waitingQueue ≠ [] →
      Fresh session.sched.control := by
    intro hwait
    have hfresh := h.fresh hwait
    have hheap : M.requests.heap = [] := by
      rcases hwait with htouch | hne
      · exact (heap_of_untouched h htouch).1
      · exact h.empty hphase hne
    have hnil : M.requests.requestQueue = [] := by
      refine List.eq_nil_iff_forall_not_mem.mpr fun r hr => ?_
      have hlt : r < M.requests.heap.length := h.delivery.valid.queues.requestQueue_lt r hr
      rw [hheap] at hlt
      exact Nat.not_lt_zero r hlt
    rw [Control.fresh_step hfresh hnil hcontrol hadd hpop]
    exact hfresh
  refine ⟨hdelivery, ?_, ?_, h.rows, h.counted, h.issued, h.untouched, hidle, fun _ hne => ?_⟩
  · have hperm : (session.sched.requests.completedRequestQueue ++
        session.sched.requests.requestQueue).Perm
          (M.requests.completedRequestQueue ++ M.requests.requestQueue) := hkept.perm
    change (M.received ++ (session.sched.requests.completedRequestQueue ++
      session.sched.requests.requestQueue)).Perm (List.range session.sched.requests.heap.length)
    rw [hlength]
    exact (hperm.append_left _).trans h.ledger
  · have hheap : session.sched.requests.heap.map InferRequest.fixed =
        M.requests.heap.map InferRequest.fixed := fixed_heap hkept
    change session.sched.requests.heap.map InferRequest.fixed ++ M.client.waitingQueue = _
    rw [hheap]
    exact h.created
  · have hheap := congrArg List.length (h.empty hphase hne)
    exact List.length_eq_zero_iff.mp (hlength.trans hheap)

theorem invariant_handOver (h : Invariant cfg table M) (hphase : M.phase = .handOver)
    (hstep : M.handOver cfg = .ok N) : Invariant cfg table N := by
  unfold handOver at hstep
  split at hstep
  next x client hpop =>
    obtain ⟨session, hsession, rfl⟩ := call_ok hstep
    cases hsession
    unfold Client.popRequest at hpop
    split at hpop
    · cases hpop
    next y rest hwaiting =>
      cases hpop
      have hcreated := h.created
      rw [hwaiting] at hcreated
      obtain ⟨row, hrow⟩ := Client.created_at hcreated
      rw [List.length_map] at hrow
      have hne : M.client.waitingQueue ≠ [] := by
        rw [hwaiting]
        exact List.cons_ne_nil _ _
      obtain ⟨hdelivery, hfresh⟩ := Control.delivery_addRequest h.delivery (h.fresh (.inr hne))
        (x := x) (congrArg InferRequest.id hrow) (congrArg InferRequest.outputSize hrow)
        (congrArg InferRequest.generated hrow) (congrArg InferRequest.isInitiated hrow)
      refine ⟨hdelivery, ?_, ?_, h.rows, h.counted, h.issued, h.untouched, fun _ => hfresh, ?_⟩
      · change (M.received ++ (M.requests.completedRequestQueue ++
          (M.requests.requestQueue ++ [M.requests.heap.length]))).Perm
            (List.range (M.requests.heap ++ [x]).length)
        rw [List.length_append, List.length_singleton, List.range_succ, ← List.append_assoc,
          ← List.append_assoc, List.append_assoc M.received]
        exact h.ledger.append_right _
      · change (M.requests.heap ++ [x]).map InferRequest.fixed ++ rest = _
        rw [List.map_append, List.append_assoc, ← hcreated, hrow]
        rfl
      · exact fun hnot => absurd hphase hnot
  next => cases hstep

theorem invariant_clientCycle (h : Invariant cfg table M) (hwaiting : M.client.waitingQueue = []) :
    Invariant cfg table { M with client := M.client.cycle, phase := .respond } := by
  cases htouch : M.client.touch with
  | true =>
    have hcycle : M.client.cycle = { M.client with
        exited := M.client.exited || M.client.completedCnt = M.client.totalCnt } := by
      rw [Client.cycle, if_pos htouch]
    rw [hcycle]
    exact ⟨h.delivery, h.ledger, h.created, h.rows, h.counted, h.issued, h.untouched, h.fresh,
      fun _ hne => absurd hwaiting hne⟩
  | false =>
    obtain ⟨hrow, hrid, hissued⟩ := h.untouched htouch
    obtain ⟨hheap, -⟩ := heap_of_untouched h htouch
    obtain ⟨rfl, htotal⟩ := h.rows
    have hcycle : M.client.cycle = { M.client with
        rowIndex := M.client.table.length
        nextRid := M.client.table.length + 1
        waitingQueue := created M.client.table
        issuedCnt := M.client.table.length
        touch := true
        exited := M.client.exited || M.client.completedCnt = M.client.totalCnt } := by
      rw [Client.cycle, if_neg (by rw [htouch]; decide), Client.issueRequests_eq, hrow, hrid,
        hissued, hwaiting, List.drop_zero, List.nil_append]
      simp only [Nat.zero_add]
      rfl
    rw [hcycle]
    refine ⟨h.delivery, h.ledger, ?_, ⟨rfl, htotal⟩, h.counted, fun _ => rfl, nofun, ?_,
      fun _ _ => hheap⟩
    · change M.requests.heap.map InferRequest.fixed ++ created M.client.table =
        created (M.client.table.take M.client.table.length)
      rw [hheap, List.take_length]
      rfl
    · exact fun _ => h.fresh (.inl htouch)

/-- A response is finished, and no other is received for its request. -/
theorem respond_ok (h : Invariant cfg table M) :
    (∃ f, M.respond cfg = .error (.scheduler f)) ∨
      ∃ N, M.respond cfg = .ok N ∧ (M.phase ≠ .handOver → Invariant cfg table N) := by
  unfold respond
  cases hcompleted : M.session.sched.requests.completedRequestQueue with
  | nil => exact .inl ⟨_, rfl⟩
  | cons r rest =>
    obtain ⟨hfinished, hdelivery⟩ := Control.delivery_pop h.delivery (r := r) hcompleted
    dsimp only
    have hresponse : M.client.receiveResponse (M.session.sched.requests.request r) =
        .ok { M.client with completedCnt := M.client.completedCnt + 1 } := if_pos hfinished
    have hpop : M.session.step cfg .popCompletedRequest = .ok { M.session with
        sched := { M.session.sched with
          requests := { M.session.sched.requests with completedRequestQueue := rest } } } := by
      simp only [Scheduler.Session.step, popCompletedRequest, hcompleted]
    rw [hresponse]
    dsimp only [call]
    rw [hpop]
    refine .inr ⟨_, rfl, fun hphase => ?_⟩
    refine ⟨hdelivery, ?_, h.created, h.rows, ?_, h.issued, h.untouched, fun hwait => ?_, ?_⟩
    · have hledger := h.ledger
      change (M.received ++ (M.session.sched.requests.completedRequestQueue ++ _)).Perm _ at hledger
      rw [hcompleted] at hledger
      change (M.received ++ [r] ++ (rest ++ M.requests.requestQueue)).Perm
        (List.range M.requests.heap.length)
      rwa [List.append_assoc M.received, List.singleton_append]
    · change M.client.completedCnt + 1 = (M.received ++ [r]).length
      rw [h.counted, List.length_append, List.length_singleton]
    · have hfresh := h.fresh hwait
      exact ⟨hfresh.waiting, hfresh.breqs, hfresh.active, hfresh.activeReqs, hfresh.uninitiated⟩
    · exact fun _ => h.empty hphase

theorem invariant_step (h : Invariant cfg table M) (hstep : M.step cfg e = .ok N) :
    Invariant cfg table N := by
  rw [step] at hstep
  split_ifs at hstep with henabled
  obtain ⟨-, henabled⟩ := henabled
  cases e with
  | handOver => exact invariant_handOver h henabled.1 hstep
  | clientCycle =>
    rw [perform] at hstep
    split_ifs at hstep
    cases hstep
    refine invariant_clientCycle h ?_
    have hnone := henabled.2
    rw [Client.hasRequest] at hnone
    simpa using hnone
  | respond =>
    have hphase : M.phase ≠ .handOver := by
      rw [henabled.1]
      decide
    rcases respond_ok h with ⟨f, hf⟩ | ⟨N', hN, hinv⟩
    · cases hf.symm.trans hstep
    · cases hN.symm.trans hstep
      exact hinv hphase
  | schedulerCycle now =>
    have hphase : M.phase ≠ .handOver := by
      rw [henabled.1]
      decide
    have hinv : Invariant cfg table { M with phase := .tiles } :=
      ⟨h.delivery, h.ledger, h.created, h.rows, h.counted, h.issued, h.untouched, h.fresh,
        fun _ hne => h.empty hphase hne⟩
    exact invariant_call (c := .cycle now) hinv nofun nofun nofun hstep
  | getTile platform =>
    refine invariant_call (c := .getTile platform) h nofun nofun ?_ hstep
    rw [show M.phase = .tiles from henabled]
    decide
  | finishTile now tile =>
    refine invariant_call (c := .finishTile now tile) h nofun nofun ?_ hstep
    rw [show M.phase = .tiles from henabled]
    decide
  | nextCycle =>
    cases hstep
    exact ⟨h.delivery, h.ledger, h.created, h.rows, h.counted, h.issued, h.untouched, h.fresh,
      fun hnot => absurd rfl hnot⟩

theorem step_ne_unfinished (h : Invariant cfg table M) :
    M.step cfg e ≠ .error (.client .unfinishedResponse) := by
  have hcall : ∀ {M : Simulator} {c : Call},
      M.call cfg c ≠ .error (.client .unfinishedResponse) := by
    intro M c hfault
    unfold call at hfault
    split at hfault <;> cases hfault
  intro hfault
  rw [step] at hfault
  split_ifs at hfault
  · cases e with
    | handOver =>
      simp only [perform, handOver] at hfault
      split at hfault
      · exact hcall hfault
      next f hpop =>
        unfold Client.popRequest at hpop
        split at hpop <;> cases hpop
        cases hfault
    | clientCycle =>
      rw [perform] at hfault
      split_ifs at hfault
      cases hfault
    | nextCycle => cases hfault
    | respond =>
      rcases respond_ok h with ⟨f, hf⟩ | ⟨N, hN, -⟩
      · cases hf.symm.trans hfault
      · cases hN.symm.trans hfault
    | schedulerCycle now => exact hcall (c := .cycle now) hfault
    | getTile platform => exact hcall (c := .getTile platform) hfault
    | finishTile now tile => exact hcall (c := .finishTile now tile) hfault
  · cases hfault

end Steps

section Accounts

theorem ids_eq (h : Invariant cfg table M) {rs : List ℕ}
    (hrs : ∀ r ∈ rs, r < M.requests.heap.length) : M.ids rs = rs := by
  have hmap : M.ids rs = rs.map fun r => r :=
    List.map_congr_left fun r hr => h.delivery.account.id r (hrs r hr)
  rw [hmap, List.map_id']

theorem accounted_of_invariant (h : Invariant cfg table M) : Accounted table M := by
  have hissued : M.client.issuedCnt = if M.client.touch then table.length else 0 := by
    cases htouch : M.client.touch with
    | true => exact h.issued htouch
    | false => exact (h.untouched htouch).2.2
  have hle : M.client.issuedCnt ≤ table.length := by
    rw [hissued]
    split <;> omega
  have hids : M.requests.heap.map (·.id) ++ M.client.waitingQueue.map (·.id) =
      List.range M.client.issuedCnt := by
    have hcreated := congrArg (List.map (·.id)) h.created
    rw [Client.created_ids, List.length_take_of_le hle, List.map_append, List.map_map] at hcreated
    exact hcreated
  have hheap : M.requests.heap.map (·.id) = List.range M.requests.heap.length := by
    refine List.ext_getElem (by simp) fun r hr _ => ?_
    rw [List.length_map] at hr
    rw [List.getElem_map, List.getElem_range, ← List.getD_eq_getElem _ default hr]
    exact h.delivery.account.id r hr
  have hlt : ∀ r ∈ M.received ++ (M.requests.completedRequestQueue ++ M.requests.requestQueue),
      r < M.requests.heap.length := fun r hr => List.mem_range.mp (h.ledger.mem_iff.mp hr)
  refine ⟨hissued, h.created, ?_, h.delivery.account.active, h.delivery.account.few, h.counted,
    h.rows.2, ?_⟩
  · rw [ids_eq h fun r hr => hlt r (by simp [hr]), ids_eq h fun r hr => hlt r (by simp [hr]),
      ids_eq h fun r hr => hlt r (by simp [hr]), ← hids, hheap, List.append_assoc, List.append_assoc]
    refine List.perm_append_comm.trans (List.Perm.append_right _ (.trans ?_ h.ledger))
    rw [← List.append_assoc M.received]
    exact List.perm_append_comm.trans (List.perm_append_comm.append_right _)
  · have hlength := h.ledger.length_eq
    have hcreated := congrArg List.length hids
    simp only [List.length_append, List.length_map, List.length_range] at hlength hcreated
    rw [h.counted, h.rows.2]
    omega

/-- For every table and every order of the events of `cycle` the requests are accounted for, and no
response is unfinished. -/
theorem requests_accounted (cfg : SchedulerConfig) (table : List Row) (es : List Event) :
    run (step cfg) (start table) es ≠ .error (.client .unfinishedResponse) ∧
      ∀ M, run (step cfg) (start table) es = .ok M → Accounted table M := by
  have hstep : ∀ M e N, Invariant cfg table M → step cfg M e = .ok N → Invariant cfg table N :=
    fun _ _ _ h hok => invariant_step h hok
  constructor
  · exact run_ne_error (Invariant cfg table) hstep (fun _ _ h => step_ne_unfinished h) invariant_start
  · intro M hrun
    exact accounted_of_invariant (run_invariant (Invariant cfg table) hstep invariant_start hrun)

def tileEvents (platform : StagePlatform) (id : ℕ) : List Event :=
  [.getTile platform, .finishTile 0 { operationId := id, stagePlatform := platform }]

def cycleEvents (tiles : List Event) : List Event :=
  [.clientCycle, .schedulerCycle 0] ++ tiles ++ [.nextCycle]

/-- The one request of a table from its row to the client. -/
def rowEvents : List Event :=
  cycleEvents [] ++ [.handOver] ++ cycleEvents ([0, 1].flatMap (tileEvents .SA)) ++
    cycleEvents ([2, 3].flatMap (tileEvents .PIM)) ++
    cycleEvents ([4, 5, 6, 7, 8, 9, 10].flatMap (tileEvents .SA)) ++ cycleEvents [] ++
    [.clientCycle, .respond]

theorem requests_accounted_row : ∃ M : Simulator,
    run (step Scheduler.sampleScheduler) (start [(8, 0)]) rowEvents = .ok M ∧
      M.received = [0] ∧ Accounted [(8, 0)] M := by
  have hrun : (run (step Scheduler.sampleScheduler) (start [(8, 0)]) rowEvents).map (·.received) =
      .ok [0] := by decide
  obtain ⟨M, hM, hreceived⟩ := map_ok hrun
  exact ⟨M, hM, hreceived, (requests_accounted Scheduler.sampleScheduler [(8, 0)] rowEvents).2 M hM⟩

end Accounts

end Simulator

end NewPims

import NewPims.NewtonSim.Responses

/-! The requests of a channel are answered once: each is in one place until its response is taken
back. -/
namespace NewPims.NewtonSim.DRAMSystem

open Transition
open Controller (tally)

variable {config : DramConfig} {S T : DRAMSystem} {Q : Controller.Call → Prop} {i channel : ℕ}
  {request : MemoryAccess}

section Inside

variable {x : MemoryAccess}

/-- The requests of a channel that wait for their response, and the responses that were not taken
yet. -/
def inside (config : DramConfig) (S : DRAMSystem) (channel : ℕ) : List MemoryAccess :=
  (S.responseQueues channel).outputQueue ++
    ((S.pendingQ false ++ S.pendingQ true).filter fun p =>
      config.getChannel p.1 == channel).map Prod.snd

/-- How often a request waits. -/
def waits (config : DramConfig) (q : List (AddrType × MemoryAccess)) (channel : ℕ)
    (x : MemoryAccess) : ℕ := q.countP fun p => p.2 == x && config.getChannel p.1 == channel

theorem count_inside (S : DRAMSystem) : (inside config S i).count x =
    (S.responseQueues i).outputQueue.count x + waits config (S.pendingQ false) i x +
      waits config (S.pendingQ true) i x := by
  rw [inside, List.count_append, Nat.add_assoc]
  congr 1
  rw [List.count, List.countP_map, List.countP_filter, List.countP_append]
  rfl

theorem waits_append (q r : List (AddrType × MemoryAccess)) :
    waits config (q ++ r) i x = waits config q i x + waits config r i x := List.countP_append

theorem waits_singleton (p : AddrType × MemoryAccess) :
    waits config [p] i x = if p.2 = x ∧ config.getChannel p.1 = i then 1 else 0 := by
  rw [waits, List.countP_singleton]
  simp only [Bool.and_eq_true, beq_iff_eq]

/-- A response takes the place of its request. -/
theorem count_inside_callback {w : Bool} {addr : AddrType}
    (h : S.callback config w addr = .ok T) (i : ℕ) (x : MemoryAccess) :
    (inside config T i).count x = (inside config S i).count x := by
  unfold callback at h
  cases hfind : (S.pendingQ w).find? fun p => p.1 == addr with
  | none =>
    simp only [hfind] at h
    cases h
  | some p =>
    simp only [hfind] at h
    obtain ⟨r, hr, hT⟩ := map_ok h
    have haddr : p.1 = addr := by simpa using List.find?_some hfind
    have hsplit := Controller.countP_find (p := fun p => p.2 == x && config.getChannel p.1 == i) hfind
    have hqueue : r.outputQueue =
        (S.responseQueues (config.getChannel addr)).outputQueue ++ [p.2] := by
      unfold ResponseQueue.push at hr
      split at hr <;> cases hr
      rfl
    have hout : ((T.responseQueues i).outputQueue).count x =
        ((S.responseQueues i).outputQueue).count x +
          if (p.2 == x && config.getChannel p.1 == i) = true then 1 else 0 := by
      rw [← hT, responseQueues_setPendingQ]
      by_cases hi : i = config.getChannel addr
      · subst hi
        simp only [setQueue, Function.update_self, hqueue, haddr, List.count_append,
          List.count_singleton, beq_self_eq_true, Bool.and_true]
      · have hne : ¬ config.getChannel addr = i := Ne.symm hi
        simp [setQueue, Function.update_of_ne hi, haddr, hne]
    have hpending : ∀ v, waits config (T.pendingQ v) i x +
        (if v = w then if (p.2 == x && config.getChannel p.1 == i) = true then 1 else 0 else 0) =
          waits config (S.pendingQ v) i x := by
      intro v
      rw [← hT, pendingQ_setPendingQ, pendingQ_setQueue]
      by_cases hv : v = w
      · rw [if_pos hv, if_pos hv, hv]
        exact hsplit.symm
      · rw [if_neg hv, if_neg hv, Nat.add_zero]
    have hf := hpending false
    have ht := hpending true
    rw [count_inside, count_inside, hout]
    cases w <;> simp only [if_true, Bool.false_eq_true, Bool.true_eq_false, if_false] at hf ht <;>
      omega

theorem count_inside_same (hqueues : T.responseQueues = S.responseQueues)
    (hpending : ∀ v, T.pendingQ v = S.pendingQ v) (i : ℕ) (x : MemoryAccess) :
    (inside config T i).count x = (inside config S i).count x := by
  rw [count_inside, count_inside, hqueues, hpending, hpending]

theorem count_inside_returnDone {n : ℕ} (h : returnDone config channel n S = .ok T) (i : ℕ)
    (x : MemoryAccess) : (inside config T i).count x = (inside config S i).count x := by
  induction n generalizing S with
  | zero =>
    cases h
    rfl
  | succ n ih =>
    rw [returnDone] at h
    have hset : ∀ c, (inside config (S.setCtrl channel c) i).count x =
        (inside config S i).count x := fun c => count_inside_same rfl (fun v => pendingQ_setCtrl) i x
    have hnext : ∀ (w : Bool) (c : Controller) (addr : AddrType),
        ((S.setCtrl channel c).callback config w addr >>= returnDone config channel n) = .ok T →
        (inside config T i).count x = (inside config S i).count x := by
      intro w c addr hbind
      obtain ⟨M, hM, hT⟩ := bind_ok.mp hbind
      rw [ih hT, count_inside_callback hM, hset]
    cases hreturn : (S.ctrls channel).returnDoneTrans S.clk with
    | mk o c =>
      rw [hreturn] at h
      cases o with
      | none =>
        cases h
        rfl
      | some t =>
        cases ht : t.reqType <;> simp only [ht] at h
        case WRITE => exact hnext true c t.addr h
        case P_HEADER | PWRITE =>
          cases h
          exact hset c
        -- all other types are taken from the reads that wait
        all_goals exact hnext false c t.addr h

theorem count_inside_clockTick (h : S.clockTick config = .ok T) (i : ℕ) (x : MemoryAccess) :
    (inside config T i).count x = (inside config S i).count x := by
  obtain ⟨M, hM, h⟩ := bind_ok.mp h
  obtain ⟨N, hN, h⟩ := bind_ok.mp h
  split at h <;> cases h
  have hfirst : (inside config M i).count x = (inside config S i).count x := by
    refine foldlM_inv (P := fun M => (inside config M i).count x = (inside config S i).count x) ?_
      rfl hM
    intro b b' j hb hj
    rw [count_inside_returnDone hj, hb]
  have hsecond : (inside config N i).count x = (inside config M i).count x := by
    refine foldlM_inv (P := fun N => (inside config N i).count x = (inside config M i).count x) ?_
      rfl hN
    intro b b' j hb hj
    obtain ⟨d, -, rfl⟩ := map_ok hj
    rw [← hb]
    exact count_inside_same rfl (fun v => pendingQ_setCtrl) i x
  rw [← hfirst, ← hsecond]
  exact count_inside_same rfl (fun v => by cases v <;> rfl) i x

theorem count_inside_push {addr : AddrType} {reqType : TransactionType}
    (h : Pushed config S addr reqType request T) (i : ℕ) (x : MemoryAccess) :
    (inside config T i).count x = (inside config S i).count x +
      if (reqType ≠ .P_HEADER ∧ config.getChannel addr = i) ∧ request = x then 1 else 0 := by
  rw [count_inside, count_inside, (h.queues i).1, h.pending, h.pending, waits_append, waits_append]
  by_cases hheader : reqType = .P_HEADER
  · simp [hheader, waits]
  · have hone : waits config [(addr, request)] i x =
        if (reqType ≠ .P_HEADER ∧ config.getChannel addr = i) ∧ request = x then 1 else 0 := by
      rw [waits_singleton]
      simp only [ne_eq, hheader, not_false_eq_true, true_and, and_comm]
    have hnil : waits config [] i x = 0 := rfl
    cases hw : (reqType == TransactionType.WRITE) with
    | false =>
      rw [if_pos ⟨hheader, rfl⟩, if_neg (by simp), hone, hnil]
      omega
    | true =>
      rw [if_neg (by simp), if_pos ⟨hheader, rfl⟩, hone, hnil]
      omega

/-- A response that is taken back is not inside any more. -/
theorem count_inside_pop (S : DRAMSystem) (channel i : ℕ) (x : MemoryAccess) :
    (inside config S i).count x = (inside config (S.pop channel) i).count x +
      if i = channel then (S.top channel).toList.count x else 0 := by
  rw [count_inside, count_inside, pop, pendingQ_setQueue, pendingQ_setQueue]
  by_cases hi : i = channel
  · subst hi
    have hsplit : (S.responseQueues i).outputQueue.count x =
        (S.top i).toList.count x + (S.responseQueues i).outputQueue.tail.count x := by
      rw [top, ResponseQueue.top]
      cases (S.responseQueues i).outputQueue with
      | nil => rfl
      | cons y l => simp [List.count_cons, Nat.add_comm]
    rw [if_pos rfl]
    simp only [setQueue, Function.update_self, ResponseQueue.pop]
    omega
  · rw [if_neg hi]
    simp only [setQueue, Function.update_of_ne hi]
    omega

end Inside

section Runs

variable {calls : List Call} {F : MemoryFault → Prop}

theorem stops_any (hregular : Regular config) :
    Stops config Q fun f => f = .otherCommand ∨ ¬ Operable config := by
  intro c hran
  rcases Controller.clockTick_spec hregular (tidy_of_ran hregular hran) with
    ⟨herr, -⟩ | ⟨f, herr, hnot⟩ | ⟨t, ht, -⟩
  · exact .inl ⟨_, herr, .inl rfl⟩
  · exact .inl ⟨f, herr, .inr hnot⟩
  · exact .inr ⟨t, ht⟩

/-- Where the rows of kernels hold nothing else, no channel stops but for its configuration. -/
theorem stops_apart {P : BitVec 32 → Prop} (hregular : Regular config) :
    Stops config (Controller.Apart config P) fun _ => ¬ Operable config := by
  intro c hran
  have htidy := tidy_of_ran hregular hran
  have hsep : Controller.Tidy config c ∧ Controller.Separated config P c := by
    obtain ⟨calls, hcalls, hrun⟩ := hran
    refine run_invariant_of (fun c => Controller.Tidy config c ∧ Controller.Separated config P c) _ ?_
      ⟨Controller.tidy_initial hregular, Controller.separated_initial⟩ hcalls hrun
    rintro c call t ⟨htidy, hsep⟩ ⟨hmeets, hapart⟩ hstep
    obtain ⟨hafter, htidy'⟩ := Controller.step_after hregular htidy hmeets hstep
    exact ⟨htidy', Controller.separated_after hregular htidy hsep hapart hafter⟩
  rcases Controller.clockTick_spec hregular htidy with
    ⟨-, hclash⟩ | ⟨f, herr, hnot⟩ | ⟨t, ht, -⟩
  · exact absurd hclash (Controller.not_clash hsep.2)
  · exact .inl ⟨f, herr, hnot⟩
  · exact .inr ⟨t, ht⟩

theorem not_operable (h : config.epochPeriod = 0) : ¬ Operable config :=
  fun hoperable => hoperable.epochPeriod h

/-- The requests that were pushed, and the responses that were popped. -/
structure Traffic where
  pushed : ℕ → List MemoryAccess := fun _ => []
  popped : ℕ → List MemoryAccess := fun _ => []

def Traffic.after (config : DramConfig) (S : DRAMSystem) (a : Traffic) : Call → Traffic
  | .push _ request =>
    let channel := config.getChannel request.dramAddress
    if request.reqType = .P_HEADER then a
    else
      { a with
        pushed := Function.update a.pushed channel
          (a.pushed channel ++ [{ request with request := false }]) }
  | .clockTick => a
  | .pop channel =>
    { a with popped := Function.update a.popped channel (a.popped channel ++ (S.top channel).toList) }

/-- A call, with its requests. -/
def trafficStep (config : DramConfig) (s : DRAMSystem × Traffic) (call : Call) :
    Except MemoryFault (DRAMSystem × Traffic) :=
  (step config s.1 call).map fun T => (T, s.2.after config s.1 call)

/-- Every request is in one place, and has its room there. -/
structure Accounts (config : DramConfig) (Q : Controller.Call → Prop) (s : DRAMSystem × Traffic) :
    Prop where
  matched : Matched config Q s.1
  synced : Synced s.1 (List.range config.channels)
  places : ∀ i x, (s.2.pushed i).count x = (s.2.popped i).count x + (inside config s.1 i).count x

theorem matched_pop (h : Matched config Q S) : Matched config Q (S.pop channel) := by
  refine ⟨h.ran, ?_, ?_, ?_⟩
  · intro write j addr
    rw [pop, pendingQ_setQueue]
    exact h.counts write j addr
  · intro j
    rw [pop, pendingQ_setQueue, pendingQ_setQueue, ← h.reserved]
    by_cases hj : j = channel
    · rw [hj]
      simp [setQueue, ResponseQueue.pop]
    · simp [setQueue, hj]
  · intro j
    have hold := h.room j
    by_cases hj : j = channel
    · subst hj
      simp only [pop, setQueue, Function.update_self, ResponseQueue.pop, List.length_tail]
      omega
    · simp only [pop, setQueue, Function.update_of_ne hj]
      exact hold

/-- A call ends in a state, or with a fault of a cycle. -/
theorem accounts_step {s : DRAMSystem × Traffic} {call : Call} (hregular : Regular config)
    (hreturn : Q .returnDoneTrans) (hQ : Q .clockTick) (hstops : Stops config Q F)
    (hperiod : config.epochPeriod = 0 → F .divisionByZero) (h : Accounts config Q s)
    (hmeets : Meets config Q s.1 call) :
    (∃ f, trafficStep config s call = .error f ∧ F f) ∨
      ∃ s', trafficStep config s call = .ok s' ∧ Accounts config Q s' := by
  obtain ⟨S, a⟩ := s
  obtain ⟨hmatched, hsynced, hplaces⟩ := h
  dsimp only at hmatched hsynced hplaces hmeets
  cases call with
  | push cid request =>
    obtain ⟨T, hT, hpushed, hmatched', hsynced'⟩ := push_spec hmatched hsynced hmeets
    refine .inr ⟨(T, a.after config S (.push cid request)), ?_, hmatched', hsynced', ?_⟩
    · rw [trafficStep, step, hT]
      rfl
    · intro i x
      have hcount := count_inside_push hpushed i x
      have hheader : transactionType request.reqType = .P_HEADER ↔ request.reqType = .P_HEADER := by
        cases request.reqType <;> simp [transactionType]
      dsimp only
      -- a header is neither counted as pushed nor put inside
      rw [hcount, ← Nat.add_assoc]
      rw [Traffic.after]
      by_cases hh : request.reqType = .P_HEADER
      · rw [if_pos hh, if_neg (fun hc => hc.1.1 (hheader.mpr hh)), Nat.add_zero]
        exact hplaces i x
      · rw [if_neg hh]
        dsimp only
        by_cases hi : i = config.getChannel request.dramAddress
        · subst hi
          rw [Function.update_self, List.count_append, List.count_singleton, hplaces]
          simp only [ne_eq, hheader, hh, not_false_eq_true, and_self, true_and, beq_iff_eq]
        · rw [Function.update_of_ne hi, if_neg (fun hc => hi hc.1.2.symm), Nat.add_zero]
          exact hplaces i x
  | clockTick =>
    rcases clockTick_spec hregular hreturn hQ hstops hperiod hmatched hsynced with
      ⟨f, herr, hf⟩ | ⟨T, hT, hmatched', hsynced'⟩
    · refine .inl ⟨f, ?_, hf⟩
      rw [trafficStep, step, herr]
      rfl
    · refine .inr ⟨(T, a), ?_, hmatched', hsynced', ?_⟩
      · rw [trafficStep, step, hT]
        rfl
      · intro i x
        dsimp only
        rw [count_inside_clockTick hT]
        exact hplaces i x
  | pop channel =>
    refine .inr ⟨(S.pop channel, a.after config S (.pop channel)), rfl, matched_pop hmatched, hsynced,
      ?_⟩
    intro i x
    have hold := hplaces i x
    rw [count_inside_pop S channel i x] at hold
    dsimp only
    rw [Traffic.after]
    dsimp only
    by_cases hi : i = channel
    · subst hi
      rw [if_pos rfl] at hold
      rw [Function.update_self, List.count_append]
      omega
    · rw [if_neg hi, Nat.add_zero] at hold
      rw [Function.update_of_ne hi]
      exact hold

theorem accounts_initial : Accounts config Q ({}, {}) := by
  refine ⟨⟨fun _ => ran_initial, ?_, ?_, ?_⟩, fun _ _ => rfl, fun _ _ => rfl⟩
  · intro write i addr
    cases write <;> simp [pendingQ, pendingAt, tally, Controller.held]
  · intro i
    rfl
  · intro i
    exact Nat.zero_le _

/-- Where the rows of kernels hold nothing else, the memory stops at no call: the requests of a
channel, headers apart, are those that were answered, those that are to be taken back and those that
wait, and each that waits has its room in the queue of responses. -/
theorem exists_run_traffic {P : BitVec 32 → Prop} (hregular : Regular config)
    (hoperable : Operable config)
    (hmeets : AllCalls (trafficStep config)
      (fun s call => Meets config (Controller.Apart config P) s.1 call) ({}, {}) calls) :
    ∃ T a, run (trafficStep config) ({}, {}) calls = .ok (T, a) ∧ ∀ i,
      (a.pushed i).Perm (a.popped i ++ inside config T i) ∧
      (inside config T i).length =
        (T.responseQueues i).numReserved + (T.responseQueues i).outputQueue.length ∧
      (inside config T i).length ≤ ResponseQueue.size := by
  have hstep : ∀ s call, Accounts config (Controller.Apart config P) s →
      Meets config (Controller.Apart config P) s.1 call →
      ∃ s', trafficStep config s call = .ok s' ∧ Accounts config (Controller.Apart config P) s' := by
    intro s call h hmeets
    rcases accounts_step hregular trivial trivial (stops_apart hregular) not_operable h hmeets with
      ⟨-, -, hnot⟩ | hok
    · exact absurd hoperable hnot
    · exact hok
  obtain ⟨⟨T, a⟩, hrun, hmatched, -, hplaces⟩ := exists_run _ _ hstep accounts_initial hmeets
  dsimp only at hmatched hplaces
  -- the three facts follow from `Matched` and the counts of `Accounts`
  refine ⟨T, a, hrun, fun i => ?_⟩
  have hlength : (inside config T i).length =
      (T.responseQueues i).numReserved + (T.responseQueues i).outputQueue.length := by
    rw [inside, List.length_append, List.length_map, hmatched.reserved, Nat.add_comm,
      ← List.countP_eq_length_filter, List.countP_append]
    rfl
  refine ⟨?_, hlength, by rw [hlength]; exact hmatched.room i⟩
  rw [List.perm_iff_count]
  intro x
  rw [List.count_append]
  exact hplaces i x

/-- A request to the memory. -/
def accessOf (reqType : MemoryAccessType) (dramAddress : AddrType) : MemoryAccess where
  id := 0
  dramAddress
  spadAddress := 0
  size := 1
  reqType
  request := true
  coreId := 0
  startCycle := 0
  bufferId := 0
  parentTile := 0
  stagePlatform := .SA

/-- A kernel, with reads and a write besides, of which the last is still on its way. -/
def kernelRequests : List Call :=
  [.push 0 (accessOf .GWRITE 0), .push 0 (accessOf .P_HEADER 4),
    .push 0 (accessOf .COMPS_READRES 4), .push 0 (accessOf .READ 16), .push 0 (accessOf .WRITE 18),
    .push 0 (accessOf .READ 18)] ++
  List.replicate 90 .clockTick ++ [.pop 0, .pop 0, .pop 0, .push 0 (accessOf .READ 16)] ++
  List.replicate 3 .clockTick

theorem exists_run_traffic_kernelRequests : ∃ (T : DRAMSystem) (a : Traffic),
    run (trafficStep smallMemory) ({}, {}) kernelRequests = .ok (T, a) ∧ ∀ i,
      (a.pushed i).Perm (a.popped i ++ inside smallMemory T i) ∧
      (inside smallMemory T i).length =
        (T.responseQueues i).numReserved + (T.responseQueues i).outputQueue.length ∧
      (inside smallMemory T i).length ≤ ResponseQueue.size :=
  exists_run_traffic (P := fun row => row.toNat < 4) regular_smallMemory operable_smallMemory
    (by decide +kernel)

/-- Where the rows of kernels hold other data as well, the memory can stop only at the assertion of a
controller on the type of the command that is ready. -/
theorem run_traffic_error (hregular : Regular config) (hoperable : Operable config)
    (hmeets : AllCalls (trafficStep config) (fun s call => Meets config (fun _ => True) s.1 call)
      ({}, {}) calls) {f : MemoryFault}
    (hrun : run (trafficStep config) ({}, {}) calls = .error f) : f = .otherCommand := by
  have hstep : ∀ s call, Accounts config (fun _ => True) s →
      Meets config (fun _ => True) s.1 call →
      (∃ f, trafficStep config s call = .error f ∧ (f = .otherCommand ∨ ¬ Operable config)) ∨
        ∃ s', trafficStep config s call = .ok s' ∧ Accounts config (fun _ => True) s' :=
    fun s call h hcall => accounts_step hregular trivial trivial (stops_any hregular)
      (fun hzero => .inr (not_operable hzero)) h hcall
  by_contra hne
  refine absurd hrun (run_ne_error_of (Accounts config fun _ => True)
    (fun s call => Meets config (fun _ => True) s.1 call) ?_ ?_ accounts_initial hmeets)
  · intro s call t h hcall hok
    rcases hstep s call h hcall with ⟨g, herr, -⟩ | ⟨s', hs', hs⟩
    · cases herr.symm.trans hok
    · cases hs'.symm.trans hok
      exact hs
  · intro s call h hcall herr
    rcases hstep s call h hcall with ⟨g, hg, hother | hnot⟩ | ⟨s', hs', -⟩
    · exact hne ((Except.error.inj (herr.symm.trans hg)).trans hother)
    · exact hnot hoperable
    · cases hs'.symm.trans herr

/-- A read of a row that is open for a kernel, while the vector of another one is written. -/
def clashingRequests : List Call :=
  .push 0 (accessOf .COMPS_READRES 4) :: List.replicate 10 .clockTick ++
    [.push 0 (accessOf .GWRITE 0), .push 0 (accessOf .READ 6)] ++ List.replicate 5 .clockTick

theorem run_traffic_error_clashingRequests :
    ∃ f, run (trafficStep smallMemory) ({}, {}) clashingRequests = .error f ∧
      f = .otherCommand := by
  have hisError : (run (trafficStep smallMemory) ({}, {}) clashingRequests).isOk = false := by
    decide +kernel
  cases hrun : run (trafficStep smallMemory) ({}, {}) clashingRequests with
  | ok t =>
    rw [hrun] at hisError
    cases hisError
  | error f =>
    exact ⟨f, rfl,
      run_traffic_error regular_smallMemory operable_smallMemory (by decide +kernel) hrun⟩

end Runs

end NewPims.NewtonSim.DRAMSystem

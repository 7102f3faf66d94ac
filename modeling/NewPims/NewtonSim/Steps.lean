import NewPims.NewtonSim.Moves

/-! Every call keeps the counts of a channel, and a cycle does what its parts do. -/
namespace NewPims.NewtonSim.Controller

open Transition CommandQueue

variable {config : DramConfig} {c s t : Controller}

/-- What holds of a channel after any calls. -/
structure Tidy (config : DramConfig) (c : Controller) : Prop where
  sound : Sound config c
  ledger : Ledger config c

theorem tidy_initial (h : Regular config) : Tidy config {} := ⟨sound_initial h, ledger_initial⟩

section Tick

theorem pends_of_drawn {cmd : TypedCommand} {q : CommandQueue} (hledger : Ledger config c)
    (hdrawn : c.cmdQueue.Drawn config cmd q) : Pends c cmd := by
  have hwaiting : cmd.cmdType.isReadWrite = true →
      0 < c.cmdQueue.waiting config cmd.cmdType cmd.hexAddr := by
    intro hrw
    obtain ⟨src, hsrc, halike⟩ := hdrawn.queued hrw
    obtain ⟨haddr, htype⟩ := alike_iff.mp halike
    exact List.countP_pos_iff.mpr ⟨src, hsrc, by simp [haddr, htype]⟩
  refine ⟨?_, ?_, ?_⟩
  · intro h
    have hpos := hwaiting (by rw [h]; rfl)
    have hreads := hledger.reads cmd.hexAddr
    rw [h] at hpos
    omega
  · intro h
    have hpos := hwaiting (by rw [h]; rfl)
    have hwrites := hledger.writes cmd.hexAddr
    rw [h] at hpos
    omega
  · intro h
    have hpim : cmd.cmdType.pimQCommand = true ∧ cmd.cmdType ≠ .P_HEADER := by
      rcases h with h | h <;> rw [h] <;> simp [CommandType.pimQCommand]
    obtain ⟨front, rest, hqueue, halike⟩ := hdrawn.front hpim.1
    obtain ⟨haddr, htype⟩ := alike_iff.mp halike
    have hpos : 0 < c.cmdQueue.waitingPIM cmd.hexAddr := by
      refine List.countP_pos_iff.mpr ⟨front, by rw [hqueue]; exact List.mem_cons_self, ?_⟩
      simp [haddr, htype, hpim.2]
    have hpims := hledger.pims cmd.hexAddr
    omega

/-- A cycle ends in a state, or with the assertion on a row that is open for PIM, or the
configuration is not one to run with. -/
theorem clockTick_spec (hregular : Regular config) (h : Tidy config c) :
    c.clockTick config = .error .otherCommand ∧ Clash c.channelState c.cmdQueue ∨
      (∃ f, c.clockTick config = .error f ∧ ¬ Operable config) ∨
      ∃ t, c.clockTick config = .ok t ∧ Ticked config c t := by
  by_cases hinterval : Refresh.refreshInterval config = 0
  · refine .inr (.inl ⟨.divisionByZero, ?_, fun hoperable => ?_⟩)
    · rw [clockTick, Refresh.clockTick, if_pos hinterval]
      rfl
    · exact absurd hoperable.interval (by omega)
  have hsound := sound_refreshed hregular h.sound
  have hledger := ledger_refreshed h.ledger
  have hbanks : (refreshed config c).channelState.bankStates = c.channelState.bankStates := by
    obtain ⟨refreshQ, r, heq, -⟩ := refreshed_cases hregular h.sound
    rw [heq]
  have hnever : ∀ o : Option TypedCommand, ¬ (config.enableSelfRefresh = true ∧ o = none) := by
    simp [hregular.noSelfRefresh]
  have hstart : c.clockTick config =
      (refreshed config c).selectCommand config >>= fun p =>
        (p.1.elim (.ok { refreshed config c with cmdQueue := p.2 })
            fun cmd => { refreshed config c with cmdQueue := p.2 }.issueCommand config cmd) >>=
          fun m => (m.countIdle config).scheduleTransaction config >>= fun s => .ok s.advanced := by
    rw [clockTick, Refresh.clockTick, if_neg hinterval, ok_bind]
    refine bind_congr fun p => ?_
    obtain ⟨o, q⟩ := p
    cases o with
    | none => exact if_neg (hnever none)
    | some cmd => exact bind_congr fun m => if_neg (hnever (some cmd))
  rw [hstart]
  rcases selectCommand_spec hregular hinterval hsound.awake hsound.filled hsound.refreshes with
    ⟨herr, hclash⟩ | ⟨o, q, hselect, hchosen⟩
  · refine .inl ⟨by rw [herr]; rfl, ?_⟩
    unfold Clash at hclash ⊢
    rwa [hbanks] at hclash
  · have hmiddle : ∃ m, o.elim (.ok { refreshed config c with cmdQueue := q })
          (fun cmd => { refreshed config c with cmdQueue := q }.issueCommand config cmd) =
          Except.ok (ε := MemoryFault) m ∧
        Effect config { refreshed config c with cmdQueue := q } o m := by
      cases o with
      | none => exact ⟨_, rfl, .nothing⟩
      | some cmd =>
        obtain ⟨hfit, hissue, hdrawn⟩ := chosen_some hsound.filled hsound.refreshes hchosen
        rw [hsound.clk] at hfit
        exact issueCommand_spec hregular hsound.awake hissue hfit
          (pends_of_drawn (c := refreshed config c) hledger hdrawn)
    obtain ⟨m, hm, heffect⟩ := hmiddle
    have hsoundm := sound_effect hsound hchosen heffect
    have hend : ∀ s, (m.countIdle config).scheduleTransaction config = .ok s →
        Scheduled config (m.countIdle config) s → ∃ t, ((refreshed config c).selectCommand config >>=
          fun p => (p.1.elim (.ok { refreshed config c with cmdQueue := p.2 })
              fun cmd => { refreshed config c with cmdQueue := p.2 }.issueCommand config cmd) >>=
            fun m => (m.countIdle config).scheduleTransaction config >>= fun s => .ok s.advanced) =
          .ok t ∧ Ticked config c t := by
      intro s hs hscheduled
      refine ⟨s.advanced, ?_, .mk o q m s hchosen heffect hscheduled⟩
      simp only [hselect, ok_bind, hm, hs]
    by_cases hopen : config.rowBufPolicy = .OPEN_PAGE
    · obtain ⟨s, hs, hscheduled⟩ := @scheduleTransaction_spec config (m.countIdle config)
        fun which u hu => by
          have hu' : u ∈ m.queueOf which := by cases which <;> exact hu
          exact transToCommand_ok hopen (supported_queueOf hsoundm hu')
      exact .inr (.inr (hend s hs hscheduled))
    · rcases scheduleTransaction_closed (c := m.countIdle config) hopen with
        herr | ⟨s, hs, hscheduled⟩
      · refine .inr (.inl ⟨.assertion, ?_, fun hoperable => hopen hoperable.openPage⟩)
        simp only [hselect, ok_bind, hm, herr]
        rfl
      · exact .inr (.inr (hend s hs hscheduled))

theorem tidy_ticked (hregular : Regular config) (h : Tidy config c) (htick : Ticked config c t) :
    Tidy config t := by
  cases htick with
  | mk o q m s hchosen heffect hscheduled =>
    have hsound := sound_refreshed hregular h.sound
    have hledger := ledger_refreshed h.ledger
    have hm := sound_effect hsound hchosen heffect
    have hlm := ledger_effect hsound hledger hchosen heffect
    have hidle : Sound config (m.countIdle config) ∧ Ledger config (m.countIdle config) :=
      ⟨⟨hm.clk, hm.awake, hm.refreshes, hm.sref, hm.nextRank, hm.filled, hm.reads, hm.writes, hm.pims⟩,
        hlm.reads, hlm.writes, hlm.oneWrite, hlm.ordered, hlm.pims⟩
    obtain ⟨hs, hls⟩ := sound_scheduled hregular hidle.1 hidle.2 hscheduled
    exact ⟨⟨congrArg (· + 1) hs.clk, hs.awake, hs.refreshes, hs.sref, hs.nextRank,
      ⟨hs.filled.queued, hs.filled.pim⟩, hs.reads, hs.writes, hs.pims⟩,
      hls.reads, hls.writes, hls.oneWrite, hls.ordered, hls.pims⟩

end Tick

section Calls

variable {addr : AddrType} {reqType : TransactionType} {call : Call} {calls : List Call}

theorem count_concat (l : List Transaction) (u : Transaction) (a : AddrType) :
    count (l ++ [u]) a = count l a + if u.addr = a then 1 else 0 := by
  rw [count_append]
  simp only [count, List.countP_singleton, beq_iff_eq]

theorem tidy_addTransaction (h : Tidy config c) (hsupported : Supported config addr reqType) :
    Tidy config (c.addTransaction { addr, reqType }) := by
  obtain ⟨hs, hl⟩ := h
  have hpim : ∀ u : Transaction, u.addr = addr → u.reqType = reqType →
      reqType = .GWRITE ∨ reqType = .COMPS_READRES →
      Tidy config { c with pendingPimQ := c.pendingPimQ ++ [u], pimQueue := c.pimQueue ++ [u] } := by
    intro u haddr htype hcases
    refine ⟨⟨hs.clk, hs.awake, hs.refreshes, hs.sref, hs.nextRank, hs.filled, hs.reads, hs.writes,
      ?_⟩, hl.reads, hl.writes, hl.oneWrite, hl.ordered, ?_⟩
    · intro v hv
      rcases List.mem_append.mp hv with hv | hv
      · exact hs.pims v hv
      · rw [List.mem_singleton] at hv
        subst hv
        rw [htype, haddr]
        exact ⟨hcases.imp_right .inl, hsupported⟩
    · intro a
      have hold := hl.pims a
      dsimp only
      rw [count_concat, countPIM, List.countP_append, List.countP_singleton]
      unfold countPIM at hold
      simp only [Bool.and_eq_true, bne_iff_ne, beq_iff_eq]
      by_cases ha : u.addr = a
      · rw [if_pos ha]
        split <;> omega
      · rw [if_neg ha, if_neg fun h => ha h.2]
        exact hold
  cases reqType with
  | READ =>
    unfold addTransaction
    dsimp only
    split
    · exact ⟨⟨hs.clk, hs.awake, hs.refreshes, hs.sref, hs.nextRank, hs.filled, hs.reads, hs.writes,
        hs.pims⟩, hl.reads, hl.writes, hl.oneWrite, hl.ordered, hl.pims⟩
    · rename_i hnone
      have hwaiting : ∀ a, addr = a → c.cmdQueue.waiting config .WRITE a = 0 := by
        rintro a rfl
        have hw := hl.writes addr
        omega
      have hordered : ∀ a, 0 < c.cmdQueue.waiting config .WRITE a →
          count (c.pendingRdQ ++ [{ addr, addedCycle := c.clk, reqType := .READ }]) a = 0 := by
        intro a ha
        rw [count_concat, hl.ordered a ha, Nat.zero_add]
        refine if_neg fun heq => ?_
        have := hwaiting a heq
        omega
      split
      · rename_i hone
        rw [count_concat, if_pos rfl] at hone
        refine ⟨⟨hs.clk, hs.awake, hs.refreshes, hs.sref, hs.nextRank, hs.filled, ?_, hs.writes,
          hs.pims⟩, ?_, hl.writes, hl.oneWrite, hordered, hl.pims⟩
        · intro v hv
          rcases List.mem_append.mp hv with hv | hv
          · exact hs.reads v hv
          · rw [List.mem_singleton] at hv
            subst hv
            rfl
        · intro a
          have hold := hl.reads a
          dsimp only
          rw [count_concat, count_concat]
          by_cases ha : addr = a
          · subst ha
            rw [if_pos rfl]
            omega
          · rw [if_neg ha]
            exact hold
      · rename_i hmany
        rw [count_concat, if_pos rfl] at hmany
        refine ⟨⟨hs.clk, hs.awake, hs.refreshes, hs.sref, hs.nextRank, hs.filled, hs.reads,
          hs.writes, hs.pims⟩, ?_, hl.writes, hl.oneWrite, hordered, hl.pims⟩
        intro a
        have hold := hl.reads a
        dsimp only
        rw [count_concat]
        by_cases ha : addr = a
        · subst ha
          rw [if_pos rfl]
          omega
        · rw [if_neg ha]
          exact hold
  | WRITE =>
    unfold addTransaction
    dsimp only
    split
    · rename_i hzero
      refine ⟨⟨hs.clk, hs.awake, hs.refreshes, hs.sref, hs.nextRank, hs.filled, hs.reads, ?_,
        hs.pims⟩, hl.reads, ?_, ?_, hl.ordered, hl.pims⟩
      · intro v hv
        rcases List.mem_append.mp hv with hv | hv
        · exact hs.writes v hv
        · rw [List.mem_singleton] at hv
          subst hv
          rfl
      · intro a
        have hold := hl.writes a
        dsimp only
        rw [count_concat, count_concat]
        omega
      · intro a
        have hold := hl.oneWrite a
        dsimp only
        rw [count_concat]
        by_cases ha : addr = a
        · subst ha
          rw [if_pos rfl]
          omega
        · rw [if_neg ha]
          exact hold
    · exact ⟨⟨hs.clk, hs.awake, hs.refreshes, hs.sref, hs.nextRank, hs.filled, hs.reads, hs.writes,
        hs.pims⟩, hl.reads, hl.writes, hl.oneWrite, hl.ordered, hl.pims⟩
  | P_HEADER =>
    refine ⟨⟨hs.clk, hs.awake, hs.refreshes, hs.sref, hs.nextRank, hs.filled, hs.reads, hs.writes,
      ?_⟩, hl.reads, hl.writes, hl.oneWrite, hl.ordered, ?_⟩
    · intro v hv
      rcases List.mem_append.mp hv with hv | hv
      · exact hs.pims v hv
      · rw [List.mem_singleton] at hv
        subst hv
        exact ⟨.inr (.inr rfl), hsupported⟩
    · intro a
      have hold := hl.pims a
      unfold countPIM at hold ⊢
      change (c.pimQueue ++ [_]).countP _ + _ ≤ _
      rw [List.countP_append, List.countP_singleton]
      simp only [bne_self_eq_false, Bool.false_and, Bool.false_eq_true, if_false, Nat.add_zero]
      exact hold
  | GWRITE => exact hpim _ rfl rfl (.inl rfl)
  | COMPS_READRES => exact hpim _ rfl rfl (.inr rfl)
  | COMP | READRES | PWRITE => exact absurd hsupported (by simp [Supported])

theorem tidy_returnDoneTrans (h : Tidy config c) (clk : ℕ) :
    Tidy config (c.returnDoneTrans clk).2 := by
  obtain ⟨hs, hl⟩ := h
  unfold returnDoneTrans
  split
  · exact ⟨hs, hl⟩
  · dsimp only
    split <;>
      exact ⟨⟨hs.clk, hs.awake, hs.refreshes, hs.sref, hs.nextRank,
        ⟨hs.filled.queued, hs.filled.pim⟩, hs.reads, hs.writes, hs.pims⟩,
        hl.reads, hl.writes, hl.oneWrite, hl.ordered, hl.pims⟩

/-- A call that the client may make ends in a state, but for the assertion. -/
theorem step_spec (hregular : Regular config) (hoperable : Operable config) (h : Tidy config c)
    (hmeets : Meets config c call) :
    step config c call = .error .otherCommand ∧ Clash c.channelState c.cmdQueue ∨
      ∃ t, step config c call = .ok t ∧ Tidy config t := by
  cases call with
  | addTransaction addr reqType =>
    obtain ⟨hsupported, haccept⟩ := hmeets
    refine .inr ⟨c.addTransaction { addr, reqType }, ?_, tidy_addTransaction h hsupported⟩
    rw [step, haccept]
    rfl
  | returnDoneTrans => exact .inr ⟨_, rfl, tidy_returnDoneTrans h c.clk⟩
  | clockTick =>
    rcases clockTick_spec hregular h with herr | ⟨-, -, hnot⟩ | ⟨t, ht, htick⟩
    · exact .inl herr
    · exact absurd hoperable hnot
    · exact .inr ⟨t, ht, tidy_ticked hregular h htick⟩

/-- The state after a call. -/
def After (config : DramConfig) (c : Controller) : Call → Controller → Prop
  | .addTransaction addr reqType, t => t = c.addTransaction { addr, reqType }
  | .returnDoneTrans, t => t = (c.returnDoneTrans c.clk).2
  | .clockTick, t => Ticked config c t

theorem step_after (hregular : Regular config) (h : Tidy config c) (hmeets : Meets config c call)
    (hstep : step config c call = .ok t) : After config c call t ∧ Tidy config t := by
  cases call with
  | addTransaction addr reqType =>
    obtain ⟨hsupported, haccept⟩ := hmeets
    rw [step, haccept] at hstep
    cases hstep
    exact ⟨rfl, tidy_addTransaction h hsupported⟩
  | returnDoneTrans =>
    cases hstep
    exact ⟨rfl, tidy_returnDoneTrans h c.clk⟩
  | clockTick =>
    rcases clockTick_spec hregular h with ⟨herr, -⟩ | ⟨f, herr, -⟩ | ⟨u, hu, htick⟩
    · cases herr.symm.trans hstep
    · cases herr.symm.trans hstep
    · cases hu.symm.trans hstep
      exact ⟨htick, tidy_ticked hregular h htick⟩

/-- What every call keeps holds after any calls. -/
theorem run_keeps (hregular : Regular config) (Inv : Controller → Prop) (hinitial : Inv {})
    (hcall : ∀ c call t, Tidy config c → Meets config c call → Inv c → After config c call t → Inv t)
    (hmeets : AllCalls (step config) (Meets config) {} calls)
    (hrun : run (step config) {} calls = .ok t) : Tidy config t ∧ Inv t := by
  refine run_invariant_of (fun c => Tidy config c ∧ Inv c) (Meets config) ?_
    ⟨tidy_initial hregular, hinitial⟩ hmeets hrun
  rintro c call t ⟨htidy, hinv⟩ hmeets hstep
  obtain ⟨hafter, htidy'⟩ := step_after hregular htidy hmeets hstep
  exact ⟨htidy', hcall c call t htidy hmeets hinv hafter⟩

/-- A call that is no cycle changes nothing of the memory. -/
theorem after_same (hafter : After config c call t) (hcall : call ≠ .clockTick) :
    t.clk = c.clk ∧ t.log = c.log ∧ t.refresh = c.refresh ∧ t.channelState = c.channelState ∧
      t.cmdQueue.isInRef = c.cmdQueue.isInRef ∧
      t.cmdQueue.refQIndices = c.cmdQueue.refQIndices := by
  cases call with
  | addTransaction addr reqType =>
    rw [After] at hafter
    subst hafter
    unfold addTransaction
    cases reqType <;> dsimp only
    case READ =>
      split
      · exact ⟨rfl, rfl, rfl, rfl, rfl, rfl⟩
      · split <;> exact ⟨rfl, rfl, rfl, rfl, rfl, rfl⟩
    case WRITE => split <;> exact ⟨rfl, rfl, rfl, rfl, rfl, rfl⟩
    all_goals exact ⟨rfl, rfl, rfl, rfl, rfl, rfl⟩
  | returnDoneTrans =>
    rw [After] at hafter
    subst hafter
    unfold returnDoneTrans
    split
    · exact ⟨rfl, rfl, rfl, rfl, rfl, rfl⟩
    · dsimp only
      split <;> exact ⟨rfl, rfl, rfl, rfl, rfl, rfl⟩
  | clockTick => exact absurd rfl hcall

end Calls

end NewPims.NewtonSim.Controller

import NewPims.NewtonSim.Apart

/-! The commands of kernels are issued in the order in which their transactions were accepted. -/
namespace NewPims.NewtonSim.Controller

open Transition CommandQueue

variable {config : DramConfig} {c m s t : Controller} {cmd : TypedCommand}
  {o : Option TypedCommand} {q : CommandQueue} {calls : List Call}

def commandKey (cmd : TypedCommand) : CommandType × AddrType := (cmd.cmdType, cmd.hexAddr)

def transactionKey (t : Transaction) : CommandType × AddrType := (commandType t.reqType, t.addr)

/-- The commands of kernels that were issued. -/
def issuedPIM (log : List (ℕ × TypedCommand)) : List (CommandType × AddrType) :=
  (log.filter fun e => e.2.cmdType.pimQCommand).map fun e => commandKey e.2

/-- The PIM transactions among the calls. -/
def acceptedPIM (calls : List Call) : List (CommandType × AddrType) :=
  calls.filterMap fun
    | .addTransaction addr reqType =>
      if (commandType reqType).pimQCommand then some (commandType reqType, addr) else none
    | _ => none

/-- What was issued for kernels, and what waits, from the oldest to the newest. -/
def pimLine (c : Controller) : List (CommandType × AddrType) :=
  issuedPIM c.log ++ c.cmdQueue.pimQueue.map commandKey ++ c.pimQueue.map transactionKey

theorem acceptedPIM_append (calls calls' : List Call) :
    acceptedPIM (calls ++ calls') = acceptedPIM calls ++ acceptedPIM calls' :=
  List.filterMap_append

theorem issuedPIM_append (log : List (ℕ × TypedCommand)) (clk : ℕ) (cmd : TypedCommand) :
    issuedPIM (log ++ [(clk, cmd)]) =
      issuedPIM log ++ if cmd.cmdType.pimQCommand = true then [commandKey cmd] else [] := by
  rw [issuedPIM, List.filter_append, List.map_append, issuedPIM]
  congr 1
  by_cases h : cmd.cmdType.pimQCommand = true <;> simp [h]

/-- A command that is issued was the first to wait. -/
theorem pimLine_drawn (hdrawn : c.cmdQueue.Drawn config cmd q) (hlog : m.log = c.log ++ [(c.clk, cmd)])
    (hqueue : m.cmdQueue = q) (hpim : m.pimQueue = c.pimQueue) : pimLine m = pimLine c := by
  rw [pimLine, hlog, hqueue, hpim, issuedPIM_append, hdrawn.pimQueue, pimQueue_taken, pimLine]
  by_cases h : cmd.cmdType.pimQCommand = true
  · rw [if_pos h, if_pos h]
    obtain ⟨front, rest, hfront, halike⟩ := hdrawn.front h
    obtain ⟨haddr, htype⟩ := alike_iff.mp halike
    rw [hfront, List.eraseP_cons_of_pos halike, List.map_cons]
    rw [show commandKey front = commandKey cmd by rw [commandKey, commandKey, haddr, htype]]
    simp
  · rw [if_neg h, if_neg h, List.append_nil]

theorem pimLine_effect (hsound : Sound config c)
    (hchosen : Chosen config c.channelState c.cmdQueue o q)
    (heffect : Effect config { c with cmdQueue := q } o m) : pimLine m = pimLine c := by
  cases heffect with
  | nothing =>
    obtain ⟨-, hpim, -⟩ := chosen_none hchosen
    rw [pimLine, pimLine, hpim]
  | header cmd htype =>
    obtain ⟨-, -, hdrawn⟩ := chosen_some hsound.filled hsound.refreshes hchosen
    exact pimLine_drawn hdrawn rfl rfl rfl
  | command cmd m ch hissue hfit hcompleted hissued =>
    obtain ⟨-, -, hdrawn⟩ := chosen_some hsound.filled hsound.refreshes hchosen
    obtain ⟨returns, rd, wr, pim, rfl⟩ := completed_same hcompleted
    exact pimLine_drawn hdrawn rfl rfl rfl

theorem pimQueue_addCommand (h : cmd.cmdType.pimQCommand = false) :
    (q.addCommand config cmd).pimQueue = q.pimQueue := by
  unfold addCommand setQueue
  simp only [h, Bool.false_eq_true, if_false]
  split
  · split <;> rfl
  · rfl

/-- All PIM transactions find room alike, so that the first one moves. -/
theorem pimLine_scheduled (hregular : Regular config) (hsound : Sound config c)
    (h : Scheduled config c s) : (pimLine s).Sublist (pimLine c) ∧
      (pimCmdQueueSize ≤ config.cmdQueueSize → pimLine s = pimLine c) := by
  have hsame : ∀ d : Controller, pimLine d = pimLine c → (pimLine d).Sublist (pimLine c) ∧
      (pimCmdQueueSize ≤ config.cmdQueueSize → pimLine d = pimLine c) :=
    fun d hd => ⟨by rw [hd], fun _ => hd⟩
  cases h with
  | stay lock addr draining => exact hsame _ rfl
  | move which before t after cmd lock addr draining hqueue hbefore hcmd hroom hwait =>
    have hmem : t ∈ c.queueOf which := by
      rw [hqueue]
      exact List.mem_append_right _ List.mem_cons_self
    obtain ⟨-, hct, hhex, -, -⟩ :=
      transToCommand_spec hregular (supported_queueOf hsound hmem) hcmd
    have hother : cmd.cmdType.pimQCommand = false →
        (c.cmdQueue.addCommand config cmd).pimQueue = c.cmdQueue.pimQueue := pimQueue_addCommand
    cases which with
    | READ_Q =>
      rw [hct, hsound.reads t hmem] at hother
      refine hsame _ ?_
      change issuedPIM c.log ++ (c.cmdQueue.addCommand config cmd).pimQueue.map commandKey ++ _ = _
      rw [hother rfl]
      rfl
    | WRITE_BUFFER =>
      rw [hct, hsound.writes t hmem] at hother
      refine hsame _ ?_
      change issuedPIM c.log ++ (c.cmdQueue.addCommand config cmd).pimQueue.map commandKey ++ _ = _
      rw [hother rfl]
      rfl
    | PIM_Q =>
      -- room in the PIM queue is all that counts
      have hrooms : ∀ u ∈ c.pimQueue, ∀ cmd, transToCommand config u = .ok cmd →
          (Room config c cmd ↔ c.cmdQueue.pimQueue.length < pimCmdQueueSize) := by
        intro u hu cmd hcmd
        obtain ⟨htype, hsupported⟩ := hsound.pims u hu
        obtain ⟨-, hct, -, -, hrank⟩ := transToCommand_spec hregular hsupported hcmd
        have hneg : (if cmd.cmdType = .GWRITE then -1 else cmd.addr.rank) = (-1 : BitVec 32) := by
          rcases htype with h | h | h
          · rw [if_pos (by rw [hct, h]; rfl)]
          · rw [if_neg (by rw [hct, h]; simp [commandType]), hrank (.inr h)]
          · rw [if_neg (by rw [hct, h]; simp [commandType]), hrank (.inl h)]
        rw [Room, hneg, willAcceptCommand, if_pos rfl, decide_eq_true_eq]
      have hlength := (hrooms t hmem cmd hcmd).mp hroom
      have hfirst : before = [] := by
        rw [List.eq_nil_iff_forall_not_mem]
        intro u hu
        obtain ⟨cmd', hcmd', hno⟩ := hbefore u hu
        have humem : u ∈ c.pimQueue := by
          rw [show c.pimQueue = _ from hqueue]
          exact List.mem_append_left _ hu
        exact hno ((hrooms u humem cmd' hcmd').mpr hlength)
      subst hfirst
      have hpim : cmd.cmdType.pimQCommand = true := by
        rw [hct]
        rcases (hsound.pims t hmem).1 with h | h | h <;> rw [h] <;> rfl
      have hkey : transactionKey t = commandKey cmd := by
        rw [transactionKey, commandKey, hct, hhex]
      have hline : pimLine c = issuedPIM c.log ++ c.cmdQueue.pimQueue.map commandKey ++
          commandKey cmd :: after.map transactionKey := by
        rw [pimLine, show c.pimQueue = _ from hqueue, List.nil_append, List.map_cons, hkey]
      rcases @addCommand_pim config _ c.cmdQueue hpim with
        ⟨-, e, hadd⟩ | ⟨hfull, hadd⟩
      · refine hsame _ ?_
        change issuedPIM c.log ++ (c.cmdQueue.addCommand config cmd).pimQueue.map commandKey ++
          after.map transactionKey = _
        rw [hadd, hline]
        simp
      · refine ⟨?_, fun hsize => absurd hlength (by omega)⟩
        change (issuedPIM c.log ++ (c.cmdQueue.addCommand config cmd).pimQueue.map commandKey ++
          after.map transactionKey).Sublist _
        rw [hadd, hline]
        exact List.Sublist.append_left (List.sublist_cons_self _ _) _

theorem pimLine_ticked (hregular : Regular config) (htidy : Tidy config c)
    (htick : Ticked config c t) : (pimLine t).Sublist (pimLine c) ∧
      (pimCmdQueueSize ≤ config.cmdQueueSize → pimLine t = pimLine c) := by
  cases htick with
  | mk o q m s hchosen heffect hscheduled =>
    have hsound := sound_refreshed hregular htidy.sound
    have hm := sound_effect hsound hchosen heffect
    have hstart : pimLine (refreshed config c) = pimLine c := by
      obtain ⟨refreshQ, r, heq, -⟩ := refreshed_cases hregular htidy.sound
      rw [heq]
      rfl
    have hmiddle : pimLine (m.countIdle config) = pimLine c :=
      (pimLine_effect hsound hchosen heffect).trans hstart
    obtain ⟨hsub, heq⟩ := pimLine_scheduled (c := m.countIdle config) hregular
      ⟨hm.clk, hm.awake, hm.refreshes, hm.sref, hm.nextRank, hm.filled, hm.reads, hm.writes, hm.pims⟩
      hscheduled
    rw [hmiddle] at hsub heq
    exact ⟨hsub, heq⟩

theorem pimLine_returnDoneTrans (c : Controller) (clk : ℕ) :
    pimLine (c.returnDoneTrans clk).2 = pimLine c := by
  unfold returnDoneTrans
  split
  · rfl
  · dsimp only
    split <;> rfl

theorem pimLine_addTransaction {addr : AddrType} {reqType : TransactionType}
    (hsupported : Supported config addr reqType) : pimLine (c.addTransaction { addr, reqType }) =
      pimLine c ++ acceptedPIM [.addTransaction addr reqType] := by
  have hgrow : ∀ u : Transaction, transactionKey u = (commandType reqType, addr) →
      (commandType reqType).pimQCommand = true →
      issuedPIM c.log ++ c.cmdQueue.pimQueue.map commandKey ++
        (c.pimQueue ++ [u]).map transactionKey =
      pimLine c ++ acceptedPIM [.addTransaction addr reqType] := by
    intro u hkey hpim
    rw [pimLine, acceptedPIM, List.map_append, List.map_singleton, hkey]
    simp [hpim]
  cases reqType with
  | READ | WRITE =>
    have hnone : ∀ d : Controller, d.log = c.log → d.cmdQueue = c.cmdQueue →
        d.pimQueue = c.pimQueue → pimLine d = pimLine c ++ [] := by
      intro d hlog hqueue hpim
      rw [pimLine, hlog, hqueue, hpim, pimLine, List.append_nil]
    unfold addTransaction
    dsimp only
    split
    · exact hnone _ rfl rfl rfl
    · first
        | exact hnone _ rfl rfl rfl
        | (split <;> exact hnone _ rfl rfl rfl)
  | GWRITE | P_HEADER | COMPS_READRES => exact hgrow _ rfl rfl
  | COMP | READRES | PWRITE => exact absurd hsupported (by simp [Supported])

/-- The commands of kernels that were issued, and those that wait, are the PIM transactions in the
order in which they were accepted. None is missing where the command queues take as many commands as
the PIM queue; where they take less, a command that finds the PIM queue full is lost. -/
theorem run_pim_order (hregular : Regular config)
    (hmeets : AllCalls (step config) (Meets config) {} calls)
    (hrun : run (step config) {} calls = .ok t) : (pimLine t).Sublist (acceptedPIM calls) ∧
      (pimCmdQueueSize ≤ config.cmdQueueSize → pimLine t = acceptedPIM calls) := by
  -- by induction on the calls, with the history of what was accepted
  refine (@run_history _ _ _ (step config) (fun past c => Tidy config c ∧
    (pimLine c).Sublist (acceptedPIM past) ∧
      (pimCmdQueueSize ≤ config.cmdQueueSize → pimLine c = acceptedPIM past)) (Meets config) ?_
    _ _ [] _ ⟨tidy_initial hregular, List.Sublist.refl _, fun _ => rfl⟩ hmeets hrun).2
  rintro past c call t ⟨htidy, hsub, heq⟩ hmeets hstep
  obtain ⟨hafter, htidy'⟩ := step_after hregular htidy hmeets hstep
  refine ⟨htidy', ?_⟩
  rw [acceptedPIM_append]
  cases call with
  | addTransaction addr reqType =>
    rw [After] at hafter
    rw [hafter, pimLine_addTransaction hmeets.1]
    exact ⟨hsub.append_right _, fun hsize => by rw [heq hsize]⟩
  | returnDoneTrans =>
    rw [After] at hafter
    rw [hafter, pimLine_returnDoneTrans]
    simpa [acceptedPIM] using And.intro hsub heq
  | clockTick =>
    obtain ⟨htickSub, htickEq⟩ := pimLine_ticked hregular htidy hafter
    have hnone : acceptedPIM [.clockTick] = [] := rfl
    rw [hnone, List.append_nil]
    exact ⟨htickSub.trans hsub, fun hsize => (htickEq hsize).trans (heq hsize)⟩

theorem run_pim_order_kernelCalls : ∃ t, run (step smallMemory) {} kernelCalls = .ok t ∧
    (pimLine t).Sublist (acceptedPIM kernelCalls) ∧
      (pimCmdQueueSize ≤ smallMemory.cmdQueueSize → pimLine t = acceptedPIM kernelCalls) := by
  obtain ⟨t, ht⟩ := exists_ok (x := run (step smallMemory) {} kernelCalls) (by decide +kernel)
  exact ⟨t, ht, run_pim_order regular_smallMemory (by decide +kernel) ht⟩

end NewPims.NewtonSim.Controller

import NewPims.NewtonSim.Session

/-! The parts of a cycle of a channel, each with all that it can do: the refresh that becomes due,
the command that is chosen, what it changes, and the transaction that becomes a command. -/
namespace NewPims.NewtonSim.Controller

open Transition

variable {config : DramConfig} {c m s : Controller} {cmd : TypedCommand}

/-- The first step of a cycle. -/
def refreshed (config : DramConfig) (c : Controller) : Controller :=
  { c with
    channelState := (c.refresh.advance config c.channelState).1
    refresh := (c.refresh.advance config c.channelState).2 }

/-- The last step of a cycle. -/
def advanced (c : Controller) : Controller :=
  { c with clk := c.clk + 1, cmdQueue := c.cmdQueue.clockTick }

/-- A line of the log. -/
def logged (c : Controller) (cmd : TypedCommand) : Controller :=
  { c with log := c.log ++ [(c.clk, cmd)] }

section Effect

/-- What `complete` does, by the kind of the command. -/
inductive Completed (config : DramConfig) (c : Controller) (cmd : TypedCommand) : Controller → Prop
  | read : cmd.cmdType = .READ → 0 < count c.pendingRdQ cmd.hexAddr →
      Completed config c cmd { c with
        returnQueue := c.returnQueue ++
          (c.pendingRdQ.filter fun t => t.addr == cmd.hexAddr).map fun t =>
            { t with completeCycle := stamp c.clk config.readDelay }
        pendingRdQ := c.pendingRdQ.filter fun t => !(t.addr == cmd.hexAddr) }
  | write : cmd.cmdType = .WRITE → 0 < count c.pendingWrQ cmd.hexAddr →
      Completed config c cmd { c with
        pendingWrQ := c.pendingWrQ.eraseP fun t => t.addr == cmd.hexAddr }
  | pim (t : Transaction) (delay : ℤ) : cmd.cmdType = .GWRITE ∨ cmd.cmdType = .COMPS_READRES →
      c.pendingPimQ.find? (fun t => t.addr == cmd.hexAddr) = some t →
      delay = (if cmd.cmdType = .GWRITE then config.gwriteDelay else config.readDelay) →
      Completed config c cmd { c with
        returnQueue := c.returnQueue ++ [{ t with completeCycle := stamp c.clk delay }]
        pendingPimQ := c.pendingPimQ.eraseP fun t => t.addr == cmd.hexAddr }
  | other : cmd.cmdType.isReadWrite = false → cmd.cmdType ≠ .GWRITE → cmd.cmdType ≠ .COMPS_READRES →
      Completed config c cmd c

/-- The pending transactions of a command are there. -/
def Pends (c : Controller) (cmd : TypedCommand) : Prop :=
  (cmd.cmdType = .READ → 0 < count c.pendingRdQ cmd.hexAddr) ∧
    (cmd.cmdType = .WRITE → 0 < count c.pendingWrQ cmd.hexAddr) ∧
    (cmd.cmdType = .GWRITE ∨ cmd.cmdType = .COMPS_READRES → 0 < count c.pendingPimQ cmd.hexAddr)

theorem complete_spec (hissue : Issuable cmd.cmdType) (hpends : Pends c cmd) :
    ∃ m, c.complete config cmd = .ok m ∧ Completed config c cmd m := by
  have hother : cmd.cmdType ≠ .READ → cmd.cmdType ≠ .WRITE → cmd.cmdType ≠ .GWRITE →
      cmd.cmdType ≠ .COMPS_READRES → ∃ m, c.complete config cmd = .ok m ∧ Completed config c cmd m := by
    intro h1 h2 h3 h4
    have hread : cmd.cmdType.isRead = false ∧ cmd.cmdType.isWrite = false := by
      rcases hissue with h | h | h | h | h | h | h | h | h <;> rw [h] at h1 h2 h3 h4 ⊢ <;>
        first | exact ⟨rfl, rfl⟩ | exact absurd rfl h1 | exact absurd rfl h2
    refine ⟨c, ?_, .other (by rw [CommandType.isReadWrite, hread.1, hread.2]; rfl) h3 h4⟩
    rw [complete]
    simp [hread.1, hread.2, h3, h4]
  have hpim : cmd.cmdType = .GWRITE ∨ cmd.cmdType = .COMPS_READRES →
      ∃ m, c.complete config cmd = .ok m ∧ Completed config c cmd m := by
    intro h
    have hsome : (c.pendingPimQ.find? fun t => t.addr == cmd.hexAddr).isSome :=
      List.find?_isSome.mpr (List.countP_pos_iff.mp (hpends.2.2 h))
    obtain ⟨t', ht'⟩ := Option.isSome_iff_exists.mp hsome
    refine ⟨_, ?_, .pim t' _ h ht' rfl⟩
    rcases h with h | h <;>
      simp [complete, h, CommandType.isRead, CommandType.isWrite, ht']
  rcases hissue with h | h | h | h | h | h | h | h | h
  · have hpos := hpends.1 h
    refine ⟨_, ?_, .read h hpos⟩
    rw [complete, h]
    simp [CommandType.isRead, Nat.pos_iff_ne_zero.mp hpos]
  · have hpos := hpends.2.1 h
    refine ⟨_, ?_, .write h hpos⟩
    rw [complete, h]
    simp [CommandType.isRead, CommandType.isWrite, Nat.pos_iff_ne_zero.mp hpos]
  · exact hpim (.inl h)
  · exact hother (by simp [h]) (by simp [h]) (by simp [h]) (by simp [h])
  · exact hother (by simp [h]) (by simp [h]) (by simp [h]) (by simp [h])
  · exact hother (by simp [h]) (by simp [h]) (by simp [h]) (by simp [h])
  · exact hother (by simp [h]) (by simp [h]) (by simp [h]) (by simp [h])
  · exact hother (by simp [h]) (by simp [h]) (by simp [h]) (by simp [h])
  · exact hpim (.inr h)

/-- What the command of a cycle changes. -/
inductive Effect (config : DramConfig) (c : Controller) : Option TypedCommand → Controller → Prop
  | nothing : Effect config c none c
  | header (cmd : TypedCommand) : cmd.cmdType = .P_HEADER → Effect config c (some cmd) (c.logged cmd)
  | command (cmd : TypedCommand) (m : Controller) (ch : ChannelState) : Issuable cmd.cmdType →
      Fit config c.channelState c.clk cmd → Completed config (c.logged cmd) cmd m →
      Issued config c.channelState c.clk cmd ch →
        Effect config c (some cmd) { m with channelState := ch }

theorem Completed.channelState (h : Completed config c cmd m) : m.channelState = c.channelState := by
  cases h <;> rfl

theorem Completed.clk (h : Completed config c cmd m) : m.clk = c.clk := by
  cases h <;> rfl

theorem Completed.cmdQueue (h : Completed config c cmd m) : m.cmdQueue = c.cmdQueue := by
  cases h <;> rfl

theorem issueCommand_spec (hregular : Regular config) (hawake : AllAwake c.channelState)
    (htype : cmd.cmdType = .P_HEADER ∨ Issuable cmd.cmdType)
    (hfit : Fit config c.channelState c.clk cmd) (hpends : Pends c cmd) :
    ∃ m, c.issueCommand config cmd = .ok m ∧ Effect config c (some cmd) m := by
  rcases htype with h | hissue
  · refine ⟨c.logged cmd, ?_, .header cmd h⟩
    have hcomplete : (c.logged cmd).complete config cmd = .ok (c.logged cmd) := by
      rw [complete]
      simp [h, CommandType.isRead, CommandType.isWrite]
    refine (congrArg (· >>= _) hcomplete).trans ?_
    exact if_pos h
  · obtain ⟨m, hm, hcompleted⟩ := @complete_spec config (c.logged cmd) cmd hissue hpends
    obtain ⟨ch, hch, hissued⟩ :=
      updateTimingAndStates_fit hregular.toCountable hregular.dual hawake hissue hfit
    refine ⟨{ m with channelState := ch }, ?_, .command cmd m ch hissue hfit hcompleted hissued⟩
    have hheader : cmd.cmdType ≠ .P_HEADER := by
      rcases hissue with h | h | h | h | h | h | h | h | h <;> simp [h]
    have hstats : updateCommandStats cmd = .ok () := by
      unfold updateCommandStats
      rcases hissue with h | h | h | h | h | h | h | h | h <;> rw [h]
    refine (congrArg (· >>= _) hm).trans ?_
    rw [ok_bind, if_neg hheader, hstats, ok_bind, hcompleted.channelState, hcompleted.clk]
    exact (congrArg (· >>= _) hch).trans rfl

end Effect

section Schedule

/-- What is noted about dependencies and the draining of writes. -/
def noted (c : Controller) (lock : Bool) (addr : AddrType) (draining : ℤ) : Controller :=
  { c with rwDependencyLock := lock, rwDependencyAddr := addr, writeDraining := draining }

/-- Whether the command queue has room for the command of a transaction. -/
def Room (config : DramConfig) (c : Controller) (cmd : TypedCommand) : Prop :=
  c.cmdQueue.willAcceptCommand config (if cmd.cmdType = .GWRITE then -1 else cmd.addr.rank)
    cmd.addr.bankgroup cmd.addr.bank = true

/-- Nothing moves, or the first transaction of a queue that finds room moves on. -/
inductive Scheduled (config : DramConfig) (c : Controller) : Controller → Prop
  | stay (lock : Bool) (addr : AddrType) (draining : ℤ) :
      Scheduled config c (c.noted lock addr draining)
  | move (which : QueueToSchedule) (before : List Transaction) (t : Transaction)
      (after : List Transaction) (cmd : TypedCommand) (lock : Bool) (addr : AddrType)
      (draining : ℤ) :
      c.queueOf which = before ++ t :: after →
      (∀ b ∈ before, ∃ cmd, transToCommand config b = .ok cmd ∧ ¬ Room config c cmd) →
      transToCommand config t = .ok cmd → Room config c cmd →
      ¬ (cmd.cmdType.isWrite = true ∧ c.mustWait t = true) →
      Scheduled config c
        ({ c with cmdQueue := c.cmdQueue.addCommand config cmd }.setQueueOf which
          (before ++ after) |>.noted lock addr draining)

theorem scheduled_eq (c : Controller) (cmd : TypedCommand) :
    ∃ lock addr draining, c.scheduled cmd = c.noted lock addr draining := by
  unfold scheduled
  split <;> dsimp only <;> split <;> exact ⟨_, _, _, rfl⟩

theorem scheduleFrom_spec {which : QueueToSchedule} {before after : List Transaction}
    (hqueue : c.queueOf which = before ++ after)
    (hbefore : ∀ b ∈ before, ∃ cmd, transToCommand config b = .ok cmd ∧ ¬ Room config c cmd)
    (hsupported : ∀ t ∈ after, ∃ cmd, transToCommand config t = .ok cmd) :
    ∃ s, c.scheduleFrom config which before after = .ok s ∧ Scheduled config c s := by
  induction after generalizing before with
  | nil => exact ⟨c, rfl, .stay c.rwDependencyLock c.rwDependencyAddr c.writeDraining⟩
  | cons t rest ih =>
    obtain ⟨cmd, hcmd⟩ := hsupported t List.mem_cons_self
    rw [scheduleFrom, hcmd, ok_bind]
    by_cases hroom : Room config c cmd
    · have hif := hroom
      unfold Room at hif
      simp only [hif, if_true]
      split
      · refine ⟨_, rfl, ?_⟩
        unfold holdWrite
        split
        · exact .stay true t.addr 0
        · exact .stay c.rwDependencyLock c.rwDependencyAddr 0
      · rename_i hwait
        refine ⟨_, rfl, ?_⟩
        obtain ⟨lock, addr, draining, hnoted⟩ := scheduled_eq c cmd
        rw [hnoted]
        have hmove := @Scheduled.move config c which before t rest cmd lock addr
          draining hqueue hbefore hcmd hroom hwait
        cases which <;> exact hmove
    · have hif := hroom
      unfold Room at hif
      simp only [hif]
      refine ih ?_ ?_ fun u hu => hsupported u (List.mem_cons_of_mem _ hu)
      · rw [hqueue, List.append_assoc, List.singleton_append]
      · intro b hb
        rcases List.mem_append.mp hb with hb | hb
        · exact hbefore b hb
        · rw [List.mem_singleton] at hb
          subst hb
          exact ⟨cmd, hcmd, hroom⟩

theorem drainWrites_eq (config : DramConfig) (c : Controller) : ∃ draining,
    c.drainWrites config = c.noted c.rwDependencyLock c.rwDependencyAddr draining := by
  unfold drainWrites
  split
  · exact ⟨_, rfl⟩
  · exact ⟨_, rfl⟩

theorem scheduleTransaction_spec
    (hsupported : ∀ which, ∀ t ∈ c.queueOf which, ∃ cmd, transToCommand config t = .ok cmd) :
    ∃ s, c.scheduleTransaction config = .ok s ∧ Scheduled config c s := by
  obtain ⟨draining, hdrain⟩ := drainWrites_eq config c
  set d := c.noted c.rwDependencyLock c.rwDependencyAddr draining with hd
  have hqueues : ∀ which, d.queueOf which = c.queueOf which := by
    intro which
    cases which <;> rfl
  obtain ⟨s, hs, hscheduled⟩ := @scheduleFrom_spec config d
    d.queueToSchedule [] (d.queueOf d.queueToSchedule) rfl
    (fun b hb => absurd hb List.not_mem_nil) fun t ht => hsupported _ t (by rwa [← hqueues])
  refine ⟨s, ?_, ?_⟩
  · rw [scheduleTransaction, hdrain]
    exact hs
  · cases hscheduled with
    | stay lock addr draining => exact .stay lock addr draining
    | move which before t after cmd lock addr draining hqueue hbefore hcmd hroom hwait =>
      have hmove := @Scheduled.move config c which before t after cmd lock addr
        draining ((hqueues which).symm.trans hqueue) hbefore hcmd hroom hwait
      cases which <;> exact hmove

/-- With closed pages the first transaction that is looked at fails. -/
theorem scheduleTransaction_closed (h : config.rowBufPolicy ≠ .OPEN_PAGE) :
    c.scheduleTransaction config = .error .assertion ∨
      ∃ s, c.scheduleTransaction config = .ok s ∧ Scheduled config c s := by
  obtain ⟨draining, hdrain⟩ := drainWrites_eq config c
  rw [scheduleTransaction, hdrain]
  cases hqueue : (c.noted c.rwDependencyLock c.rwDependencyAddr draining).queueOf
      (c.noted c.rwDependencyLock c.rwDependencyAddr draining).queueToSchedule with
  | nil => exact .inr ⟨_, rfl, .stay c.rwDependencyLock c.rwDependencyAddr draining⟩
  | cons t rest =>
    left
    rw [scheduleFrom, transToCommand, if_neg h]
    rfl

end Schedule

/-- A whole cycle. -/
inductive Ticked (config : DramConfig) (c : Controller) : Controller → Prop
  | mk (o : Option TypedCommand) (q : CommandQueue) (m s : Controller) :
      Chosen config (refreshed config c).channelState c.cmdQueue o q →
      Effect config { refreshed config c with cmdQueue := q } o m →
      Scheduled config (m.countIdle config) s → Ticked config c s.advanced

end NewPims.NewtonSim.Controller

import NewPims.NewtonSim.Controller
import NewPims.NewtonSim.Leads

/-! Which command a controller chooses in a cycle, and what becomes of its queues. -/
namespace NewPims.NewtonSim

open Transition

variable {config : DramConfig} {ch : ChannelState} {q q' : CommandQueue} {cmd src : TypedCommand}
  {slack : ℤ}

theorem ok_bind {α β : Type} (a : α) (f : α → Except MemoryFault β) :
    (Except.ok a >>= f) = f a := rfl

theorem error_bind {α β : Type} (e : MemoryFault) (f : α → Except MemoryFault β) :
    ((Except.error e : Except MemoryFault α) >>= f) = .error e := rfl

namespace CommandQueue

/-- The queue of the reads and writes of an address. -/
def slot (config : DramConfig) (hexAddr : AddrType) : ℕ :=
  let addr := config.addressOf hexAddr
  getQueueIndex config addr.rank addr.bankgroup addr.bank

/-- A read or a write as the controller puts it into a queue. -/
structure Queueable (config : DramConfig) (cmd : TypedCommand) : Prop where
  wanted : Wanted config cmd
  type : cmd.cmdType.isReadWrite = true
  addr : cmd.addr = config.addressOf cmd.hexAddr
  row : cmd.addr.row ≠ -1

/-- The commands that wait are such as the controller puts there. -/
structure Filled (config : DramConfig) (q : CommandQueue) : Prop where
  queued : ∀ i, ∀ cmd ∈ q.queues i, Queueable config cmd ∧ slot config cmd.hexAddr = i
  pim : ∀ cmd ∈ q.pimQueue, Wanted config cmd ∧ cmd.cmdType.pimQCommand = true

/-- The queues hold the same commands, and the same refresh is under way. -/
structure Held (q q' : CommandQueue) : Prop where
  queues : q'.queues = q.queues
  pimQueue : q'.pimQueue = q.pimQueue
  clk : q'.clk = q.clk
  isInRef : q'.isInRef = q.isInRef
  refQIndices : q'.refQIndices = q.refQIndices

theorem Held.trans {q'' : CommandQueue} (h : Held q q') (h' : Held q' q'') : Held q q'' :=
  ⟨h'.queues.trans h.queues, h'.pimQueue.trans h.pimQueue, h'.clk.trans h.clk,
    h'.isInRef.trans h.isInRef, h'.refQIndices.trans h.refQIndices⟩

theorem Held.filled (h : Held q q') (hq : q.Filled config) : q'.Filled config := by
  refine ⟨?_, ?_⟩
  · rw [h.queues]
    exact hq.queued
  · rw [h.pimQueue]
    exact hq.pim

/-- Whether two commands are the same to `EraseRWCommand`. -/
def alike (cmd c : TypedCommand) : Bool := cmd.hexAddr == c.hexAddr && cmd.cmdType == c.cmdType

/-- The queue without a command that is issued, unless that only prepares another one. -/
def taken (config : DramConfig) (q : CommandQueue) (cmd : TypedCommand) : CommandQueue :=
  if cmd.cmdType.isReadWrite || cmd.cmdType.pimQCommand then
    q.setQueue config cmd ((q.getQueue config cmd).eraseP (alike cmd))
  else q

theorem held_setQueue (hq : Held q q') (cmds : List TypedCommand) :
    Held (q.setQueue config cmd cmds) (q'.setQueue config cmd cmds) := by
  unfold setQueue
  split
  · exact ⟨hq.queues, rfl, hq.clk, hq.isInRef, hq.refQIndices⟩
  · exact ⟨by simp only [hq.queues], hq.pimQueue, hq.clk, hq.isInRef, hq.refQIndices⟩

theorem getQueue_held (hq : Held q q') : q'.getQueue config cmd = q.getQueue config cmd := by
  unfold getQueue
  rw [hq.queues, hq.pimQueue]

theorem held_taken (hq : Held q q') : Held (q.taken config cmd) (q'.taken config cmd) := by
  unfold taken
  split
  · rw [getQueue_held hq]
    exact held_setQueue hq _
  · exact hq

theorem taken_of_not (h : (cmd.cmdType.isReadWrite || cmd.cmdType.pimQCommand) = false) :
    q.taken config cmd = q := by
  rw [taken, h]
  rfl

/-- A command that waits in its queue can be erased. -/
theorem eraseRWCommand_ok (hmem : src ∈ q.getQueue config cmd) (halike : alike cmd src = true)
    (htype : (cmd.cmdType.isReadWrite || cmd.cmdType.pimQCommand) = true) :
    q.eraseRWCommand config cmd = .ok (q.taken config cmd) := by
  have hany : (q.getQueue config cmd).any (alike cmd) = true :=
    List.any_eq_true.mpr ⟨src, hmem, halike⟩
  rw [taken, if_pos htype]
  exact if_pos hany

/-- The outcome of `GetCommandToIssue`. -/
inductive Picked (config : DramConfig) (ch : ChannelState) (q : CommandQueue) :
    Option TypedCommand → CommandQueue → Prop
  | none (q' : CommandQueue) : Held q q' → Picked config ch q none q'
  | pim (front : TypedCommand) (rest : List TypedCommand) (cmd : TypedCommand) (q' : CommandQueue) :
      q.pimQueue = front :: rest → q.isInRef = false → Leads config ch q.clk front cmd →
      Held (q.taken config cmd) q' → Picked config ch q (some cmd) q'
  | queue (i : ℕ) (src cmd : TypedCommand) (q' : CommandQueue) :
      src ∈ q.queues i → ¬ (q.isInRef = true ∧ i ∈ q.refQIndices) → Leads config ch q.clk src cmd →
      Held (q.taken config cmd) q' → Picked config ch q (some cmd) q'

theorem Picked.of_held {o : Option TypedCommand} {m : CommandQueue} (hm : Held q m)
    (h : Picked config ch m o q') : Picked config ch q o q' := by
  cases h with
  | none _ hheld => exact .none _ (hm.trans hheld)
  | pim front rest cmd _ hfront href hleads hheld =>
    refine .pim front rest cmd _ (hm.pimQueue.symm.trans hfront) (hm.isInRef.symm.trans href) ?_
      ((held_taken hm).trans hheld)
    rw [← hm.clk]
    exact hleads
  | queue i src cmd _ hmem href hleads hheld =>
    rw [hm.queues] at hmem
    rw [hm.isInRef, hm.refQIndices] at href
    refine .queue i src cmd _ hmem href ?_ ((held_taken hm).trans hheld)
    rw [← hm.clk]
    exact hleads

/-- A read or a write waits whose row is open in the other buffer of its bank. -/
def Clash (ch : ChannelState) (q : CommandQueue) : Prop :=
  ∃ i, ∃ src ∈ q.queues i, (ch.bankStates src.addr.bankId).view.pimRow = some src.addr.row

theorem canMeet_ok (htype : cmd.cmdType = .GWRITE ∨ cmd.cmdType = .P_HEADER ∧ cmd.forGwrite = false) :
    ∃ p, q.canMeetRefreshDeadline config ch cmd slack = .ok p ∧ Held q p.2 := by
  rcases htype with h | ⟨h, hfor⟩
  · refine ⟨_, by rw [canMeetRefreshDeadline, ChannelState.estimatePIMOperationLatency, if_pos h]; rfl,
      ⟨rfl, rfl, rfl, rfl, rfl⟩⟩
  · refine ⟨_, by
      rw [canMeetRefreshDeadline, ChannelState.estimatePIMOperationLatency, if_neg (by simp [h]),
        if_pos ⟨h, by simp [hfor]⟩]
      rfl, ⟨rfl, rfl, rfl, rfl, rfl⟩⟩

/-- What comes before a read or a write. -/
theorem needs_readWrite (h : src.cmdType.isReadWrite = true) (hneeded : cmd.cmdType ∈ needs src.cmdType)
    (hother : cmd.cmdType ≠ src.cmdType) (hprecharge : cmd.cmdType ≠ .PRECHARGE)
    (hactivate : cmd.cmdType ≠ .ACTIVATE) : cmd.cmdType = .PIM_PRECHARGE := by
  cases ht : src.cmdType <;> rw [ht] at h hneeded hother <;>
    simp [needs, CommandType.isReadWrite, CommandType.isRead, CommandType.isWrite] at h hneeded
  all_goals
    rcases hneeded with h | h | h | h
    · exact absurd h hother
    · exact absurd h hprecharge
    · exact absurd h hactivate
    · exact h

section Loop

variable (hcount : Countable config) (hdual : config.enableDualBuffer = true)
  (hawake : AllAwake ch)

include hcount hdual hawake

/-- The only fault is the assertion on the type of the ready command, which does not expect that
the other buffer of the bank is closed. -/
theorem firstReady_spec {before after : List TypedCommand}
    (hall : ∀ src ∈ after, Queueable config src) :
    q.firstReady config ch before after = .error .otherCommand ∧
        (∃ src ∈ after, (ch.bankStates src.addr.bankId).view.pimRow = some src.addr.row) ∨
      ∃ o, q.firstReady config ch before after = .ok o ∧ ∀ cmd slack, o = some (cmd, slack) →
        ∃ src ∈ after, Leads config ch q.clk src cmd := by
  induction after generalizing before with
  | nil => exact .inr ⟨none, rfl, fun cmd slack h => by cases h⟩
  | cons src rest ih =>
    have hsrc := hall src List.mem_cons_self
    have hnext : ∀ before', q.firstReady config ch before' rest = .error .otherCommand ∧
          (∃ s ∈ src :: rest, (ch.bankStates s.addr.bankId).view.pimRow = some s.addr.row) ∨
        ∃ o, q.firstReady config ch before' rest = .ok o ∧ ∀ cmd slack, o = some (cmd, slack) →
          ∃ s ∈ src :: rest, Leads config ch q.clk s cmd := by
      intro before'
      rcases @ih before' fun s hs => hall s (List.mem_cons_of_mem _ hs) with
        ⟨herr, s, hs, hclash⟩ | ⟨o, ho, hleads⟩
      · exact .inl ⟨herr, s, List.mem_cons_of_mem _ hs, hclash⟩
      · refine .inr ⟨o, ho, ?_⟩
        intro cmd slack hcmd
        obtain ⟨s, hs, h⟩ := hleads cmd slack hcmd
        exact ⟨s, List.mem_cons_of_mem _ hs, h⟩
    obtain ⟨o, ho, hleads⟩ :=
      @getReadyCommand_leads config _ _ q.clk hcount hdual hawake hsrc.wanted
    rw [firstReady, ho, ok_bind]
    split
    · rename_i hreserved
      rw [if_neg (by rw [hreserved]; exact hsrc.row)]
      exact hnext _
    split
    · exact hnext _
    cases o with
    | none => exact hnext _
    | some ready =>
      simp only
      split
      · exact hnext _
      split
      · exact hnext _
      have hspend : q.spendSlack config src ready = .error .otherCommand ∧
            ready.cmdType = .PIM_PRECHARGE ∨
          ∃ o, q.spendSlack config src ready = .ok o := by
        unfold spendSlack
        split
        · split
          · exact .inr ⟨_, rfl⟩
          · exact .inr ⟨_, rfl⟩
          · rename_i hprecharge hactivate
            split
            · exact .inr ⟨_, rfl⟩
            · rename_i hother
              exact .inl ⟨rfl, needs_readWrite hsrc.type (hleads ready rfl).needed hother hprecharge
                hactivate⟩
        · exact .inr ⟨_, rfl⟩
      rcases hspend with ⟨herr, htype⟩ | ⟨o, hspend⟩
      · rw [herr, error_bind]
        exact .inl ⟨rfl, src, List.mem_cons_self,
          pimRow_of_leads hsrc.type hsrc.wanted.asked (hleads ready rfl) htype⟩
      · rw [hspend, ok_bind]
        cases o with
        | none => exact hnext _
        | some left =>
          refine .inr ⟨_, rfl, ?_⟩
          intro cmd slack hcmd
          cases hcmd
          exact ⟨src, List.mem_cons_self, hleads _ rfl⟩

theorem fromQueues_spec (n : ℕ) (hfilled : q.Filled config) :
    fromQueues config ch n q = .error .otherCommand ∧ Clash ch q ∨
      ∃ o q', fromQueues config ch n q = .ok (o, q') ∧ Picked config ch q o q' := by
  induction n generalizing q with
  | zero => exact .inr ⟨none, q, rfl, .none _ ⟨rfl, rfl, rfl, rfl, rfl⟩⟩
  | succ n ih =>
    have hheld : Held q (q.nextQueue config) := ⟨rfl, rfl, rfl, rfl, rfl⟩
    have hnext : fromQueues config ch n (q.nextQueue config) = .error .otherCommand ∧ Clash ch q ∨
        ∃ o q', fromQueues config ch n (q.nextQueue config) = .ok (o, q') ∧
          Picked config ch q o q' := by
      rcases ih (hheld.filled hfilled) with herr | ⟨o, q', hok, hpicked⟩
      · exact .inl herr
      · exact .inr ⟨o, q', hok, hpicked.of_held hheld⟩
    rw [fromQueues]
    split
    · exact hnext
    rename_i href
    have hall : ∀ src ∈ q.queues (q.nextQueue config).queueIdx, Queueable config src :=
      fun src hsrc => (hfilled.queued _ src hsrc).1
    rcases @firstReady_spec config ch (q.nextQueue config) hcount hdual hawake [] _ hall with
      ⟨herr, hclash⟩ | ⟨o, ho, hleads⟩
    · refine .inl ⟨?_, _, hclash⟩
      rw [getFirstReadyInQueue]
      exact (congrArg (· >>= _) herr).trans (error_bind _ _)
    · rw [getFirstReadyInQueue]
      rw [show (q.nextQueue config).queues = q.queues from rfl, ho, ok_bind]
      cases o with
      | none => exact hnext
      | some p =>
        obtain ⟨cmd, slack⟩ := p
        obtain ⟨src, hsrc, hlead⟩ := hleads cmd slack rfl
        obtain ⟨⟨-, hrw, haddr, -⟩, hindex⟩ := hfilled.queued _ src hsrc
        have hmid : Held q { q.nextQueue config with remainSlack := slack } :=
          ⟨rfl, rfl, rfl, rfl, rfl⟩
        simp only
        split
        · rename_i htype
          -- the ready command is the one that waits
          have hsame : cmd.cmdType = src.cmdType := by
            have hneeded := hlead.needed
            cases ht : src.cmdType <;> rw [ht] at hneeded hrw <;>
              simp [needs, CommandType.isReadWrite, CommandType.isRead, CommandType.isWrite]
                at hneeded hrw <;>
              rcases hneeded with h | h | h | h <;> rw [h] at htype ⊢ <;>
              simp [CommandType.isReadWrite, CommandType.isRead, CommandType.isWrite] at htype
          have hpim : cmd.cmdType.pimQCommand = false := by
            cases ht : cmd.cmdType <;> rw [ht] at htype <;>
              simp [CommandType.isReadWrite, CommandType.isRead, CommandType.isWrite] at htype <;> rfl
          have hmem : src ∈ CommandQueue.getQueue config
              { q.nextQueue config with remainSlack := slack } cmd := by
            have hslot : src ∈ q.queues (slot config src.hexAddr) := by rwa [hindex]
            rw [getQueue, if_neg (by simp [hpim]), hlead.addr hsame, haddr]
            exact hslot
          have herase :=
            eraseRWCommand_ok hmem (by simp [alike, hlead.hexAddr, hsame]) (by simp [htype])
          exact .inr ⟨some cmd, _, (congrArg (· >>= _) herase).trans (ok_bind _ _),
            .queue _ src cmd _ hsrc href hlead (held_taken hmid)⟩
        · rename_i htype
          have hpim : cmd.cmdType.pimQCommand = false := by
            have hneeded := hlead.needed
            cases ht : src.cmdType <;> rw [ht] at hneeded hrw <;>
              simp [needs, CommandType.isReadWrite, CommandType.isRead, CommandType.isWrite]
                at hneeded hrw <;>
              rcases hneeded with h | h | h | h <;> rw [h] <;> rfl
          refine .inr ⟨some cmd, _, rfl, .queue _ src cmd _ hsrc href hlead ?_⟩
          rw [taken_of_not (by simp [hpim, htype])]
          exact hmid

theorem getReadyInPIMQueue_spec (hfilled : q.Filled config) :
    ∃ o q', q.getReadyInPIMQueue config ch slack = .ok (o, q') ∧ Held q q' ∧
      ∀ cmd, o = some cmd → ∃ front rest, q.pimQueue = front :: rest ∧
        Leads config ch q.clk front cmd := by
  cases hqueue : q.pimQueue with
  | nil =>
    refine ⟨none, q, by rw [getReadyInPIMQueue, hqueue], ⟨rfl, rfl, rfl, rfl, rfl⟩, ?_⟩
    intro cmd h
    cases h
  | cons front rest =>
    obtain ⟨hwanted, htype⟩ := hfilled.pim front (by rw [hqueue]; exact List.mem_cons_self)
    obtain ⟨o, ho, hleads⟩ := @getReadyCommand_leads config _ _ q.clk hcount hdual hawake hwanted
    have hlead : ∀ cmd, o = some cmd → ∃ front' rest', front :: rest = front' :: rest' ∧
        Leads config ch q.clk front' cmd := fun cmd h => ⟨front, rest, rfl, hleads cmd h⟩
    have hnone : ∀ cmd, (none : Option TypedCommand) = some cmd → ∃ front' rest',
        front :: rest = front' :: rest' ∧ Leads config ch q.clk front' cmd := by
      intro cmd h
      cases h
    have hself : Held q q := ⟨rfl, rfl, rfl, rfl, rfl⟩
    rw [getReadyInPIMQueue, hqueue]
    simp only [ho, ok_bind]
    split
    · split
      · exact ⟨o, q, rfl, hself, hlead⟩
      · exact ⟨none, q, rfl, hself, hnone⟩
    split
    · rename_i ht
      obtain ⟨p, hp, hheld⟩ := @canMeet_ok config ch q _ slack (.inl ht)
      rw [hp, ok_bind]
      obtain ⟨canIssue, m⟩ := p
      simp only
      rw [hheld.clk, ho, ok_bind]
      split
      · exact ⟨o, _, rfl, ⟨hheld.queues, hheld.pimQueue, rfl, hheld.isInRef,
          hheld.refQIndices⟩, hlead⟩
      · exact ⟨none, _, rfl, ⟨hheld.queues, hheld.pimQueue, rfl, hheld.isInRef,
          hheld.refQIndices⟩, hnone⟩
    split
    · rename_i ht
      have hfor : front.forGwrite = false := by
        rcases hwanted.asked with h | h | h | h | h | h
        · simp [ht] at h
        · simp [ht] at h
        · simp [ht] at h
        · simp [ht] at h
        · exact h.2
        · simp [ht] at h
      obtain ⟨p, hp, hheld⟩ := @canMeet_ok config ch q _ slack
        (.inr ⟨ht, hfor⟩)
      rw [hp, ok_bind]
      obtain ⟨canIssue, m⟩ := p
      simp only
      rw [hheld.clk, ho, ok_bind]
      split
      · exact ⟨o, _, rfl, ⟨hheld.queues, hheld.pimQueue, rfl, hheld.isInRef,
          hheld.refQIndices⟩, hlead⟩
      · exact ⟨none, _, rfl, ⟨hheld.queues, hheld.pimQueue, rfl, hheld.isInRef,
          hheld.refQIndices⟩, hnone⟩
    · exact ⟨o, q, rfl, hself, hlead⟩

theorem getCommandToIssue_spec (hfilled : q.Filled config) :
    q.getCommandToIssue config ch slack = .error .otherCommand ∧ Clash ch q ∨
      ∃ o q', q.getCommandToIssue config ch slack = .ok (o, q') ∧ Picked config ch q o q' := by
  rw [getCommandToIssue]
  split
  · rename_i hguard
    have href : q.isInRef = false := by simpa using hguard.2.2
    obtain ⟨o, m, hpim, hheld, hfront⟩ :=
      @getReadyInPIMQueue_spec config ch q slack hcount hdual hawake hfilled
    rw [hpim, ok_bind]
    cases o with
    | none =>
      simp only
      split
      · exact .inr ⟨none, m, rfl, .none _ hheld⟩
      · rcases fromQueues_spec hcount hdual hawake (numQueues config) (hheld.filled hfilled) with
          ⟨herr, hclash⟩ | ⟨o, q', hok, hpicked⟩
        · refine .inl ⟨herr, ?_⟩
          unfold Clash at hclash ⊢
          rwa [hheld.queues] at hclash
        · exact .inr ⟨o, q', hok, hpicked.of_held hheld⟩
    | some cmd =>
      obtain ⟨front, rest, hqueue, hlead⟩ := hfront cmd rfl
      obtain ⟨hwanted, htype⟩ := hfilled.pim front (by rw [hqueue]; exact List.mem_cons_self)
      simp only
      -- a command for the PIM queue is its front; any other one prepares it
      have hcases : cmd.cmdType = front.cmdType ∨
          cmd.cmdType.isReadWrite = false ∧ cmd.cmdType.pimQCommand = false := by
        have hneeded := hlead.needed
        cases ht : front.cmdType <;> rw [ht] at hneeded htype <;>
          simp [needs, CommandType.pimQCommand] at hneeded htype
        · rcases hneeded with h | h | h | h <;> rw [h] <;>
            simp [CommandType.isReadWrite, CommandType.isRead, CommandType.isWrite,
              CommandType.pimQCommand]
        · rcases hneeded with h | h | h <;> rw [h] <;>
            simp [CommandType.isReadWrite, CommandType.isRead, CommandType.isWrite,
              CommandType.pimQCommand]
        · rcases hneeded with h | h <;> rw [h] <;>
            simp [CommandType.isReadWrite, CommandType.isRead, CommandType.isWrite,
              CommandType.pimQCommand]
      split
      · rename_i hpimType
        have hpimQ : cmd.cmdType.pimQCommand = true := by
          rcases hpimType with h | h
          · cases ht : cmd.cmdType <;> rw [ht] at h <;> simp [CommandType.isPIMCommand] at h <;> rfl
          · rw [h]
            rfl
        have hsame : cmd.cmdType = front.cmdType := by
          rcases hcases with h | h
          · exact h
          · simp [hpimQ] at h
        have hmem : front ∈ m.getQueue config cmd := by
          rw [getQueue, if_pos hpimQ, hheld.pimQueue, hqueue]
          exact List.mem_cons_self
        rw [eraseRWCommand_ok hmem (by simp [alike, hlead.hexAddr, hsame]) (by simp [hpimQ]),
          ok_bind]
        exact .inr ⟨some cmd, _, rfl, .pim front rest cmd _ hqueue href hlead (held_taken hheld)⟩
      · rename_i hpimType
        refine .inr ⟨some cmd, _, rfl, .pim front rest cmd _ hqueue href hlead ?_⟩
        rw [taken_of_not]
        · exact hheld
        · rcases hcases with h | ⟨h1, h2⟩
          · exfalso
            apply hpimType
            rw [h]
            cases ht : front.cmdType <;> rw [ht] at htype <;>
              simp [CommandType.pimQCommand] at htype <;> simp [CommandType.isPIMCommand]
          · rw [h1, h2]
            rfl
  · exact fromQueues_spec hcount hdual hawake (numQueues config) hfilled

end Loop

end CommandQueue

end NewPims.NewtonSim

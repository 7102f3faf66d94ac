import NewPims.NewtonSim.Drawn

/-! What holds of a channel after any calls: every transaction that waits for an answer is in one
queue or the other on its way to the memory, and no other one is. -/
namespace NewPims.NewtonSim.Controller

open Transition CommandQueue

variable {config : DramConfig} {c m s : Controller} {cmd : TypedCommand} {o : Option TypedCommand}
  {q : CommandQueue}

/-- The transactions of the PIM queue. -/
def PIMType (t : TransactionType) : Prop := t = .GWRITE ∨ t = .COMPS_READRES ∨ t = .P_HEADER

/-- How many PIM transactions of an address are in a list, but for headers. -/
def countPIM (queue : List Transaction) (a : AddrType) : ℕ :=
  queue.countP fun t => t.reqType != .P_HEADER && t.addr == a

/-- The state of the banks and of the queues. -/
structure Sound (config : DramConfig) (c : Controller) : Prop where
  clk : c.cmdQueue.clk = c.clk
  awake : AllAwake c.channelState
  refreshes : ∀ ref ∈ c.channelState.refreshQ, ref.cmdType = .REFRESH ∧ Wanted config ref
  sref : ∀ r, c.channelState.rankIsSref r = false
  nextRank : c.refresh.nextRank < config.ranks
  filled : c.cmdQueue.Filled config
  reads : ∀ t ∈ c.readQueue, t.reqType = .READ
  writes : ∀ t ∈ c.writeBuffer, t.reqType = .WRITE
  pims : ∀ t ∈ c.pimQueue, PIMType t.reqType ∧ Supported config t.addr t.reqType

/-- For each address: one read is on its way if any waits for an answer, every buffered write is
on its way, and it has left for the command queue only when no read waits. -/
structure Ledger (config : DramConfig) (c : Controller) : Prop where
  reads : ∀ a, count c.readQueue a + c.cmdQueue.waiting config .READ a = min 1 (count c.pendingRdQ a)
  writes : ∀ a, count c.writeBuffer a + c.cmdQueue.waiting config .WRITE a = count c.pendingWrQ a
  oneWrite : ∀ a, count c.pendingWrQ a ≤ 1
  ordered : ∀ a, 0 < c.cmdQueue.waiting config .WRITE a → count c.pendingRdQ a = 0
  pims : ∀ a, countPIM c.pimQueue a + c.cmdQueue.waitingPIM a ≤ count c.pendingPimQ a

theorem sound_initial (h : Regular config) : Sound config {} := by
  refine ⟨rfl, ?_, by simp, fun r => rfl, h.someRank, ⟨?_, ?_⟩, by simp, by simp, by simp⟩
  · intro b
    exact ⟨by simp, by simp⟩
  · intro i cmd hcmd
    exact absurd hcmd List.not_mem_nil
  · intro cmd hcmd
    exact absurd hcmd List.not_mem_nil

theorem ledger_initial : Ledger config {} := by
  refine ⟨?_, ?_, ?_, ?_, ?_⟩ <;> intro a <;> simp [count, countPIM, waiting, waitingPIM]

section Refreshed

/-- The first step of a cycle asks for a refresh at most. -/
theorem refreshed_cases (hregular : Regular config) (hsound : Sound config c) :
    ∃ refreshQ r, refreshed config c =
        { c with channelState := { c.channelState with refreshQ := refreshQ }, refresh := r } ∧
      r.nextRank < config.ranks ∧ (refreshQ = c.channelState.refreshQ ∨
        refreshQ = c.channelState.refreshQ ++
          [.plain .REFRESH ⟨-1, BitVec.ofNat 32 c.refresh.nextRank, -1, -1, -1, -1⟩ (-1)]) := by
  unfold refreshed Refresh.advance
  dsimp only
  split
  · unfold Refresh.insertRefresh Refresh.iterateNext
    rw [hregular.staggered]
    dsimp only
    rw [hsound.sref, if_neg Bool.false_ne_true]
    exact ⟨_, _, rfl, Nat.mod_lt _ hregular.someRank, .inr rfl⟩
  · exact ⟨_, _, rfl, hsound.nextRank, .inl rfl⟩

theorem sound_refreshed (hregular : Regular config) (hsound : Sound config c) :
    Sound config (refreshed config c) := by
  obtain ⟨refreshQ, r, heq, hrank, hqueue⟩ := refreshed_cases hregular hsound
  rw [heq]
  refine ⟨hsound.clk, hsound.awake, ?_, hsound.sref, hrank, hsound.filled, hsound.reads,
    hsound.writes, hsound.pims⟩
  intro ref href
  rcases hqueue with rfl | rfl
  · exact hsound.refreshes ref href
  · rcases List.mem_append.mp href with href | href
    · exact hsound.refreshes ref href
    · rw [List.mem_singleton] at href
      subst href
      refine ⟨rfl, ?_, by simp [TypedCommand.plain], fun _ => ?_⟩
      · simp [Asked, TypedCommand.plain]
      · rw [TypedCommand.plain]
        rw [toNat_ofNat_lt hsound.nextRank hregular.ranks]
        exact hsound.nextRank

theorem ledger_refreshed (hledger : Ledger config c) : Ledger config (refreshed config c) :=
  ⟨hledger.reads, hledger.writes, hledger.oneWrite, hledger.ordered, hledger.pims⟩

end Refreshed

section Effect

/-- The end of a transaction changes what waits for an answer, and what has one. -/
theorem completed_same (h : Completed config c cmd m) : ∃ returns rd wr pim, m = { c with
    returnQueue := returns, pendingRdQ := rd, pendingWrQ := wr, pendingPimQ := pim } := by
  cases h <;> exact ⟨_, _, _, _, rfl⟩

theorem count_filter (l : List Transaction) (a b : AddrType) :
    count (l.filter fun t => !(t.addr == b)) a = if a = b then 0 else count l a := by
  unfold count
  rw [List.countP_filter]
  split
  · rename_i h
    rw [List.countP_eq_zero]
    intro t ht
    simp [h]
  · rename_i h
    refine List.countP_congr fun t ht => ?_
    simp only [Bool.and_eq_true, beq_iff_eq, Bool.not_eq_true', beq_eq_false_iff_ne]
    exact ⟨fun h => h.1, fun ht => ⟨ht, fun hb => h (ht.symm.trans hb)⟩⟩

theorem count_eraseP {l : List Transaction} {b : AddrType} (h : 0 < count l b) (a : AddrType) :
    count l a = count (l.eraseP fun t => t.addr == b) a + if b = a then 1 else 0 := by
  obtain ⟨t, ht, hbeq⟩ := List.countP_pos_iff.mp h
  have haddr : t.addr = b := by simpa using hbeq
  have hsame : ∀ y : Transaction, (y.addr == b) = true → (y.addr == a) = (t.addr == a) := by
    intro y hy
    rw [beq_iff_eq] at hy
    rw [hy, haddr]
  refine (countP_eraseP ⟨t, ht, hbeq⟩ hsame).trans ?_
  rw [haddr]
  simp only [beq_iff_eq, count]

theorem sound_effect (hsound : Sound config c)
    (hchosen : Chosen config c.channelState c.cmdQueue o q)
    (heffect : Effect config { c with cmdQueue := q } o m) : Sound config m := by
  have hsame : Sound config { c with cmdQueue := q } := by
    cases o with
    | none =>
      obtain ⟨hqueues, hpim, hclk⟩ := chosen_none hchosen
      refine ⟨hclk.trans hsound.clk, hsound.awake, hsound.refreshes, hsound.sref, hsound.nextRank,
        ⟨?_, ?_⟩, hsound.reads, hsound.writes, hsound.pims⟩
      · rw [hqueues]
        exact hsound.filled.queued
      · rw [hpim]
        exact hsound.filled.pim
    | some cmd =>
      obtain ⟨-, -, hdrawn⟩ := chosen_some hsound.filled hsound.refreshes hchosen
      exact ⟨hdrawn.clk.trans hsound.clk, hsound.awake, hsound.refreshes, hsound.sref,
        hsound.nextRank, filled_drawn hdrawn hsound.filled, hsound.reads, hsound.writes,
        hsound.pims⟩
  cases heffect with
  | nothing => exact hsame
  | header cmd htype =>
    exact ⟨hsame.clk, hsame.awake, hsame.refreshes, hsame.sref, hsame.nextRank, hsame.filled,
      hsame.reads, hsame.writes, hsame.pims⟩
  | command cmd m ch hissue hfit hcompleted hissued =>
    obtain ⟨returns, rd, wr, pim, rfl⟩ := completed_same hcompleted
    refine ⟨hsame.clk, hissued.awake, ?_, ?_, hsame.nextRank, hsame.filled, hsame.reads,
      hsame.writes, hsame.pims⟩
    · intro ref href
      rw [hissued.refreshQ] at href
      split at href
      · exact hsame.refreshes ref (List.mem_of_mem_eraseP href)
      · exact hsame.refreshes ref href
    · intro r
      rw [hissued.rankIsSref]
      exact hsame.sref r

/-- The counts of an address, before and after its command is drawn. -/
theorem ledger_drawn (hledger : Ledger config c) (hdrawn : c.cmdQueue.Drawn config cmd q)
    (hissue : cmd.cmdType = .P_HEADER ∨ Issuable cmd.cmdType)
    (hcompleted : Completed config { c with cmdQueue := q } cmd m ∨
      cmd.cmdType = .P_HEADER ∧ m = { c with cmdQueue := q }) : Ledger config m := by
  have hread := waiting_drawn hdrawn (t := .READ) rfl
  have hwrite := waiting_drawn hdrawn (t := .WRITE) rfl
  have hpim := waitingPIM_drawn hdrawn
  have hother : (cmd.cmdType ≠ .READ ∧ cmd.cmdType ≠ .WRITE) ∧
      ¬ (cmd.cmdType.pimQCommand = true ∧ cmd.cmdType ≠ .P_HEADER) →
      Ledger config { c with cmdQueue := q } := by
    rintro ⟨⟨h1, h2⟩, h3⟩
    simp only [h1, false_and, if_false, Nat.add_zero] at hread
    simp only [h2, false_and, if_false, Nat.add_zero] at hwrite
    simp only [h3, false_and, if_false, Nat.add_zero] at hpim
    refine ⟨?_, ?_, hledger.oneWrite, ?_, ?_⟩
    · exact fun a => hread a ▸ hledger.reads a
    · exact fun a => hwrite a ▸ hledger.writes a
    · exact fun a h => hledger.ordered a (by rwa [hwrite a])
    · exact fun a => hpim a ▸ hledger.pims a
  rcases hcompleted with hcompleted | ⟨htype, rfl⟩
  · cases hcompleted with
    | read htype hpos =>
      simp only [htype, true_and, CommandType.pimQCommand, Bool.false_eq_true, false_and, if_false,
        Nat.add_zero, reduceCtorEq] at hread hwrite hpim
      refine ⟨?_, ?_, hledger.oneWrite, ?_, ?_⟩ <;> intro a <;> dsimp only
      · have hold := hledger.reads a
        have hdraw := hread a
        rw [count_filter]
        by_cases ha : cmd.hexAddr = a
        · rw [if_pos ha] at hdraw
          rw [if_pos ha.symm]
          omega
        · rw [if_neg ha] at hdraw
          rw [if_neg (Ne.symm ha)]
          omega
      · rw [← hwrite a]
        exact hledger.writes a
      · intro h
        rw [count_filter]
        have hold := hledger.ordered a (by rwa [hwrite a])
        split <;> omega
      · rw [← hpim a]
        exact hledger.pims a
    | write htype hpos =>
      simp only [htype, true_and, CommandType.pimQCommand, Bool.false_eq_true, false_and, if_false,
        Nat.add_zero, reduceCtorEq] at hread hwrite hpim
      have hcount := count_eraseP hpos
      refine ⟨?_, ?_, ?_, ?_, ?_⟩ <;> intro a <;> dsimp only
      · rw [← hread a]
        exact hledger.reads a
      · have hold := hledger.writes a
        have hdraw := hwrite a
        have hc := hcount a
        dsimp only at hc
        omega
      · have hold := hledger.oneWrite a
        have hc := hcount a
        dsimp only at hc
        omega
      · intro h
        exact hledger.ordered a (by rw [hwrite a]; omega)
      · rw [← hpim a]
        exact hledger.pims a
    | pim t delay htype hfind hdelay =>
      have h1 : cmd.cmdType ≠ .READ ∧ cmd.cmdType ≠ .WRITE := by
        rcases htype with h | h <;> rw [h] <;> simp
      have h2 : cmd.cmdType.pimQCommand = true ∧ cmd.cmdType ≠ .P_HEADER := by
        rcases htype with h | h <;> rw [h] <;> simp [CommandType.pimQCommand]
      simp only [h1, h2, true_and, false_and, if_false, Nat.add_zero, ne_eq, not_false_eq_true]
        at hread hwrite hpim
      have hpos : 0 < count c.pendingPimQ cmd.hexAddr :=
        List.countP_pos_iff.mpr
          ⟨t, List.mem_of_find?_eq_some hfind, by simpa using List.find?_some hfind⟩
      have hcount := count_eraseP hpos
      refine ⟨?_, ?_, hledger.oneWrite, ?_, ?_⟩ <;> intro a <;> dsimp only
      · rw [← hread a]
        exact hledger.reads a
      · rw [← hwrite a]
        exact hledger.writes a
      · exact fun h => hledger.ordered a (by rwa [hwrite a])
      · have hold := hledger.pims a
        have hdraw := hpim a
        have hc := hcount a
        omega
    | other hrw hgwrite hcomps =>
      refine hother ⟨⟨?_, ?_⟩, ?_⟩
      · rintro h
        rw [h] at hrw
        cases hrw
      · rintro h
        rw [h] at hrw
        cases hrw
      · rintro ⟨hpimQ, hheader⟩
        rcases hissue with h | h | h | h | h | h | h | h | h | h <;>
          rw [h] at hpimQ hheader hgwrite hcomps <;>
          simp [CommandType.pimQCommand] at hpimQ hheader hgwrite hcomps
  · exact hother ⟨by rw [htype]; simp, by rw [htype]; simp⟩

theorem ledger_effect (hsound : Sound config c) (hledger : Ledger config c)
    (hchosen : Chosen config c.channelState c.cmdQueue o q)
    (heffect : Effect config { c with cmdQueue := q } o m) : Ledger config m := by
  cases heffect with
  | nothing =>
    obtain ⟨hqueues, hpim, -⟩ := chosen_none hchosen
    have hwaiting : q.waiting config = c.cmdQueue.waiting config := by
      unfold waiting
      rw [hqueues]
    have hwaitingPIM : q.waitingPIM = c.cmdQueue.waitingPIM := by
      unfold waitingPIM
      rw [hpim]
    refine ⟨?_, ?_, hledger.oneWrite, ?_, ?_⟩ <;> dsimp only
    · rw [hwaiting]
      exact hledger.reads
    · rw [hwaiting]
      exact hledger.writes
    · rw [hwaiting]
      exact hledger.ordered
    · rw [hwaitingPIM]
      exact hledger.pims
  | header cmd htype =>
    obtain ⟨-, hissue, hdrawn⟩ := chosen_some hsound.filled hsound.refreshes hchosen
    have h := ledger_drawn hledger hdrawn hissue (.inr ⟨htype, rfl⟩)
    exact ⟨h.reads, h.writes, h.oneWrite, h.ordered, h.pims⟩
  | command cmd m ch hissue hfit hcompleted hissued =>
    obtain ⟨-, hissue, hdrawn⟩ := chosen_some hsound.filled hsound.refreshes hchosen
    have h := ledger_drawn
      (c := ({ c with cmdQueue := q }.logged cmd |> fun d => { d with cmdQueue := c.cmdQueue }))
      ⟨hledger.reads, hledger.writes, hledger.oneWrite, hledger.ordered, hledger.pims⟩ hdrawn hissue
      (.inl hcompleted)
    exact ⟨h.reads, h.writes, h.oneWrite, h.ordered, h.pims⟩

end Effect

end NewPims.NewtonSim.Controller

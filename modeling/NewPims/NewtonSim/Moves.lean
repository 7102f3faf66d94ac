import NewPims.NewtonSim.Ledger

/-! A transaction becomes a command, and the counts stay as they are. -/
namespace NewPims.NewtonSim.Controller

open Transition CommandQueue

variable {config : DramConfig} {c s : Controller} {cmd : TypedCommand} {q : CommandQueue}

/-- A read or a write that finds room is added to the queue of its address. -/
theorem addCommand_readWrite (hrw : cmd.cmdType.isReadWrite = true)
    (haddr : cmd.addr = config.addressOf cmd.hexAddr) (hrank : cmd.addr.rank ≠ -1)
    (hroom : q.willAcceptCommand config cmd.addr.rank cmd.addr.bankgroup cmd.addr.bank = true) :
    ∃ e, q.addCommand config cmd = { q with
      queues := Function.update q.queues (slot config cmd.hexAddr)
        (q.queues (slot config cmd.hexAddr) ++ [cmd])
      rankQEmpty := e } := by
  rw [willAcceptCommand, if_neg hrank, decide_eq_true_eq, getQueueIndex_eq haddr] at hroom
  have hpim : ¬ cmd.cmdType.pimQCommand = true := by
    rw [pimQ_of_readWrite hrw]
    decide
  unfold addCommand getQueue setQueue
  simp only [if_neg hpim, getQueueIndex_eq haddr, if_pos hroom, if_neg hrank]
  exact ⟨_, rfl⟩

/-- A PIM command is added to the PIM queue, or lost. -/
theorem addCommand_pim (hpim : cmd.cmdType.pimQCommand = true) :
    (q.pimQueue.length < config.cmdQueueSize ∧
      ∃ e, q.addCommand config cmd = { q with pimQueue := q.pimQueue ++ [cmd], rankQEmpty := e }) ∨
    config.cmdQueueSize ≤ q.pimQueue.length ∧ q.addCommand config cmd = q := by
  unfold addCommand getQueue setQueue
  simp only [if_pos hpim]
  split
  · rename_i hlt
    refine .inl ⟨hlt, ?_⟩
    split <;> exact ⟨_, rfl⟩
  · rename_i hge
    exact .inr ⟨Nat.le_of_not_lt hge, rfl⟩

theorem supported_queueOf (hsound : Sound config c) {which : QueueToSchedule} {t : Transaction}
    (ht : t ∈ c.queueOf which) : Supported config t.addr t.reqType := by
  cases which with
  | READ_Q =>
    rw [hsound.reads t ht]
    trivial
  | WRITE_BUFFER =>
    rw [hsound.writes t ht]
    trivial
  | PIM_Q => exact (hsound.pims t ht).2

theorem count_append (l l' : List Transaction) (a : AddrType) :
    count (l ++ l') a = count l a + count l' a := List.countP_append

theorem count_remove (before after : List Transaction) (t : Transaction) (a : AddrType) :
    count (before ++ t :: after) a = count (before ++ after) a + if t.addr = a then 1 else 0 := by
  unfold count
  rw [List.countP_append, List.countP_append, List.countP_cons]
  simp only [beq_iff_eq]
  omega

theorem mem_remove {before after : List Transaction} {t u : Transaction} (h : u ∈ before ++ after) :
    u ∈ before ++ t :: after :=
  (List.Sublist.append_left (List.sublist_cons_self t after) before).subset h

theorem waiting_append {e : BitVec 32 → Bool} (t : CommandType) (a : AddrType) :
    CommandQueue.waiting config { q with
      queues := Function.update q.queues (slot config cmd.hexAddr)
        (q.queues (slot config cmd.hexAddr) ++ [cmd])
      rankQEmpty := e } t a =
      q.waiting config t a + if cmd.cmdType = t ∧ cmd.hexAddr = a then 1 else 0 := by
  unfold waiting
  dsimp only
  by_cases hslot : slot config a = slot config cmd.hexAddr
  · rw [hslot, Function.update_self, List.countP_append, List.countP_singleton]
    simp only [Bool.and_eq_true, beq_iff_eq]
  · rw [Function.update_of_ne hslot, if_neg]
    · rfl
    · rintro ⟨-, rfl⟩
      exact hslot rfl

variable {which : QueueToSchedule} {before after : List Transaction} {t : Transaction}
  {lock : Bool} {addr : AddrType} {draining : ℤ}

/-- What a read or a write does that moves to the command queue. -/
theorem move_readWrite (hregular : Regular config) (hsound : Sound config c)
    (hledger : Ledger config c) (hwhich : which = .READ_Q ∨ which = .WRITE_BUFFER)
    (hqueue : c.queueOf which = before ++ t :: after) (hcmd : transToCommand config t = .ok cmd)
    (hroom : Room config c cmd) (hwait : ¬ (cmd.cmdType.isWrite = true ∧ c.mustWait t = true)) :
    let d := { c with cmdQueue := c.cmdQueue.addCommand config cmd }.setQueueOf which
      (before ++ after) |>.noted lock addr draining
    Sound config d ∧ Ledger config d := by
  intro d
  have hmem : t ∈ c.queueOf which := by
    rw [hqueue]
    exact List.mem_append_right _ List.mem_cons_self
  have htype : t.reqType = .READ ∨ t.reqType = .WRITE := by
    rcases hwhich with rfl | rfl
    · exact .inl (hsound.reads t hmem)
    · exact .inr (hsound.writes t hmem)
  obtain ⟨hwanted, hct, hhex, haddr, -⟩ :=
    transToCommand_spec hregular (supported_queueOf hsound hmem) hcmd
  have haddr : cmd.addr = config.addressOf cmd.hexAddr := by
    rw [haddr (by rcases htype with h | h <;> simp [h]), hhex]
  have hrw : cmd.cmdType.isReadWrite = true := by
    rw [hct]
    rcases htype with h | h <;> rw [h] <;> rfl
  have hrank : cmd.addr.rank ≠ -1 := by
    rw [haddr]
    exact addressOf_rank hregular _
  have hgwrite : cmd.cmdType ≠ .GWRITE := by
    rw [hct]
    rcases htype with h | h <;> rw [h] <;> simp [commandType]
  rw [Room, if_neg hgwrite] at hroom
  obtain ⟨e, hadd⟩ := addCommand_readWrite hrw haddr hrank hroom
  have hwaiting := @waiting_append config cmd c.cmdQueue e
  have hqueueable : Queueable config cmd :=
    ⟨hwanted, hrw, haddr, by rw [haddr]; exact addressOf_row hregular _⟩
  have hfilled : CommandQueue.Filled config (c.cmdQueue.addCommand config cmd) := by
    rw [hadd]
    refine ⟨fun i u hu => ?_, hsound.filled.pim⟩
    dsimp only at hu
    by_cases hi : i = slot config cmd.hexAddr
    · subst hi
      rw [Function.update_self] at hu
      rcases List.mem_append.mp hu with hu | hu
      · exact hsound.filled.queued _ u hu
      · rw [List.mem_singleton] at hu
        subst hu
        exact ⟨hqueueable, rfl⟩
    · rw [Function.update_of_ne hi] at hu
      exact hsound.filled.queued i u hu
  have hclk : (c.cmdQueue.addCommand config cmd).clk = c.clk := by
    rw [hadd]
    exact hsound.clk
  rcases hwhich with rfl | rfl
  · have ht := hsound.reads t hmem
    rw [ht] at hct
    simp only [queueOf] at hqueue
    refine ⟨⟨hclk, hsound.awake, hsound.refreshes, hsound.sref, hsound.nextRank, hfilled, ?_,
      hsound.writes, hsound.pims⟩, ?_, ?_, hledger.oneWrite, ?_, ?_⟩
    · intro u hu
      exact hsound.reads u (by rw [hqueue]; exact mem_remove hu)
    · intro a
      have hold := hledger.reads a
      rw [hqueue, count_remove] at hold
      change count (before ++ after) a + (c.cmdQueue.addCommand config cmd).waiting config .READ a = _
      rw [hadd, hwaiting .READ a, hct, hhex]
      simp only [commandType, true_and]
      exact (by omega : _ = _ + _).trans hold
    · intro a
      change _ + (c.cmdQueue.addCommand config cmd).waiting config .WRITE a = _
      rw [hadd, hwaiting .WRITE a, hct]
      simp only [commandType, reduceCtorEq, false_and, if_false]
      exact hledger.writes a
    · intro a h
      change 0 < (c.cmdQueue.addCommand config cmd).waiting config .WRITE a at h
      rw [hadd, hwaiting .WRITE a, hct] at h
      simp only [commandType, reduceCtorEq, false_and, if_false] at h
      exact hledger.ordered a h
    · intro a
      change _ + (c.cmdQueue.addCommand config cmd).waitingPIM a ≤ _
      rw [hadd]
      exact hledger.pims a
  · have ht := hsound.writes t hmem
    rw [ht] at hct
    simp only [queueOf] at hqueue
    have hno : count c.pendingRdQ t.addr = 0 := by
      have hfree : ¬ c.mustWait t = true := fun h => hwait ⟨by rw [hct]; rfl, h⟩
      unfold mustWait at hfree
      split at hfree
      · exact absurd rfl hfree
      · rename_i hpos
        exact Nat.eq_zero_of_not_pos hpos
    refine ⟨⟨hclk, hsound.awake, hsound.refreshes, hsound.sref, hsound.nextRank, hfilled,
      hsound.reads, ?_, hsound.pims⟩, ?_, ?_, hledger.oneWrite, ?_, ?_⟩
    · intro u hu
      exact hsound.writes u (by rw [hqueue]; exact mem_remove hu)
    · intro a
      change _ + (c.cmdQueue.addCommand config cmd).waiting config .READ a = _
      rw [hadd, hwaiting .READ a, hct]
      simp only [commandType, reduceCtorEq, false_and, if_false]
      exact hledger.reads a
    · intro a
      have hold := hledger.writes a
      rw [hqueue, count_remove] at hold
      change count (before ++ after) a + (c.cmdQueue.addCommand config cmd).waiting config .WRITE a = _
      rw [hadd, hwaiting .WRITE a, hct, hhex]
      simp only [commandType, true_and]
      exact (by omega : _ = _ + _).trans hold
    · intro a h
      change 0 < (c.cmdQueue.addCommand config cmd).waiting config .WRITE a at h
      rw [hadd, hwaiting .WRITE a, hct, hhex] at h
      by_cases ha : t.addr = a
      · subst ha
        exact hno
      · rw [if_neg fun h => ha h.2] at h
        exact hledger.ordered a h
    · intro a
      change _ + (c.cmdQueue.addCommand config cmd).waitingPIM a ≤ _
      rw [hadd]
      exact hledger.pims a

/-- What a PIM transaction does that moves to the command queue. -/
theorem move_pim (hregular : Regular config) (hsound : Sound config c)
    (hledger : Ledger config c) (hqueue : c.pimQueue = before ++ t :: after)
    (hcmd : transToCommand config t = .ok cmd) :
    let d := { c with cmdQueue := c.cmdQueue.addCommand config cmd }.setQueueOf .PIM_Q
      (before ++ after) |>.noted lock addr draining
    Sound config d ∧ Ledger config d := by
  intro d
  have hmem : t ∈ c.pimQueue := by
    rw [hqueue]
    exact List.mem_append_right _ List.mem_cons_self
  obtain ⟨htype, hsupported⟩ := hsound.pims t hmem
  obtain ⟨hwanted, hct, hhex, -, -⟩ := transToCommand_spec hregular hsupported hcmd
  have hpim : cmd.cmdType.pimQCommand = true := by
    rw [hct]
    rcases htype with h | h | h <;> rw [h] <;> rfl
  have hheader : cmd.cmdType = .P_HEADER ↔ t.reqType = .P_HEADER := by
    rw [hct]
    rcases htype with h | h | h <;> rw [h] <;> simp [commandType]
  have hremove : ∀ a, countPIM c.pimQueue a = countPIM (before ++ after) a +
      if t.reqType ≠ .P_HEADER ∧ t.addr = a then 1 else 0 := by
    intro a
    rw [hqueue, countPIM, countPIM, List.countP_append, List.countP_append, List.countP_cons]
    simp only [Bool.and_eq_true, bne_iff_ne, beq_iff_eq]
    omega
  have hpims : ∀ u ∈ before ++ after, PIMType u.reqType ∧ Supported config u.addr u.reqType :=
    fun u hu => hsound.pims u (by rw [hqueue]; exact mem_remove hu)
  set q' := c.cmdQueue.addCommand config cmd with hq'
  have hadd : q'.queues = c.cmdQueue.queues ∧ q'.clk = c.cmdQueue.clk ∧
      (q'.pimQueue = c.cmdQueue.pimQueue ++ [cmd] ∨ q'.pimQueue = c.cmdQueue.pimQueue) := by
    rcases @addCommand_pim config _ c.cmdQueue hpim with ⟨-, e, hadd⟩ | ⟨-, hadd⟩
    · rw [hq', hadd]
      exact ⟨rfl, rfl, .inl rfl⟩
    · rw [hq', hadd]
      exact ⟨rfl, rfl, .inr rfl⟩
  have hwaiting : q'.waiting config = c.cmdQueue.waiting config := by
    unfold waiting
    rw [hadd.1]
  refine ⟨⟨hadd.2.1.trans hsound.clk, hsound.awake, hsound.refreshes, hsound.sref, hsound.nextRank,
    ⟨?_, ?_⟩, hsound.reads, hsound.writes, hpims⟩, ?_, ?_, hledger.oneWrite, ?_, ?_⟩
  · change ∀ i, ∀ u ∈ q'.queues i, _
    rw [hadd.1]
    exact hsound.filled.queued
  · change ∀ u ∈ q'.pimQueue, _
    intro u hu
    rcases hadd.2.2 with h | h <;> rw [h] at hu
    · rcases List.mem_append.mp hu with hu | hu
      · exact hsound.filled.pim u hu
      · rw [List.mem_singleton] at hu
        subst hu
        exact ⟨hwanted, hpim⟩
    · exact hsound.filled.pim u hu
  · change ∀ a, _ + q'.waiting config .READ a = _
    rw [hwaiting]
    exact hledger.reads
  · change ∀ a, _ + q'.waiting config .WRITE a = _
    rw [hwaiting]
    exact hledger.writes
  · change ∀ a, 0 < q'.waiting config .WRITE a → _
    rw [hwaiting]
    exact hledger.ordered
  · intro a
    change countPIM (before ++ after) a + q'.waitingPIM a ≤ count c.pendingPimQ a
    have hold := hledger.pims a
    rw [hremove a] at hold
    unfold waitingPIM at hold ⊢
    rcases hadd.2.2 with h | h <;> rw [h]
    · rw [List.countP_append, List.countP_singleton]
      simp only [Bool.and_eq_true, bne_iff_ne, beq_iff_eq, ne_eq, hheader, hhex] at hold ⊢
      omega
    · omega

/-- Any transaction that moves, or none. -/
theorem sound_scheduled (hregular : Regular config) (hsound : Sound config c)
    (hledger : Ledger config c) (h : Scheduled config c s) : Sound config s ∧ Ledger config s := by
  cases h with
  | stay lock addr draining =>
    exact ⟨⟨hsound.clk, hsound.awake, hsound.refreshes, hsound.sref, hsound.nextRank, hsound.filled,
      hsound.reads, hsound.writes, hsound.pims⟩, hledger.reads, hledger.writes, hledger.oneWrite,
      hledger.ordered, hledger.pims⟩
  | move which before t after cmd lock addr draining hqueue hbefore hcmd hroom hwait =>
    cases which with
    | READ_Q => exact move_readWrite hregular hsound hledger (.inl rfl) hqueue hcmd hroom hwait
    | WRITE_BUFFER => exact move_readWrite hregular hsound hledger (.inr rfl) hqueue hcmd hroom hwait
    | PIM_Q => exact move_pim hregular hsound hledger hqueue hcmd

/-- The transactions that wait for an answer are not changed when one becomes a command. -/
theorem scheduled_same (h : Scheduled config c s) : s.pendingRdQ = c.pendingRdQ ∧
    s.pendingWrQ = c.pendingWrQ ∧ s.pendingPimQ = c.pendingPimQ ∧ s.returnQueue = c.returnQueue ∧
    s.log = c.log ∧ s.clk = c.clk ∧ s.channelState = c.channelState ∧ s.refresh = c.refresh := by
  cases h with
  | stay lock addr draining => exact ⟨rfl, rfl, rfl, rfl, rfl, rfl, rfl, rfl⟩
  | move which before u after cmd lock addr draining hqueue hbefore hcmd hroom hwait =>
    cases which <;> exact ⟨rfl, rfl, rfl, rfl, rfl, rfl, rfl, rfl⟩

end NewPims.NewtonSim.Controller

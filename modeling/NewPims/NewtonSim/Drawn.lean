import NewPims.NewtonSim.Ticks

/-! The command of a cycle leaves its queue, and the others stay. -/
namespace NewPims.NewtonSim

open Transition

variable {config : DramConfig}

section Lists

variable {α : Type*} {p e : α → Bool} {l : List α} {x : α}

/-- Erasing an element takes its part of a count away. -/
theorem countP_eraseP (hmem : ∃ y ∈ l, e y = true) (hsame : ∀ y, e y = true → p y = p x) :
    l.countP p = (l.eraseP e).countP p + if p x = true then 1 else 0 := by
  obtain ⟨y, hy, hey⟩ := hmem
  obtain ⟨z, l₁, l₂, -, hez, hl, herase⟩ := List.exists_of_eraseP hy hey
  rw [herase, hl, List.countP_append, List.countP_append, List.countP_cons, hsame z hez]
  omega

end Lists

namespace CommandQueue

variable {q q' : CommandQueue} {cmd : TypedCommand} {ch : ChannelState}

/-- How many commands of a type and an address wait. -/
def waiting (config : DramConfig) (q : CommandQueue) (t : CommandType) (a : AddrType) : ℕ :=
  (q.queues (slot config a)).countP fun cmd => cmd.cmdType == t && cmd.hexAddr == a

/-- How many PIM commands of an address wait, but for headers. -/
def waitingPIM (q : CommandQueue) (a : AddrType) : ℕ :=
  q.pimQueue.countP fun cmd => cmd.cmdType != .P_HEADER && cmd.hexAddr == a

/-- A command leaves its queue, where it has one. -/
structure Drawn (config : DramConfig) (q : CommandQueue) (cmd : TypedCommand) (q' : CommandQueue) :
    Prop where
  queues : q'.queues = (q.taken config cmd).queues
  pimQueue : q'.pimQueue = (q.taken config cmd).pimQueue
  clk : q'.clk = q.clk
  addr : cmd.cmdType.isReadWrite = true → cmd.addr = config.addressOf cmd.hexAddr
  queued : cmd.cmdType.isReadWrite = true →
    ∃ src ∈ q.queues (slot config cmd.hexAddr), alike cmd src = true
  front : cmd.cmdType.pimQCommand = true →
    ∃ front rest, q.pimQueue = front :: rest ∧ alike cmd front = true

theorem pimQ_of_readWrite {t : CommandType} (h : t.isReadWrite = true) : t.pimQCommand = false := by
  cases t <;> first | rfl | cases h

theorem getQueueIndex_eq (h : cmd.addr = config.addressOf cmd.hexAddr) :
    getQueueIndex config cmd.addr.rank cmd.addr.bankgroup cmd.addr.bank =
      slot config cmd.hexAddr := by
  rw [h]
  rfl

theorem queues_taken (h : cmd.cmdType.isReadWrite = true → cmd.addr = config.addressOf cmd.hexAddr) :
    (q.taken config cmd).queues = if cmd.cmdType.isReadWrite = true then
      Function.update q.queues (slot config cmd.hexAddr)
        ((q.queues (slot config cmd.hexAddr)).eraseP (alike cmd)) else q.queues := by
  unfold taken setQueue getQueue
  by_cases hrw : cmd.cmdType.isReadWrite = true
  · simp [hrw, pimQ_of_readWrite hrw, getQueueIndex_eq (h hrw)]
  · by_cases hpim : cmd.cmdType.pimQCommand = true <;> simp [hrw, hpim]

theorem pimQueue_taken : (q.taken config cmd).pimQueue =
    if cmd.cmdType.pimQCommand = true then q.pimQueue.eraseP (alike cmd) else q.pimQueue := by
  unfold taken setQueue getQueue
  by_cases hpim : cmd.cmdType.pimQCommand = true
  · simp [hpim]
  · by_cases hrw : cmd.cmdType.isReadWrite = true <;> simp [hrw, hpim]

theorem alike_iff {c : TypedCommand} :
    alike cmd c = true ↔ c.hexAddr = cmd.hexAddr ∧ c.cmdType = cmd.cmdType := by
  rw [alike, Bool.and_eq_true, beq_iff_eq, beq_iff_eq]
  exact ⟨fun h => ⟨h.1.symm, h.2.symm⟩, fun h => ⟨h.1.symm, h.2.symm⟩⟩

theorem waiting_drawn (h : Drawn config q cmd q') {t : CommandType} (ht : t.isReadWrite = true)
    (a : AddrType) : q.waiting config t a =
      q'.waiting config t a + if cmd.cmdType = t ∧ cmd.hexAddr = a then 1 else 0 := by
  rw [waiting, waiting, h.queues, queues_taken h.addr]
  by_cases hrw : cmd.cmdType.isReadWrite = true
  · rw [if_pos hrw]
    by_cases hslot : slot config a = slot config cmd.hexAddr
    · rw [hslot, Function.update_self]
      refine (countP_eraseP (x := cmd) (h.queued hrw) ?_).trans ?_
      · intro y hy
        obtain ⟨haddr, htype⟩ := alike_iff.mp hy
        rw [haddr, htype]
      · simp only [Bool.and_eq_true, beq_iff_eq]
    · rw [Function.update_of_ne hslot, if_neg]
      · rfl
      · rintro ⟨-, rfl⟩
        exact hslot rfl
  · rw [if_neg hrw, if_neg]
    · rfl
    · rintro ⟨rfl, -⟩
      exact hrw ht

theorem waitingPIM_drawn (h : Drawn config q cmd q') (a : AddrType) : q.waitingPIM a =
    q'.waitingPIM a + if (cmd.cmdType.pimQCommand = true ∧ cmd.cmdType ≠ .P_HEADER) ∧
      cmd.hexAddr = a then 1 else 0 := by
  rw [waitingPIM, waitingPIM, h.pimQueue, pimQueue_taken]
  by_cases hpim : cmd.cmdType.pimQCommand = true
  · rw [if_pos hpim]
    have hmem : ∃ y ∈ q.pimQueue, alike cmd y = true := by
      obtain ⟨front, rest, hqueue, halike⟩ := h.front hpim
      exact ⟨front, by rw [hqueue]; exact List.mem_cons_self, halike⟩
    refine (countP_eraseP (x := cmd) hmem ?_).trans ?_
    · intro y hy
      obtain ⟨haddr, htype⟩ := alike_iff.mp hy
      rw [haddr, htype]
    · simp [hpim]
  · rw [if_neg hpim, if_neg]
    · rfl
    · rintro ⟨⟨hp, -⟩, -⟩
      exact hpim hp

/-- Nothing enters a queue when a command leaves. -/
theorem mem_queues_drawn (h : Drawn config q cmd q') {i : ℕ} {c : TypedCommand}
    (hc : c ∈ q'.queues i) : c ∈ q.queues i := by
  rw [h.queues, queues_taken h.addr] at hc
  split at hc
  · by_cases hi : i = slot config cmd.hexAddr
    · subst hi
      rw [Function.update_self] at hc
      exact List.mem_of_mem_eraseP hc
    · rwa [Function.update_of_ne hi] at hc
  · exact hc

theorem mem_pimQueue_drawn (h : Drawn config q cmd q') {c : TypedCommand} (hc : c ∈ q'.pimQueue) :
    c ∈ q.pimQueue := by
  rw [h.pimQueue, pimQueue_taken] at hc
  split at hc
  · exact List.mem_of_mem_eraseP hc
  · exact hc

theorem filled_drawn (h : Drawn config q cmd q') (hfilled : q.Filled config) : q'.Filled config :=
  ⟨fun i c hc => hfilled.queued i c (mem_queues_drawn h hc),
    fun c hc => hfilled.pim c (mem_pimQueue_drawn h hc)⟩

/-- Commands that come before a read, a write or a PIM command are none themselves. -/
theorem type_of_needs {src : TypedCommand} (hneeded : cmd.cmdType ∈ needs src.cmdType)
    (h : (cmd.cmdType.isReadWrite || cmd.cmdType.pimQCommand) = true) :
    cmd.cmdType = src.cmdType := by
  cases ht : src.cmdType <;> rw [ht] at hneeded <;>
    simp only [needs, List.mem_cons, List.not_mem_nil, or_false] at hneeded <;>
    (repeat' rcases hneeded with hneeded | hneeded) <;>
    first | exact hneeded | exact absurd h (by rw [hneeded]; decide)

end CommandQueue

namespace Controller

variable {c m s : Controller} {cmd : TypedCommand} {o : Option TypedCommand} {q : CommandQueue}

section Chosen

variable {ch : ChannelState} {q' : CommandQueue}

/-- What is chosen can be issued, and leaves its queue. -/
theorem chosen_some (hfilled : q.Filled config)
    (hrefs : ∀ ref ∈ ch.refreshQ, ref.cmdType = .REFRESH ∧ Wanted config ref)
    (h : Chosen config ch q (some cmd) q') :
    Fit config ch q.clk cmd ∧ (cmd.cmdType = .P_HEADER ∨ Issuable cmd.cmdType) ∧
      q.Drawn config cmd q' := by
  have hpicked : ∀ m : CommandQueue, m.queues = q.queues → m.pimQueue = q.pimQueue →
      m.clk = q.clk → CommandQueue.Picked config ch m (some cmd) q' →
      Fit config ch q.clk cmd ∧ (cmd.cmdType = .P_HEADER ∨ Issuable cmd.cmdType) ∧
        q.Drawn config cmd q' := by
    intro m hqueues hpim hclk hpicked
    have htaken : (m.taken config cmd).queues = (q.taken config cmd).queues ∧
        (m.taken config cmd).pimQueue = (q.taken config cmd).pimQueue := by
      unfold CommandQueue.taken CommandQueue.setQueue CommandQueue.getQueue
      rw [hqueues, hpim]
      split
      · split <;> exact ⟨rfl, rfl⟩
      · exact ⟨hqueues, hpim⟩
    have htakenClk : (m.taken config cmd).clk = m.clk := by
      unfold CommandQueue.taken CommandQueue.setQueue
      split
      · split <;> rfl
      · rfl
    cases hpicked with
    | pim front rest _ _ hqueue href hleads hheld =>
      rw [hclk] at hleads
      refine ⟨hleads.fit, issuable_of_needs hleads.needed, ?_⟩
      have hfront := hfilled.pim front (by rw [← hpim, hqueue]; exact List.mem_cons_self)
      refine ⟨hheld.queues.trans htaken.1, hheld.pimQueue.trans htaken.2,
        (hheld.clk.trans htakenClk).trans hclk, ?_, ?_, ?_⟩
      · intro hrw
        have hsame := CommandQueue.type_of_needs hleads.needed (by rw [hrw]; rfl)
        rw [hsame] at hrw
        exact absurd hfront.2 (by rw [CommandQueue.pimQ_of_readWrite hrw]; decide)
      · intro hrw
        have hsame := CommandQueue.type_of_needs hleads.needed (by rw [hrw]; rfl)
        rw [hsame] at hrw
        exact absurd hfront.2 (by rw [CommandQueue.pimQ_of_readWrite hrw]; decide)
      · intro hpimQ
        have hsame := CommandQueue.type_of_needs hleads.needed (by rw [hpimQ, Bool.or_true])
        exact ⟨front, rest, hpim.symm.trans hqueue,
          CommandQueue.alike_iff.mpr ⟨hleads.hexAddr.symm, hsame.symm⟩⟩
    | queue i src _ _ hmem href hleads hheld =>
      rw [hclk] at hleads
      rw [hqueues] at hmem
      obtain ⟨hsrc, hslot⟩ := hfilled.queued i src hmem
      refine ⟨hleads.fit, issuable_of_needs hleads.needed, hheld.queues.trans htaken.1,
        hheld.pimQueue.trans htaken.2, (hheld.clk.trans htakenClk).trans hclk, ?_, ?_, ?_⟩
      · intro hrw
        have hsame := CommandQueue.type_of_needs hleads.needed (by rw [hrw]; rfl)
        rw [hleads.addr hsame, hleads.hexAddr]
        exact hsrc.addr
      · intro hrw
        have hsame := CommandQueue.type_of_needs hleads.needed (by rw [hrw]; rfl)
        refine ⟨src, ?_, CommandQueue.alike_iff.mpr ⟨hleads.hexAddr.symm, hsame.symm⟩⟩
        rw [hleads.hexAddr, hslot]
        exact hmem
      · intro hpimQ
        have hsame := CommandQueue.type_of_needs hleads.needed (by rw [hpimQ, Bool.or_true])
        have htype := hsrc.type
        rw [← hsame] at htype
        exact absurd hpimQ (by rw [CommandQueue.pimQ_of_readWrite htype]; decide)
  cases h with
  | refresh ref rest _ _ hqueue hleads hqueues hpim hclk hdone hopen =>
    obtain ⟨htype, -⟩ := hrefs ref (by rw [hqueue]; exact List.mem_cons_self)
    have hnot : (cmd.cmdType.isReadWrite || cmd.cmdType.pimQCommand) = false := by
      by_contra hne
      have hsame := CommandQueue.type_of_needs hleads.needed ((Bool.not_eq_false _).mp hne)
      rw [hsame, htype] at hne
      exact hne rfl
    have hnot' := Bool.or_eq_false_iff.mp hnot
    refine ⟨hleads.fit, issuable_of_needs hleads.needed, ?_, ?_, hclk, ?_, ?_, ?_⟩
    · rw [CommandQueue.taken_of_not hnot, hqueues]
    · rw [CommandQueue.taken_of_not hnot, hpim]
    · exact fun hrw => absurd hrw (by rw [hnot'.1]; decide)
    · exact fun hrw => absurd hrw (by rw [hnot'.1]; decide)
    · exact fun hpimQ => absurd hpimQ (by rw [hnot'.2]; decide)
  | spare ref rest _ _ hqueue hnone hpick =>
    refine hpicked _ ?_ ?_ (clk_startRefresh q ref) hpick <;>
    · unfold startRefresh
      split <;> rfl
  | free _ _ hqueue hpick => exact hpicked q rfl rfl rfl hpick

theorem chosen_none (h : Chosen config ch q none q') :
    q'.queues = q.queues ∧ q'.pimQueue = q.pimQueue ∧ q'.clk = q.clk := by
  cases h with
  | spare ref rest _ _ hqueue hnone hpick =>
    cases hpick with
    | none _ hheld =>
      rw [hheld.queues, hheld.pimQueue, hheld.clk, clk_startRefresh]
      unfold startRefresh
      split <;> exact ⟨rfl, rfl, rfl⟩
  | free _ _ hqueue hpick =>
    cases hpick with
    | none _ hheld => exact ⟨hheld.queues, hheld.pimQueue, hheld.clk⟩

end Chosen

end Controller

end NewPims.NewtonSim

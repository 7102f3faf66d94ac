import NewPims.NewtonSim.Closing
import NewPims.NewtonSim.Refreshes

/-! A refresh is issued soon after it comes due, whatever the traffic: its rank is spared by the
other commands, so that its buffers are closed one after the other. -/
namespace NewPims.NewtonSim.Controller

open Transition CommandQueue

variable {config : DramConfig} {wait close : ℕ} {c m s t : Controller} {ch ch' : ChannelState}
  {cmd src ref : TypedCommand} {o : Option TypedCommand} {q q' : CommandQueue} {clk n limit : ℕ}
  {calls : List Call}

/-- How long a refresh waits at most. -/
def refreshLatency (config : DramConfig) (wait close : ℕ) : ℕ :=
  wait + 2 * config.banks * (close + 1)

/-- The delays of a refresh end, and its buffers can be closed one by one, before a limit. -/
def Nears (config : DramConfig) (close : ℕ) (ch : ChannelState) (clk : ℕ) (ref : TypedCommand)
    (limit : ℕ) : Prop :=
  ∃ w, (∀ b ∈ BankId.ofRank config ref.addr.rank.toNat, ∀ t, Closing t →
      (ch.bankStates b).cmdTiming t ≤ clk + w) ∧
    clk + w + openBuffers config (fun b => (ch.bankStates b).view) ref.addr.rank * (close + 1) ≤ limit

section Nears

/-- A refresh that is not ready is one cycle nearer when its rank is left alone. -/
theorem nears_spared (hdual : config.enableDualBuffer = true) (hawake : AllAwake ch)
    (hbanks : 0 < config.banks) (htype : ref.cmdType = .REFRESH)
    (h : Nears config close ch clk ref limit) (hnone : ch.getReadyCommand config ref clk = .ok none)
    (htiming : ∀ b ∈ BankId.ofRank config ref.addr.rank.toNat, ∀ t, Closing t →
      (ch'.bankStates b).cmdTiming t = (ch.bankStates b).cmdTiming t)
    (hopen : openBuffers config (fun b => (ch'.bankStates b).view) ref.addr.rank =
      openBuffers config (fun b => (ch.bankStates b).view) ref.addr.rank) :
    Nears config close ch' (clk + 1) ref limit := by
  obtain ⟨w, htimers, hlimit⟩ := h
  -- a refresh whose delays are over is ready, or one of its buffers can be closed
  have hpos : 0 < w := by
    apply Nat.pos_of_ne_zero
    intro hw
    exact getReadyCommand_refresh hdual hawake hbanks htype (by rw [hw] at htimers; exact htimers)
      hnone
  refine ⟨w - 1, ?_, ?_⟩
  · intro b hb t ht
    rw [htiming b hb t ht]
    have := htimers b hb t ht
    omega
  · rw [hopen]
    omega

/-- A buffer that is closed brings a refresh nearer. -/
theorem nears_closed (hcount : Countable config) (hdelays : RefreshDelays config wait close)
    (hcmd : cmd.cmdType = .PRECHARGE ∨ cmd.cmdType = .PIM_PRECHARGE)
    (hmem : cmd.addr.bankId ∈ BankId.ofRank config ref.addr.rank.toNat)
    (hadmits : (ch.bankStates cmd.addr.bankId).view.Admits cmd)
    (hissued : Issued config ch clk cmd ch') (h : Nears config close ch clk ref limit) :
    Nears config close ch' (clk + 1) ref limit := by
  obtain ⟨w, htimers, hlimit⟩ := h
  have hopen :=
    @openBuffers_close config cmd (fun b => (ch.bankStates b).view) _ hcount hcmd hmem hadmits
  -- closing a buffer may put its own delay on the next one, and there is one buffer less
  refine ⟨max (w - 1) close, ?_, ?_⟩
  · intro b hb t ht
    have hold := htimers b hb t ht
    rcases cmdTiming_issued hissued b t with hsame | ⟨d, hd, hnew⟩
    · rw [hsame]
      omega
    · have hclose := delaysAt_close hcmd ht hd
      have hnonneg := hdelays.nonneg d (List.mem_append_left _ hclose)
      have hstamp : stamp clk d ≤ clk + close := stamp_le hnonneg (hdelays.close d hclose)
      rw [hnew]
      omega
  · rw [hissued.view]
    rw [hopen, Nat.succ_mul] at hlimit
    omega

/-- A refresh that comes due has time enough. -/
theorem nears_due (hin : clk + refreshLatency config wait close ≤ limit)
    (htimers : ∀ b t, Closing t → (ch.bankStates b).cmdTiming t ≤ clk + wait) :
    Nears config close ch clk ref limit := by
  -- at worst every buffer of the rank is open, which the latency allows for
  refine ⟨wait, fun b _ t ht => htimers b t ht, ?_⟩
  have hle := @openBuffers_le config (fun b => (ch.bankStates b).view) ref.addr.rank
  have hmul := Nat.mul_le_mul_right (close + 1) hle
  rw [refreshLatency] at hin
  omega

end Nears

section Spare

theorem needs_access (hsrc : src.cmdType.isReadWrite = true)
    (hneeded : cmd.cmdType ∈ needs src.cmdType) : cmd.cmdType = .READ ∨ cmd.cmdType = .WRITE ∨
      cmd.cmdType = .ACTIVATE ∨ cmd.cmdType = .PRECHARGE ∨ cmd.cmdType = .PIM_PRECHARGE := by
  cases hs : src.cmdType <;> rw [hs] at hsrc hneeded <;>
    simp [CommandType.isReadWrite, CommandType.isRead, CommandType.isWrite] at hsrc <;>
    simp only [needs, List.mem_cons, List.not_mem_nil, or_false] at hneeded <;>
    rcases hneeded with h | h | h | h <;> simp [h]

/-- The queues of a rank that is refreshed are skipped. -/
theorem rank_ne_of_skipped {i : ℕ} (hregular : Regular config) (htype : ref.cmdType = .REFRESH)
    (hsrc : Queueable config src) (hindex : slot config src.hexAddr = i)
    (hskip : i ∉ getRefQIndices config ref) : src.addr.rank ≠ ref.addr.rank := by
  intro hrank
  apply hskip
  -- the slot of a command determines its rank, as its bank is in range
  have hin := addressOf_inRange hregular src.hexAddr
  rw [slot, ← hsrc.addr] at hindex
  rw [← hsrc.addr] at hin
  obtain ⟨hr, hg, hb⟩ := hin
  simp only [Address.bankId] at hr hg hb
  rw [getRefQIndices, if_pos htype]
  unfold getQueueIndex at hindex
  cases hstructure : config.queueStructure <;> rw [hstructure] at hindex <;> dsimp only at hindex ⊢
  case PER_RANK => exact List.mem_singleton.mpr (by rw [← hindex, hrank])
  case PER_BANK =>
    have hinner : src.addr.bankgroup.toNat * config.banksPerGroup + src.addr.bank.toNat <
        config.banks := by
      have hle := Nat.mul_le_mul_right config.banksPerGroup (Nat.succ_le_of_lt hg)
      rw [Nat.succ_mul] at hle
      rw [DramConfig.banks]
      omega
    refine List.mem_filter.mpr ⟨List.mem_range.mpr ?_, decide_eq_true ?_⟩
    · have hle := Nat.mul_le_mul_right config.banks (Nat.succ_le_of_lt hr)
      rw [Nat.succ_mul, Nat.mul_comm config.ranks] at hle
      rw [numQueues, hstructure, ← hindex]
      dsimp only
      omega
    · rw [← hindex, ← hrank, Nat.add_assoc, Nat.mul_comm, Nat.mul_add_div (by omega),
        Nat.div_eq_of_lt hinner, Nat.add_zero]

end Spare

/-- The refresh under way is the first that waits, and its queues are skipped. -/
structure Aimed (config : DramConfig) (q : CommandQueue) (refreshQ : List TypedCommand) : Prop where
  idle : q.isInRef = false → q.refQIndices = []
  busy : q.isInRef = true → ∃ ref rest, refreshQ = ref :: rest ∧
    q.refQIndices = getRefQIndices config ref

/-- At most one refresh waits, and its limit is not over. -/
def Underway (config : DramConfig) (wait close : ℕ) (ch : ChannelState) (clk n : ℕ) : Prop :=
  ch.refreshQ = [] ∨ ∃ ref, ch.refreshQ = [ref] ∧ Nears config close ch clk ref
    (n * Refresh.refreshInterval config + refreshLatency config wait close)

/-- Every refresh was issued in time. -/
def InTimes (config : DramConfig) (wait close : ℕ) (log : List (ℕ × TypedCommand)) : Prop :=
  ∀ i e, (refreshes log)[i]? = some e → (i + 1) * Refresh.refreshInterval config ≤ e.1 ∧
    e.1 ≤ (i + 1) * Refresh.refreshInterval config + refreshLatency config wait close

/-- The refreshes of a channel are in time. -/
structure Prompt (config : DramConfig) (wait close : ℕ) (c : Controller) : Prop where
  rotates : Rotates config c
  timers : ∀ b t, Closing t → (c.channelState.bankStates b).cmdTiming t ≤ c.clk + wait
  aimed : Aimed config c.cmdQueue c.channelState.refreshQ
  underway : Underway config wait close c.channelState c.clk (due config c.clk)
  inTime : InTimes config wait close c.log

section Tick

theorem timers_issued (hdelays : RefreshDelays config wait close) (hissue : Issuable cmd.cmdType)
    (hissued : Issued config ch clk cmd ch')
    (h : ∀ b t, Closing t → (ch.bankStates b).cmdTiming t ≤ clk + wait) (b : BankId)
    (t : CommandType) (ht : Closing t) : (ch'.bankStates b).cmdTiming t ≤ clk + 1 + wait := by
  have hold := h b t ht
  rcases cmdTiming_issued hissued b t with hsame | ⟨d, hd, hnew⟩
  · rw [hsame]
    omega
  · have hmem := delaysAt_closing hissue ht hd
    have hstamp : stamp clk d ≤ clk + wait :=
      stamp_le (hdelays.nonneg d hmem) (hdelays.wait d hmem)
    rw [hnew]
    omega

/-- The line of refreshes says which one is issued next. -/
theorem length_refreshes (h : Rotates config c) :
    (refreshes c.log).length + c.channelState.refreshQ.length = due config c.clk := by
  have hline := congrArg List.length h.line
  rw [refreshLine, List.length_append, List.length_map, List.length_map, turns, List.length_map,
    List.length_range] at hline
  exact hline

/-- A refresh that comes due finds no other one that waits. -/
theorem underway_refreshed (hregular : Regular config) (htidy : Tidy config c)
    (hshort : refreshLatency config wait close < Refresh.refreshInterval config)
    (h : Prompt config wait close c) :
    Underway config wait close (refreshed config c).channelState c.clk (due config (c.clk + 1)) ∧
      Aimed config c.cmdQueue (refreshed config c).channelState.refreshQ := by
  obtain ⟨refreshQ, r, heq, -, ⟨hdue, -, rfl⟩ | ⟨hdue, -, rfl⟩⟩ :=
    refreshed_due hregular htidy.sound h.rotates.clk
  · have hbusy := h.aimed.busy
    -- one that still waited would have come due an interval ago, and the latency is shorter
    have hdone : c.channelState.refreshQ = [] := by
      rcases h.underway with hnil | ⟨ref, -, w, -, hlimit⟩
      · exact hnil
      · exfalso
        have hsucc := @due_succ config c.clk
        rw [if_pos hdue] at hsucc
        have hmul : due config (c.clk + 1) * Refresh.refreshInterval config = c.clk := by
          rw [due, Nat.add_sub_cancel]
          exact Nat.div_mul_cancel (Nat.dvd_of_mod_eq_zero hdue.1)
        rw [hsucc, Nat.succ_mul] at hmul
        omega
    rw [heq]
    dsimp only
    rw [hdone, List.nil_append]
    refine ⟨.inr ⟨_, rfl, nears_due ?_ h.timers⟩, h.aimed.idle, ?_⟩
    · rw [due, Nat.add_sub_cancel, Nat.div_mul_cancel (Nat.dvd_of_mod_eq_zero hdue.1)]
    · intro href
      obtain ⟨ref, rest, hqueue, -⟩ := hbusy href
      rw [hdone] at hqueue
      cases hqueue
  · rw [heq, due_succ, if_neg hdue, Nat.add_zero]
    exact ⟨h.underway, h.aimed⟩

/-- What the command of a cycle does to the refresh that waits. -/
structure Progressed (config : DramConfig) (wait close : ℕ) (c m : Controller) (n : ℕ) : Prop where
  timers : ∀ b t, Closing t → (m.channelState.bankStates b).cmdTiming t ≤ c.clk + 1 + wait
  aimed : Aimed config m.cmdQueue m.channelState.refreshQ
  underway : Underway config wait close m.channelState (c.clk + 1) n
  inTime : InTimes config wait close m.log

theorem taken_same (q : CommandQueue) (cmd : TypedCommand) :
    (q.taken config cmd).isInRef = q.isInRef ∧ (q.taken config cmd).refQIndices = q.refQIndices := by
  unfold taken setQueue
  split
  · split <;> exact ⟨rfl, rfl⟩
  · exact ⟨rfl, rfl⟩

/-- A command that is picked leaves the refresh under way alone. -/
theorem picked_same (h : Picked config ch q o q') :
    q'.isInRef = q.isInRef ∧ q'.refQIndices = q.refQIndices := by
  cases h with
  | none _ hheld => exact ⟨hheld.isInRef, hheld.refQIndices⟩
  | pim front rest cmd _ hqueue href hleads hheld =>
    obtain ⟨h1, h2⟩ := @taken_same config q cmd
    exact ⟨hheld.isInRef.trans h1, hheld.refQIndices.trans h2⟩
  | queue i src cmd _ hmem href hleads hheld =>
    obtain ⟨h1, h2⟩ := @taken_same config q cmd
    exact ⟨hheld.isInRef.trans h1, hheld.refQIndices.trans h2⟩

theorem startRefresh_aimed {rest : List TypedCommand} (h : Aimed config q (ref :: rest)) :
    (startRefresh config q ref).isInRef = true ∧
      (startRefresh config q ref).refQIndices = getRefQIndices config ref := by
  unfold startRefresh
  by_cases hin : q.isInRef = true
  · rw [if_pos hin]
    obtain ⟨ref', rest', hqueue, hindices⟩ := h.busy hin
    cases hqueue
    exact ⟨hin, hindices⟩
  · rw [if_neg hin]
    refine ⟨rfl, ?_⟩
    dsimp only
    rw [h.idle (Bool.not_eq_true _ ▸ hin), List.nil_append]

theorem inTimes_append (h : InTimes config wait close c.log)
    (hother : cmd.cmdType ≠ .REFRESH) : InTimes config wait close (c.logged cmd).log := by
  unfold InTimes
  change ∀ i e, (refreshes (c.log ++ [(c.clk, cmd)]))[i]? = some e → _
  rw [refreshes_append, if_neg hother, List.append_nil]
  exact h

/-- What holds before the command of a cycle, when `n` refreshes have come due. -/
structure Begun (config : DramConfig) (wait close : ℕ) (c : Controller) (n : ℕ) : Prop where
  sound : Sound config c
  timers : ∀ b t, Closing t → (c.channelState.bankStates b).cmdTiming t ≤ c.clk + wait
  aimed : Aimed config c.cmdQueue c.channelState.refreshQ
  underway : Underway config wait close c.channelState c.clk n
  inTime : InTimes config wait close c.log
  due : n * Refresh.refreshInterval config ≤ c.clk
  length : (refreshes c.log).length + c.channelState.refreshQ.length = n

/-- A command of the refresh that waits is issued. -/
theorem progressed_refresh {rest : List TypedCommand} (hregular : Regular config)
    (hdelays : RefreshDelays config wait close) (h : Begun config wait close c n)
    (hqueue : c.channelState.refreshQ = ref :: rest)
    (hleads : Leads config c.channelState c.cmdQueue.clk ref cmd)
    (hdone : cmd.cmdType = .REFRESH → q.isInRef = false ∧ q.refQIndices = [])
    (hopen : cmd.cmdType ≠ .REFRESH → q.isInRef = true ∧
      q.refQIndices = (startRefresh config c.cmdQueue ref).refQIndices)
    (heffect : Effect config { c with cmdQueue := q } (some cmd) m) :
    Progressed config wait close c m n := by
  have htype := (h.sound.refreshes ref (by rw [hqueue]; exact List.mem_cons_self)).1
  -- only one refresh waits at a time
  have hnears : rest = [] ∧ Nears config close c.channelState c.clk ref
      (n * Refresh.refreshInterval config + refreshLatency config wait close) := by
    rcases h.underway with hnil | ⟨ref', hone, hnears⟩
    · rw [hnil] at hqueue
      cases hqueue
    · rw [hone] at hqueue
      cases hqueue
      exact ⟨rfl, hnears⟩
  obtain ⟨rfl, hnears⟩ := hnears
  have hneeded := hleads.needed
  rw [htype] at hneeded
  simp only [needs, List.mem_cons, List.not_mem_nil, or_false] at hneeded
  have hfit := hleads.fit
  cases heffect with
  | header cmd hheader => simp [hheader] at hneeded
  | command cmd m ch' hissue _ hcompleted hissued =>
    obtain ⟨returns, rd, wr, pim, rfl⟩ := completed_same hcompleted
    have htimers := timers_issued hdelays hissue hissued h.timers
    -- either the refresh itself is issued, or a buffer of its rank is closed
    by_cases hcmd : cmd.cmdType = .REFRESH
    · have hrest : ch'.refreshQ = [] := by
        rw [hissued.refreshQ, if_pos hcmd]
        dsimp only
        rw [hqueue, List.eraseP_cons_of_pos (by rw [hleads.addr (hcmd.trans htype.symm)]; simp)]
      obtain ⟨hin, hindices⟩ := hdone hcmd
      refine ⟨htimers, ⟨fun _ => hindices, ?_⟩, .inl hrest, ?_⟩
      · intro hbusy
        exact absurd (hin.symm.trans hbusy) Bool.false_ne_true
      · intro i e he
        change (refreshes (c.log ++ [(c.clk, cmd)]))[i]? = some e at he
        rw [refreshes_append, if_pos hcmd] at he
        have hlength := h.length
        rw [hqueue, List.length_singleton] at hlength
        -- the new entry is the last one, and its limit is what `Nears` still keeps
        rcases Nat.lt_trichotomy i (refreshes c.log).length with hi | hi | hi
        · rw [List.getElem?_append_left hi] at he
          exact h.inTime i e he
        · rw [hi, List.getElem?_concat_length] at he
          cases he
          obtain ⟨w, -, hlimit⟩ := hnears
          have hdue := h.due
          rw [hi, hlength]
          refine ⟨hdue, ?_⟩
          dsimp only
          omega
        · rw [List.getElem?_eq_none (by rw [List.length_append, List.length_singleton]; omega)] at he
          cases he
    · have hclosing : cmd.cmdType = .PRECHARGE ∨ cmd.cmdType = .PIM_PRECHARGE := by
        rcases hneeded with hc | hc | hc
        · exact absurd hc hcmd
        · exact .inl hc
        · exact .inr hc
      have hchecked : cmd.addr.bankId ∈ cmd.checked config := by
        rw [checked_single (by rcases hclosing with hc | hc <;> simp [hc])]
        exact List.mem_singleton_self _
      have hbank := hfit.inRange _ hchecked
      have hmem : cmd.addr.bankId ∈ BankId.ofRank config ref.addr.rank.toNat := by
        rw [mem_ofRank hregular.toCountable, BitVec.ofNat_toNat, BitVec.setWidth_eq]
        exact ⟨hleads.rank (by simp [htype]) (by simp [htype]), hbank.2⟩
      have hsame : ch'.refreshQ = [ref] := by
        rw [hissued.refreshQ, if_neg hcmd]
        exact hqueue
      obtain ⟨hin, hindices⟩ := hopen hcmd
      have haimed := h.aimed
      rw [hqueue] at haimed
      refine ⟨htimers, ⟨?_, ?_⟩, .inr ⟨ref, hsame, ?_⟩, inTimes_append h.inTime hcmd⟩
      · intro hidle
        exact absurd (hidle.symm.trans hin) Bool.false_ne_true
      · intro _
        exact ⟨ref, [], hsame, hindices.trans (startRefresh_aimed haimed).2⟩
      · exact nears_closed hregular.toCountable hdelays hclosing hmem (hfit.admits _ hchecked)
          hissued hnears

/-- The refresh that waits is not ready, and the other commands spare its rank. -/
theorem progressed_spare {rest : List TypedCommand} (hregular : Regular config)
    (hdelays : RefreshDelays config wait close) (h : Begun config wait close c n)
    (hqueue : c.channelState.refreshQ = ref :: rest)
    (hnone : c.channelState.getReadyCommand config ref c.cmdQueue.clk = .ok none)
    (hpick : Picked config c.channelState (startRefresh config c.cmdQueue ref) o q)
    (heffect : Effect config { c with cmdQueue := q } o m) :
    Progressed config wait close c m n := by
  have htype := (h.sound.refreshes ref (by rw [hqueue]; exact List.mem_cons_self)).1
  have haimed := h.aimed
  rw [hqueue] at haimed
  obtain ⟨hin, hindices⟩ := startRefresh_aimed haimed
  obtain ⟨hsamein, hsameindices⟩ := picked_same hpick
  have hq : ∀ refreshQ, refreshQ = ref :: rest → Aimed config q refreshQ := by
    intro refreshQ hrefreshQ
    refine ⟨?_, fun _ => ⟨ref, rest, hrefreshQ, hsameindices.trans hindices⟩⟩
    intro hidle
    exact absurd (hidle.symm.trans (hsamein.trans hin)) Bool.false_ne_true
  rw [h.sound.clk] at hnone
  have hbanks : 0 < config.banks := by
    have hbanks := Nat.mul_pos hregular.someBankgroup hregular.someBank
    exact hbanks
  -- the refresh is nearer, where its rank is left alone
  have hnears : ∀ ch' : ChannelState, ch'.refreshQ = c.channelState.refreshQ →
      (∀ b ∈ BankId.ofRank config ref.addr.rank.toNat, ∀ t, Closing t →
        (ch'.bankStates b).cmdTiming t = (c.channelState.bankStates b).cmdTiming t) →
      openBuffers config (fun b => (ch'.bankStates b).view) ref.addr.rank =
        openBuffers config (fun b => (c.channelState.bankStates b).view) ref.addr.rank →
      Underway config wait close ch' (c.clk + 1) n := by
    intro ch' hsame htiming hopen
    rcases h.underway with hnil | ⟨ref', hone, hnears⟩
    · rw [hnil] at hqueue
      cases hqueue
    · rw [hone] at hqueue
      cases hqueue
      exact .inr ⟨ref, hsame.trans hone, nears_spared hregular.dual h.sound.awake hbanks htype hnears
        hnone htiming hopen⟩
  have hstill : ∀ b t, Closing t →
      (c.channelState.bankStates b).cmdTiming t ≤ c.clk + 1 + wait := by
    intro b t ht
    have := h.timers b t ht
    omega
  cases hpick with
  | none _ hheld =>
    cases heffect
    exact ⟨hstill, hq _ hqueue, hnears c.channelState rfl (fun _ _ _ _ => rfl) rfl, h.inTime⟩
  -- the PIM queue is not looked at during a refresh
  | pim front rest' cmd _ hfront href hleads hheld =>
    exact absurd (href.symm.trans hin) Bool.false_ne_true
  | queue i src cmd _ hmem href hleads hheld =>
    have hqueues : (startRefresh config c.cmdQueue ref).queues = c.cmdQueue.queues := by
      unfold startRefresh
      split <;> rfl
    rw [hqueues] at hmem
    obtain ⟨hsrc, hindex⟩ := h.sound.filled.queued i src hmem
    -- the queue of the command is not one of those that are skipped, so its rank is another one
    have hskip : i ∉ getRefQIndices config ref := by
      intro hi
      exact href ⟨hin, by rw [hindices]; exact hi⟩
    have hrank := rank_ne_of_skipped hregular htype hsrc hindex hskip
    have hneeded := needs_access hsrc.type hleads.needed
    have hcmdrank : cmd.addr.rank = src.addr.rank := by
      have hrw := hsrc.type
      refine hleads.rank ?_ ?_ <;> intro hs <;> rw [hs] at hrw <;> cases hrw
    have htouched : cmd.touched config = [cmd.addr.bankId] := by
      rcases hneeded with hc | hc | hc | hc | hc <;>
        simp [TypedCommand.touched, TypedCommand.checked, hc]
    have hother : cmd.cmdType ≠ .REFRESH := by
      rcases hneeded with hc | hc | hc | hc | hc <;> simp [hc]
    cases heffect with
    | header cmd hheader => simp [hheader] at hneeded
    | command cmd m ch' hissue _ hcompleted hissued =>
      obtain ⟨returns, rd, wr, pim, rfl⟩ := completed_same hcompleted
      have hsame : ch'.refreshQ = c.channelState.refreshQ := by
        rw [hissued.refreshQ, if_neg hother]
      refine ⟨timers_issued hdelays hissue hissued h.timers, hq _ (hsame.trans hqueue),
        hnears ch' hsame ?_ ?_, inTimes_append h.inTime hother⟩
      · intro b hb t ht
        rcases cmdTiming_issued hissued b t with hold | ⟨d, hd, -⟩
        · exact hold
        · have hbrank := ((mem_ofRank hregular.toCountable).mp hb).1
          rw [BitVec.ofNat_toNat, BitVec.setWidth_eq] at hbrank
          refine absurd hd (delaysAt_elsewhere hneeded ht ?_)
          rw [hbrank, hcmdrank]
          exact Ne.symm hrank
      · rw [hissued.view]
        refine openBuffers_elsewhere hregular.toCountable ?_
        intro b hb
        rw [htouched, List.mem_singleton] at hb
        rw [hb]
        exact hcmdrank.trans_ne hrank

/-- No refresh waits. -/
theorem progressed_free (hdelays : RefreshDelays config wait close)
    (h : Begun config wait close c n) (hqueue : c.channelState.refreshQ = [])
    (hchosen : Chosen config c.channelState c.cmdQueue o q)
    (hpick : Picked config c.channelState c.cmdQueue o q)
    (heffect : Effect config { c with cmdQueue := q } o m) :
    Progressed config wait close c m n := by
  obtain ⟨hsamein, hsameindices⟩ := picked_same hpick
  have hidle : c.cmdQueue.isInRef = false := by
    apply Bool.eq_false_iff.mpr
    intro hbusy
    obtain ⟨ref, rest, href, -⟩ := h.aimed.busy hbusy
    rw [hqueue] at href
    cases href
  have hq : ∀ refreshQ, Aimed config q refreshQ := by
    intro refreshQ
    refine ⟨fun _ => hsameindices.trans (h.aimed.idle hidle), ?_⟩
    intro hbusy
    exact absurd ((hsamein.trans hidle).symm.trans hbusy) Bool.false_ne_true
  have hstill : ∀ b t, Closing t →
      (c.channelState.bankStates b).cmdTiming t ≤ c.clk + 1 + wait := by
    intro b t ht
    have := h.timers b t ht
    omega
  cases heffect with
  | nothing => exact ⟨hstill, hq _, .inl hqueue, h.inTime⟩
  | header cmd hheader =>
    exact ⟨hstill, hq _, .inl hqueue, inTimes_append h.inTime (by simp [hheader])⟩
  | command cmd m ch' hissue _ hcompleted hissued =>
    obtain ⟨returns, rd, wr, pim, rfl⟩ := completed_same hcompleted
    -- a refresh is only issued from the queue of refreshes
    have hother : cmd.cmdType ≠ .REFRESH := by
      intro htype
      obtain ⟨ref, rest, href, -⟩ :=
        chosen_refresh h.sound.filled hchosen htype h.sound.refreshes
      rw [hqueue] at href
      cases href
    have hnone : ch'.refreshQ = [] := by
      rw [hissued.refreshQ, if_neg hother]
      exact hqueue
    exact ⟨timers_issued hdelays hissue hissued h.timers, hq _, .inl hnone,
      inTimes_append h.inTime hother⟩

theorem progressed_chosen (hregular : Regular config) (hdelays : RefreshDelays config wait close)
    (h : Begun config wait close c n) (hchosen : Chosen config c.channelState c.cmdQueue o q)
    (heffect : Effect config { c with cmdQueue := q } o m) :
    Progressed config wait close c m n := by
  have hall := hchosen
  cases hchosen with
  | refresh ref rest cmd _ hqueue hleads hqueues hpim hclk hdone hopen =>
    exact progressed_refresh hregular hdelays h hqueue hleads hdone hopen heffect
  | spare ref rest _ _ hqueue hnone hpick =>
    exact progressed_spare hregular hdelays h hqueue hnone hpick heffect
  | free _ _ hqueue hpick => exact progressed_free hdelays h hqueue hall hpick heffect

theorem aimed_scheduled {refreshQ : List TypedCommand} (hscheduled : Scheduled config c s)
    (h : Aimed config c.cmdQueue refreshQ) : Aimed config s.cmdQueue refreshQ := by
  have hsame : s.cmdQueue.isInRef = c.cmdQueue.isInRef ∧
      s.cmdQueue.refQIndices = c.cmdQueue.refQIndices := by
    cases hscheduled with
    | stay lock addr draining => exact ⟨rfl, rfl⟩
    | move which before u after cmd lock addr draining hqueue hbefore hcmd hroom hwait =>
      have hadd : (c.cmdQueue.addCommand config cmd).isInRef = c.cmdQueue.isInRef ∧
          (c.cmdQueue.addCommand config cmd).refQIndices = c.cmdQueue.refQIndices := by
        rcases @addCommand_cases config c.cmdQueue cmd with heq | ⟨e, heq⟩ <;> rw [heq]
        · exact ⟨rfl, rfl⟩
        · unfold setQueue
          split <;> exact ⟨rfl, rfl⟩
      cases which <;> exact hadd
  refine ⟨?_, ?_⟩
  · rw [hsame.1, hsame.2]
    exact h.idle
  · rw [hsame.1, hsame.2]
    exact h.busy

theorem prompt_ticked (hregular : Regular config) (hdelays : RefreshDelays config wait close)
    (hshort : refreshLatency config wait close < Refresh.refreshInterval config)
    (htidy : Tidy config c) (h : Prompt config wait close c) (htick : Ticked config c t) :
    Prompt config wait close t := by
  have hrotates := rotates_ticked hregular htidy h.rotates htick
  have hend := clk_ticked htick
  cases htick with
  | mk o q m s hchosen heffect hscheduled =>
    -- a cycle first lets a refresh come due, then issues a command, then schedules a transaction
    obtain ⟨hunderway, haimed⟩ := underway_refreshed hregular htidy hshort h
    obtain ⟨-, -, hline⟩ := refreshLine_refreshed hregular htidy.sound h.rotates
    have hbanks : (refreshed config c).channelState.bankStates = c.channelState.bankStates := by
      obtain ⟨refreshQ, r, heq, -⟩ := refreshed_cases hregular htidy.sound
      rw [heq]
    have hlength := congrArg List.length hline
    rw [refreshLine, List.length_append, List.length_map, List.length_map, turns, List.length_map,
      List.length_range] at hlength
    have hbegun : Begun config wait close (refreshed config c) (due config (c.clk + 1)) := by
      refine ⟨sound_refreshed hregular htidy.sound, ?_, haimed, hunderway, h.inTime, ?_, hlength⟩
      · rw [hbanks]
        exact h.timers
      · rw [due, Nat.add_sub_cancel]
        exact Nat.div_mul_le_self _ _
    have hprogressed := progressed_chosen hregular hdelays hbegun hchosen heffect
    obtain ⟨-, -, -, -, hlog, -, hch, -⟩ := scheduled_same hscheduled
    have hchannel : s.advanced.channelState.bankStates = m.channelState.bankStates ∧
        s.advanced.channelState.refreshQ = m.channelState.refreshQ := by
      change s.channelState.bankStates = _ ∧ s.channelState.refreshQ = _
      rw [hch]
      exact ⟨rfl, rfl⟩
    have haimeds := aimed_scheduled hscheduled (c := m.countIdle config) hprogressed.aimed
    refine ⟨hrotates, ?_, ?_, ?_, ?_⟩
    · rw [hend, hchannel.1]
      exact hprogressed.timers
    · rw [hchannel.2]
      exact ⟨haimeds.idle, haimeds.busy⟩
    · have hresult := hprogressed.underway
      unfold Underway Nears at hresult ⊢
      rw [hend, hchannel.1, hchannel.2]
      exact hresult
    · change InTimes config wait close s.log
      rw [hlog]
      exact hprogressed.inTime

end Tick

theorem prompt_initial : Prompt config wait close {} := by
  refine ⟨rotates_initial, fun b t _ => Nat.zero_le _, ⟨fun _ => rfl, ?_⟩, .inl rfl, ?_⟩
  · intro h
    exact absurd h Bool.false_ne_true
  · intro i e he
    simp [refreshes] at he

theorem prompt_after {call : Call} (hregular : Regular config)
    (hdelays : RefreshDelays config wait close)
    (hshort : refreshLatency config wait close < Refresh.refreshInterval config)
    (htidy : Tidy config c) (h : Prompt config wait close c) (hafter : After config c call t) :
    Prompt config wait close t := by
  -- the other calls leave the clock, the log and the refreshes alone
  by_cases hcall : call = .clockTick
  · subst hcall
    exact prompt_ticked hregular hdelays hshort htidy h hafter
  · have hrotates := rotates_after hregular htidy h.rotates hafter
    obtain ⟨hclk, hlog, -, hch, hin, hindices⟩ := after_same hafter hcall
    refine ⟨hrotates, ?_, ⟨?_, ?_⟩, ?_, ?_⟩
    · rw [hclk, hch]
      exact h.timers
    · rw [hin, hindices]
      exact h.aimed.idle
    · rw [hin, hindices, hch]
      exact h.aimed.busy
    · rw [hclk, hch]
      exact h.underway
    · rw [hlog]
      exact h.inTime

/-- The `i`-th refresh comes due after `i` intervals more than one, and it is issued to its rank
before the latency is over. -/
theorem run_prompt (hregular : Regular config) (hdelays : RefreshDelays config wait close)
    (hshort : refreshLatency config wait close < Refresh.refreshInterval config)
    (hmeets : AllCalls (step config) (Meets config) {} calls)
    (hrun : run (step config) {} calls = .ok t) :
    (∀ i e, (refreshes t.log)[i]? = some e →
      e.2.addr.rank = BitVec.ofNat 32 (i % config.ranks) ∧
        (i + 1) * Refresh.refreshInterval config ≤ e.1 ∧
        e.1 ≤ (i + 1) * Refresh.refreshInterval config + refreshLatency config wait close) ∧
      ∀ i, (i + 1) * Refresh.refreshInterval config + refreshLatency config wait close < t.clk →
        i < (refreshes t.log).length := by
  have hinv := (run_keeps hregular (Prompt config wait close) prompt_initial
    (fun c call t htidy _ h hafter => prompt_after hregular hdelays hshort htidy h hafter)
    hmeets hrun).2
  refine ⟨?_, ?_⟩
  · intro i e he
    refine ⟨?_, hinv.inTime i e he⟩
    have hline := hinv.rotates.line
    have hmap : (refreshLine t)[i]? = some e.2.addr.rank := by
      have hlt := (List.getElem?_eq_some_iff.mp he).1
      rw [refreshLine, List.getElem?_append_left (by rw [List.length_map]; exact hlt),
        List.getElem?_map, he]
      rfl
    rw [hline, turns, List.getElem?_map] at hmap
    obtain ⟨k, hk, heq⟩ := Option.map_eq_some_iff.mp hmap
    obtain ⟨hlt, hk⟩ := List.getElem?_eq_some_iff.mp hk
    rw [List.getElem_range] at hk
    rw [← heq, ← hk]
  · intro i hlate
    have hlength := length_refreshes hinv.rotates
    have hpos : 0 < Refresh.refreshInterval config := by omega
    rcases hinv.underway with hnil | ⟨ref, hone, w, -, hlimit⟩
    · rw [hnil, List.length_nil, Nat.add_zero] at hlength
      rw [hlength, due]
      apply (Nat.le_div_iff_mul_le hpos).mpr
      change (i + 1) * Refresh.refreshInterval config ≤ t.clk - 1
      omega
    · rw [hone, List.length_singleton] at hlength
      have hdue : (i + 1) * Refresh.refreshInterval config <
          due config t.clk * Refresh.refreshInterval config := by omega
      have hlt := Nat.lt_of_mul_lt_mul_right hdue
      omega

theorem run_prompt_kernelCalls : ∃ t, run (step smallMemory) {} kernelCalls = .ok t ∧
    (∀ i e, (refreshes t.log)[i]? = some e →
      e.2.addr.rank = BitVec.ofNat 32 (i % smallMemory.ranks) ∧
        (i + 1) * Refresh.refreshInterval smallMemory ≤ e.1 ∧
        e.1 ≤ (i + 1) * Refresh.refreshInterval smallMemory + refreshLatency smallMemory 64 1) ∧
      ∀ i, (i + 1) * Refresh.refreshInterval smallMemory + refreshLatency smallMemory 64 1 < t.clk →
        i < (refreshes t.log).length := by
  obtain ⟨t, ht⟩ := exists_ok (x := run (step smallMemory) {} kernelCalls) (by decide +kernel)
  exact ⟨t, ht, run_prompt regular_smallMemory ⟨by decide, by decide, by decide⟩ (by decide)
    (by decide +kernel) ht⟩

end NewPims.NewtonSim.Controller

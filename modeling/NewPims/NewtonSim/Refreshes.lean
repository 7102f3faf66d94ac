import NewPims.NewtonSim.Coherence

/-! The ranks of a channel are refreshed in turns: one refresh comes due in every interval, and none
is lost. -/
namespace NewPims.NewtonSim.Controller

open Transition CommandQueue

variable {config : DramConfig} {c m s t : Controller} {cmd : TypedCommand}
  {o : Option TypedCommand} {q : CommandQueue} {calls : List Call}

/-- How many refreshes have come due before a cycle. -/
def due (config : DramConfig) (clk : ℕ) : ℕ := (clk - 1) / Refresh.refreshInterval config

/-- The refreshes that were issued. -/
def refreshes (log : List (ℕ × TypedCommand)) : List (ℕ × TypedCommand) :=
  log.filter fun e => e.2.cmdType == .REFRESH

theorem refreshes_append (log : List (ℕ × TypedCommand)) (clk : ℕ) (cmd : TypedCommand) :
    refreshes (log ++ [(clk, cmd)]) =
      refreshes log ++ if cmd.cmdType = .REFRESH then [(clk, cmd)] else [] := by
  rw [refreshes, List.filter_append, refreshes]
  congr 1
  by_cases h : cmd.cmdType = .REFRESH <;> simp [h]

/-- The ranks of the refreshes that were issued, and of those that wait. -/
def refreshLine (c : Controller) : List (BitVec 32) :=
  (refreshes c.log).map (fun e => e.2.addr.rank) ++ c.channelState.refreshQ.map fun r => r.addr.rank

/-- The first `n` turns. -/
def turns (config : DramConfig) (n : ℕ) : List (BitVec 32) :=
  (List.range n).map fun k => BitVec.ofNat 32 (k % config.ranks)

theorem turns_succ (n : ℕ) :
    turns config (n + 1) = turns config n ++ [BitVec.ofNat 32 (n % config.ranks)] := by
  rw [turns, List.range_succ, List.map_append, List.map_singleton, turns]

/-- The refreshes of a channel are as far as its clock. -/
structure Rotates (config : DramConfig) (c : Controller) : Prop where
  clk : c.refresh.clk = c.clk
  nextRank : c.refresh.nextRank = due config c.clk % config.ranks
  line : refreshLine c = turns config (due config c.clk)

/-- Whether a refresh comes due in a cycle. -/
def Due (config : DramConfig) (clk : ℕ) : Prop :=
  clk % Refresh.refreshInterval config = 0 ∧ 0 < clk

instance (clk : ℕ) : Decidable (Due config clk) := by
  unfold Due
  infer_instance

theorem due_succ (clk : ℕ) :
    due config (clk + 1) = due config clk + if Due config clk then 1 else 0 := by
  unfold due Due
  cases clk with
  | zero => simp
  | succ n =>
    rw [Nat.add_sub_cancel, Nat.add_sub_cancel, Nat.succ_div]
    simp only [Nat.dvd_iff_mod_eq_zero, Nat.succ_pos, and_true]

/-- The first step of a cycle asks for a refresh exactly when one comes due. -/
theorem refreshed_due (hregular : Regular config) (hsound : Sound config c)
    (hclk : c.refresh.clk = c.clk) : ∃ refreshQ r, refreshed config c =
        { c with channelState := { c.channelState with refreshQ := refreshQ }, refresh := r } ∧
      r.clk = c.clk + 1 ∧
      (Due config c.clk ∧ r.nextRank = (c.refresh.nextRank + 1) % config.ranks ∧
          refreshQ = c.channelState.refreshQ ++
            [.plain .REFRESH ⟨-1, BitVec.ofNat 32 c.refresh.nextRank, -1, -1, -1, -1⟩ (-1)] ∨
        ¬ Due config c.clk ∧ r.nextRank = c.refresh.nextRank ∧
          refreshQ = c.channelState.refreshQ) := by
  by_cases hdue : Due config c.clk
  · have hif := hdue
    unfold Due at hif
    unfold refreshed Refresh.advance
    dsimp only
    rw [hclk, if_pos hif]
    unfold Refresh.insertRefresh Refresh.iterateNext
    rw [hregular.staggered]
    dsimp only
    rw [hsound.sref, if_neg Bool.false_ne_true]
    exact ⟨_, _, rfl, congrArg (· + 1) hclk, .inl ⟨hdue, rfl, rfl⟩⟩
  · have hif := hdue
    unfold Due at hif
    unfold refreshed Refresh.advance
    dsimp only
    rw [hclk, if_neg hif]
    exact ⟨_, _, rfl, congrArg (· + 1) hclk, .inr ⟨hdue, rfl, rfl⟩⟩

/-- A refresh that is issued is the first one that waits. -/
theorem chosen_refresh {ch : ChannelState} {q' : CommandQueue} (hfilled : q.Filled config)
    (h : Chosen config ch q (some cmd) q') (htype : cmd.cmdType = .REFRESH)
    (hrefs : ∀ ref ∈ ch.refreshQ, ref.cmdType = .REFRESH ∧ Wanted config ref) :
    ∃ ref rest, ch.refreshQ = ref :: rest ∧ cmd.addr = ref.addr := by
  have hnever : ∀ src : TypedCommand,
      (src.cmdType.isReadWrite || src.cmdType.pimQCommand) = true →
      cmd.cmdType ∉ needs src.cmdType := by
    intro src hsrc hneeded
    rw [htype] at hneeded
    cases hs : src.cmdType <;> rw [hs] at hneeded hsrc <;> simp [needs] at hneeded
    cases hsrc
  have hpicked : ∀ m : CommandQueue, m.queues = q.queues → m.pimQueue = q.pimQueue →
      ¬ Picked config ch m (some cmd) q' := by
    intro m hqueues hpim hpicked
    cases hpicked with
    | pim front rest _ _ hqueue href hleads hheld =>
      refine hnever front ?_ hleads.needed
      rw [(hfilled.pim front (by rw [← hpim, hqueue]; exact List.mem_cons_self)).2, Bool.or_true]
    | queue i src _ _ hmem href hleads hheld =>
      refine hnever src ?_ hleads.needed
      rw [hqueues] at hmem
      rw [(hfilled.queued i src hmem).1.type, Bool.true_or]
  cases h with
  | refresh ref rest _ _ hqueue hleads hqueues hpim hclk hdone hopen =>
    have href := (hrefs ref (by rw [hqueue]; exact List.mem_cons_self)).1
    exact ⟨ref, rest, hqueue, hleads.addr (htype.trans href.symm)⟩
  | spare ref rest _ _ hqueue hnone hpick =>
    refine absurd hpick (hpicked _ ?_ ?_) <;> unfold startRefresh <;> split <;> rfl
  | free _ _ hqueue hpick => exact absurd hpick (hpicked q rfl rfl)

theorem refreshLine_effect (hsound : Sound config c)
    (hchosen : Chosen config c.channelState c.cmdQueue o q)
    (heffect : Effect config { c with cmdQueue := q } o m) : refreshLine m = refreshLine c := by
  cases heffect with
  | nothing => rfl
  | header cmd htype =>
    change ((refreshes (c.log ++ [(c.clk, cmd)])).map fun e => e.2.addr.rank) ++ _ = _
    rw [refreshes_append, if_neg (by simp [htype]), List.append_nil]
    rfl
  | command cmd m ch hissue hfit hcompleted hissued =>
    obtain ⟨returns, rd, wr, pim, rfl⟩ := completed_same hcompleted
    change ((refreshes (c.log ++ [(c.clk, cmd)])).map fun e => e.2.addr.rank) ++
      ch.refreshQ.map (fun r => r.addr.rank) = _
    rw [refreshes_append, hissued.refreshQ, refreshLine]
    by_cases htype : cmd.cmdType = .REFRESH
    · obtain ⟨ref, rest, hqueue, haddr⟩ :=
        chosen_refresh hsound.filled hchosen htype hsound.refreshes
      rw [if_pos htype, if_pos htype, List.map_append, List.map_singleton]
      dsimp only [logged]
      rw [hqueue, List.eraseP_cons_of_pos (by rw [haddr]; exact beq_self_eq_true _), List.map_cons,
        haddr, List.append_assoc, List.singleton_append]
    · rw [if_neg htype, if_neg htype, List.append_nil]

theorem effect_refresh (h : Effect config c o m) : m.refresh = c.refresh := by
  cases h with
  | nothing => rfl
  | header cmd htype => rfl
  | command cmd m ch hissue hfit hcompleted hissued =>
    obtain ⟨returns, rd, wr, pim, rfl⟩ := completed_same hcompleted
    rfl

/-- The line grows by the next turn when a refresh comes due. -/
theorem refreshLine_refreshed (hregular : Regular config) (hsound : Sound config c)
    (h : Rotates config c) : (refreshed config c).refresh.clk = c.clk + 1 ∧
      (refreshed config c).refresh.nextRank = due config (c.clk + 1) % config.ranks ∧
      refreshLine (refreshed config c) = turns config (due config (c.clk + 1)) := by
  obtain ⟨refreshQ, r, heq, hclk, ⟨hdue, hrank, rfl⟩ | ⟨hdue, hrank, rfl⟩⟩ :=
    refreshed_due hregular hsound h.clk
  · rw [heq, due_succ, if_pos hdue, turns_succ, ← h.line, refreshLine, refreshLine]
    refine ⟨hclk, ?_, ?_⟩
    · dsimp only
      rw [hrank, h.nextRank, Nat.mod_add_mod]
    · dsimp only
      rw [List.map_append, h.nextRank, List.append_assoc]
      rfl
  · rw [heq, due_succ, if_neg hdue, Nat.add_zero]
    exact ⟨hclk, hrank.trans h.nextRank, h.line⟩

theorem rotates_ticked (hregular : Regular config) (htidy : Tidy config c) (h : Rotates config c)
    (htick : Ticked config c t) : Rotates config t := by
  have hend := clk_ticked htick
  cases htick with
  | mk o q m s hchosen heffect hscheduled =>
    have hsound := sound_refreshed hregular htidy.sound
    obtain ⟨hclk, hrank, hline⟩ := refreshLine_refreshed hregular htidy.sound h
    obtain ⟨-, -, -, -, hlog, -, hch, hrefresh⟩ := scheduled_same hscheduled
    have hmrefresh := effect_refresh heffect
    have hsame : s.advanced.refresh = (refreshed config c).refresh := hrefresh.trans hmrefresh
    refine ⟨?_, ?_, ?_⟩
    · rw [hend, hsame, hclk]
    · rw [hend, hsame, hrank]
    · rw [hend, ← hline, ← refreshLine_effect hsound hchosen heffect]
      change refreshLine s = _
      rw [refreshLine, hlog, hch]
      rfl

theorem rotates_of_same (h : Rotates config c) (hclk : t.clk = c.clk) (hlog : t.log = c.log)
    (hrefresh : t.refresh = c.refresh) (hch : t.channelState = c.channelState) :
    Rotates config t := by
  refine ⟨?_, ?_, ?_⟩
  · rw [hrefresh, hclk]
    exact h.clk
  · rw [hrefresh, hclk]
    exact h.nextRank
  · rw [refreshLine, hlog, hch, hclk]
    exact h.line

theorem rotates_initial : Rotates config {} := by
  refine ⟨rfl, ?_, ?_⟩
  · simp [due]
  · simp [refreshLine, refreshes, turns, due]

theorem rotates_after {call : Call} (hregular : Regular config) (htidy : Tidy config c)
    (h : Rotates config c) (hafter : After config c call t) : Rotates config t := by
  -- only a cycle moves refreshes
  by_cases hcall : call = .clockTick
  · subst hcall
    exact rotates_ticked hregular htidy h hafter
  · obtain ⟨hclk, hlog, hrefresh, hch, -⟩ := after_same hafter hcall
    exact rotates_of_same h hclk hlog hrefresh hch

/-- One refresh comes due in every interval, for the ranks in turns; those that were issued and those
that wait are all of them, in this order. -/
theorem run_rotates (hregular : Regular config)
    (hmeets : AllCalls (step config) (Meets config) {} calls)
    (hrun : run (step config) {} calls = .ok t) :
    refreshLine t = turns config ((t.clk - 1) / (config.tREFI / config.ranks)) := by
  have hinv := (run_keeps hregular (Rotates config) rotates_initial
    (fun c call t htidy _ h hafter => rotates_after hregular htidy h hafter) hmeets hrun).2
  have hline := hinv.line
  rw [due, Refresh.refreshInterval, hregular.staggered] at hline
  exact hline

theorem run_rotates_kernelCalls : ∃ t, run (step smallMemory) {} kernelCalls = .ok t ∧
    refreshLine t =
      turns smallMemory ((t.clk - 1) / (smallMemory.tREFI / smallMemory.ranks)) := by
  obtain ⟨t, ht⟩ := exists_ok (x := run (step smallMemory) {} kernelCalls) (by decide +kernel)
  exact ⟨t, ht, run_rotates regular_smallMemory (by decide +kernel) ht⟩

end NewPims.NewtonSim.Controller

import Mathlib.Logic.Relation
import NewPims.Lib.Timers
import NewPims.NewtonSim.Apart

/-! A channel as its banks see it: commands that fit, one in a cycle at most. Every run of a
controller is a run of its banks, in which every delay has passed and a rank is not activated too
often. -/
namespace NewPims.NewtonSim

open Transition Controller

variable {config : DramConfig} {c t : Controller} {calls : List Call}

/-- The banks of a channel, the activations of its ranks, and what was issued. -/
structure Memory where
  clk : ℕ := 0
  bankStates : BankId → BankState := fun _ => {}
  fourAw : BitVec 32 → List ℕ := fun _ => []
  log : List (ℕ × TypedCommand) := []

namespace Memory

/-- A cycle in which a command fits that is issued, if any is. -/
inductive Advances (config : DramConfig) (m : Memory) : Memory → Prop
  | wait : Advances config m { m with clk := m.clk + 1 }
  | header (cmd : TypedCommand) : cmd.cmdType = .P_HEADER →
      Advances config m { m with clk := m.clk + 1, log := m.log ++ [(m.clk, cmd)] }
  | command (cmd : TypedCommand) (ch ch' : ChannelState) : ch.bankStates = m.bankStates →
      ch.fourAw = m.fourAw → Issuable cmd.cmdType → Fit config ch m.clk cmd →
      Issued config ch m.clk cmd ch' → Advances config m
        { clk := m.clk + 1, bankStates := ch'.bankStates, fourAw := ch'.fourAw
          log := m.log ++ [(m.clk, cmd)] }

/-- Any number of cycles. -/
abbrev Reaches (config : DramConfig) : Memory → Memory → Prop :=
  Relation.ReflTransGen (Advances config)

/-- A property of what was issued that every command that fits keeps. -/
theorem reaches_keeps (Inv : Memory → Prop) {m n : Memory} (h : Reaches config m n) (hm : Inv m)
    (hstep : ∀ m n, Inv m → Advances config m n → Inv n) : Inv n := by
  induction h with
  | refl => exact hm
  | tail _ hadvance ih => exact hstep _ _ ih hadvance

end Memory

namespace Controller

/-- What the banks see of a controller. -/
def memory (c : Controller) : Memory where
  clk := c.clk
  bankStates := c.channelState.bankStates
  fourAw := c.channelState.fourAw
  log := c.log

theorem ticked_advances (hregular : Regular config) (h : Tidy config c) (htick : Ticked config c t) :
    c.memory.Advances config t.memory := by
  cases htick with
  | mk o q m s hchosen heffect hscheduled =>
    obtain ⟨refreshQ, r, heq, -⟩ := refreshed_cases hregular h.sound
    have hstart : (refreshed config c).memory = c.memory := by rw [heq]; rfl
    have hs : s.memory = m.memory := by
      cases hscheduled with
      | stay lock addr draining => rfl
      | move which before u after cmd lock addr draining hqueue hbefore hcmd hroom hwait =>
        cases which <;> rfl
    have hend : s.advanced.memory = { m.memory with clk := m.memory.clk + 1 } := by
      rw [← hs]
      rfl
    rw [hend]
    cases heffect with
    | nothing =>
      have hsame : Controller.memory { refreshed config c with cmdQueue := q } = c.memory := hstart
      rw [hsame]
      exact .wait
    | header cmd htype =>
      have hclk : (refreshed config c).clk = c.clk := by rw [heq]
      have hsame : (Controller.logged { refreshed config c with cmdQueue := q } cmd).memory =
          { c.memory with log := c.memory.log ++ [(c.memory.clk, cmd)] } := by
        rw [← hstart]
        rfl
      rw [hsame]
      exact .header cmd htype
    | command cmd m ch hissue hfit hcompleted hissued =>
      obtain ⟨returns, rd, wr, pim, rfl⟩ := completed_same hcompleted
      have hcommand := Memory.Advances.command (m := c.memory) cmd (refreshed config c).channelState
        ch (by rw [heq]; rfl) (by rw [heq]; rfl) hissue
        (by rw [heq] at hfit ⊢; exact hfit) (by rw [heq] at hissued ⊢; exact hissued)
      rw [heq] at *
      exact hcommand

/-- The banks of a channel take part in every run of its controller. -/
theorem run_reaches (hregular : Regular config)
    (hmeets : AllCalls (step config) (Meets config) {} calls)
    (hrun : run (step config) {} calls = .ok t) : Memory.Reaches config {} t.memory := by
  refine (run_keeps hregular (fun c => Memory.Reaches config {} c.memory) .refl ?_ hmeets hrun).2
  intro c call t htidy _ hinv hafter
  cases call with
  | addTransaction addr reqType =>
    rw [After] at hafter
    subst hafter
    have hsame : (c.addTransaction { addr, reqType }).memory = c.memory := by
      unfold addTransaction
      cases reqType <;> dsimp only
      case READ => split <;> [rfl; (split <;> rfl)]
      case WRITE => split <;> rfl
      all_goals rfl
    rw [hsame]
    exact hinv
  | returnDoneTrans =>
    rw [After] at hafter
    subst hafter
    have hsame : (c.returnDoneTrans c.clk).2.memory = c.memory := by
      unfold returnDoneTrans
      split
      · rfl
      · dsimp only
        split <;> rfl
    rw [hsame]
    exact hinv
  | clockTick => exact hinv.tail (ticked_advances hregular htidy hafter)

end Controller

variable {m n : Memory}

namespace Memory

section Delays

/-- A kind of event of the memory is a type of command at a bank. -/
def timing (config : DramConfig) : Timers.Rules TypedCommand (BankId × CommandType) where
  deadlines clk cmd k :=
    if k.1.InRange config then
      ((delaysAt config cmd k.1).filter fun e => e.1 == k.2).map fun e => stamp clk e.2
    else []
  kinds cmd := (cmd.checked config).map fun b => (b, cmd.cmdType)

def table (m : Memory) (k : BankId × CommandType) : ℕ := (m.bankStates k.1).cmdTiming k.2

theorem delaysAt_header {cmd : TypedCommand} (h : cmd.cmdType = .P_HEADER) (b : BankId) :
    delaysAt config cmd b = [] := by
  simp only [delaysAt, h, Timing.sameBank, Timing.otherBanksSameBankgroup,
    Timing.otherBankgroupsSameRank, Timing.otherRanks]
  split
  · rfl
  · split
    · split <;> rfl
    · rfl

theorem kept_advances (h : Timers.Kept (timing config) m.log m.table)
    (hadvance : m.Advances config n) : Timers.Kept (timing config) n.log n.table := by
  cases hadvance with
  | wait => exact h
  | header cmd htype =>
    refine Timers.kept_append h ?_ (fun k => Nat.le_refl _) ?_
    · intro k hk
      simp [timing, TypedCommand.checked, htype] at hk
    · intro k d hd
      simp [timing, delaysAt_header htype] at hd
  | command cmd ch ch' hbanks hwindow hissue hfit hissued =>
    have htable : ∀ k, m.table k = (ch.bankStates k.1).cmdTiming k.2 := by
      intro k
      rw [table, hbanks]
    refine Timers.kept_append h ?_ ?_ ?_
    · intro k hk
      obtain ⟨b, hb, rfl⟩ := List.mem_map.mp hk
      rw [htable]
      exact hfit.timing b hb
    · intro k
      rw [htable]
      change _ ≤ (ch'.bankStates k.1).cmdTiming k.2
      rw [hissued.cmdTiming]
      split
      · exact le_updateTimings _ _
      · exact Nat.le_refl _
    · intro k d hd
      change d ≤ (ch'.bankStates k.1).cmdTiming k.2
      rw [hissued.cmdTiming]
      simp only [timing] at hd
      split at hd
      · rename_i hin
        rw [if_pos hin]
        obtain ⟨e, he, rfl⟩ := List.mem_map.mp hd
        obtain ⟨he, htype⟩ := List.mem_filter.mp he
        rw [beq_iff_eq] at htype
        rw [← htype]
        exact stamp_le_updateTimings he
      · exact absurd hd List.not_mem_nil

end Delays

section Activations

/-- When a rank was activated. -/
def activations (log : List (ℕ × TypedCommand)) (rank : BitVec 32) : List ℕ :=
  (log.filter fun e => e.2.cmdType == .ACTIVATE && e.2.addr.rank == rank).map Prod.fst

theorem activations_append (log : List (ℕ × TypedCommand)) (clk : ℕ) (cmd : TypedCommand)
    (rank : BitVec 32) : activations (log ++ [(clk, cmd)]) rank = activations log rank ++
      if cmd.cmdType = .ACTIVATE ∧ cmd.addr.rank = rank then [clk] else [] := by
  rw [activations, List.filter_append, List.map_append, activations]
  congr 1
  by_cases h : cmd.cmdType = .ACTIVATE ∧ cmd.addr.rank = rank
  · rw [if_pos h]
    simp [h]
  · rw [if_neg h]
    have hfalse : (cmd.cmdType == .ACTIVATE && cmd.addr.rank == rank) = false := by
      rw [Bool.and_eq_false_iff, beq_eq_false_iff_ne, beq_eq_false_iff_ne]
      exact not_and_or.mp h
    simp [hfalse]

/-- Each rank keeps a queue of the times at which its last activations expire. -/
def Windowed (config : DramConfig) (m : Memory) : Prop :=
  ∀ rank, RateWindow.Covers (fun clk => stamp clk config.tFAW) 4 m.clk (activations m.log rank)
    (m.fourAw rank)

theorem slide_eq (window : List ℕ) (clk : ℕ) (length : ℤ) :
    ChannelState.slide window clk length = RateWindow.expire clk window ++ [stamp clk length] := by
  cases window <;> rfl

theorem ready_of_window {ch : ChannelState} {rank : BitVec 32} {clk : ℕ}
    (h : ch.activationWindowOk config rank clk = true) :
    RateWindow.Ready 4 clk (ch.fourAw rank) := by
  have hready : ch.isFAWReady rank clk = true := by
    unfold ChannelState.activationWindowOk at h
    simp only at h
    split at h
    · exact (Bool.and_eq_true_iff.mp h).1
    · exact h
  intro first rest hwindow
  rw [ChannelState.isFAWReady, hwindow] at hready
  simp only [Bool.not_eq_true', Bool.and_eq_false_iff, decide_eq_false_iff_not] at hready
  rw [hwindow]
  omega

theorem windowed_advances (h : m.Windowed config) (hadvance : m.Advances config n) :
    n.Windowed config := by
  intro rank
  have hlater := RateWindow.covers_later (h rank) (Nat.le_succ m.clk)
  cases hadvance with
  | wait => exact hlater
  | header cmd htype =>
    simp only [activations_append, htype]
    simpa using hlater
  | command cmd ch ch' hbanks hwindow hissue hfit hissued =>
    simp only [activations_append]
    rw [hissued.fourAw]
    by_cases hact : cmd.cmdType = .ACTIVATE
    · rw [if_pos hact]
      by_cases hrank : cmd.addr.rank = rank
      · subst hrank
        rw [if_pos ⟨hact, rfl⟩, Function.update_self, slide_eq, hwindow]
        have hready := ready_of_window (hfit.window hact)
        rw [hwindow] at hready
        exact RateWindow.covers_later
          (RateWindow.covers_happen (by decide) (h _) (Nat.le_refl _) hready) (Nat.le_succ _)
      · rw [if_neg fun h => hrank h.2, List.append_nil, Function.update_of_ne (Ne.symm hrank),
          hwindow]
        exact hlater
    · rw [if_neg hact, if_neg fun h => hact h.1, List.append_nil, hwindow]
      exact hlater

end Activations

section Places

/-- Commands come one in a cycle, and go to banks that there are. -/
structure Placed (config : DramConfig) (m : Memory) : Prop where
  inRange : ∀ e ∈ m.log, ∀ b ∈ e.2.checked config, b.InRange config
  past : ∀ e ∈ m.log, e.1 < m.clk
  ordered : m.log.Pairwise fun e f => e.1 < f.1

theorem placed_advances (h : m.Placed config) (hadvance : m.Advances config n) : n.Placed config := by
  have hissue : ∀ (cmd : TypedCommand) (banks : BankId → BankState) (fourAw : BitVec 32 → List ℕ),
      (∀ b ∈ cmd.checked config, b.InRange config) →
      Placed config ⟨m.clk + 1, banks, fourAw, m.log ++ [(m.clk, cmd)]⟩ := by
    intro cmd banks fourAw hin
    refine ⟨?_, ?_, ?_⟩
    · intro e he
      rcases List.mem_append.mp he with he | he
      · exact h.inRange e he
      · rw [List.mem_singleton] at he
        subst he
        exact hin
    · intro e he
      rcases List.mem_append.mp he with he | he
      · exact Nat.lt_succ_of_lt (h.past e he)
      · rw [List.mem_singleton] at he
        subst he
        exact Nat.lt_succ_self _
    · refine List.pairwise_append.mpr ⟨h.ordered, List.pairwise_singleton _ _, ?_⟩
      intro e he f hf
      rw [List.mem_singleton] at hf
      subst hf
      exact h.past e he
  cases hadvance with
  | wait => exact ⟨h.inRange, fun e he => Nat.lt_succ_of_lt (h.past e he), h.ordered⟩
  | header cmd htype =>
    refine hissue cmd _ _ ?_
    intro b hb
    simp [TypedCommand.checked, htype] at hb
  | command cmd ch ch' hbanks hwindow hissuable hfit hissued => exact hissue cmd _ _ hfit.inRange

end Places

end Memory

theorem stamp_eq {clk : ℕ} {d : ℤ} (h : 0 ≤ (clk : ℤ) + d) (hlt : (clk : ℤ) + d < 2 ^ 64) :
    (stamp clk d : ℤ) = clk + d := by
  rw [stamp, Int.emod_eq_of_lt h hlt, Int.toNat_of_nonneg h]

namespace Controller

/-- The second command comes after the first one, and after every delay that the first one puts on
it at a bank where it is checked, as far as 64 bits can tell. A `G_ACT` is checked at one bank of the
group that it opens. -/
def Delayed (config : DramConfig) (e f : ℕ × TypedCommand) : Prop :=
  e.1 < f.1 ∧ ∀ b ∈ f.2.checked config, ∀ d, (f.2.cmdType, d) ∈ delaysAt config e.2 b →
    0 ≤ (e.1 : ℤ) + d → (e.1 : ℤ) + d < 2 ^ 64 → (e.1 : ℤ) + d ≤ f.1

/-- Every pair of commands of a run keeps the delays between them. -/
theorem run_delayed (hregular : Regular config)
    (hmeets : AllCalls (step config) (Meets config) {} calls)
    (hrun : run (step config) {} calls = .ok t) : t.log.Pairwise (Delayed config) := by
  have hreaches := run_reaches hregular hmeets hrun
  have hkept := Memory.reaches_keeps
    (fun m => Timers.Kept (Memory.timing config) m.log m.table) hreaches
    (Timers.kept_nil _) fun _ _ h hadvance => Memory.kept_advances h hadvance
  have hplaced := Memory.reaches_keeps (Memory.Placed config) hreaches
    ⟨by simp, by simp, List.Pairwise.nil⟩ fun _ _ h hadvance => Memory.placed_advances h hadvance
  -- the table of deadlines speaks of banks, the log of commands
  refine (hkept.respected.and hplaced.ordered).imp_of_mem ?_
  rintro e f he hf ⟨hrespects, hlt⟩
  refine ⟨hlt, ?_⟩
  intro b hb d hd hnonneg hbound
  have hdeadline := hrespects (b, f.2.cmdType) (List.mem_map.mpr ⟨b, hb, rfl⟩) (stamp e.1 d) ?_
  · rw [← stamp_eq hnonneg hbound]
    exact_mod_cast hdeadline
  · simp only [Memory.timing]
    rw [if_pos (hplaced.inRange f hf b hb)]
    exact List.mem_map.mpr ⟨_, List.mem_filter.mpr ⟨hd, by simp⟩, rfl⟩

theorem run_delayed_kernelCalls : ∃ t, run (step smallMemory) {} kernelCalls = .ok t ∧
    t.log.Pairwise (Delayed smallMemory) := by
  obtain ⟨t, ht⟩ := exists_ok (x := run (step smallMemory) {} kernelCalls) (by decide +kernel)
  exact ⟨t, ht, run_delayed regular_smallMemory (by decide +kernel) ht⟩

/-- No rank is activated more than four times in a window of `tFAW` cycles. -/
theorem run_activations (hregular : Regular config)
    (hmeets : AllCalls (step config) (Meets config) {} calls)
    (hrun : run (step config) {} calls = .ok t) {rank : BitVec 32} {i x y : ℕ}
    (hx : (Memory.activations t.log rank)[i]? = some x)
    (hy : (Memory.activations t.log rank)[i + 4]? = some y)
    (hnonneg : 0 ≤ (x : ℤ) + config.tFAW) (hbound : (x : ℤ) + config.tFAW < 2 ^ 64) :
    (x : ℤ) + config.tFAW ≤ y := by
  have hwindowed := Memory.reaches_keeps (Memory.Windowed config)
    (run_reaches hregular hmeets hrun) (fun rank => RateWindow.covers_nil)
    fun _ _ h hadvance => Memory.windowed_advances h hadvance
  have hspaced := (hwindowed rank).spaced i x y hx hy
  rw [← stamp_eq hnonneg hbound]
  exact_mod_cast hspaced

/-- Reads of five rows of a bank. -/
def fiveRows : List Call :=
  [0, 4, 8, 12, 16].map (.addTransaction · .READ) ++ List.replicate 27 .clockTick

theorem run_activations_fiveRows : ∃ (t : Controller) (x y : ℕ),
    run (step smallMemory) {} fiveRows = .ok t ∧
    (Memory.activations t.log 0)[0]? = some x ∧ (Memory.activations t.log 0)[0 + 4]? = some y ∧
    (x : ℤ) + 18 ≤ y := by
  have htimes : (run (step smallMemory) {} fiveRows).map (fun t => Memory.activations t.log 0) =
      .ok [1, 6, 11, 16, 21] := by decide +kernel
  obtain ⟨t, ht, hlist⟩ := map_ok htimes
  have hx : (Memory.activations t.log 0)[0]? = some 1 := by rw [hlist]; rfl
  have hy : (Memory.activations t.log 0)[0 + 4]? = some 21 := by rw [hlist]; rfl
  exact ⟨t, 1, 21, ht, hx, hy,
    run_activations regular_smallMemory (by decide +kernel) ht hx hy (by decide) (by decide)⟩

end Controller

end NewPims.NewtonSim

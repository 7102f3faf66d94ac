import Mathlib.Tactic.SplitIfs
import NewPims.Lib.Transition
import NewPims.NewtonSim.Device

/-! What a bank with two row buffers answers to a command that is asked of it, and what the loop over
banks makes of the answers. -/
namespace NewPims.NewtonSim

open Transition

variable {config : DramConfig} {ch : ChannelState} {s : BankState} {src cmd : TypedCommand}
  {b : BankId} {clk : ℕ}

namespace BankState

/-- The rows of a bank. -/
def view (s : BankState) : Buffers where
  row := if s.state = .OPEN then some s.openRow else none
  pimRow := if s.pimState = .OPEN then some s.pimOpenRow else none

def Awake (s : BankState) : Prop := s.state ≠ .SREF ∧ s.pimState ≠ .SREF

theorem state_cases (h : s.Awake) : s.state = .OPEN ∨ s.state = .CLOSED := by
  obtain ⟨h, -⟩ := h
  cases hs : s.state with
  | OPEN => exact .inl rfl
  | CLOSED => exact .inr rfl
  | SREF => exact absurd hs h

theorem pimState_cases (h : s.Awake) : s.pimState = .OPEN ∨ s.pimState = .CLOSED := by
  obtain ⟨-, h⟩ := h
  cases hs : s.pimState with
  | OPEN => exact .inl rfl
  | CLOSED => exact .inr rfl
  | SREF => exact absurd hs h

end BankState

/-- The commands that may come before one that is asked for, and that one itself. -/
def needs : CommandType → List CommandType
  | .READ => [.READ, .PRECHARGE, .ACTIVATE, .PIM_PRECHARGE]
  | .WRITE => [.WRITE, .PRECHARGE, .ACTIVATE, .PIM_PRECHARGE]
  | .GWRITE => [.GWRITE, .PRECHARGE, .ACTIVATE, .PIM_PRECHARGE]
  | .REFRESH => [.REFRESH, .PRECHARGE, .PIM_PRECHARGE]
  | .P_HEADER => [.P_HEADER, .PRECHARGE, .PIM_PRECHARGE]
  | .COMPS_READRES => [.COMPS_READRES, .G_ACT]
  | _ => []

/-- The commands that are asked for. -/
def Asked (cmd : TypedCommand) : Prop :=
  cmd.cmdType = .READ ∨ cmd.cmdType = .WRITE ∨ cmd.cmdType = .GWRITE ∨ cmd.cmdType = .REFRESH ∨
    cmd.cmdType = .P_HEADER ∧ cmd.forGwrite = false ∨ cmd.cmdType = .COMPS_READRES

/-- A bank's answer to a command that is asked for. -/
structure Answers (s : BankState) (src : TypedCommand) (clk : ℕ) (cmd : TypedCommand) : Prop where
  addr : cmd.addr = src.addr
  hexAddr : cmd.hexAddr = src.hexAddr
  needed : cmd.cmdType ∈ needs src.cmdType
  timing : cmd.cmdType ≠ .P_HEADER → s.cmdTiming cmd.cmdType ≤ clk
  admits : s.view.Admits cmd
  closes : cmd.cmdType = .PIM_PRECHARGE → s.view.Closes src

section Bank

theorem ready_some {make : CommandType → TypedCommand} {need : Need} {r : TypedCommand}
    (h : s.ready cmd make clk need = some r) :
    need = .itself ∧ r = cmd ∨ ∃ t, need = .required t ∧ s.cmdTiming t ≤ clk ∧ r = make t := by
  cases need with
  | itself =>
    cases h
    exact .inl ⟨rfl, rfl⟩
  | wait => cases h
  | required t =>
    rw [BankState.ready] at h
    split at h
    · rename_i htime
      cases h
      exact .inr ⟨t, rfl, htime, rfl⟩
    · cases h

theorem requiredNormal_access (hs : s.Awake)
    (ht : src.cmdType = .READ ∨ src.cmdType = .WRITE ∨ src.cmdType = .GWRITE) :
    ∃ t, s.requiredNormal src = .ok (.required t) ∧ t ∈ needs src.cmdType ∧
      (t = .PIM_PRECHARGE → s.view.Closes src) ∧
      ∀ cmd : TypedCommand, cmd.cmdType = t → cmd.addr.row = src.addr.row → s.view.Admits cmd := by
  rcases BankState.state_cases hs with ho | hc
  · by_cases hrow : src.addr.row = s.openRow
    · refine ⟨src.cmdType, ?_, ?_, fun hclose => ?_, fun cmd hcmd hr => ?_⟩
      · rcases ht with h | h | h <;> simp [BankState.requiredNormal, ho, h, hrow]
      · rcases ht with h | h | h <;> simp [needs, h]
      · rcases ht with h | h | h <;> cases hclose.symm.trans h
      · rcases ht with h | h | h <;>
          simp [Buffers.Admits, BankState.view, hcmd, h, ho, hr, hrow]
    · refine ⟨.PRECHARGE, ?_, ?_, nofun, fun cmd hcmd hr => ?_⟩
      · rcases ht with h | h | h <;> simp [BankState.requiredNormal, ho, h, hrow]
      · rcases ht with h | h | h <;> simp [needs, h]
      · simp [Buffers.Admits, BankState.view, hcmd, ho]
  · by_cases hrow : s.pimState = .OPEN ∧ src.addr.row = s.pimOpenRow
    · refine ⟨.PIM_PRECHARGE, ?_, ?_, fun _ => ?_, fun cmd hcmd hr => ?_⟩
      · rcases ht with h | h | h <;> simp [BankState.requiredNormal, hc, h, hrow]
      · rcases ht with h | h | h <;> simp [needs, h]
      · rcases ht with h | h | h <;> simp [Buffers.Closes, BankState.view, h, hrow]
      · simp [Buffers.Admits, BankState.view, hcmd, hrow]
    · refine ⟨.ACTIVATE, ?_, ?_, nofun, fun cmd hcmd hr => ?_⟩
      · rcases ht with h | h | h <;> simp [BankState.requiredNormal, hc, h, hrow]
      · rcases ht with h | h | h <;> simp [needs, h]
      · simp only [Buffers.Admits, BankState.view, hcmd, hc]
        refine ⟨by simp, ?_⟩
        intro hsome
        split at hsome
        · rename_i hp
          exact hrow ⟨hp, hr.symm.trans (Option.some.inj hsome).symm⟩
        · cases hsome

theorem requiredNormal_refresh (hs : s.Awake) (ht : src.cmdType = .REFRESH) :
    ∃ t, s.requiredNormal src = .ok (.required t) ∧ t ∈ needs src.cmdType ∧
      ∀ cmd : TypedCommand, cmd.cmdType = t → s.view.Admits cmd := by
  rcases BankState.state_cases hs with ho | hc
  · refine ⟨.PRECHARGE, ?_, ?_, fun cmd hcmd => ?_⟩
    · simp [BankState.requiredNormal, ho, ht]
    · simp [needs, ht]
    · simp [Buffers.Admits, BankState.view, hcmd, ho]
  · rcases BankState.pimState_cases hs with hp | hp
    · refine ⟨.PIM_PRECHARGE, ?_, ?_, fun cmd hcmd => ?_⟩
      · simp [BankState.requiredNormal, hc, ht, hp]
      · simp [needs, ht]
      · simp [Buffers.Admits, BankState.view, hcmd, hp]
    · refine ⟨.REFRESH, ?_, ?_, fun cmd hcmd => ?_⟩
      · simp [BankState.requiredNormal, hc, ht, hp]
      · simp [needs, ht]
      · simp [Buffers.Admits, BankState.view, hcmd, hc, hp]

theorem requiredPIM_header (hs : s.Awake) (ht : src.cmdType = .P_HEADER) :
    s.requiredPIM src = .ok .itself ∧ s.view.Admits src ∨
      ∃ t, s.requiredPIM src = .ok (.required t) ∧ t ≠ .P_HEADER ∧ t ∈ needs src.cmdType ∧
        (t = .PIM_PRECHARGE → s.view.Closes src) ∧
        ∀ cmd : TypedCommand, cmd.cmdType = t → s.view.Admits cmd := by
  rcases BankState.pimState_cases hs with hp | hp
  · by_cases hrow : src.addr.row = s.pimOpenRow
    · refine .inl ⟨?_, ?_⟩
      · simp [BankState.requiredPIM, hp, ht, hrow]
      · simp [Buffers.Admits, BankState.view, hp, ht, hrow]
    · refine .inr ⟨.PIM_PRECHARGE, ?_, by simp, by simp [needs, ht], fun _ => ?_, fun cmd hcmd => ?_⟩
      · simp [BankState.requiredPIM, hp, ht, hrow]
      · simpa [Buffers.Closes, BankState.view, hp, ht] using Ne.symm hrow
      · simp [Buffers.Admits, BankState.view, hcmd, hp]
  · by_cases hrow : s.state = .OPEN ∧ src.addr.row = s.openRow
    · refine .inr ⟨.PRECHARGE, ?_, by simp, by simp [needs, ht], nofun, fun cmd hcmd => ?_⟩
      · simp [BankState.requiredPIM, hp, ht, hrow]
      · simp [Buffers.Admits, BankState.view, hcmd, hrow]
    · refine .inl ⟨?_, ?_⟩
      · simp [BankState.requiredPIM, hp, ht, hrow]
      · simp [Buffers.Admits, BankState.view, hp, ht]

theorem requiredPIM_comps (hs : s.Awake) (ht : src.cmdType = .COMPS_READRES) :
    ∃ t, s.requiredPIM src = .ok (.required t) ∧ t ∈ needs src.cmdType ∧
      ∀ cmd : TypedCommand, cmd.cmdType = t → s.view.Admits cmd := by
  rcases BankState.pimState_cases hs with hp | hp
  · refine ⟨.COMPS_READRES, ?_, by simp [needs, ht], fun cmd hcmd => ?_⟩
    · simp [BankState.requiredPIM, hp, ht]
    · simp [Buffers.Admits, BankState.view, hcmd, hp]
  · refine ⟨.G_ACT, ?_, by simp [needs, ht], fun cmd hcmd => ?_⟩
    · simp [BankState.requiredPIM, hp, ht]
    · simp [Buffers.Admits, BankState.view, hcmd, hp]

/-- A bank that is not in self-refresh always has an answer, or none yet. -/
theorem getReadyCommand_bank (hs : s.Awake) (hasked : Asked src) :
    ∃ o, s.getReadyCommand src true clk = .ok o ∧ ∀ cmd, o = some cmd → Answers s src clk cmd := by
  have hnormal : (src.cmdType = .READ ∨ src.cmdType = .WRITE ∨ src.cmdType = .GWRITE) ∨
      src.cmdType = .REFRESH → s.getReadyCommand src true clk = s.getReadyNormalCommand src clk := by
    rintro ((h | h | h) | h) <;>
      simp [BankState.getReadyCommand, TypedCommand.isPIMBufferCommand,
        TypedCommand.isNormalBufferCommand, h]
  have hpim : src.cmdType = .P_HEADER ∧ src.forGwrite = false ∨ src.cmdType = .COMPS_READRES →
      s.getReadyCommand src true clk = s.getReadyPIMCommand src clk := by
    rintro (⟨h, hfor⟩ | h)
    · simp [BankState.getReadyCommand, TypedCommand.isPIMBufferCommand, h, hfor]
    · simp [BankState.getReadyCommand, TypedCommand.isPIMBufferCommand, h]
  -- the answer to a command that needs one of type `t`
  have hplain : ∀ t, s.requiredNormal src = .ok (.required t) → t ∈ needs src.cmdType →
      s.view.Admits (.plain t src.addr src.hexAddr) → t ≠ .P_HEADER →
      (t = .PIM_PRECHARGE → s.view.Closes src) →
      ∃ o, s.getReadyNormalCommand src clk = .ok o ∧ ∀ cmd, o = some cmd → Answers s src clk cmd := by
    intro t hreq hneed hadmits hne hcloses
    refine ⟨_, by rw [BankState.getReadyNormalCommand, hreq]; rfl, ?_⟩
    intro cmd hcmd
    rcases ready_some hcmd with ⟨h, -⟩ | ⟨t', h, htime, rfl⟩
    · cases h
    · cases h
      exact ⟨rfl, rfl, hneed, fun _ => htime, hadmits, hcloses⟩
  rcases hasked with h | h | h | h | h | h
  · obtain ⟨t, hreq, hneed, hcloses, hadmits⟩ := requiredNormal_access hs (.inl h)
    rw [hnormal (.inl (.inl h))]
    exact hplain t hreq hneed (hadmits _ rfl rfl) (by rintro rfl; simp [needs, h] at hneed) hcloses
  · obtain ⟨t, hreq, hneed, hcloses, hadmits⟩ := requiredNormal_access hs (.inr (.inl h))
    rw [hnormal (.inl (.inr (.inl h)))]
    exact hplain t hreq hneed (hadmits _ rfl rfl) (by rintro rfl; simp [needs, h] at hneed) hcloses
  · obtain ⟨t, hreq, hneed, hcloses, hadmits⟩ := requiredNormal_access hs (.inr (.inr h))
    rw [hnormal (.inl (.inr (.inr h)))]
    exact hplain t hreq hneed (hadmits _ rfl rfl) (by rintro rfl; simp [needs, h] at hneed) hcloses
  · obtain ⟨t, hreq, hneed, hadmits⟩ := requiredNormal_refresh hs h
    rw [hnormal (.inr h)]
    exact hplain t hreq hneed (hadmits _ rfl) (by rintro rfl; simp [needs, h] at hneed)
      fun _ => by simp [Buffers.Closes, h]
  · rw [hpim (.inl h)]
    rcases requiredPIM_header hs h.1 with ⟨hreq, hadmits⟩ | ⟨t, hreq, hne, hneed, hcloses, hadmits⟩
    · refine ⟨some src, by rw [BankState.getReadyPIMCommand, hreq]; rfl, ?_⟩
      rintro cmd ⟨rfl⟩
      exact ⟨rfl, rfl, by simp [needs, h.1], fun hne => absurd h.1 hne, hadmits,
        fun hclose => by cases h.1.symm.trans hclose⟩
    · refine ⟨_, by rw [BankState.getReadyPIMCommand, hreq]; rfl, ?_⟩
      intro cmd hcmd
      rcases ready_some hcmd with ⟨h, -⟩ | ⟨t', h, htime, rfl⟩
      · cases h
      · cases h
        exact ⟨rfl, rfl, hneed, fun _ => htime, hadmits _ rfl, hcloses⟩
  · obtain ⟨t, hreq, hneed, hadmits⟩ := requiredPIM_comps hs h
    rw [hpim (.inr h)]
    refine ⟨_, by rw [BankState.getReadyPIMCommand, hreq]; rfl, ?_⟩
    intro cmd hcmd
    rcases ready_some hcmd with ⟨h, -⟩ | ⟨t', h, htime, rfl⟩
    · cases h
    · cases h
      refine ⟨rfl, rfl, hneed, fun _ => htime, hadmits _ rfl, fun hclose => ?_⟩
      simp [Buffers.Closes, h]

end Bank

section Scan

variable {aim : BankId → TypedCommand → Except MemoryFault TypedCommand} {total n : ℕ}
  {l : List BankId} {last : Option TypedCommand}

def AllAwake (ch : ChannelState) : Prop := ∀ b, (ch.bankStates b).Awake

/-- The loop stops at a bank that needs another command, or finds all banks ready. -/
theorem scan_cases (hdual : config.enableDualBuffer = true) (hawake : AllAwake ch)
    (hasked : Asked src) (hn : n + l.length ≤ total)
    (h : ch.scan config src clk aim total l n last = .ok (some cmd)) :
    (∃ b ∈ l, ∃ r, Answers (ch.bankStates b) src clk r ∧ r.cmdType ≠ src.cmdType ∧
        aim b r = .ok cmd) ∨
      n + l.length = total ∧
        (∀ b ∈ l, ∃ r, Answers (ch.bankStates b) src clk r ∧ r.cmdType = src.cmdType) ∧
        (last = some cmd ∨
          ∃ b ∈ l, Answers (ch.bankStates b) src clk cmd ∧ cmd.cmdType = src.cmdType) := by
  induction l generalizing n last with
  | nil =>
    rw [ChannelState.scan] at h
    split at h
    · rename_i htotal
      exact .inr ⟨htotal, fun b hb => absurd hb List.not_mem_nil, .inl (Except.ok.inj h)⟩
    · cases h
  | cons b rest ih =>
    rw [List.length_cons] at hn
    obtain ⟨o, ho, hanswers⟩ := @getReadyCommand_bank _ _ clk (hawake b) hasked
    rw [ChannelState.scan, hdual, ho] at h
    cases o with
    | none =>
      rcases ih (by omega) h with ⟨b', hb', hcase⟩ | ⟨hcount, -, -⟩
      · exact .inl ⟨b', List.mem_cons_of_mem _ hb', hcase⟩
      · omega
    | some r =>
      have hr := hanswers r rfl
      obtain ⟨o', ho', h⟩ := bind_ok.mp h
      cases ho'
      simp only at h
      split at h
      · rename_i htype
        rcases ih (by omega) h with ⟨b', hb', hcase⟩ | ⟨hcount, hall, hlast⟩
        · exact .inl ⟨b', List.mem_cons_of_mem _ hb', hcase⟩
        · refine .inr ⟨by rw [List.length_cons]; omega, ?_, .inr ?_⟩
          · intro b' hb'
            rcases List.mem_cons.mp hb' with rfl | hb'
            · exact ⟨r, hr, htype⟩
            · exact hall b' hb'
          · rcases hlast with hlast | ⟨b', hb', hcase⟩
            · cases hlast
              exact ⟨b, List.mem_cons_self, hr, htype⟩
            · exact ⟨b', List.mem_cons_of_mem _ hb', hcase⟩
      · rename_i htype
        obtain ⟨aimed, haimed, h⟩ := bind_ok.mp h
        cases h
        exact .inl ⟨b, List.mem_cons_self, r, hr, htype, haimed⟩

theorem exists_scan (hdual : config.enableDualBuffer = true) (hawake : AllAwake ch)
    (hasked : Asked src)
    (haim : ∀ b r, Answers (ch.bankStates b) src clk r → r.cmdType ≠ src.cmdType →
      ∃ r', aim b r = .ok r') :
    ∃ o, ch.scan config src clk aim total l n last = .ok o := by
  induction l generalizing n last with
  | nil => exact ⟨_, rfl⟩
  | cons b rest ih =>
    obtain ⟨o, ho, hanswers⟩ := @getReadyCommand_bank _ _ clk (hawake b) hasked
    rw [ChannelState.scan, hdual, ho]
    cases o with
    | none => exact ih
    | some r =>
      refine exists_bind rfl ?_
      simp only
      split
      · exact ih
      · rename_i htype
        obtain ⟨r', hr'⟩ := haim b r (hanswers r rfl) htype
        exact exists_bind hr' ⟨_, rfl⟩

end Scan

end NewPims.NewtonSim

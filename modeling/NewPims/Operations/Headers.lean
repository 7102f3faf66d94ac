import NewPims.Lib.Transition
import NewPims.Operations.Layout
import NewPims.Operations

/-! Instruction lists in which every PIM command goes to the channel and the row of the last header
before it, and builders that append such lists. -/
namespace NewPims

open AddressConfig Transition

/-- A property of instruction lists, with a condition, that holds of what is put together. -/
structure Segments (Q : Prop → List Instruction → Prop) : Prop where
  nil : Q True []
  append : ∀ {C D : Prop} {insts rest : List Instruction}, Q C insts → Q D rest →
    Q (C ∧ D) (insts ++ rest)
  congr : ∀ {C D : Prop} {insts : List Instruction}, (C ↔ D) → Q C insts → Q D insts

section Agreement

variable (config : SimulationConfig)

def kernelCommands : List Opcode := [.PIM_COMP, .PIM_READRES, .PIM_COMPS_READRES]

/-- The two instructions go to one channel and one row. -/
def SameRow (header cmd : Instruction) : Prop :=
  ∀ a ∈ header.srcAddrs, ∀ d ∈ cmd.srcAddrs,
    layoutChannel config a = layoutChannel config d ∧ layoutRow config a = layoutRow config d

/-- The last header after one more instruction. -/
def nextHeader (header : Option Instruction) (inst : Instruction) : Option Instruction :=
  if inst.opcode = .PIM_HEADER then some inst else header

/-- Every command of a kernel goes where the last header before it went. -/
def HeadersAgree : Option Instruction → List Instruction → Prop
  | _, [] => True
  | header, inst :: rest =>
    (inst.opcode ∈ kernelCommands → ∀ h ∈ header, SameRow config h inst) ∧
      HeadersAgree (nextHeader header inst) rest

/-- The instructions agree, whatever header comes before them, exactly under the condition. -/
def AgreesIff (C : Prop) (insts : List Instruction) : Prop :=
  ∀ header, HeadersAgree config header insts ↔ C

variable {config} {C D : Prop} {header : Option Instruction} {insts rest : List Instruction}

theorem headersAgree_append :
    HeadersAgree config header (insts ++ rest) ↔
      HeadersAgree config header insts ∧ HeadersAgree config (insts.foldl nextHeader header) rest := by
  induction insts generalizing header with
  | nil => simp [HeadersAgree]
  | cons inst insts ih => simp only [List.cons_append, HeadersAgree, ih, List.foldl_cons, and_assoc]

theorem agreesIff_nil : AgreesIff config True [] := fun _ => Iff.rfl

theorem agreesIff_append (h : AgreesIff config C insts) (hrest : AgreesIff config D rest) :
    AgreesIff config (C ∧ D) (insts ++ rest) := by
  intro header
  rw [headersAgree_append, h header, hrest _]

theorem agreesIff_congr (hiff : C ↔ D) (h : AgreesIff config C insts) :
    AgreesIff config D insts := fun header => (h header).trans hiff

theorem agreesIff_segments : Segments (AgreesIff config) :=
  ⟨agreesIff_nil, agreesIff_append, agreesIff_congr⟩

/-- Nothing is asked of other instructions. -/
theorem agreesIff_other (h : ∀ inst ∈ insts, inst.opcode ∉ kernelCommands) :
    AgreesIff config True insts := by
  intro header
  induction insts generalizing header with
  | nil => exact Iff.rfl
  | cons inst insts ih =>
    refine iff_of_true ⟨fun hcmd => absurd hcmd (h inst List.mem_cons_self), ?_⟩ trivial
    exact (ih (fun i hi => h i (List.mem_cons_of_mem _ hi)) _).mpr trivial

/-- The commands of one kernel, all at one channel and one row. -/
def KernelOn (config : SimulationConfig) (channel row : ℕ) (insts : List Instruction) : Prop :=
  ∀ inst ∈ insts, inst.opcode ∈ kernelCommands ∧
    ∃ d, inst.srcAddrs = [d] ∧ layoutChannel config d = channel ∧ layoutRow config d = row

theorem kernelOn_append {channel row : ℕ} (h : KernelOn config channel row insts)
    (hrest : KernelOn config channel row rest) : KernelOn config channel row (insts ++ rest) := by
  intro inst hmem
  rcases List.mem_append.mp hmem with hmem | hmem
  · exact h inst hmem
  · exact hrest inst hmem

theorem headersAgree_kernel {channel row : ℕ} {inst : Instruction} {a : AddrType}
    (haddr : inst.srcAddrs = [a]) (h : KernelOn config channel row insts) (hne : insts ≠ []) :
    HeadersAgree config (some inst) insts ↔
      layoutChannel config a = channel ∧ layoutRow config a = row := by
  induction insts with
  | nil => exact absurd rfl hne
  | cons cmd insts ih =>
    obtain ⟨hop, d, hd, hchannel, hrow⟩ := h cmd List.mem_cons_self
    have hother : cmd.opcode ≠ .PIM_HEADER := by
      intro heq
      rw [heq] at hop
      revert hop
      decide
    have hsame : SameRow config inst cmd ↔
        layoutChannel config a = channel ∧ layoutRow config a = row := by
      simp [SameRow, haddr, hd, hchannel, hrow]
    have hfirst : (cmd.opcode ∈ kernelCommands → ∀ h ∈ some inst, SameRow config h cmd) ↔
        layoutChannel config a = channel ∧ layoutRow config a = row := by
      simp [hop, hsame]
    rw [HeadersAgree, nextHeader, if_neg hother, hfirst]
    by_cases hinsts : insts = []
    · simp [hinsts, HeadersAgree]
    · rw [ih (fun i hi => h i (List.mem_cons_of_mem _ hi)) hinsts, and_self_iff]

/-- A whole kernel agrees where its header does. -/
theorem agreesIff_kernel {channel row : ℕ} {sramAddr a : AddrType}
    (h : KernelOn config channel row insts) (hne : insts ≠ []) :
    AgreesIff config (layoutChannel config a = channel ∧ layoutRow config a = row)
      (pimInstruction .PIM_HEADER sramAddr a :: insts) := by
  intro header
  have hop : (pimInstruction .PIM_HEADER sramAddr a).opcode = .PIM_HEADER := rfl
  rw [HeadersAgree, nextHeader, if_pos hop, headersAgree_kernel rfl h hne]
  refine and_iff_right fun hcmd => ?_
  simp [kernelCommands, pimInstruction] at hcmd

end Agreement

section Building

variable {config : SimulationConfig} {b b' b'' : TileBuilder} {C D : Prop}

/-- The builder has got further instructions, of which `P` holds. -/
def Appends (P : List Instruction → Prop) (b b' : TileBuilder) : Prop :=
  ∃ added, b'.instructions = b.instructions ++ added ∧ P added

theorem appends_push {P : List Instruction → Prop} {insts : List Instruction}
    (hb : b.instructions = b'.instructions) (h : P insts) : Appends P b (b'.push insts) :=
  ⟨insts, by rw [hb]; rfl, h⟩

theorem allocateSramAddr_instructions (size : ℕ) (accum : Bool) :
    (b.allocateSramAddr config size accum).2.instructions = b.instructions := by
  rw [TileBuilder.allocateSramAddr]
  split <;> rfl

/-- The instructions of a loop are those of its steps. -/
theorem appends_foldlM {step : TileBuilder → ℕ → Except Fault TileBuilder} {xs : List ℕ}
    {P : List ℕ → List Instruction → Prop} {Q : ℕ → List Instruction → Prop} (hnil : P [] [])
    (hcons : ∀ x xs insts rest, Q x insts → P xs rest → P (x :: xs) (insts ++ rest))
    (hstep : ∀ x b b', step b x = .ok b' → Appends (Q x) b b')
    (h : xs.foldlM step b = .ok b') : Appends (P xs) b b' := by
  induction xs generalizing b with
  | nil =>
    cases h
    exact ⟨[], (List.append_nil _).symm, hnil⟩
  | cons x xs ih =>
    rw [List.foldlM_cons] at h
    obtain ⟨m, hm, h⟩ := bind_ok.mp h
    obtain ⟨insts, hinsts, hQ⟩ := hstep x b m hm
    obtain ⟨rest, hrest, hP⟩ := ih h
    exact ⟨insts ++ rest, by rw [hrest, hinsts, List.append_assoc], hcons x xs insts rest hQ hP⟩

theorem appends_mono {P Q : List Instruction → Prop} (hPQ : ∀ insts, P insts → Q insts)
    (h : Appends P b b') : Appends Q b b' := by
  obtain ⟨added, hadded, hP⟩ := h
  exact ⟨added, hadded, hPQ added hP⟩

namespace Segments

variable {Q : Prop → List Instruction → Prop} (hQ : Segments Q)

include hQ

/-- A loop under the conditions of its steps. -/
theorem foldlM {step : TileBuilder → ℕ → Except Fault TileBuilder} {xs : List ℕ} {C : ℕ → Prop}
    (hstep : ∀ x b b', step b x = .ok b' → Appends (Q (C x)) b b')
    (h : xs.foldlM step b = .ok b') : Appends (Q (∀ x ∈ xs, C x)) b b' := by
  refine appends_foldlM (P := fun xs => Q (∀ x ∈ xs, C x)) (Q := fun x => Q (C x)) ?_ ?_ hstep h
  · exact hQ.congr (by simp) hQ.nil
  · intro x xs insts rest hinsts hrest
    exact hQ.congr (by simp) (hQ.append hinsts hrest)

theorem trans (h : Appends (Q C) b b') (h' : Appends (Q D) b' b'') :
    Appends (Q (C ∧ D)) b b'' := by
  obtain ⟨insts, hinsts, hC⟩ := h
  obtain ⟨rest, hrest, hD⟩ := h'
  exact ⟨insts ++ rest, by rw [hrest, hinsts, List.append_assoc], hQ.append hC hD⟩

/-- Instructions without a condition in front change nothing. -/
theorem after (h : Appends (Q True) b b') (h' : Appends (Q C) b' b'') : Appends (Q C) b b'' :=
  appends_mono (fun _ => hQ.congr (and_iff_right trivial)) (hQ.trans h h')

theorem before (h : Appends (Q C) b b') (h' : Appends (Q True) b' b'') : Appends (Q C) b b'' :=
  appends_mono (fun _ => hQ.congr (and_iff_left trivial)) (hQ.trans h h')

theorem foldlM_true {step : TileBuilder → ℕ → Except Fault TileBuilder} {xs : List ℕ}
    (hstep : ∀ x b b', step b x = .ok b' → Appends (Q True) b b')
    (h : xs.foldlM step b = .ok b') : Appends (Q True) b b' :=
  appends_mono (fun _ => hQ.congr (by simp)) (hQ.foldlM hstep h)

end Segments

/-- An instruction and then those that are appended to it. -/
theorem appends_header {P Q : List Instruction → Prop} {m : TileBuilder} {inst : Instruction}
    (hm : b.instructions = m.instructions) (h : Appends P (m.push [inst]) b')
    (hPQ : ∀ insts, P insts → Q (inst :: insts)) : Appends Q b b' := by
  obtain ⟨insts, hinsts, hP⟩ := h
  refine ⟨inst :: insts, ?_, hPQ insts hP⟩
  rw [hinsts, hm]
  exact List.append_assoc _ _ _

/-- A header and then the commands of its kernel. -/
theorem appends_kernel {m : TileBuilder} {channel row : ℕ} {sramAddr a : AddrType}
    (hm : b.instructions = m.instructions)
    (h : Appends (fun insts => insts ≠ [] ∧ KernelOn config channel row insts)
      (m.push [pimInstruction .PIM_HEADER sramAddr a]) b') :
    Appends (AgreesIff config (layoutChannel config a = channel ∧ layoutRow config a = row)) b b' :=
  appends_header hm h fun _ hinsts => agreesIff_kernel hinsts.2 hinsts.1

theorem compsReadres_kernelOn {channel row numComps : ℕ} {entry : AddrType × ℕ} {d : AddrType}
    (hrow : layoutRow config d = row) (hchannel : layoutChannel config d = channel) :
    KernelOn config channel row (compsReadres config entry d numComps) := by
  intro inst hmem
  rw [compsReadres] at hmem
  split at hmem
  · rcases List.mem_append.mp hmem with hmem | hmem
    · rw [List.eq_of_mem_replicate hmem]
      exact ⟨by simp [kernelCommands, pimInstruction], d, rfl, hchannel, hrow⟩
    · rw [List.mem_singleton.mp hmem]
      exact ⟨by simp [kernelCommands, pimInstruction], d, rfl, hchannel, hrow⟩
  · rw [List.mem_singleton.mp hmem]
    exact ⟨by simp [kernelCommands, pimInstruction], d, rfl, hchannel, hrow⟩

theorem compsReadres_kernel {numComps : ℕ} {entry : AddrType × ℕ} {d : AddrType} :
    KernelOn config (layoutChannel config d) (layoutRow config d)
      (compsReadres config entry d numComps) :=
  compsReadres_kernelOn rfl rfl

theorem compsReadres_ne_nil {numComps : ℕ} {entry : AddrType × ℕ} {d : AddrType} :
    compsReadres config entry d numComps ≠ [] := by
  rw [compsReadres]
  split <;> simp

theorem resultInstructions_agrees {opcode : Opcode} (hop : opcode ∉ kernelCommands)
    {entry : AddrType × ℕ} {readres addrs : List AddrType} :
    AgreesIff config True (resultInstructions opcode entry readres addrs) := by
  apply agreesIff_other
  intro inst hmem
  rcases List.mem_pair.mp hmem with rfl | rfl
  · exact hop
  · simp [kernelCommands]

end Building

end NewPims

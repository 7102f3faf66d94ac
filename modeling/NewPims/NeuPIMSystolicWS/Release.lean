import NewPims.NeuPIMSystolicWS.Faults
import NewPims.NeuPIMSystolicWS.Turns

/-! What may still be done with a buffer when the core takes it for the next tile: nothing. -/
namespace NewPims

/-- Where the computation finds its source `address`: in the accumulator, or in the scratchpad. -/
def Instruction.ReadsFrom (inst : Instruction) (accum : Bool) (b : ℕ) (address : AddrType) : Prop :=
  if inst.srcFromAccum ∧ ACCUM_SPAD_BASE ≤ address then accum = true ∧ inst.accumSpadId = b
  else accum = false ∧ inst.spadId = b

namespace NeuPIMSystolicWS

open Bank Transition NeuPIMSCore Session

/-- The computations that have not completed. -/
def unfinished (config : SimulationConfig) (c : NeuPIMSCore) : List Instruction :=
  executing c ++ (piped config c ++ c.dropped)

/-- The key belongs to the accumulator, or to the scratchpad. -/
def InBuffer (accum : Bool) (address : AddrType) : Prop := ACCUM_SPAD_BASE ≤ address ↔ accum = true

/-- No load, no response and no result is still to come for the buffer `b`, and no computation
still reads it. -/
structure Released (config : SimulationConfig) (s : Session) (p : StagePlatform) (accum : Bool)
    (b : ℕ) : Prop where
  loads : ∀ i ∈ (s.core.lane p).ldInstQueue, i.opcode ≠ .PIM_HEADER → InBuffer accum i.destAddr →
    i.bufferId ≠ b
  responses : ∀ r ∈ s.requests config, r.stagePlatform = p → r.reqType.fills →
    InBuffer accum r.spadAddress → r.bufferId ≠ b
  results : accum = true → ∀ i ∈ unfinished config s.core, instPlatform i = p → i.accumSpadId ≠ b
  sources : ∀ i ∈ unfinished config s.core, instPlatform i = p → ∀ address ∈ i.srcAddrs,
    ¬ i.ReadsFrom accum b address

/-- No store from the buffer `b` is still to be sent or answered. -/
structure Stored (config : SimulationConfig) (s : Session) (p : StagePlatform) (accum : Bool)
    (b : ℕ) : Prop where
  stores : ∀ i ∈ (s.core.lane p).stInstQueue, InBuffer accum i.destAddr → i.bufferId ≠ b
  writes : ∀ r ∈ s.requests config, r.stagePlatform = p → r.reqType = .WRITE →
    InBuffer accum r.spadAddress → r.bufferId ≠ b

variable {config : SimulationConfig} {set : RobinHood} {c c' : NeuPIMSCore} {s : Session}
  {u : List MemoryAccess} {p : StagePlatform} {accum : Bool} {b : ℕ} {ptr : TilePtr} {tile : Tile}
  {i : Instruction} {r : MemoryAccess}

section Tags

theorem tagged_unfinished (h : Tagged config ⟨c, u⟩) (hi : i ∈ unfinished config c) :
    TaggedInst c (instPlatform i) i := by
  have hsame : ∀ {q}, TaggedInst c q i → TaggedInst c (instPlatform i) i := by
    intro q htag
    rwa [htag.platform]
  rcases List.mem_append.mp hi with hi | hi
  · obtain ⟨q, -, hi⟩ := mem_contents.mp hi
    exact hsame (h.execute q i hi).1
  · rcases List.mem_append.mp hi with hi | hi
    · rcases List.mem_append.mp hi with hi | hi
      · exact hsame (h.compute i hi)
      · exact h.vector i hi
    · obtain ⟨q, htag, -⟩ := h.dropped i hi
      exact hsame htag

theorem tagged_requests (h : Tagged config ⟨c, u⟩) (hr : r ∈ requests config ⟨c, u⟩) :
    TaggedReq c r := by
  rcases List.mem_append.mp hr with hr | hr
  · obtain ⟨q, -, hr⟩ := mem_contents.mp hr
    obtain ⟨k, -, hr⟩ := mem_contents.mp hr
    exact (h.queued q k r hr).2
  · exact h.unanswered r hr

end Tags

section Busy

theorem busy_of_pos (h : 0 < pendingOf config ⟨c, u⟩ ptr + loadsOf ⟨c, u⟩ ptr +
    storesOf ⟨c, u⟩ ptr + readsOf config ⟨c, u⟩ ptr + writesOf config ⟨c, u⟩ ptr) :
    ¬ Session.Idle config ⟨c, u⟩ ptr := by
  intro hidle
  rw [idle_iff] at hidle
  omega

/-- The tile of some work outstanding is at work in the lane of its platform, and counts it. -/
theorem live_of_busy (hcounted : Counted config ⟨c, u⟩) (hturned : Turned c)
    (hbusy : ¬ Session.Idle config ⟨c, u⟩ ptr)
    (hplatform : ∀ tile, c.heap ptr = some tile → tile.stagePlatform = p) :
    ptr ∈ (c.lane p).tiles ∧ ∃ tile, c.heap ptr = some tile ∧
      Balanced config ⟨c, u⟩ ptr tile := by
  obtain ⟨q, hq⟩ := hcounted.mem_tiles hbusy
  obtain ⟨tile, htile, -, hbalanced⟩ := hcounted.live q ptr hq
  have hsame : q = p := (hturned.platform q ptr hq tile htile).symm.trans (hplatform tile htile)
  exact ⟨hsame ▸ hq, tile, htile, hbalanced⟩

theorem pending_pos (hi : i ∈ unfinished config c) :
    0 < pendingOf config ⟨c, u⟩ i.parentTile := by
  have hpos : 0 < (unfinished config c).countP (instOf i.parentTile) :=
    List.countP_pos_iff.mpr ⟨i, hi, by simp [instOf]⟩
  rw [pendingOf_eq]
  rwa [unfinished, List.countP_append] at hpos

theorem loads_pos (hi : i ∈ (c.lane p).ldInstQueue) (hheader : i.opcode ≠ .PIM_HEADER) :
    0 < loadsOf ⟨c, u⟩ i.parentTile := by
  refine List.countP_pos_iff.mpr ⟨i, mem_contents.mpr ⟨p, mem_platforms p, hi⟩, ?_⟩
  simp [loadOf, hheader]

theorem stores_pos (hi : i ∈ (c.lane p).stInstQueue) : 0 < storesOf ⟨c, u⟩ i.parentTile :=
  List.countP_pos_iff.mpr ⟨i, mem_contents.mpr ⟨p, mem_platforms p, hi⟩, by simp [instOf]⟩

theorem reads_pos (hr : r ∈ requests config ⟨c, u⟩) (hfills : r.reqType.fills = true) :
    0 < readsOf config ⟨c, u⟩ r.parentTile := by
  refine List.countP_pos_iff.mpr ⟨r, hr, ?_⟩
  unfold MemoryAccessType.fills at hfills
  cases htype : r.reqType <;> rw [htype] at hfills <;> first
    | (cases hfills; done)
    | simp [readOf, htype]

theorem writes_pos (hr : r ∈ requests config ⟨c, u⟩) (hwrite : r.reqType = .WRITE) :
    0 < writesOf config ⟨c, u⟩ r.parentTile :=
  List.countP_pos_iff.mpr ⟨r, hr, by simp [writeOf, isWrite, hwrite]⟩

end Busy

/-- What has to be shown of the tiles at work for a buffer to be released: the tiles that have it
have no loads and no computations left. -/
structure Rested (c : NeuPIMSCore) (p : StagePlatform) (accum : Bool) (b : ℕ) : Prop where
  loads : ∀ ptr ∈ (c.lane p).tiles, ∀ tile, c.heap ptr = some tile →
    (if accum then tile.accumSpadId else tile.spadId) = b → tile.remainingLoads = 0
  computes : ∀ ptr ∈ (c.lane p).tiles, ∀ tile, c.heap ptr = some tile →
    (if accum then tile.accumSpadId else tile.spadId) = b → tile.remainingComputes = 0

theorem tileBuffer_eq {address : AddrType} (h : InBuffer accum address) :
    tileBuffer tile address = if accum then tile.accumSpadId else tile.spadId := by
  unfold tileBuffer
  cases accum with
  | true => rw [if_pos (h.mpr rfl), if_pos rfl]
  | false => rw [if_neg fun hle => Bool.false_ne_true (h.mp hle), if_neg Bool.false_ne_true]

theorem bufferId_eq (h : TaggedInst c p i) (htile : c.heap i.parentTile = some tile) :
    i.bufferId = tileBuffer tile i.destAddr := by
  obtain ⟨-, hspad, hacc⟩ := h.tile tile htile
  rw [Instruction.bufferId, tileBuffer, hspad, hacc]

theorem released_of_rested (hcounted : Counted config ⟨c, u⟩) (htagged : Tagged config ⟨c, u⟩)
    (hturned : Turned c) (hrested : Rested c p accum b) : Released config ⟨c, u⟩ p accum b where
  loads := by
    intro i hi hheader hside heq
    have hpos := loads_pos (c := c) (u := u) hi hheader
    have htag := (htagged.load p i hi).1
    have hbusy : ¬ Session.Idle config ⟨c, u⟩ i.parentTile := busy_of_pos (by omega)
    obtain ⟨hmem, tile, htile, -, hloads, -⟩ :=
      live_of_busy hcounted hturned hbusy fun tile htile => (htag.tile tile htile).1
    rw [bufferId_eq htag htile, tileBuffer_eq hside] at heq
    have := hrested.loads _ hmem tile htile heq
    omega
  responses := by
    intro r hr hplatform hfills hside heq
    have hpos := reads_pos (c := c) (u := u) hr hfills
    have htag := tagged_requests htagged hr
    have hbusy : ¬ Session.Idle config ⟨c, u⟩ r.parentTile := busy_of_pos (by omega)
    obtain ⟨hmem, tile, htile, -, hloads, -⟩ :=
      live_of_busy hcounted hturned hbusy fun tile htile => (htag.tile tile htile).1.trans hplatform
    rw [(htag.tile tile htile).2, tileBuffer_eq hside] at heq
    have := hrested.loads _ hmem tile htile heq
    omega
  results := by
    intro haccum i hi hplatform heq
    have hpos := pending_pos (c := c) (u := u) hi
    have htag := tagged_unfinished htagged hi
    have hbusy : ¬ Session.Idle config ⟨c, u⟩ i.parentTile := busy_of_pos (by omega)
    obtain ⟨hmem, tile, htile, hcomputes, -⟩ :=
      live_of_busy hcounted hturned hbusy fun tile htile => (htag.tile tile htile).1.trans hplatform
    rw [(htag.tile tile htile).2.2] at heq
    have := hrested.computes _ hmem tile htile (by rw [haccum, if_pos rfl]; exact heq)
    omega
  sources := by
    intro i hi hplatform address _ hreads
    have hpos := pending_pos (c := c) (u := u) hi
    have htag := tagged_unfinished htagged hi
    have hbusy : ¬ Session.Idle config ⟨c, u⟩ i.parentTile := busy_of_pos (by omega)
    obtain ⟨hmem, tile, htile, hcomputes, -⟩ :=
      live_of_busy hcounted hturned hbusy fun tile htile => (htag.tile tile htile).1.trans hplatform
    obtain ⟨-, hspad, hacc⟩ := htag.tile tile htile
    have heq : (if accum then tile.accumSpadId else tile.spadId) = b := by
      unfold Instruction.ReadsFrom at hreads
      split_ifs at hreads
      · rw [hreads.1, if_pos rfl, ← hacc, hreads.2]
      · rw [hreads.1, if_neg Bool.false_ne_true, ← hspad, hreads.2]
    have := hrested.computes _ hmem tile htile heq
    omega

/-- The tiles that have the buffer have no stores left. -/
theorem stored_of_rested (hcounted : Counted config ⟨c, u⟩) (htagged : Tagged config ⟨c, u⟩)
    (hturned : Turned c)
    (hrested : ∀ ptr ∈ (c.lane p).tiles, ∀ tile, c.heap ptr = some tile →
      (if accum then tile.accumSpadId else tile.spadId) = b → tile.remainingAccumIo = 0) :
    Stored config ⟨c, u⟩ p accum b where
  stores := by
    intro i hi hside heq
    have hpos := stores_pos (c := c) (u := u) hi
    have htag := (htagged.store p i hi).1
    have hbusy : ¬ Session.Idle config ⟨c, u⟩ i.parentTile := busy_of_pos (by omega)
    obtain ⟨hmem, tile, htile, -, -, hio⟩ :=
      live_of_busy hcounted hturned hbusy fun tile htile => (htag.tile tile htile).1
    rw [bufferId_eq htag htile, tileBuffer_eq hside] at heq
    have := hrested _ hmem tile htile heq
    omega
  writes := by
    intro r hr hplatform hwrite hside heq
    have hpos := writes_pos (c := c) (u := u) hr hwrite
    have htag := tagged_requests htagged hr
    have hbusy : ¬ Session.Idle config ⟨c, u⟩ r.parentTile := busy_of_pos (by omega)
    obtain ⟨hmem, tile, htile, -, -, hio⟩ :=
      live_of_busy hcounted hturned hbusy fun tile htile => (htag.tile tile htile).1.trans hplatform
    rw [(htag.tile tile htile).2, tileBuffer_eq hside] at heq
    have := hrested _ hmem tile htile heq
    omega

section Issue

variable (hcounted : Counted config ⟨c, u⟩) (htagged : Tagged config ⟨c, u⟩) (hturned : Turned c)
include hcounted htagged hturned

/-- The scratchpad that the next tile of the array will have. -/
theorem released_spad (hcan : c.canIssue tile = true) :
    Released config ⟨c, u⟩ .SA false ((c.currentSpad + 1) % 2) := by
  refine released_of_rested hcounted htagged hturned ⟨?_, ?_⟩
  · intro ptr hptr tile' htile' hspad
    exact (canIssue_spad hturned hcan hptr htile' hspad).1
  · intro ptr hptr tile' htile' hspad
    exact (canIssue_spad hturned hcan hptr htile' hspad).2

/-- The accumulator that the next tile of the array will have, unless it accumulates. A late load
into it would be one of the last tile, which has the other accumulator. -/
theorem released_acc (hcan : c.canIssue tile = true) (haccum : tile.accum = false) :
    Released config ⟨c, u⟩ .SA true ((c.currentAccSpad + 1) % 2) ∧
      Stored config ⟨c, u⟩ .SA true ((c.currentAccSpad + 1) % 2) := by
  have hio : ∀ ptr ∈ (c.lane .SA).tiles, ∀ tile', c.heap ptr = some tile' →
      (if true then tile'.accumSpadId else tile'.spadId) = (c.currentAccSpad + 1) % 2 →
      tile'.remainingAccumIo = 0 :=
    fun ptr hptr tile' htile' hacc => canIssue_acc hturned hcan haccum hptr htile' hacc
  refine ⟨released_of_rested hcounted htagged hturned ⟨?_, ?_⟩,
    stored_of_rested hcounted htagged hturned hio⟩
  · intro ptr hptr tile' htile' hacc
    by_contra hloads
    obtain ⟨-, hcurrent⟩ := canIssue_loads hturned hcan hptr htile' hloads
    have := hturned.acc
    rw [if_pos rfl] at hacc
    omega
  · intro ptr hptr tile' htile' hacc
    obtain ⟨tile₁, htile₁, -, hcomputes, -, hsum⟩ := hcounted.live .SA ptr hptr
    cases htile₁.symm.trans htile'
    have := hio ptr hptr tile' htile' hacc
    omega

/-- Both buffers of the PIM. -/
theorem released_pim (hcan : c.canIssuePim = true) (accum : Bool) :
    Released config ⟨c, u⟩ .PIM accum 0 ∧ Stored config ⟨c, u⟩ .PIM accum 0 := by
  have hnone : ∀ ptr, ptr ∉ (c.lane .PIM).tiles := by
    intro ptr hptr
    rw [canIssuePim, List.isEmpty_iff] at hcan
    rw [hcan] at hptr
    exact List.not_mem_nil hptr
  refine ⟨released_of_rested hcounted htagged hturned ⟨?_, ?_⟩,
    stored_of_rested hcounted htagged hturned ?_⟩
  all_goals exact fun ptr hptr => absurd hptr (hnone ptr)

end Issue

end NeuPIMSystolicWS

end NewPims

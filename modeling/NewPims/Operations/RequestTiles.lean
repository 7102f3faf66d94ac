import Mathlib.Data.BitVec
import Mathlib.Data.List.Basic
import NewPims.Lib.Transition
import NewPims.Operations.NeuPIMSAttend
import NewPims.Operations.NeuPIMSLogitSoftmax

/-! When the tiles of an attention operation partition the batch: the request at which one tile
ends is also the one at which the next begins, so they do only where one tile is enough. -/
namespace NewPims

open Transition

/-- Every request of the batch is in exactly one tile, and the tiles take them in order. -/
def CoversInOrder (batchSize : ℕ) (ranges : List (ℕ × ℕ)) : Prop :=
  ranges.flatMap tileRequests = List.range batchSize

/-- No request makes the running sum, which starts at `sramNeeds`, exceed the scratchpad. -/
def FitsOneTile (exceeds : BitVec 32 → Bool) (sramNeeds : BitVec 32) (needs : List (BitVec 32)) :
    Prop :=
  ∀ n < needs.length, exceeds (sramNeeds + (needs.take (n + 1)).sum) = false

section Cuts

variable {exceeds : BitVec 32 → Bool} {i : ℕ} {sramNeeds : BitVec 32} {needs : List (BitVec 32)}
  {cuts : List ℕ}

theorem fitsOneTile_cons {need : BitVec 32} :
    FitsOneTile exceeds sramNeeds (need :: needs) ↔
      exceeds (sramNeeds + need) = false ∧ FitsOneTile exceeds (sramNeeds + need) needs := by
  constructor
  · intro h
    refine ⟨by simpa using h 0 (Nat.succ_pos _), fun n hn => ?_⟩
    have := h (n + 1) (Nat.succ_lt_succ hn)
    rwa [List.take_succ_cons, List.sum_cons, ← BitVec.add_assoc] at this
  · rintro ⟨hfirst, hrest⟩ n hn
    cases n with
    | zero => simpa using hfirst
    | succ n =>
      have := hrest n (Nat.lt_of_succ_lt_succ hn)
      rwa [List.take_succ_cons, List.sum_cons, ← BitVec.add_assoc]

theorem cutPoints_fits (h : FitsOneTile exceeds sramNeeds needs) :
    cutPoints exceeds i sramNeeds needs = .ok [i + needs.length - 1] := by
  induction needs generalizing i sramNeeds with
  | nil => rfl
  | cons need needs ih =>
    obtain ⟨hfirst, hrest⟩ := fitsOneTile_cons.mp h
    rw [cutPoints, if_neg (by simp [hfirst]), ih hrest, List.length_cons,
      Nat.add_right_comm i 1 needs.length, Nat.add_assoc]

/-- The first tile ends no earlier than before the request at hand. -/
theorem cutPoints_head (h : cutPoints exceeds i sramNeeds needs = .ok cuts) :
    ∃ c rest, cuts = c :: rest ∧ i ≤ c + 1 := by
  induction needs generalizing i sramNeeds cuts with
  | nil =>
    cases h
    exact ⟨i - 1, [], rfl, by omega⟩
  | cons need needs ih =>
    rw [cutPoints] at h
    split at h
    · split at h
      · cases h
      · obtain ⟨rest, -, h⟩ := bind_ok.mp h
        cases h
        exact ⟨i - 1, rest, rfl, by omega⟩
    · obtain ⟨c, rest, hcuts, hc⟩ := ih h
      exact ⟨c, rest, hcuts, by omega⟩

/-- Otherwise there is a second tile. -/
theorem cutPoints_cut (hfits : ¬ FitsOneTile exceeds sramNeeds needs)
    (h : cutPoints exceeds i sramNeeds needs = .ok cuts) :
    ∃ c d rest, cuts = c :: d :: rest ∧ c ≤ d := by
  induction needs generalizing i sramNeeds cuts with
  | nil => exact absurd (fun n hn => absurd hn (Nat.not_lt_zero n)) hfits
  | cons need needs ih =>
    rw [cutPoints] at h
    split at h
    · split at h
      · cases h
      · obtain ⟨tail, htail, h⟩ := bind_ok.mp h
        cases h
        obtain ⟨d, rest, rfl, hd⟩ := cutPoints_head htail
        exact ⟨i - 1, d, rest, rfl, by omega⟩
    · next hno => exact ih (fun hrest => hfits (fitsOneTile_cons.mpr ⟨by simpa using hno, hrest⟩)) h

theorem mem_tileRequests {range : ℕ × ℕ} {i : ℕ} :
    i ∈ tileRequests range ↔ range.1 ≤ i ∧ i ≤ range.2 := by
  rw [tileRequests, List.mem_range'_1]
  omega

/-- Two tiles share the request at which the first of them ends. -/
theorem not_coversInOrder {c d prevIdx batchSize : ℕ} {rest : List ℕ} (hprev : prevIdx ≤ c)
    (hd : c ≤ d) : ¬ CoversInOrder batchSize (tileRanges prevIdx (c :: d :: rest)) := by
  intro h
  have hnodup : ((tileRanges prevIdx (c :: d :: rest)).flatMap tileRequests).Nodup := by
    rw [h]
    exact List.nodup_range
  rw [tileRanges, tileRanges, List.flatMap_cons, List.flatMap_cons] at hnodup
  have hfirst : c ∈ tileRequests (prevIdx, c) := mem_tileRequests.mpr ⟨hprev, Nat.le_refl c⟩
  have hsecond : c ∈ tileRequests (c, d) := mem_tileRequests.mpr ⟨Nat.le_refl c, hd⟩
  exact (List.nodup_append.mp hnodup).2.2 c hfirst c (List.mem_append_left _ hsecond) rfl

/-- The cuts of a batch give a partition exactly where there are none. -/
theorem coversInOrder_iff (hneeds : needs ≠ [])
    (h : cutPoints exceeds 0 0 needs = .ok cuts) :
    CoversInOrder needs.length (tileRanges 0 cuts) ↔ FitsOneTile exceeds 0 needs := by
  have hpos : 0 < needs.length := List.length_pos_iff.mpr hneeds
  constructor
  · intro hcovers
    by_contra hfits
    obtain ⟨c, d, rest, rfl, hd⟩ := cutPoints_cut hfits h
    exact not_coversInOrder (Nat.zero_le c) hd hcovers
  · intro hfits
    rw [cutPoints_fits hfits] at h
    cases h
    rw [CoversInOrder, tileRanges, tileRanges, List.flatMap_singleton, tileRequests,
      List.range_eq_range']
    congr 1
    omega

end Cuts

/-- The last tile ends with the batch, so the batch is not empty. -/
theorem initializeTiles_needs {exceeds : BitVec 32 → Bool} {batchSize : ℕ}
    {initializeInstructions : ℕ → ℕ → TileBuilder → Except Fault (Tile × TileBuilder)}
    {needs : List (BitVec 32)} {cuts : List ℕ} {b : TileBuilder} {tiles : List Tile}
    (hbatch : needs.length = batchSize) (hcuts : cutPoints exceeds 0 0 needs = .ok cuts)
    (h : initializeTiles batchSize initializeInstructions (tileRanges 0 cuts) b = .ok tiles) :
    needs ≠ [] := by
  rintro rfl
  cases hcuts
  have hlast : 0 + 1 ≠ batchSize := by
    rw [← hbatch]
    exact Nat.one_ne_zero
  rw [tileRanges, tileRanges, initializeTiles, if_pos ⟨rfl, hlast⟩] at h
  cases h

/-- The estimates of the requests, added up in their order, stay within the scratchpad. -/
def OneTile (exceeds : BitVec 32 → BitVec 32 → Bool)
    (batch : Except Fault (BitVec 32 × List (BitVec 32))) : Prop :=
  ∃ sramSize needs, batch = .ok (sramSize, needs) ∧ FitsOneTile (exceeds sramSize) 0 needs

/-- `initialize_tiles` after the cutting of the same batch. -/
theorem coversInOrder_iff_oneTile {exceeds : BitVec 32 → BitVec 32 → Bool} {batchSize : ℕ}
    {initializeInstructions : ℕ → ℕ → TileBuilder → Except Fault (Tile × TileBuilder)}
    {batch : BitVec 32 × List (BitVec 32)} {cuts : List ℕ} {b : TileBuilder} {tiles : List Tile}
    (hlength : batch.2.length = batchSize)
    (hcuts : cutPoints (exceeds batch.1) 0 0 batch.2 = .ok cuts)
    (htiles : initializeTiles batchSize initializeInstructions (tileRanges 0 cuts) b = .ok tiles) :
    CoversInOrder batchSize (tileRanges 0 cuts) ↔ OneTile exceeds (.ok batch) := by
  have hiff := coversInOrder_iff (initializeTiles_needs hlength hcuts htiles) hcuts
  rw [hlength] at hiff
  refine hiff.trans ⟨fun hfits => ⟨batch.1, batch.2, rfl, hfits⟩, ?_⟩
  rintro ⟨sramSize, needs, hbatch, hfits⟩
  cases hbatch
  exact hfits

namespace NeuPIMSLogitSoftmax

variable {config : SimulationConfig} {op : NeuPIMSLogitSoftmax} {id : ℕ} {name : String}
  {inputs : List TensorPtr} {a a' : ActAlloc}

theorem calculateLoops_reqIdxs {looped : NeuPIMSLogitSoftmax}
    (h : op.calculateLoops config = .ok looped) :
    looped.sramSizeNeeded config = .ok looped.reqIdxs := by
  obtain ⟨reqIdxs, hreqIdxs, h⟩ := bind_ok.mp h
  split at h
  · cases h
  · obtain ⟨E, -, h⟩ := bind_ok.mp h
    obtain ⟨pageSize, -, h⟩ := bind_ok.mp h
    obtain ⟨chunks, -, h⟩ := bind_ok.mp h
    obtain ⟨headsPerTile, -, h⟩ := bind_ok.mp h
    obtain ⟨headsInLastChunk, -, h⟩ := bind_ok.mp h
    obtain ⟨compsPerHead, -, h⟩ := bind_ok.mp h
    cases h
    exact hreqIdxs

/-- The tiles are those of the ranges between the cuts. -/
theorem getOutputs_tiles (h : getOutputs config id name inputs a = .ok (op, a')) :
    op.sramSizeNeeded config = .ok op.reqIdxs ∧
      initializeTiles op.batchSize (op.initializeInstructions config) (tileRanges 0 op.reqIdxs) {} =
        .ok op.tiles := by
  obtain ⟨qs, -, h⟩ := bind_ok.mp h
  obtain ⟨ks, -, h⟩ := bind_ok.mp h
  obtain ⟨query, -, h⟩ := bind_ok.mp h
  obtain ⟨nh, -, h⟩ := bind_ok.mp h
  obtain ⟨dk, -, h⟩ := bind_ok.mp h
  obtain ⟨made, -, h⟩ := bind_ok.mp h
  obtain ⟨looped, hloops, h⟩ := bind_ok.mp h
  obtain ⟨tiles, htiles, h⟩ := bind_ok.mp h
  have hreqIdxs := calculateLoops_reqIdxs hloops
  cases h
  exact ⟨hreqIdxs, htiles⟩

/-- The batch is partitioned exactly where one tile takes it. -/
theorem coversInOrder_iff (h : getOutputs config id name inputs a = .ok (op, a')) :
    CoversInOrder op.batchSize (tileRanges 0 op.reqIdxs) ↔ OneTile exceeds (op.batchNeeds config) := by
  obtain ⟨hsize, htiles⟩ := getOutputs_tiles h
  obtain ⟨batch, hbatch, hcuts⟩ := bind_ok.mp hsize
  obtain ⟨sramSize, -, hrest⟩ := bind_ok.mp hbatch
  obtain ⟨needs, hneeds, hpair⟩ := bind_ok.mp hrest
  cases hpair
  rw [hbatch]
  exact coversInOrder_iff_oneTile ((mapM_length hneeds).trans List.length_range) hcuts htiles

end NeuPIMSLogitSoftmax

namespace NeuPIMSAttend

variable {config : SimulationConfig} {op : NeuPIMSAttend} {id : ℕ} {name : String}
  {inputs : List TensorPtr} {a a' : ActAlloc}

theorem calculateLoops_reqIdxs {looped : NeuPIMSAttend}
    (h : op.calculateLoops config = .ok looped) :
    ∃ batch, looped.batchNeeds config = .ok batch ∧
      cutPoints (exceeds batch.1) 0 0 batch.2 = .ok looped.reqIdxs := by
  obtain ⟨pageSize, -, h⟩ := bind_ok.mp h
  obtain ⟨tilesPerChunk, -, h⟩ := bind_ok.mp h
  obtain ⟨batch, hbatch, h⟩ := bind_ok.mp h
  obtain ⟨reqIdxs, hreqIdxs, h⟩ := bind_ok.mp h
  cases h
  exact ⟨batch, hbatch, hreqIdxs⟩

/-- The tiles are those of the ranges between the cuts. -/
theorem getOutputs_tiles (h : getOutputs config id name inputs a = .ok (op, a')) :
    (∃ batch, op.batchNeeds config = .ok batch ∧
        cutPoints (exceeds batch.1) 0 0 batch.2 = .ok op.reqIdxs) ∧
      initializeTiles op.batchSize (op.initializeInstructions config) (tileRanges 0 op.reqIdxs) {} =
        .ok op.tiles := by
  obtain ⟨logits, -, h⟩ := bind_ok.mp h
  obtain ⟨vs, -, h⟩ := bind_ok.mp h
  obtain ⟨value, -, h⟩ := bind_ok.mp h
  obtain ⟨nh, -, h⟩ := bind_ok.mp h
  obtain ⟨dk, -, h⟩ := bind_ok.mp h
  obtain ⟨made, -, h⟩ := bind_ok.mp h
  obtain ⟨looped, hloops, h⟩ := bind_ok.mp h
  obtain ⟨tiles, htiles, h⟩ := bind_ok.mp h
  have hreqIdxs := calculateLoops_reqIdxs hloops
  cases h
  exact ⟨hreqIdxs, htiles⟩

/-- The batch is partitioned exactly where one tile takes it. -/
theorem coversInOrder_iff (h : getOutputs config id name inputs a = .ok (op, a')) :
    CoversInOrder op.batchSize (tileRanges 0 op.reqIdxs) ↔ OneTile exceeds (op.batchNeeds config) := by
  obtain ⟨⟨batch, hbatch, hcuts⟩, htiles⟩ := getOutputs_tiles h
  obtain ⟨E, -, hrest⟩ := bind_ok.mp hbatch
  obtain ⟨headsPerDramPage, -, hrest⟩ := bind_ok.mp hrest
  obtain ⟨chunks, -, hrest⟩ := bind_ok.mp hrest
  obtain ⟨sramSize, -, hrest⟩ := bind_ok.mp hrest
  obtain ⟨needs, hneeds, hpair⟩ := bind_ok.mp hrest
  cases hpair
  rw [hbatch]
  exact coversInOrder_iff_oneTile ((mapM_length hneeds).trans List.length_range) hcuts htiles

end NeuPIMSAttend

section Attention

/-- Of both attention operations: the tiles go through the ranges between the cuts, and partition
the batch exactly where the estimates of the whole batch stay within the scratchpad. -/
theorem attention_tiles_partition (config : SimulationConfig) (id : ℕ) (name : String)
    (inputs : List TensorPtr) (a a' : ActAlloc) :
    (∀ op, NeuPIMSLogitSoftmax.getOutputs config id name inputs a = .ok (op, a') →
      initializeTiles op.batchSize (op.initializeInstructions config) (tileRanges 0 op.reqIdxs) {} =
          .ok op.tiles ∧
        (CoversInOrder op.batchSize (tileRanges 0 op.reqIdxs) ↔
          OneTile NeuPIMSLogitSoftmax.exceeds (op.batchNeeds config))) ∧
    (∀ op, NeuPIMSAttend.getOutputs config id name inputs a = .ok (op, a') →
      initializeTiles op.batchSize (op.initializeInstructions config) (tileRanges 0 op.reqIdxs) {} =
          .ok op.tiles ∧
        (CoversInOrder op.batchSize (tileRanges 0 op.reqIdxs) ↔
          OneTile NeuPIMSAttend.exceeds (op.batchNeeds config))) := by
  constructor
  · intro op h
    exact ⟨(NeuPIMSLogitSoftmax.getOutputs_tiles h).2, NeuPIMSLogitSoftmax.coversInOrder_iff h⟩
  · intro op h
    exact ⟨(NeuPIMSAttend.getOutputs_tiles h).2, NeuPIMSAttend.coversInOrder_iff h⟩

theorem attention_tiles_partition_tiny :
    (∃ op a', NeuPIMSLogitSoftmax.getOutputs tinyConfig 0 "logit" (tinyInputs .KEY [1]) ⟨0, 4096⟩ =
        .ok (op, a') ∧ (CoversInOrder op.batchSize (tileRanges 0 op.reqIdxs) ↔
          OneTile NeuPIMSLogitSoftmax.exceeds (op.batchNeeds tinyConfig))) ∧
    (∃ op a', NeuPIMSAttend.getOutputs tinyConfig 0 "attend" (tinyInputs .VALUE [1, 2]) ⟨0, 4096⟩ =
        .ok (op, a') ∧ (CoversInOrder op.batchSize (tileRanges 0 op.reqIdxs) ↔
          OneTile NeuPIMSAttend.exceeds (op.batchNeeds tinyConfig))) := by
  obtain ⟨⟨op, a⟩, h⟩ := exists_ok (x := NeuPIMSLogitSoftmax.getOutputs tinyConfig 0 "logit"
    (tinyInputs .KEY [1]) ⟨0, 4096⟩) (by decide +kernel)
  obtain ⟨⟨op', a'⟩, h'⟩ := exists_ok (x := NeuPIMSAttend.getOutputs tinyConfig 0 "attend"
    (tinyInputs .VALUE [1, 2]) ⟨0, 4096⟩) (by decide +kernel)
  exact ⟨⟨op, a, h, ((attention_tiles_partition _ _ _ _ _ _).1 op h).2⟩,
    ⟨op', a', h', ((attention_tiles_partition _ _ _ _ _ _).2 op' h').2⟩⟩

/-- With two requests for the logits, and three for the attention, a request is in two tiles. -/
theorem attention_tiles_overlap :
    (∃ op a', NeuPIMSLogitSoftmax.getOutputs tinyConfig 0 "logit" (tinyInputs .KEY [1, 2]) ⟨0, 4096⟩ =
        .ok (op, a') ∧ ¬ CoversInOrder op.batchSize (tileRanges 0 op.reqIdxs)) ∧
    (∃ op a', NeuPIMSAttend.getOutputs tinyConfig 0 "attend" (tinyInputs .VALUE [1, 2, 3]) ⟨0, 4096⟩ =
        .ok (op, a') ∧ ¬ CoversInOrder op.batchSize (tileRanges 0 op.reqIdxs)) := by
  have hlogit : (NeuPIMSLogitSoftmax.getOutputs tinyConfig 0 "logit" (tinyInputs .KEY [1, 2])
      ⟨0, 4096⟩).map (fun r => r.1.reqIdxs) = .ok [0, 1] := by decide +kernel
  have hattend : (NeuPIMSAttend.getOutputs tinyConfig 0 "attend" (tinyInputs .VALUE [1, 2, 3])
      ⟨0, 4096⟩).map (fun r => r.1.reqIdxs) = .ok [1, 2] := by decide +kernel
  obtain ⟨⟨op, a⟩, h, hreqIdxs⟩ := map_ok hlogit
  obtain ⟨⟨op', a'⟩, h', hreqIdxs'⟩ := map_ok hattend
  refine ⟨⟨op, a, h, ?_⟩, ⟨op', a', h', ?_⟩⟩
  · dsimp only at hreqIdxs
    rw [hreqIdxs]
    exact not_coversInOrder (Nat.zero_le 0) (Nat.zero_le 1)
  · dsimp only at hreqIdxs'
    rw [hreqIdxs']
    exact not_coversInOrder (Nat.zero_le 1) (Nat.le_succ 1)

end Attention

end NewPims

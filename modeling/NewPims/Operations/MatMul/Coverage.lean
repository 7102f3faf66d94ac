import NewPims.Lib.Linked
import NewPims.Operations.MatMul.Events
import NewPims.Operations.MatMul.Halving

/-! The loop sizes of a matrix multiplication whose tiles have all been built, the order of its tiles
along the inner dimension, and the order of the events of a tile: the operands of a block are loaded
before it is computed. -/
namespace NewPims

open Strided Transition

/-- The tiles are parts of the same block of the output of an operation. -/
structure Tile.SameOutput (t t' : Tile) : Prop where
  operationId : t.operationId = t'.operationId
  batch : t.batch = t'.batch
  rows : t.M = t'.M
  columns : t.N = t'.N

/-- `t'` is the next tile along the inner dimension; `t` accumulates unless it is the first. -/
structure Tile.Precedes (t t' : Tile) : Prop where
  output : t.SameOutput t'
  inner : t'.K = t.K + 1
  start : t.accum = true ∨ t.K = 0

namespace MatMul

/-- A computation reads two addresses, to which the blocks of its operands were loaded before. -/
def LoadsBefore (events : List BlockEvent) : Prop :=
  ∀ pre post e, events = pre ++ e :: post → e.kind = .compute →
    ∃ x y, e.addrs = [x, y] ∧
      (∃ l ∈ pre, l.kind = .load INPUT_OPERAND ∧ l.addrs = [x] ∧ l.place.m = e.place.m ∧
        l.place.k = e.place.k) ∧
      ∃ l ∈ pre, l.kind = .load (INPUT_OPERAND + 1) ∧ l.addrs = [y] ∧ l.place.k = e.place.k ∧
        l.place.n = e.place.n

variable {config : SimulationConfig} {op : MatMul} {dims : Axes}

section Loops

/-- The parts cover the axis; an empty axis stays empty. -/
def CutAxis (dim inner outer : ℕ) : Prop := dim ≤ outer * inner ∧ (dim = 0 → inner = 0)

structure Cut (dims inner outer : Axes) : Prop where
  m : CutAxis dims.m inner.m outer.m
  k : CutAxis dims.k inner.k outer.k
  n : CutAxis dims.n inner.n outer.n

theorem cutAxis_of_halved {dim inner parts : ℕ} (h : Halved dim inner parts) :
    CutAxis dim inner parts := by
  refine ⟨h.cover, fun hzero => ?_⟩
  have htight := h.tight
  by_contra hinner
  have := Nat.le_mul_of_pos_right parts (Nat.pos_of_ne_zero hinner)
  omega

theorem splitLoops_cut {inner parts : Axes}
    (h : splitLoops config dims ⟨1, 1, 1⟩ = .ok (inner, parts)) : Cut dims inner parts := by
  have hhalved := splitLoops_halved (halvedAxes_whole dims) h
  exact ⟨cutAxis_of_halved hhalved.m, cutAxis_of_halved hhalved.k, cutAxis_of_halved hhalved.n⟩

end Loops

section Outputs

variable {id : ℕ} {name : String} {weights inputs : List NPUTensor} {a a' : ActAlloc}

theorem splitDims_eq {ds outer : List ℕ} {m n : ℕ} (h : splitDims ds = .ok (outer, m, n)) :
    ds = outer ++ [m, n] := by
  rw [splitDims] at h
  split at h
  · next hreverse =>
    cases h
    rw [← List.reverse_reverse ds, hreverse]
    simp
  · cases h

theorem two_dims {outer : List ℕ} {m n m' n' : ℕ} (h : [m, n] = outer ++ [m', n']) :
    outer = [] ∧ m' = m ∧ n' = n := by
  have hnil : [] ++ [m, n] = outer ++ [m', n'] := h
  obtain ⟨rfl, hmn⟩ := List.append_inj' hnil rfl
  obtain ⟨rfl, hn⟩ := List.cons.inj hmn
  exact ⟨rfl, rfl, (List.cons.inj hn).1.symm⟩

theorem operands_mem {x y : NPUTensor} {z : Option NPUTensor}
    (h : operands weights inputs = .ok (x, y, z)) : x ∈ weights ++ inputs ∧ y ∈ weights ++ inputs := by
  unfold operands at h
  split at h <;> cases h <;> simp

/-- The sizes of the product are dimensions of its operands, and so is the number of batches. -/
theorem words_of_dims {x y : NPUTensor} {outer0 outer1 : List ℕ}
    (hwords : ∀ t ∈ [x, y], ∀ d ∈ t.dims, d < 2 ^ 32) (h0 : x.dims = outer0 ++ [dims.m, dims.k])
    (h1 : y.dims = outer1 ++ [dims.k, dims.n]) :
    dims.IsWord ∧ ∀ outer, outer = (if outer1.length < outer0.length then outer0 else outer1) →
      outer.length ≤ 1 → outer.prod < 2 ^ 32 := by
  have hx : ∀ d ∈ outer0 ++ [dims.m, dims.k], d < 2 ^ 32 := by
    rw [← h0]
    exact hwords x List.mem_cons_self
  have hy : ∀ d ∈ outer1 ++ [dims.k, dims.n], d < 2 ^ 32 := by
    rw [← h1]
    exact hwords y (by simp)
  refine ⟨⟨hx _ (by simp), hx _ (by simp), hy _ (by simp)⟩, ?_⟩
  intro outer houter hlength
  have hall : ∀ d ∈ outer, d < 2 ^ 32 := by
    rw [houter]
    split
    · exact fun d hd => hx d (List.mem_append_left _ hd)
    · exact fun d hd => hy d (List.mem_append_left _ hd)
  cases outer with
  | nil => decide
  | cons d rest =>
    have hrest : rest = [] := List.eq_nil_of_length_eq_zero (by simpa using hlength)
    rw [hrest, List.prod_singleton]
    exact hall d List.mem_cons_self

theorem activation_dims {ds : List ℕ} {made : NPUTensor × ActAlloc}
    (h : NPUTensor.activation config ds a = .ok made) : made.1.dims = ds := by
  obtain ⟨inners, -, h⟩ := bind_ok.mp h
  cases h
  rfl

theorem calculateLoops_spec {looped : MatMul} (h : op.calculateLoops config dims = .ok looped) :
    0 < config.coreWidth ∧ ∃ loops, fitLoops config dims ⟨1, 1, 1⟩ = .ok loops ∧
      looped = { op with innerLoop := loops.1, outerLoop := loops.2 } := by
  rw [calculateLoops] at h
  split_ifs at h with hcw
  obtain ⟨loops, hloops, h⟩ := bind_ok.mp h
  exact ⟨Nat.pos_of_ne_zero hcw, loops, hloops, (Except.ok.inj h).symm⟩

/-- The built operation: its operands and their shapes, its loops and its tiles. -/
theorem getOutputs_built (h : getOutputs config id name weights inputs a = .ok (op, a')) :
    0 < config.coreWidth ∧ operands weights inputs = .ok (op.activation, op.weight, op.bias) ∧
      ∃ dims outer0 outer1 outer, op.activation.dims = outer0 ++ [dims.m, dims.k] ∧
        op.weight.dims = outer1 ++ [dims.k, dims.n] ∧
        op.output.dims = outer ++ [dims.m, dims.n] ∧
        outer = (if outer1.length < outer0.length then outer0 else outer1) ∧
        op.prodBatches = outer.prod % 2 ^ 32 ∧
        NPUTensor.activation config op.output.dims a = .ok (op.output, a') ∧
        fitLoops config dims ⟨1, 1, 1⟩ = .ok (op.innerLoop, op.outerLoop) ∧
        op.initializeTiles config = .ok op.tiles := by
  obtain ⟨⟨activation, weight, bias⟩, hoperands, h⟩ := bind_ok.mp h
  obtain ⟨dims0, hdims0, h⟩ := bind_ok.mp h
  obtain ⟨dims1, hdims1, h⟩ := bind_ok.mp h
  by_cases hinner : dims0.2.2 = dims1.2.1
  · rw [if_neg (not_not.mpr hinner)] at h
    obtain ⟨made, hmade, h⟩ := bind_ok.mp h
    obtain ⟨looped, hlooped, h⟩ := bind_ok.mp h
    obtain ⟨tiles, htiles, h⟩ := bind_ok.mp h
    cases h
    obtain ⟨hcw, loops, hloops, rfl⟩ := calculateLoops_spec hlooped
    refine ⟨hcw, hoperands, ⟨dims0.2.1, dims0.2.2, dims1.2.2⟩, dims0.1, dims1.1, _,
      splitDims_eq hdims0, ?_, activation_dims hmade, rfl, rfl, ?_, hloops, htiles⟩
    · rw [splitDims_eq hdims1, ← hinner]
    · rw [activation_dims hmade]
      exact hmade
  · rw [if_pos hinner] at h
    cases h

end Outputs

section Indices

theorem mem_offsets (hcw : 0 < config.coreWidth) {off : Axes} :
    off ∈ op.offsets config ↔ (off.m < op.innerLoop.m ∧ config.coreWidth ∣ off.m) ∧
      (off.k < op.innerLoop.k ∧ config.coreWidth ∣ off.k) ∧
      off.n < op.innerLoop.n ∧ config.coreWidth ∣ off.n := by
  simp only [offsets, List.mem_map, Prod.exists, List.mem_product, mem_strided hcw]
  constructor
  · rintro ⟨n, k, m, ⟨hn, hk, hm⟩, rfl⟩
    exact ⟨hm, hk, hn⟩
  · rintro ⟨hm, hk, hn⟩
    exact ⟨off.n, off.k, off.m, ⟨hn, hk, hm⟩, rfl⟩

theorem nodup_offsets (hcw : 0 < config.coreWidth) : (op.offsets config).Nodup := by
  refine List.Nodup.map ?_ ((nodup_strided hcw).product
    ((nodup_strided hcw).product (nodup_strided hcw)))
  rintro ⟨n, k, m⟩ ⟨n', k', m'⟩ h
  simp only [Axes.mk.injEq] at h
  obtain ⟨rfl, rfl, rfl⟩ := h
  rfl

theorem mem_tileIndices {batch : ℕ} {t : Axes} :
    (batch, t) ∈ op.tileIndices ↔ batch < op.prodBatches ∧ t.m < op.outerLoop.m ∧
      t.n < op.outerLoop.n ∧ t.k < op.outerLoop.k := by
  simp only [tileIndices, List.mem_map, Prod.exists, List.mem_product, List.mem_range]
  constructor
  · rintro ⟨b, m, n, k, hlt, heq⟩
    cases heq
    exact hlt
  · intro h
    exact ⟨batch, t.m, t.n, t.k, h, rfl⟩

/-- Without parts of an axis there is no tile. -/
theorem initializeTiles_nil (h : op.outerLoop.m = 0 ∨ op.outerLoop.k = 0 ∨ op.outerLoop.n = 0) :
    op.initializeTiles config = .ok [] := by
  have hnil : op.tileIndices = [] := by
    rw [List.eq_nil_iff_forall_not_mem]
    rintro ⟨batch, t⟩ ht
    obtain ⟨-, hm, hn, hk⟩ := mem_tileIndices.mp ht
    omega
  rw [initializeTiles, hnil]
  rfl

theorem nodup_tileIndices : op.tileIndices.Nodup := by
  refine List.Nodup.map ?_ (List.nodup_range.product (List.nodup_range.product
    (List.nodup_range.product List.nodup_range)))
  rintro ⟨b, m, n, k⟩ ⟨b', m', n', k'⟩ h
  simp only [Prod.mk.injEq, Axes.mk.injEq] at h
  obtain ⟨rfl, rfl, rfl, rfl⟩ := h
  rfl

/-- The order of the three inner loops: columns, inner dimension, rows. -/
def Before (x y : Axes) : Prop := x.n < y.n ∨ x.n = y.n ∧ (x.k < y.k ∨ x.k = y.k ∧ x.m < y.m)

theorem pairwise_offsets (hcw : 0 < config.coreWidth) : (op.offsets config).Pairwise Before := by
  rw [offsets, List.pairwise_map]
  refine (pairwise_product (pairwise_strided hcw)
    (pairwise_product (pairwise_strided hcw) (pairwise_strided hcw))).imp ?_
  rintro ⟨n, k, m⟩ ⟨n', k', m'⟩ h
  rcases Prod.lex_def.mp h with hn | ⟨hn, hrest⟩
  · exact .inl hn
  · refine .inr ⟨hn, ?_⟩
    exact Prod.lex_def.mp hrest

/-- An offset that comes before another in the order of the loops has had its turn. -/
theorem mem_before (hcw : 0 < config.coreWidth) {before after : List Axes} {off off' : Axes}
    (hsplit : op.offsets config = before ++ off :: after) (hmem : off' ∈ op.offsets config)
    (hlt : Before off' off) : off' ∈ before := by
  have hpair : (op.offsets config).Pairwise Before := pairwise_offsets hcw
  rw [hsplit] at hpair hmem
  have hafter := (List.pairwise_cons.mp (List.pairwise_append.mp hpair).2.1).1
  have hirrefl : ∀ x y : Axes, Before x y → ¬ Before y x := by
    intro x y hxy hyx
    unfold Before at hxy hyx
    omega
  rcases List.mem_append.mp hmem with hbefore | hrest
  · exact hbefore
  · rcases List.mem_cons.mp hrest with rfl | hlater
    · exact absurd hlt (hirrefl _ _ hlt)
    · exact absurd hlt (hirrefl _ _ (hafter _ hlater))

end Indices

section Order

/-- The next index along the inner dimension. -/
def NextInner (x y : ℕ × Axes) : Prop :=
  y.1 = x.1 ∧ y.2.m = x.2.m ∧ y.2.n = x.2.n ∧ y.2.k = x.2.k + 1

theorem linked_tileIndices : Linked (fun x => x.2.k = 0) NextInner none op.tileIndices := by
  rw [tileIndices]
  simp only [SProd.sprod, List.product, List.map_flatMap, List.map_map]
  refine linked_flatMap fun b _ => linked_flatMap fun m _ => linked_flatMap fun n _ => ?_
  apply linked_range
  · exact rfl
  · exact fun k => ⟨rfl, rfl, rfl, rfl⟩

theorem initializeInstructions_tile {batch : ℕ} {t : Axes} {shouldStore : Bool} {tile : MatMulTile}
    (h : op.initializeInstructions config batch t shouldStore = .ok tile) :
    tile.tile.operationId = op.id ∧ tile.tile.batch = batch ∧ tile.tile.M = t.m ∧
      tile.tile.K = t.k ∧ tile.tile.N = t.n ∧ tile.tile.accum = decide (t.k ≠ 0) := by
  obtain ⟨elems, -, h⟩ := bind_ok.mp h
  obtain ⟨bias, -, h⟩ := bind_ok.mp h
  obtain ⟨b, -, h⟩ := bind_ok.mp h
  cases h
  exact ⟨rfl, rfl, rfl, rfl, rfl, rfl⟩

/-- Each tile that accumulates comes right after the one before it along the inner dimension. -/
theorem linked_tiles {id : ℕ} {name : String} {weights inputs : List NPUTensor} {a a' : ActAlloc}
    (h : getOutputs config id name weights inputs a = .ok (op, a')) :
    Linked (fun t => t.accum = false) Tile.Precedes none (op.tiles.map (·.tile)) := by
  obtain ⟨-, -, -, -, -, -, -, -, -, -, -, -, -, htiles⟩ := getOutputs_built h
  have hall : List.Forall₂ (fun (x : ℕ × Axes) t => ∃ tile, op.initializeInstructions config x.1 x.2
      (x.2.k + 1 = op.outerLoop.k) = .ok tile ∧ t = tile.tile) op.tileIndices
      (op.tiles.map (·.tile)) :=
    List.forall₂_map_right_iff.mpr ((mapM_forall₂ htiles).imp fun x tile h => ⟨tile, h, rfl⟩)
  refine linked_forall₂ ?_ ?_ hall linked_tileIndices
  · rintro x _ ⟨tile, hmade, rfl⟩ hk
    obtain ⟨-, -, -, -, -, haccum⟩ := initializeInstructions_tile hmade
    rw [haccum, hk]
    rfl
  · rintro x _ x' _ ⟨tile, hmade, rfl⟩ ⟨tile', hmade', rfl⟩ hnext
    obtain ⟨hid, hbatch, hm, hk, hn, haccum⟩ := initializeInstructions_tile hmade
    obtain ⟨hid', hbatch', hm', hk', hn', -⟩ := initializeInstructions_tile hmade'
    obtain ⟨hb, hnm, hnn, hnk⟩ := hnext
    refine ⟨⟨?_, ?_, ?_, ?_⟩, ?_, ?_⟩
    · rw [hid, hid']
    · rw [hbatch, hbatch', hb]
    · rw [hm, hm', hnm]
    · rw [hn, hn', hnn]
    · rw [hk', hk, hnk]
    · rw [haccum, hk]
      by_cases hzero : x.2.k = 0
      · exact Or.inr hzero
      · exact Or.inl (decide_eq_true hzero)

end Order

section TileEvents

variable {t : Axes} {shouldStore : Bool}

theorem filter_biasEvents {kind : BlockEventKind} (hkind : kind ≠ .load (INPUT_OPERAND + 2)) :
    (op.biasEvents config t).filter (·.kind = kind) = [] := by
  rw [biasEvents]
  split_ifs
  · rw [List.filter_map, List.filter_eq_nil_iff.mpr (by simpa using fun _ _ => Ne.symm hkind)]
    rfl
  · rfl

theorem filter_tileEvents {kind : BlockEventKind} (hkind : kind ≠ .load (INPUT_OPERAND + 2)) :
    (op.tileEvents config t shouldStore).filter (·.kind = kind) =
      (op.offsets config).flatMap fun off =>
        (op.blockEvents config t shouldStore off).filter (·.kind = kind) := by
  rw [tileEvents, List.filter_append, filter_biasEvents hkind, List.nil_append, List.filter_flatMap]

theorem filter_compute {off : Axes} :
    (op.blockEvents config t shouldStore off).filter (·.kind = .compute) =
      [op.computation config t off] := by
  rw [blockEvents]
  split_ifs <;> simp [activationLoad, weightLoad, computation]

theorem filter_store {off : Axes} :
    (op.blockEvents config t shouldStore off).filter (·.kind = .store) =
      if shouldStore ∧ op.innerLoop.k ≤ off.k + config.coreWidth then [⟨.store, op.place t off, []⟩]
      else [] := by
  rw [blockEvents]
  split_ifs <;> simp [activationLoad, weightLoad, computation]

theorem filter_bias {off : Axes} :
    (op.blockEvents config t shouldStore off).filter (·.kind = .load (INPUT_OPERAND + 2)) = [] := by
  rw [blockEvents]
  split_ifs <;> simp [activationLoad, weightLoad, computation]

/-- The loads of a block come before its computation, which is the only one. -/
theorem blockEvents_split {off : Axes} {first last : List BlockEvent} {e : BlockEvent}
    (h : op.blockEvents config t shouldStore off = first ++ e :: last) (he : e.kind = .compute) :
    e = op.computation config t off ∧ (off.n = 0 → op.activationLoad config t off ∈ first) ∧
      (off.m = 0 → op.weightLoad config t off ∈ first) := by
  rw [blockEvents] at h
  obtain ⟨rfl, rfl⟩ := append_cons_inj (P := fun l : BlockEvent => l.kind = .compute) h
    (by split_ifs <;> simp [activationLoad, weightLoad]) (by split_ifs <;> simp) he
  refine ⟨rfl, fun hn => ?_, fun hm => ?_⟩
  · rw [if_pos hn]
    simp
  · rw [if_pos hm]
    simp

/-- In every tile the operands of a block are loaded before it is computed. -/
theorem loadsBefore_tileEvents (hcw : 0 < config.coreWidth) :
    LoadsBefore (op.tileEvents config t shouldStore) := by
  intro pre post e h he
  have hnotBias : ∀ l ∈ op.biasEvents config t, l.kind ≠ .compute := by
    intro l hl heq
    have hmem : l ∈ (op.biasEvents config t).filter (·.kind = .compute) :=
      List.mem_filter.mpr ⟨hl, decide_eq_true heq⟩
    rw [filter_biasEvents (by simp)] at hmem
    exact List.not_mem_nil hmem
  -- the computation is not among the loads of the bias
  obtain ⟨pre', hpre, h⟩ : ∃ pre', pre = op.biasEvents config t ++ pre' ∧
      (op.offsets config).flatMap (op.blockEvents config t shouldStore) = pre' ++ e :: post := by
    rw [tileEvents, List.append_eq_append_iff] at h
    rcases h with ⟨rest, hpre, hrest⟩ | ⟨rest, hbias, hrest⟩
    · exact ⟨rest, hpre, hrest⟩
    · cases rest with
      | nil => exact ⟨[], by simpa using hbias.symm, hrest.symm⟩
      | cons e' rest =>
        obtain ⟨rfl, -⟩ := List.cons.inj hrest
        exact absurd he (hnotBias e (by rw [hbias]; simp))
  obtain ⟨before, off, after, first, last, hsplit, hblock, hpre'⟩ := flatMap_eq_append_cons h
  obtain ⟨rfl, hactivation, hweight⟩ := blockEvents_split hblock he
  have hoff : off ∈ op.offsets config := by
    rw [hsplit]
    simp
  obtain ⟨⟨hm, hmdvd⟩, ⟨hk, hkdvd⟩, hn, hndvd⟩ := (mem_offsets hcw).mp hoff
  -- an operand was loaded with this block or with an earlier one
  have hload : ∀ off' l, off' ∈ op.offsets config →
      (off' ≠ off → Before off' off) → (off' = off → l ∈ first) →
      l ∈ op.blockEvents config t shouldStore off' → l ∈ pre := by
    intro off' l hoff' hbefore hfirst hl
    rw [hpre, hpre']
    apply List.mem_append_right
    by_cases hoffs : off' = off
    · exact List.mem_append_right _ (hfirst hoffs)
    · exact List.mem_append_left _
        (List.mem_flatMap.mpr ⟨off', mem_before hcw hsplit hoff' (hbefore hoffs), hl⟩)
  refine ⟨_, _, rfl, ⟨op.activationLoad config t ⟨off.m, off.k, 0⟩, ?_, rfl, rfl, rfl, rfl⟩,
    op.weightLoad config t ⟨0, off.k, off.n⟩, ?_, rfl, rfl, rfl, rfl⟩
  · refine hload ⟨off.m, off.k, 0⟩ _ ?_ ?_ ?_ ?_
    · exact (mem_offsets hcw).mpr
        ⟨⟨hm, hmdvd⟩, ⟨hk, hkdvd⟩, Nat.lt_of_le_of_lt (Nat.zero_le _) hn, Nat.dvd_zero _⟩
    · intro hne
      refine .inl (Nat.pos_of_ne_zero fun hzero => hne ?_)
      rw [← hzero]
    · intro heq
      rw [heq]
      exact hactivation (by rw [← heq])
    · rw [blockEvents, if_pos rfl]
      simp
  · refine hload ⟨0, off.k, off.n⟩ _ ?_ ?_ ?_ ?_
    · exact (mem_offsets hcw).mpr
        ⟨⟨Nat.lt_of_le_of_lt (Nat.zero_le _) hm, Nat.dvd_zero _⟩, ⟨hk, hkdvd⟩, hn, hndvd⟩
    · intro hne
      refine .inr ⟨rfl, .inr ⟨rfl, Nat.pos_of_ne_zero fun hzero => hne ?_⟩⟩
      rw [← hzero]
    · intro heq
      rw [heq]
      exact hweight (by rw [← heq])
    · rw [blockEvents, if_pos (c := (⟨0, off.k, off.n⟩ : Axes).m = 0) rfl]
      simp

end TileEvents

end MatMul

end NewPims

import NewPims.Operations.MatMul.Coverage

/-! A matrix multiplication whose tiles have all been built computes every block of the product
once, after loading its operands, and stores it once, provided that the inner dimension is not
empty. -/
namespace NewPims

open Strided Transition

namespace MatMul

/-- The batches and places of all events of a kind, in the order of the tiles. -/
def placesOf (op : MatMul) (kind : BlockEventKind) : List (ℕ × Axes) :=
  op.tiles.flatMap fun tile =>
    (tile.events.filter (·.kind = kind)).map fun e => (tile.tile.batch, e.place)

/-- The tiles compute the product of matrices of the given sizes block by block. -/
structure Tiled (config : SimulationConfig) (op : MatMul) (dims : Axes) : Prop where
  /-- The tiles along the inner dimension follow one another. -/
  order : op.tiles.map (fun tile => (tile.tile.batch, tile.tile.M, tile.tile.N, tile.tile.K)) =
    List.range op.prodBatches ×ˢ List.range op.outerLoop.m ×ˢ List.range op.outerLoop.n ×ˢ
      List.range op.outerLoop.k
  /-- No block is computed twice. -/
  computes_nodup : (op.placesOf .compute).Nodup
  computes : ∀ batch p, (batch, p) ∈ op.placesOf .compute ↔
    batch < op.prodBatches ∧ (p.m < dims.m ∧ config.coreWidth ∣ p.m) ∧
      (p.k < dims.k ∧ config.coreWidth ∣ p.k) ∧ p.n < dims.n ∧ config.coreWidth ∣ p.n
  loads : ∀ tile ∈ op.tiles, LoadsBefore tile.events
  /-- No block of the output is stored twice. -/
  stores_nodup : ((op.placesOf .store).map fun x => (x.1, x.2.m, x.2.n)).Nodup
  stores : ∀ batch m n, (batch, m, n) ∈ (op.placesOf .store).map (fun x => (x.1, x.2.m, x.2.n)) ↔
    batch < op.prodBatches ∧ (m < dims.m ∧ config.coreWidth ∣ m) ∧ n < dims.n ∧ config.coreWidth ∣ n
  stores_last : ∀ tile ∈ op.tiles, (∃ e ∈ tile.events, e.kind = .store) →
    tile.tile.K + 1 = op.outerLoop.k
  accum : ∀ tile ∈ op.tiles, tile.tile.accum = decide (tile.tile.K ≠ 0)
  /-- The bias of all columns is loaded in the first of these tiles, and in no other. -/
  bias : ∀ tile ∈ op.tiles,
    (tile.events.filter (·.kind = .load (INPUT_OPERAND + 2))).map (·.place.n) =
      if op.bias.isSome ∧ tile.tile.K = 0 then
        (strided op.innerLoop.n config.coreWidth).map (op.innerLoop.n * tile.tile.N + ·)
      else []

variable {config : SimulationConfig} {op : MatMul} {dims : Axes}

section Exact

/-- The address loops of all tiles have checked their blocks. -/
def AllChecked (config : SimulationConfig) (op : MatMul) (dims : Axes) : Prop :=
  ∀ t ∈ op.tileIndices, ∀ off ∈ op.offsets config,
    Checked config op dims t.2 (t.2.k + 1 = op.outerLoop.k) off

/-- The parts of every axis consist of whole blocks and end with the axis. -/
structure Exact (config : SimulationConfig) (op : MatMul) (dims : Axes) : Prop where
  m : config.coreWidth ∣ op.innerLoop.m ∧ op.outerLoop.m * op.innerLoop.m = dims.m
  k : config.coreWidth ∣ op.innerLoop.k ∧ op.outerLoop.k * op.innerLoop.k = dims.k
  n : config.coreWidth ∣ op.innerLoop.n ∧ op.outerLoop.n * op.innerLoop.n = dims.n

theorem cutAxis_pos {dim inner outer : ℕ} (h : CutAxis dim inner outer) (hdim : 0 < dim) :
    0 < inner ∧ 0 < outer := by
  have hpos : 0 < outer * inner := Nat.lt_of_lt_of_le hdim h.1
  exact ⟨Nat.pos_of_mul_pos_left hpos, Nat.pos_of_mul_pos_right hpos⟩

/-- Each of the three address loops checks one of the axes. -/
theorem exact_of_allChecked (hcw : 0 < config.coreWidth)
    (hcut : Cut dims op.innerLoop op.outerLoop) (hbatch : 0 < op.prodBatches) (hm : 0 < dims.m)
    (hk : 0 < dims.k) (hn : 0 < dims.n) (h : AllChecked config op dims) :
    Exact config op dims := by
  obtain ⟨him, hom⟩ := cutAxis_pos hcut.m hm
  obtain ⟨hik, hok⟩ := cutAxis_pos hcut.k hk
  obtain ⟨hin, hon⟩ := cutAxis_pos hcut.n hn
  have hzero : ∀ {inner : ℕ}, 0 < inner → 0 < inner ∧ config.coreWidth ∣ 0 :=
    fun hpos => ⟨hpos, Nat.dvd_zero _⟩
  refine ⟨?_, ?_, ?_⟩
  · apply axis_exact hcw hcut.m.1 hm
    intro o ho x hx
    have hrange := (h (0, ⟨o, 0, 0⟩) (mem_tileIndices.mpr ⟨hbatch, ho, hon, hok⟩) ⟨x, 0, 0⟩
      ((mem_offsets hcw).mpr ⟨(mem_strided hcw).mp hx, hzero hik, hzero hin⟩)).1 rfl
    have hlast := hrange (config.coreWidth - 1) (by omega)
    simp only [place] at hlast
    omega
  · apply axis_exact hcw hcut.k.1 hk
    intro o ho x hx
    have hrange := (h (0, ⟨0, o, 0⟩) (mem_tileIndices.mpr ⟨hbatch, hom, hon, ho⟩) ⟨0, x, 0⟩
      ((mem_offsets hcw).mpr ⟨hzero him, (mem_strided hcw).mp hx, hzero hin⟩)).2.1 rfl
    have hlast := hrange (config.coreWidth - 1) (by omega)
    simp only [place] at hlast
    omega
  · obtain ⟨last, hlast, hend⟩ := exists_last_strided hcw hik
    apply axis_exact hcw hcut.n.1 hn
    intro o ho x hx
    have hrange := (h (0, ⟨0, op.outerLoop.k - 1, o⟩)
      (mem_tileIndices.mpr ⟨hbatch, hom, ho, by dsimp only; omega⟩) ⟨0, last, x⟩
      ((mem_offsets hcw).mpr ⟨hzero him, (mem_strided hcw).mp hlast,
        (mem_strided hcw).mp hx⟩)).2.2 ⟨by simp; omega, hend⟩
    have hlast := hrange (config.coreWidth - 1) (by omega)
    simp only [place] at hlast
    omega

/-- Without an element of the product there is no block. -/
theorem blocks_empty (hcut : Cut dims op.innerLoop op.outerLoop)
    (hcw : 0 < config.coreWidth) (hempty : ¬(0 < op.prodBatches ∧ 0 < dims.m ∧ 0 < dims.n)) :
    op.tileIndices ×ˢ op.offsets config = [] := by
  rw [List.eq_nil_iff_forall_not_mem]
  rintro ⟨⟨batch, t⟩, off⟩ hmem
  obtain ⟨ht, hoff⟩ := List.mem_product.mp hmem
  have hbatch := (mem_tileIndices.mp ht).1
  obtain ⟨⟨hm, -⟩, -, hn, -⟩ := (mem_offsets hcw).mp hoff
  refine hempty ⟨by omega, Nat.pos_of_ne_zero fun hzero => ?_, Nat.pos_of_ne_zero fun hzero => ?_⟩
  · have := hcut.m.2 hzero
    omega
  · have := hcut.n.2 hzero
    omega

end Exact

section Blocks

/-- The batches and places of the blocks that satisfy a condition. -/
def blocksOf (config : SimulationConfig) (op : MatMul) (p : Axes → Axes → Bool) :
    List (ℕ × Axes) :=
  ((op.tileIndices ×ˢ op.offsets config).filter fun z => p z.1.2 z.2).map fun z =>
    (z.1.1, op.place z.1.2 z.2)

variable {p : Axes → Axes → Bool}

theorem mem_blocksOf {batch : ℕ} {x : Axes} :
    (batch, x) ∈ blocksOf config op p ↔ batch < op.prodBatches ∧
      ∃ t off, (t.m < op.outerLoop.m ∧ t.n < op.outerLoop.n ∧ t.k < op.outerLoop.k) ∧
        off ∈ op.offsets config ∧ p t off ∧ op.place t off = x := by
  simp only [blocksOf, List.mem_map, List.mem_filter, Prod.exists, List.mem_product,
    mem_tileIndices]
  constructor
  · rintro ⟨batch, t, off, ⟨⟨⟨hbatch, ht⟩, hoff⟩, hp⟩, heq⟩
    cases heq
    exact ⟨hbatch, t, off, ht, hoff, hp, rfl⟩
  · rintro ⟨hbatch, t, off, ht, hoff, hp, rfl⟩
    exact ⟨batch, t, off, ⟨⟨⟨hbatch, ht⟩, hoff⟩, hp⟩, rfl⟩

theorem placesOf_eq {kind : BlockEventKind} (hkind : kind ≠ .load (INPUT_OPERAND + 2))
    (htiles : List.Forall₂ (fun (t : ℕ × Axes) tile =>
      tile.events = op.tileEvents config t.2 (t.2.k + 1 = op.outerLoop.k) ∧
        tile.tile.batch = t.1) op.tileIndices op.tiles)
    (hp : ∀ t off, ((op.blockEvents config t (t.k + 1 = op.outerLoop.k) off).filter
      (·.kind = kind)).map (·.place) = if p t off then [op.place t off] else []) :
    op.placesOf kind = blocksOf config op p := by
  have htile : ∀ t : ℕ × Axes, ((op.tileEvents config t.2 (t.2.k + 1 = op.outerLoop.k)).filter
      (·.kind = kind)).map (fun e => (t.1, e.place)) =
        (op.offsets config).flatMap fun off =>
          if p t.2 off then [(t.1, op.place t.2 off)] else [] := by
    intro t
    rw [filter_tileEvents hkind, List.map_flatMap]
    refine List.flatMap_congr fun off _ => ?_
    have hmap := congrArg (List.map (Prod.mk t.1)) (hp t.2 off)
    rw [List.map_map] at hmap
    refine hmap.trans ?_
    split <;> rfl
  refine Eq.trans ?_ (flatMap_flatMap_ite op.tileIndices (op.offsets config)
    (fun t off => p t.2 off) fun t off => (t.1, op.place t.2 off))
  refine (flatMap_eq_of_forall₂ htiles fun t tile h => ?_).symm
  rw [h.1, h.2, htile]

/-- The three axes of the places of all blocks, one by one. -/
theorem mem_blocksOf_true (hcw : 0 < config.coreWidth) (hexact : Exact config op dims)
    {batch : ℕ} {x : Axes} :
    (batch, x) ∈ blocksOf config op (fun _ _ => true) ↔
      batch < op.prodBatches ∧ (x.m < dims.m ∧ config.coreWidth ∣ x.m) ∧
        (x.k < dims.k ∧ config.coreWidth ∣ x.k) ∧ x.n < dims.n ∧ config.coreWidth ∣ x.n := by
  rw [mem_blocksOf, ← hexact.m.2, ← hexact.k.2, ← hexact.n.2, ← axis_mem hcw hexact.m.1,
    ← axis_mem hcw hexact.k.1, ← axis_mem hcw hexact.n.1]
  refine and_congr_right fun _ => ⟨?_, ?_⟩
  · rintro ⟨t, off, ⟨hm, hn, hk⟩, hoff, -, rfl⟩
    obtain ⟨offm, offk, offn⟩ := (mem_offsets hcw).mp hoff
    exact ⟨⟨t.m, hm, off.m, (mem_strided hcw).mpr offm, rfl⟩,
      ⟨t.k, hk, off.k, (mem_strided hcw).mpr offk, rfl⟩,
      ⟨t.n, hn, off.n, (mem_strided hcw).mpr offn, rfl⟩⟩
  · rintro ⟨⟨om, hom, xm, hxm, hm⟩, ⟨ok, hok, xk, hxk, hk⟩, ⟨on, hon, xn, hxn, hn⟩⟩
    refine ⟨⟨om, ok, on⟩, ⟨xm, xk, xn⟩, ⟨hom, hon, hok⟩, ?_, rfl, ?_⟩
    · exact (mem_offsets hcw).mpr
        ⟨(mem_strided hcw).mp hxm, (mem_strided hcw).mp hxk, (mem_strided hcw).mp hxn⟩
    · rw [place, hm, hk, hn]

/-- The last tile along the inner dimension, and its last block. -/
def lastInner (config : SimulationConfig) (op : MatMul) (t off : Axes) : Bool :=
  decide (t.k + 1 = op.outerLoop.k) && decide (op.innerLoop.k ≤ off.k + config.coreWidth)

theorem place_inj (hcw : 0 < config.coreWidth) {t t' off off' : Axes}
    (hoff : off ∈ op.offsets config) (hoff' : off' ∈ op.offsets config)
    (h : op.place t off = op.place t' off') : t = t' ∧ off = off' := by
  obtain ⟨⟨hm, -⟩, ⟨hk, -⟩, hn, -⟩ := (mem_offsets hcw).mp hoff
  obtain ⟨⟨hm', -⟩, ⟨hk', -⟩, hn', -⟩ := (mem_offsets hcw).mp hoff'
  simp only [place, Axes.mk.injEq] at h
  obtain ⟨eqm, eqk, eqn⟩ := h
  obtain ⟨tm, offm⟩ := axis_inj hm hm' eqm
  obtain ⟨tk, offk⟩ := axis_inj hk hk' eqk
  obtain ⟨tn, offn⟩ := axis_inj hn hn' eqn
  cases t; cases t'; cases off; cases off'
  simp only [Axes.mk.injEq]
  exact ⟨⟨tm, tk, tn⟩, offm, offk, offn⟩

theorem nodup_blocksOf (hcw : 0 < config.coreWidth) : (blocksOf config op p).Nodup := by
  refine List.Nodup.map_on ?_ ((nodup_tileIndices.product (nodup_offsets hcw)).filter _)
  rintro ⟨⟨batch, t⟩, off⟩ hz ⟨⟨batch', t'⟩, off'⟩ hz' heq
  have hoff := (List.mem_product.mp (List.mem_filter.mp hz).1).2
  have hoff' := (List.mem_product.mp (List.mem_filter.mp hz').1).2
  obtain ⟨hbatch, hplace⟩ := Prod.mk.inj heq
  dsimp only at hbatch
  obtain ⟨rfl, rfl⟩ := place_inj hcw hoff hoff' hplace
  rw [hbatch]

/-- The last blocks along the inner dimension are those that end with it. -/
theorem blocksOf_last (hcw : 0 < config.coreWidth) (hexact : Exact config op dims) :
    blocksOf config op (lastInner config op) =
      (blocksOf config op fun _ _ => true).filter fun x => x.2.k + config.coreWidth = dims.k := by
  rw [blocksOf, blocksOf, List.filter_map, List.filter_true]
  refine congrArg _ (List.filter_congr ?_)
  rintro ⟨⟨batch, t⟩, off⟩ hmem
  obtain ⟨ht, hoff⟩ := List.mem_product.mp hmem
  have hlast := axis_end hcw hexact.k.1 (mem_tileIndices.mp ht).2.2.2
    ((mem_strided hcw).mpr ((mem_offsets hcw).mp hoff).2.1)
  rw [hexact.k.2] at hlast
  rw [lastInner, ← Bool.decide_and]
  exact decide_eq_decide.mpr hlast

theorem mem_blocksOf_last (hcw : 0 < config.coreWidth) (hexact : Exact config op dims)
    (hk : 0 < dims.k) {batch m n : ℕ} :
    (batch, m, n) ∈ (blocksOf config op (lastInner config op)).map (fun x => (x.1, x.2.m, x.2.n)) ↔
      batch < op.prodBatches ∧ (m < dims.m ∧ config.coreWidth ∣ m) ∧
        n < dims.n ∧ config.coreWidth ∣ n := by
  have hdvd : config.coreWidth ∣ dims.k := by
    rw [← hexact.k.2]
    exact Nat.dvd_mul_left_of_dvd hexact.k.1 _
  have hle := Nat.le_of_dvd hk hdvd
  rw [blocksOf_last hcw hexact]
  simp only [List.mem_map, List.mem_filter, decide_eq_true_eq, Prod.exists, Prod.mk.injEq]
  constructor
  · rintro ⟨batch, x, ⟨hx, -⟩, rfl, rfl, rfl⟩
    obtain ⟨hbatch, hxm, -, hxn⟩ := (mem_blocksOf_true hcw hexact).mp hx
    exact ⟨hbatch, hxm, hxn⟩
  · rintro ⟨hbatch, hm, hn⟩
    refine ⟨batch, ⟨m, dims.k - config.coreWidth, n⟩, ⟨?_, Nat.sub_add_cancel hle⟩, rfl, rfl, rfl⟩
    exact (mem_blocksOf_true hcw hexact).mpr
      ⟨hbatch, hm, ⟨by dsimp only; omega, Nat.dvd_sub hdvd (Nat.dvd_refl _)⟩, hn⟩

theorem nodup_blocksOf_last (hcw : 0 < config.coreWidth) (hexact : Exact config op dims) :
    ((blocksOf config op (lastInner config op)).map fun x => (x.1, x.2.m, x.2.n)).Nodup := by
  rw [blocksOf_last hcw hexact]
  refine List.Nodup.map_on ?_ ((nodup_blocksOf hcw).filter _)
  rintro ⟨batch, x⟩ hx ⟨batch', x'⟩ hx' heq
  have hk := of_decide_eq_true (List.mem_filter.mp hx).2
  have hk' := of_decide_eq_true (List.mem_filter.mp hx').2
  simp only [Prod.mk.injEq] at heq
  obtain ⟨rfl, hm, hn⟩ := heq
  cases x; cases x'
  simp only [Prod.mk.injEq, Axes.mk.injEq] at hk hk' hm hn ⊢
  exact ⟨trivial, hm, by omega, hn⟩

end Blocks

section Tiles

theorem placesOf_compute (htiles : List.Forall₂ (fun (t : ℕ × Axes) tile =>
      tile.events = op.tileEvents config t.2 (t.2.k + 1 = op.outerLoop.k) ∧
        tile.tile.batch = t.1) op.tileIndices op.tiles) :
    op.placesOf .compute = blocksOf config op fun _ _ => true := by
  refine placesOf_eq (by simp) htiles fun t off => ?_
  rw [filter_compute]
  rfl

theorem placesOf_store (htiles : List.Forall₂ (fun (t : ℕ × Axes) tile =>
      tile.events = op.tileEvents config t.2 (t.2.k + 1 = op.outerLoop.k) ∧
        tile.tile.batch = t.1) op.tileIndices op.tiles) :
    op.placesOf .store = blocksOf config op (lastInner config op) := by
  refine placesOf_eq (by simp) htiles fun t off => ?_
  rw [filter_store]
  simp only [lastInner, Bool.and_eq_true, decide_eq_true_eq]
  split <;> rfl

/-- The bias of the columns of a tile. -/
theorem bias_tileEvents {t : Axes} {shouldStore : Bool} :
    ((op.tileEvents config t shouldStore).filter (·.kind = .load (INPUT_OPERAND + 2))).map
      (·.place.n) = if op.bias.isSome ∧ t.k = 0 then
        (strided op.innerLoop.n config.coreWidth).map (op.innerLoop.n * t.n + ·) else [] := by
  have hnone : (op.offsets config).flatMap (fun off =>
      (op.blockEvents config t shouldStore off).filter (·.kind = .load (INPUT_OPERAND + 2))) = [] :=
    List.flatMap_eq_nil_iff.mpr fun off _ => filter_bias
  rw [tileEvents, List.filter_append, List.filter_flatMap, hnone, List.append_nil, biasEvents]
  split_ifs
  · rw [List.filter_map, List.filter_eq_self.mpr (by simp), List.map_map]
    rfl
  · rfl

/-- A store is in the last tile along the inner dimension. -/
theorem last_of_store {t : Axes} {shouldStore : Bool} {e : BlockEvent}
    (he : e ∈ op.tileEvents config t shouldStore) (hkind : e.kind = .store) :
    shouldStore = true := by
  have hmem : e ∈ (op.tileEvents config t shouldStore).filter (·.kind = .store) :=
    List.mem_filter.mpr ⟨he, decide_eq_true hkind⟩
  rw [filter_tileEvents (by simp)] at hmem
  obtain ⟨off, -, hoff⟩ := List.mem_flatMap.mp hmem
  rw [filter_store] at hoff
  split at hoff
  · next hlast => exact hlast.1
  · exact absurd hoff List.not_mem_nil

/-- What the places of the computations and stores are, also where there are none. -/
theorem placesOf_spec (hcw : 0 < config.coreWidth) (hcut : Cut dims op.innerLoop op.outerLoop)
    (hk : 0 < dims.k) (hchecked : AllChecked config op dims)
    (hcompute : op.placesOf .compute = blocksOf config op fun _ _ => true)
    (hstore : op.placesOf .store = blocksOf config op (lastInner config op)) :
    (∀ batch p, (batch, p) ∈ op.placesOf .compute ↔
      batch < op.prodBatches ∧ (p.m < dims.m ∧ config.coreWidth ∣ p.m) ∧
        (p.k < dims.k ∧ config.coreWidth ∣ p.k) ∧ p.n < dims.n ∧ config.coreWidth ∣ p.n) ∧
      ((op.placesOf .store).map fun x => (x.1, x.2.m, x.2.n)).Nodup ∧
      ∀ batch m n, (batch, m, n) ∈ (op.placesOf .store).map (fun x => (x.1, x.2.m, x.2.n)) ↔
        batch < op.prodBatches ∧ (m < dims.m ∧ config.coreWidth ∣ m) ∧
          n < dims.n ∧ config.coreWidth ∣ n := by
  rw [hcompute, hstore]
  by_cases hblocks : 0 < op.prodBatches ∧ 0 < dims.m ∧ 0 < dims.n
  · obtain ⟨hbatch, hm, hn⟩ := hblocks
    have hexact := exact_of_allChecked hcw hcut hbatch hm hk hn hchecked
    exact ⟨fun _ _ => mem_blocksOf_true hcw hexact, nodup_blocksOf_last hcw hexact,
      fun _ _ _ => mem_blocksOf_last hcw hexact hk⟩
  · have hempty : ∀ p, blocksOf config op p = [] := by
      intro p
      rw [blocksOf, blocks_empty hcut hcw hblocks]
      rfl
    rw [hempty, hempty]
    refine ⟨fun batch p => ⟨fun h => absurd h List.not_mem_nil, ?_⟩, List.nodup_nil,
      fun batch m n => ⟨fun h => absurd h List.not_mem_nil, ?_⟩⟩
    · rintro ⟨hbatch, ⟨hm, -⟩, -, hn, -⟩
      exact absurd ⟨by omega, by omega, by omega⟩ hblocks
    · rintro ⟨hbatch, ⟨hm, -⟩, hn, -⟩
      exact absurd ⟨by omega, by omega, by omega⟩ hblocks

theorem allChecked_of_initializeTiles {tiles : List MatMulTile} (hcw : 0 < config.coreWidth)
    (hshaped : op.Shaped dims) (h : op.initializeTiles config = .ok tiles) :
    AllChecked config op dims := by
  intro t ht
  obtain ⟨tile, -, htile⟩ := forall₂_left (mapM_forall₂ h) t ht
  exact (initializeInstructions_events hcw hshaped htile).2.1

theorem tiled_of_initializeTiles (hcw : 0 < config.coreWidth) (hshaped : op.Shaped dims)
    (hcut : Cut dims op.innerLoop op.outerLoop) (hk : 0 < dims.k)
    (h : op.initializeTiles config = .ok op.tiles) : Tiled config op dims := by
  have hmade := (mapM_forall₂ h).imp fun t tile htile =>
    initializeInstructions_events hcw hshaped htile
  have htiles := hmade.imp fun t tile htile => And.intro htile.1 htile.2.2.1
  have hchecked := allChecked_of_initializeTiles hcw hshaped h
  have hcompute := placesOf_compute htiles
  have hstore := placesOf_store htiles
  obtain ⟨computes, stores_nodup, stores⟩ :=
    placesOf_spec hcw hcut hk hchecked hcompute hstore
  have hright := forall₂_right hmade
  have horder : op.tiles.map (fun tile => (tile.tile.batch, tile.tile.M, tile.tile.N,
      tile.tile.K)) = op.tileIndices.map fun t => (t.1, t.2.m, t.2.n, t.2.k) := by
    rw [List.map_eq_flatMap, List.map_eq_flatMap]
    refine (flatMap_eq_of_forall₂ hmade fun t tile htile => ?_).symm
    obtain ⟨-, -, hbatch, hM, hK, hN, -⟩ := htile
    rw [hbatch, hM, hK, hN]
  refine
    { order := ?_, computes_nodup := ?_, computes, loads := ?_, stores_nodup, stores
      stores_last := ?_, accum := ?_, bias := ?_ }
  · rw [horder, tileIndices, List.map_map]
    exact List.map_id' _
  · rw [hcompute]
    exact nodup_blocksOf hcw
  · intro tile hmem
    obtain ⟨t, -, hevents, -⟩ := hright tile hmem
    rw [hevents]
    exact loadsBefore_tileEvents hcw
  · rintro tile hmem ⟨e, he, hkind⟩
    obtain ⟨t, -, hevents, -, -, -, hK, -⟩ := hright tile hmem
    rw [hevents] at he
    rw [hK]
    exact of_decide_eq_true (last_of_store he hkind)
  · intro tile hmem
    obtain ⟨t, -, -, -, -, -, hK, -, haccum⟩ := hright tile hmem
    rw [haccum, hK]
  · intro tile hmem
    obtain ⟨t, -, hevents, -, -, -, hK, hN, -⟩ := hright tile hmem
    rw [hevents, bias_tileEvents, hK, hN]

end Tiles

end MatMul

section Product

open MatMul

/-- The operation whose loops and tiles are those of a product with a weight and a bias. -/
def MatMul.looped (id : ℕ) (name : String) (weight bias activation output : NPUTensor)
    (loops : Axes × Axes) : MatMul :=
  { id, name, activation, weight, bias := some bias, output, prodBatches := 1
    innerLoop := loops.1, outerLoop := loops.2 }

theorem MatMul.getOutputs_of_loops {config : SimulationConfig} {dims : Axes} (id : ℕ) (name : String)
    {weight activation : NPUTensor} (bias : NPUTensor) {a : ActAlloc} {made : NPUTensor × ActAlloc}
    {loops : Axes × Axes} {tiles : List MatMulTile} (hcw : 0 < config.coreWidth)
    (hactivation : activation.dims = [dims.m, dims.k]) (hweight : weight.dims = [dims.k, dims.n])
    (hmade : NPUTensor.activation config [dims.m, dims.n] a = .ok made)
    (hloops : fitLoops config dims ⟨1, 1, 1⟩ = .ok loops)
    (htiles : (looped id name weight bias activation made.1 loops).initializeTiles config =
      .ok tiles) :
    getOutputs config id name [weight, bias] [activation] a =
      .ok ({ looped id name weight bias activation made.1 loops with tiles }, made.2) := by
  refine bind_ok.mpr ⟨(activation, weight, some bias), rfl, ?_⟩
  refine bind_ok.mpr ⟨([], dims.m, dims.k), by rw [hactivation]; rfl, ?_⟩
  refine bind_ok.mpr ⟨([], dims.k, dims.n), by rw [hweight]; rfl, ?_⟩
  rw [if_neg (not_not.mpr rfl)]
  refine bind_ok.mpr ⟨made, hmade, bind_ok.mpr ⟨looped id name weight bias activation made.1 loops,
    ?_, bind_ok.mpr ⟨tiles, htiles, rfl⟩⟩⟩
  rw [calculateLoops, if_neg (Nat.ne_of_gt hcw)]
  exact bind_ok.mpr ⟨loops, hloops, rfl⟩

/-- A product with an axis that vanishes is built without a tile. -/
theorem MatMul.getOutputs_of_vanishes {config : SimulationConfig} (dims : Axes) (id : ℕ)
    (name : String) {weight activation : NPUTensor} (bias : NPUTensor) {a : ActAlloc}
    {made : NPUTensor × ActAlloc} (hcw : 0 < config.coreWidth)
    (hactivation : activation.dims = [dims.m, dims.k]) (hweight : weight.dims = [dims.k, dims.n])
    (hmade : NPUTensor.activation config [dims.m, dims.n] a = .ok made) (hdims : dims.IsWord)
    (hvanishes : Vanishes config dims dims) :
    ∃ loops, getOutputs config id name [weight, bias] [activation] a =
      .ok ({ looped id name weight bias activation made.1 loops with tiles := [] }, made.2) := by
  obtain ⟨⟨inner, parts⟩, hsplit⟩ := splitLoops_of_vanishes ⟨1, 1, 1⟩ hvanishes
  refine ⟨(inner, parts.word), getOutputs_of_loops id name bias hcw hactivation hweight hmade
    (fitLoops_of_split hsplit) (initializeTiles_nil ?_)⟩
  exact word_zero_of_vanishes hdims hsplit hvanishes

/-- What an operation that has been built computes and stores, where the inner dimension is not
empty and no axis vanishes. -/
theorem matMul_tiled (config : SimulationConfig) (id : ℕ) (name : String)
    (weights inputs : List NPUTensor) (a a' : ActAlloc) (op : MatMul)
    (h : getOutputs config id name weights inputs a = .ok (op, a'))
    (hwords : ∀ t ∈ weights ++ inputs, ∀ d ∈ t.dims, d < 2 ^ 32) :
    operands weights inputs = .ok (op.activation, op.weight, op.bias) ∧
      ∃ dims outer, op.Shaped dims ∧ op.output.dims = outer ++ [dims.m, dims.n] ∧
        op.prodBatches = outer.prod % 2 ^ 32 ∧ (outer.length ≤ 1 → op.prodBatches = outer.prod) ∧
        (0 < dims.k → ¬ Vanishes config dims dims → Tiled config op dims) := by
  obtain ⟨hcw, hoperands, dims, outer0, outer1, outer, h0, h1, houtput, houter, hbatches, -, hloops,
    htiles⟩ := getOutputs_built h
  have hshaped : op.Shaped dims := ⟨⟨_, h0⟩, ⟨_, h1⟩, ⟨_, houtput⟩⟩
  obtain ⟨hx, hy⟩ := operands_mem hoperands
  obtain ⟨hdims, hbatch⟩ := words_of_dims (by simpa using ⟨hwords _ hx, hwords _ hy⟩) h0 h1
  refine ⟨hoperands, dims, outer, hshaped, houtput, hbatches, fun hlength => ?_,
    fun hk hvanishes => ?_⟩
  · rw [hbatches, Nat.mod_eq_of_lt (hbatch outer houter hlength)]
  · exact tiled_of_initializeTiles hcw hshaped
      (splitLoops_cut (splitLoops_of_fitLoops hdims hvanishes hloops)) hk htiles

theorem matMul_tiled_block :
    ∃ op a', blockProduct 4 4 = .ok (op, a') ∧ Tiled blockConfig op ⟨4, 4, 2⟩ := by
  have hrun : (blockProduct 4 4).map (fun r => (r.1.activation.dims, r.1.weight.dims)) =
      .ok ([4, 4], [4, 2]) := by decide +kernel
  obtain ⟨⟨op, a'⟩, h, hdims⟩ := map_ok hrun
  obtain ⟨hactivation, hweight⟩ := Prod.mk.inj hdims
  dsimp only at hactivation hweight
  obtain ⟨-, ⟨m, k, n⟩, -, ⟨⟨_, hact⟩, ⟨_, hwgt⟩, -⟩, -, -, -, htiled⟩ :=
    matMul_tiled _ _ _ _ _ _ _ op h (by decide)
  rw [hactivation] at hact
  rw [hweight] at hwgt
  obtain ⟨-, rfl, rfl⟩ := two_dims hact
  obtain ⟨-, -, rfl⟩ := two_dims hwgt
  exact ⟨op, a', h, htiled (by decide) (not_vanishes_of_le (by decide))⟩

/-- An array of width 1, and elements of 100 bytes: half of the scratchpad has room for five. -/
def MatMul.wideConfig : SimulationConfig :=
  { blockConfig with coreWidth := 1, coreHeight := 1, precision := 100, dramReqSize := 100 }

/-- The inner dimension of the wide product. -/
def MatMul.wideInner : ℕ := 2 ^ 31 + 1

/-- A row with an inner dimension of 2^31 + 1 elements, and three columns. -/
def MatMul.wideProduct : Except Fault (MatMul × ActAlloc) :=
  getOutputs wideConfig 0 "matmul" [blockTensor 4096 [wideInner, 3], blockTensor 8192 [3]]
    [blockTensor 0 [1, wideInner]] ⟨16384, 65536⟩

theorem MatMul.vanishes_wide {halvings : ℕ} (h : halvings < 31) :
    Vanishes wideConfig ⟨1, wideInner, 3⟩ ⟨1, 2 ^ (halvings + 1) + 1, 3⟩ := by
  induction halvings with
  | zero =>
    -- from here the sizes of the inner dimension are 3, 2, 2 and 1, those of the columns 3, 3, 2, 2
    have hlast : Vanishes wideConfig ⟨1, wideInner, 3⟩ ⟨1, 1, 2⟩ :=
      .fits (by decide) (.inr (.inl ⟨by decide, rfl⟩))
    exact .halve (by decide) (by decide)
      (.halve (by decide) (by decide) (.halve (by decide) (by decide) hlast))
  | succ halvings ih =>
    have hsizes : ∀ i < 31, spadLimit wideConfig <
        sramSizeNeeded wideConfig ⟨1, 2 ^ (i + 1) + 1, 3⟩ := by decide +kernel
    have hpow : 2 ^ (halvings + 1 + 1) = 2 * 2 ^ (halvings + 1) := Nat.pow_succ'
    have htwo : 2 ≤ 2 ^ (halvings + 1) := Nat.pow_succ' ▸ Nat.le_mul_of_pos_right 2 (Nat.two_pow_pos _)
    refine .halve (hsizes _ h) (by rw [largest]; dsimp only; omega) ?_
    have hhalf : (halveLargest ⟨1, 2 ^ (halvings + 1 + 1) + 1, 3⟩ ⟨1, 1, 1⟩).1 =
        ⟨1, 2 ^ (halvings + 1) + 1, 3⟩ := by
      have hrow : ¬ (2 ^ (halvings + 1 + 1) + 1 ≤ 1 ∧ 3 ≤ 1) := by omega
      have hcols : 3 ≤ 2 ^ (halvings + 1 + 1) + 1 := by omega
      rw [halveLargest, if_neg hrow, if_pos hcols, ceilHalf]
      simp only [Axes.mk.injEq, and_true, true_and]
      omega
    rw [hhalf]
    exact ih (by omega)

/-- The wide product has no tile. -/
theorem MatMul.wideProduct_built :
    ∃ op a', wideProduct = .ok (op, a') ∧ op.activation.dims = [1, wideInner] ∧
      op.weight.dims = [wideInner, 3] ∧ op.output.dims = [1, 3] ∧ op.tiles = [] ∧
      op.prodBatches = 1 := by
  have hrun : (NPUTensor.activation wideConfig [1, 3] ⟨16384, 65536⟩).map (·.1.dims) = .ok [1, 3] := by
    decide +kernel
  obtain ⟨made, hmade, hdims⟩ := map_ok hrun
  have hwords : (⟨1, wideInner, 3⟩ : Axes).IsWord := ⟨by decide, by decide, by decide⟩
  have hactivation : (blockTensor 0 [1, wideInner]).dims = [1, wideInner] := rfl
  have hweight : (blockTensor 4096 [wideInner, 3]).dims = [wideInner, 3] := rfl
  obtain ⟨loops, h⟩ := getOutputs_of_vanishes ⟨1, wideInner, 3⟩ 0 "matmul" (blockTensor 8192 [3])
    (by decide) hactivation hweight hmade hwords (vanishes_wide (by decide : 30 < 31))
  exact ⟨_, _, h, hactivation, hweight, hdims, rfl, rfl⟩

/-- With an empty inner dimension nothing is stored, and where an axis vanishes nothing is
computed. -/
theorem matMul_stores_missing :
    (¬ ∀ (config : SimulationConfig) (id : ℕ) (name : String) (weights inputs : List NPUTensor)
      (a a' : ActAlloc) (op : MatMul), getOutputs config id name weights inputs a = .ok (op, a') →
        (∀ t ∈ weights ++ inputs, ∀ d ∈ t.dims, d < 2 ^ 32) →
          ∃ dims outer, op.Shaped dims ∧ op.output.dims = outer ++ [dims.m, dims.n] ∧
            (¬ Vanishes config dims dims → Tiled config op dims)) ∧
    ¬ ∀ (config : SimulationConfig) (id : ℕ) (name : String) (weights inputs : List NPUTensor)
      (a a' : ActAlloc) (op : MatMul), getOutputs config id name weights inputs a = .ok (op, a') →
        (∀ t ∈ weights ++ inputs, ∀ d ∈ t.dims, d < 2 ^ 32) →
          ∃ dims outer, op.Shaped dims ∧ op.output.dims = outer ++ [dims.m, dims.n] ∧
            (0 < dims.k → Tiled config op dims) := by
  constructor
  · intro hall
    have hrun : (blockProduct 2 0).map (fun r =>
        (r.1.activation.dims, r.1.output.dims, r.1.prodBatches, r.1.placesOf .store)) =
        .ok ([2, 0], [2, 2], 1, []) := by decide +kernel
    obtain ⟨⟨op, a'⟩, h, hdims⟩ := map_ok hrun
    simp only [Prod.mk.injEq] at hdims
    obtain ⟨hactivation, houtput, hbatches, hstores⟩ := hdims
    obtain ⟨⟨m, k, n⟩, outer, ⟨⟨_, hact⟩, -, -⟩, houter, htiled⟩ :=
      hall _ _ _ _ _ _ a' op h (by decide)
    rw [houtput] at houter
    rw [hactivation] at hact
    obtain ⟨-, rfl, rfl⟩ := two_dims houter
    obtain ⟨-, -, rfl⟩ := two_dims hact
    have hmem := ((htiled (not_vanishes_of_le (by decide))).stores 0 0 0).mpr
      ⟨by rw [hbatches]; decide, ⟨by decide, Nat.dvd_zero _⟩, by decide, Nat.dvd_zero _⟩
    rw [hstores] at hmem
    exact List.not_mem_nil hmem
  · intro hall
    obtain ⟨op, a', h, hactivation, hweight, houtput, htiles, hbatches⟩ := wideProduct_built
    obtain ⟨⟨m, k, n⟩, outer, ⟨⟨_, hact⟩, ⟨_, hwgt⟩, -⟩, -, htiled⟩ :=
      hall _ _ _ _ _ _ a' op h (by decide)
    rw [hactivation] at hact
    rw [hweight] at hwgt
    obtain ⟨-, rfl, rfl⟩ := two_dims hact
    obtain ⟨-, -, rfl⟩ := two_dims hwgt
    have hmem := ((htiled (by decide)).computes 0 ⟨0, 0, 0⟩).mpr
      ⟨by rw [hbatches]; decide, ⟨by decide, Nat.dvd_zero _⟩, ⟨by decide, Nat.dvd_zero _⟩, by decide,
        Nat.dvd_zero _⟩
    rw [placesOf, htiles] at hmem
    exact List.not_mem_nil hmem

end Product

end NewPims

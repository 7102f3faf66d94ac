import NewPims.Lib.Region
import NewPims.Lib.Strided
import NewPims.Operations.FusedMHA
import NewPims.Operations.Kernels

/-! Where a tile of `FusedMHA` puts the operands of its heads. The softmax of a head is written to
where the output of the head before it is, and has the length of a row of logits there. -/
namespace NewPims.FusedMHA

open Region Transition

variable {config : SimulationConfig} {op : FusedMHA} {dk qLen seqLen numHeads h : ℕ}

/-- The bytes of the six operands of a head, from their keys on. -/
def HeadKeys.regions (config : SimulationConfig) (dk qLen seqLen : ℕ) (keys : HeadKeys) :
    List Region :=
  [⟨keys.query.toNat, qLen * dk * config.precision⟩,
   ⟨keys.key.toNat, dk * seqLen * config.precision⟩,
   ⟨keys.value.toNat, dk * seqLen * config.precision⟩,
   ⟨keys.logit.toNat, qLen * seqLen * config.precision⟩,
   ⟨keys.softmax.toNat, qLen * seqLen * config.precision⟩,
   ⟨keys.output.toNat, qLen * dk * config.precision⟩]

/-- The operands of all heads of a tile. -/
def tileRegions (config : SimulationConfig) (dk qLen seqLen numHeads : ℕ) : List Region :=
  (List.range numHeads).flatMap fun h =>
    (headKeys config dk qLen seqLen numHeads h).regions config dk qLen seqLen

/-- The keys that the compute instructions of a tile write. -/
def computedKeys (insts : List Instruction) : List AddrType :=
  (insts.filter fun inst => inst.opcode = .GEMM ∨ inst.opcode = .SOFTMAX).map (·.destAddr)

/-- The keys of all instructions of a head. -/
def HeadKeys.dests (keys : HeadKeys) : List AddrType :=
  [keys.query, keys.key, keys.value, keys.logit, keys.softmax, keys.output, keys.output]

/-- The keys that the three computations of a head write. -/
def HeadKeys.computed (keys : HeadKeys) : List AddrType :=
  [keys.logit, keys.softmax, keys.output]

section Instructions

variable {reqIdx headIdx : ℕ} {x : HeadInstructions}

theorem headInstructions_keys
    (hx : op.headInstructions config reqIdx headIdx numHeads qLen seqLen h = .ok x) :
    let keys := headKeys config op.dk qLen seqLen numHeads h
    x.insts.map (·.destAddr) = keys.dests ∧
      computedKeys x.insts = keys.computed := by
  obtain ⟨query, -, hx⟩ := bind_ok.mp hx
  obtain ⟨key, -, hx⟩ := bind_ok.mp hx
  obtain ⟨value, -, hx⟩ := bind_ok.mp hx
  obtain ⟨queryAddrs, -, hx⟩ := bind_ok.mp hx
  obtain ⟨keyAddrs, -, hx⟩ := bind_ok.mp hx
  obtain ⟨valueAddrs, -, hx⟩ := bind_ok.mp hx
  obtain ⟨outputAddrs, -, hx⟩ := bind_ok.mp hx
  cases hx
  exact ⟨rfl, rfl⟩

theorem computedKeys_flatMap {xs : List HeadInstructions} :
    computedKeys (xs.flatMap (·.insts)) = xs.flatMap fun x => computedKeys x.insts := by
  simp only [computedKeys, List.filter_flatMap, List.map_flatMap]

/-- The keys of a tile are those of its heads. -/
theorem initializeInstructions_keys {tile : MHATile}
    (ht : op.initializeInstructions config reqIdx headIdx numHeads = .ok tile) :
    ∃ query key qLen seqLen, op.query[reqIdx]? = some query ∧ op.key[reqIdx]? = some key ∧
      query.dims[1]? = some qLen ∧ key.dims[2]? = some seqLen ∧
      tile.tile.instructions.map (·.destAddr) = (List.range numHeads).flatMap (fun h =>
        (headKeys config op.dk qLen seqLen numHeads h).dests) ∧
      computedKeys tile.tile.instructions = (List.range numHeads).flatMap fun h =>
        (headKeys config op.dk qLen seqLen numHeads h).computed := by
  obtain ⟨query, hquery, ht⟩ := bind_ok.mp ht
  obtain ⟨key, hkey, ht⟩ := bind_ok.mp ht
  obtain ⟨qLen, hqLen, ht⟩ := bind_ok.mp ht
  obtain ⟨seqLen, hseqLen, ht⟩ := bind_ok.mp ht
  obtain ⟨heads, hheads, ht⟩ := bind_ok.mp ht
  cases ht
  have hall := mapM_forall₂ hheads
  refine ⟨query, key, qLen, seqLen, vectorAt_eq hquery, vectorAt_eq hkey, vectorAt_eq hqLen,
    vectorAt_eq hseqLen, ?_, ?_⟩
  · dsimp only
    rw [List.map_flatMap]
    exact (Strided.flatMap_eq_of_forall₂ hall fun h x hx => (headInstructions_keys hx).1.symm).symm
  · dsimp only
    rw [computedKeys_flatMap]
    exact (Strided.flatMap_eq_of_forall₂ hall fun h x hx => (headInstructions_keys hx).2.symm).symm

end Instructions

section Offsets

@[simp] theorem byteOffset_zero : byteOffset config 0 = 0#64 := by
  rw [byteOffset, Nat.zero_mul]
  rfl

theorem byteOffset_toNat (n : ℕ) :
    (byteOffset config n).toNat = n * config.precision % 2 ^ 32 := by
  have hlt : n * config.precision % 2 ^ 32 < 2 ^ 32 := Nat.mod_lt _ (Nat.two_pow_pos 32)
  rw [byteOffset, BitVec.toNat_ofNat]
  exact Nat.mod_eq_of_lt (by omega)

/-- The keys of a tile with one head only. -/
theorem headKeys_single (config : SimulationConfig) (dk qLen seqLen : ℕ) :
    let keys := headKeys config dk qLen seqLen 1 0
    let a := qLen * dk * config.precision % 2 ^ 32
    let k := dk * seqLen * config.precision % 2 ^ 32
    let l := qLen * seqLen * config.precision % 2 ^ 32
    keys.query.toNat = 0x10000000 ∧ keys.key.toNat = 0x10000000 + a ∧
      keys.value.toNat = 0x10000000 + a + k ∧ keys.logit.toNat = 0x20000000 ∧
      keys.softmax.toNat = 0x20000000 + l ∧ keys.output.toNat = 0x20000000 + l + a := by
  intro keys a k l
  have ha : (byteOffset config (qLen * dk)).toNat = a := byteOffset_toNat _
  have hk : (byteOffset config (dk * seqLen)).toNat = k := byteOffset_toNat _
  have hl : (byteOffset config (qLen * seqLen)).toNat = l := byteOffset_toNat _
  have halt : a < 2 ^ 32 := Nat.mod_lt _ (Nat.two_pow_pos 32)
  have hklt : k < 2 ^ 32 := Nat.mod_lt _ (Nat.two_pow_pos 32)
  have hllt : l < 2 ^ 32 := Nat.mod_lt _ (Nat.two_pow_pos 32)
  have hspad : SPAD_BASE.toNat = 0x10000000 := rfl
  have hacc : ACCUM_SPAD_BASE.toNat = 0x20000000 := rfl
  simp only [keys, headKeys, Nat.zero_mul, Nat.mul_one, byteOffset_zero, BitVec.add_zero,
    BitVec.toNat_add, ha, hk, hl, hspad, hacc, true_and]
  omega

/-- The output of a head is where the softmax of the next one is. -/
theorem headKeys_output_eq_softmax :
    (headKeys config dk qLen seqLen numHeads 0).output =
      (headKeys config dk qLen seqLen numHeads 1).softmax := by
  simp only [headKeys, Nat.zero_mul, Nat.one_mul, byteOffset_zero, BitVec.add_zero]

end Offsets

section Apart

/-- The computations of a tile with one head write three places if and only if the logits and the
output have bytes at all, after the rounding to 32 bits. -/
theorem computed_nodup_iff :
    (headKeys config dk qLen seqLen 1 0).computed.Nodup ↔
      0 < qLen * seqLen * config.precision % 2 ^ 32 ∧
        0 < qLen * dk * config.precision % 2 ^ 32 := by
  obtain ⟨-, -, -, hlogit, hsoftmax, houtput⟩ :=
    headKeys_single config dk qLen seqLen
  rw [HeadKeys.computed, List.nodup_cons, List.nodup_cons, List.mem_cons, List.mem_singleton,
    List.mem_singleton, ← BitVec.toNat_inj, ← BitVec.toNat_inj, ← BitVec.toNat_inj, hlogit,
    hsoftmax, houtput]
  constructor
  · intro h
    obtain ⟨hl, ha, -⟩ := h
    omega
  · intro h
    obtain ⟨hl, ha⟩ := h
    exact ⟨by omega, by omega, List.nodup_singleton _⟩

/-- Six operands laid out like those of one head, with `a` bytes of a query or an output, `k` of keys
or values and `l` of logits. -/
theorem operands_apart_iff {a k l : ℕ} (ha : 0 < a % 2 ^ 32) (hk : 0 < k) (hl : 0 < l % 2 ^ 32) :
    List.Pairwise Apart
        [⟨0x10000000, a⟩, ⟨0x10000000 + a % 2 ^ 32, k⟩,
         ⟨0x10000000 + a % 2 ^ 32 + k % 2 ^ 32, k⟩, ⟨0x20000000, l⟩,
         ⟨0x20000000 + l % 2 ^ 32, l⟩, ⟨0x20000000 + l % 2 ^ 32 + a % 2 ^ 32, a⟩] ↔
      l ≤ a ∧ a + 2 * k ≤ 0x10000000 := by
  have hapos : 0 < a := Nat.lt_of_lt_of_le ha (Nat.mod_le _ _)
  have hlpos : 0 < l := Nat.lt_of_lt_of_le hl (Nat.mod_le _ _)
  constructor
  · intro h
    obtain ⟨hquery, h⟩ := List.pairwise_cons.mp h
    obtain ⟨hkey, h⟩ := List.pairwise_cons.mp h
    obtain ⟨hvalue, h⟩ := List.pairwise_cons.mp h
    obtain ⟨hlogit, h⟩ := List.pairwise_cons.mp h
    obtain ⟨hsoftmax, -⟩ := List.pairwise_cons.mp h
    have hquerykey := (apart_iff hapos hk).mp (hquery _ (.head _))
    have hquerylogit := (apart_iff hapos hlpos).mp (hquery _ (.tail _ (.tail _ (.head _))))
    have hkeyvalue := (apart_iff hk hk).mp (hkey _ (.head _))
    have hkeylogit := (apart_iff hk hlpos).mp (hkey _ (.tail _ (.head _)))
    have hvaluelogit := (apart_iff hk hlpos).mp (hvalue _ (.head _))
    have hlogits := (apart_iff hlpos hlpos).mp (hlogit _ (.head _))
    have hlast := (apart_iff hlpos hapos).mp (hsoftmax _ (.head _))
    simp only [Region.stop] at *
    omega
  · intro h
    obtain ⟨hle, hroom⟩ := h
    rw [Nat.mod_eq_of_lt (by omega : a < 2 ^ 32), Nat.mod_eq_of_lt (by omega : k < 2 ^ 32),
      Nat.mod_eq_of_lt (by omega : l < 2 ^ 32)]
    -- each ends where the next begins, or below
    refine List.Pairwise.imp apart_of_le ?_
    simp only [List.pairwise_cons, List.forall_mem_cons, List.not_mem_nil, false_imp_iff,
      implies_true, List.Pairwise.nil, Region.stop, and_true]
    omega

/-- The operands of one head are apart if and only if a row of logits is no longer than one of the
output, and the query, the keys and the values end before the accumulator begins. -/
theorem single_apart_iff (hl : 0 < qLen * seqLen * config.precision % 2 ^ 32)
    (ha : 0 < qLen * dk * config.precision % 2 ^ 32) :
    (tileRegions config dk qLen seqLen 1).Pairwise Apart ↔
      seqLen ≤ dk ∧
        qLen * dk * config.precision + 2 * (dk * seqLen * config.precision) ≤ 0x10000000 := by
  have hlpos : 0 < qLen * seqLen * config.precision := Nat.lt_of_lt_of_le hl (Nat.mod_le _ _)
  have hapos : 0 < qLen * dk * config.precision := Nat.lt_of_lt_of_le ha (Nat.mod_le _ _)
  have hprec : 0 < config.precision := Nat.pos_of_mul_pos_left hlpos
  have hrow : 0 < qLen * seqLen := Nat.pos_of_mul_pos_right hlpos
  have hqLen : 0 < qLen := Nat.pos_of_mul_pos_right hrow
  have hdk : 0 < dk := Nat.pos_of_mul_pos_left (Nat.pos_of_mul_pos_right hapos)
  have hk : 0 < dk * seqLen * config.precision :=
    Nat.mul_pos (Nat.mul_pos hdk (Nat.pos_of_mul_pos_left hrow)) hprec
  have hrows : qLen * seqLen * config.precision ≤ qLen * dk * config.precision ↔ seqLen ≤ dk := by
    rw [Nat.mul_le_mul_right_iff hprec, Nat.mul_le_mul_left_iff hqLen]
  obtain ⟨hquery, hkey, hvalue, hlogit, hsoftmax, houtput⟩ :=
    headKeys_single config dk qLen seqLen
  have hregions : tileRegions config dk qLen seqLen 1 =
      (headKeys config dk qLen seqLen 1 0).regions config dk qLen seqLen := List.append_nil _
  rw [hregions, HeadKeys.regions, hquery, hkey, hvalue, hlogit, hsoftmax, houtput, ← hrows]
  exact operands_apart_iff ha hk hl

end Apart

section Tiles

/-- With more than one head a softmax overwrites an output. -/
theorem computed_not_nodup (hn : 2 ≤ numHeads) :
    ¬ ((List.range numHeads).flatMap fun h =>
      (headKeys config dk qLen seqLen numHeads h).computed).Nodup := by
  intro hnodup
  rw [List.nodup_flatMap] at hnodup
  have hdisjoint := (List.pairwise_iff_getElem.mp hnodup.2) 0 1 (by simp; omega) (by simp; omega)
    (by omega)
  change List.Disjoint _ _ at hdisjoint
  rw [List.getElem_range, List.getElem_range] at hdisjoint
  refine hdisjoint (a := (headKeys config dk qLen seqLen numHeads 0).output) ?_ ?_
  · simp [HeadKeys.computed]
  · rw [headKeys_output_eq_softmax]
    simp [HeadKeys.computed]

/-- The operands of a tile are apart, and its computations write different places, if and only if
the tile has no head, or one whose logits are no longer than its output and whose inputs fit below
the accumulator. -/
theorem tile_operands_apart {reqIdx headIdx : ℕ} {tile : MHATile}
    (ht : op.initializeInstructions config reqIdx headIdx numHeads = .ok tile) :
    ∃ query key qLen seqLen, op.query[reqIdx]? = some query ∧ op.key[reqIdx]? = some key ∧
      query.dims[1]? = some qLen ∧ key.dims[2]? = some seqLen ∧
      tile.tile.instructions.map (·.destAddr) = (List.range numHeads).flatMap (fun h =>
        (headKeys config op.dk qLen seqLen numHeads h).dests) ∧
      ((tileRegions config op.dk qLen seqLen numHeads).Pairwise Apart ∧
          (computedKeys tile.tile.instructions).Nodup ↔
        numHeads = 0 ∨ numHeads = 1 ∧ 0 < qLen * seqLen * config.precision ∧ seqLen ≤ op.dk ∧
          qLen * op.dk * config.precision + 2 * (op.dk * seqLen * config.precision) ≤
            0x10000000) := by
  obtain ⟨query, key, qLen, seqLen, hquery, hkey, hqLen, hseqLen, hdests, hcomputed⟩ :=
    initializeInstructions_keys ht
  refine ⟨query, key, qLen, seqLen, hquery, hkey, hqLen, hseqLen, hdests, ?_⟩
  rw [hcomputed]
  rcases Nat.lt_or_ge numHeads 2 with hn | hn
  · rcases Nat.lt_or_ge numHeads 1 with hzero | hone
    · obtain rfl : numHeads = 0 := by omega
      simp [tileRegions]
    · obtain rfl : numHeads = 1 := by omega
      have hsingle : ((List.range 1).flatMap fun h =>
          (headKeys config op.dk qLen seqLen 1 h).computed) =
          (headKeys config op.dk qLen seqLen 1 0).computed := List.append_nil _
      rw [hsingle, computed_nodup_iff]
      constructor
      · intro h
        obtain ⟨hapart, hl, ha⟩ := h
        have hbounds := (single_apart_iff hl ha).mp hapart
        exact .inr ⟨rfl, Nat.lt_of_lt_of_le hl (Nat.mod_le _ _), hbounds⟩
      · intro h
        obtain ⟨-, hl, hle, hroom⟩ := h.resolve_left Nat.one_ne_zero
        have hrows : qLen * seqLen * config.precision ≤ qLen * op.dk * config.precision :=
          Nat.mul_le_mul_right _ (Nat.mul_le_mul_left _ hle)
        have hlmod : qLen * seqLen * config.precision % 2 ^ 32 =
            qLen * seqLen * config.precision := Nat.mod_eq_of_lt (by omega)
        have hamod : qLen * op.dk * config.precision % 2 ^ 32 =
            qLen * op.dk * config.precision := Nat.mod_eq_of_lt (by omega)
        have hl' : 0 < qLen * seqLen * config.precision % 2 ^ 32 := by omega
        have ha' : 0 < qLen * op.dk * config.precision % 2 ^ 32 := by omega
        exact ⟨(single_apart_iff hl' ha').mpr ⟨hle, hroom⟩, hl', ha'⟩
  · constructor
    · intro h
      exact absurd h.2 (computed_not_nodup hn)
    · intro h
      omega

end Tiles

section Examples

/-- Two heads of two elements, and half a kilobyte for a tile. -/
def pairHeads (precision : ℕ) : SimulationConfig :=
  { sampleConfig with modelNHead := 2, modelNEmbd := 4, spadSize := 1, precision }

/-- One token, of a query and of the keys and values. -/
def pairHeadsInputs (precision : ℕ) : List TensorPtr :=
  [.npu ⟨[2, 1, 2], (List.range 2).map fun h =>
      .plain ⟨BitVec.ofNat 64 (1024 * h), [1, 2], precision⟩⟩,
   .npu ⟨[2, 2, 1], (List.range 2).map fun h =>
      .kv ⟨true, [2, 1], [BitVec.ofNat 64 (4096 + 1024 * h)], 8, precision, 1⟩⟩,
   .npu ⟨[2, 1, 2], (List.range 2).map fun h =>
      .kv ⟨false, [1, 2], [BitVec.ofNat 64 (8192 + 1024 * h)], 8, precision, 1⟩⟩]

/-- In a tile with one of the heads all operands are apart. -/
theorem tile_operands_apart_single :
    ∃ op a', FusedMHA.getOutputs (pairHeads 32) 0 "mha" (pairHeadsInputs 32) ⟨0, 4096⟩ =
      .ok (op, a') ∧ ∃ tile, op.initializeInstructions (pairHeads 32) 0 0 1 = .ok tile ∧
        (tileRegions (pairHeads 32) 2 1 1 1).Pairwise Apart ∧
        (computedKeys tile.tile.instructions).Nodup := by
  have hrun : (FusedMHA.getOutputs (pairHeads 32) 0 "mha" (pairHeadsInputs 32) ⟨0, 4096⟩).map
      (fun r => (r.1.dk, r.1.query.map (·.dims), r.1.key.map (·.dims),
        (r.1.initializeInstructions (pairHeads 32) 0 0 1).isOk)) =
      .ok (2, [[2, 1, 2]], [[2, 2, 1]], true) := by decide +kernel
  obtain ⟨⟨op, a'⟩, hop, hr⟩ := map_ok hrun
  simp only [Prod.mk.injEq] at hr
  obtain ⟨hdk, hqueries, hkeys, hok⟩ := hr
  obtain ⟨tile, htile⟩ := exists_ok hok
  obtain ⟨query, key, qLen, seqLen, hquery, hkey, hqLen, hseqLen, -, hapart⟩ :=
    tile_operands_apart htile
  have hquerydims : query.dims = [2, 1, 2] := by
    have hget := congrArg (·[0]?) hqueries
    simp only [List.getElem?_map, hquery] at hget
    exact Option.some.inj hget
  have hkeydims : key.dims = [2, 2, 1] := by
    have hget := congrArg (·[0]?) hkeys
    simp only [List.getElem?_map, hkey] at hget
    exact Option.some.inj hget
  rw [hquerydims] at hqLen
  rw [hkeydims] at hseqLen
  obtain rfl : 1 = qLen := Option.some.inj hqLen
  obtain rfl : 1 = seqLen := Option.some.inj hseqLen
  rw [hdk] at hapart
  exact ⟨op, a', hop, tile, htile, hapart.mpr (.inr ⟨rfl, by decide, by decide, by decide⟩)⟩

/-- Both heads fit into one tile, and the softmax of the second goes to where the output of the first
one is. -/
theorem tile_operands_pair :
    ∃ op a', FusedMHA.getOutputs (pairHeads 16) 0 "mha" (pairHeadsInputs 16) ⟨0, 4096⟩ =
      .ok (op, a') ∧ ∃ tile ∈ op.tiles, ¬ (computedKeys tile.tile.instructions).Nodup := by
  have hrun : (FusedMHA.getOutputs (pairHeads 16) 0 "mha" (pairHeadsInputs 16) ⟨0, 4096⟩).map
      (fun r => r.1.tiles.any fun tile => ¬ (computedKeys tile.tile.instructions).Nodup) =
      .ok true := by decide +kernel
  obtain ⟨⟨op, a'⟩, hop, hany⟩ := map_ok hrun
  obtain ⟨tile, htile, hnot⟩ := List.any_eq_true.mp hany
  exact ⟨op, a', hop, tile, htile, of_decide_eq_true hnot⟩

end Examples

end NewPims.FusedMHA

import Mathlib.Data.List.GetD
import NewPims.Lib.Strided
import NewPims.Operations.FusedMHA.Places

/-! The heads that the tiles of `FusedMHA` compute and store. There is one tile for a request, with
as many of its first heads as fit into half the scratchpad; no further tile has the others. -/
namespace NewPims.FusedMHA

open Transition

variable {config : SimulationConfig} {op : FusedMHA} {reqIdx headIdx numHeads : ℕ}
  {id : ℕ} {name : String} {inputs : List TensorPtr} {a a' : ActAlloc}

/-- The instructions load the query, the keys and the values of the head, make its attention of them
and store it to the addresses of the head's output. -/
def ComputesHead (op : FusedMHA) (request : ℕ) (x : HeadInstructions) : Prop :=
  ∃ query key value qLen seqLen queries cacheKeys values stores, ∃ keys : HeadKeys,
    op.query[request]? = some query ∧ op.key[request]? = some key ∧
    op.value[request]? = some value ∧ query.dims[1]? = some qLen ∧ key.dims[2]? = some seqLen ∧
    headAddrs query (queryIndexes op.dk qLen seqLen x.head) (qLen * op.dk) = .ok queries ∧
    headAddrs key (keyIndexes op.dk seqLen x.head) (seqLen * op.dk) = .ok cacheKeys ∧
    headAddrs value (valueIndexes op.dk seqLen x.head) (seqLen * op.dk) = .ok values ∧
    outputAddrs op.outputs request x.head = .ok stores ∧
    x.insts.map (fun inst => (inst.opcode, inst.destAddr, inst.srcAddrs)) =
      [(.MOVIN, keys.query, queries), (.MOVIN, keys.key, cacheKeys), (.MOVIN, keys.value, values),
       (.GEMM, keys.logit, [keys.query, keys.key]), (.SOFTMAX, keys.softmax, [keys.logit]),
       (.GEMM, keys.output, [keys.softmax, keys.value]), (.MOVOUT, keys.output, stores)]

/-- The heads of all tiles, with the requests of the tiles. -/
def served (op : FusedMHA) : List (ℕ × ℕ) :=
  op.tiles.flatMap fun tile => tile.heads.map fun x => (tile.request, x.head)

/-- Every head of every request is computed and stored once, and nothing else is. -/
structure ServesAll (op : FusedMHA) : Prop where
  computes : ∀ tile ∈ op.tiles, ∀ x ∈ tile.heads, op.ComputesHead tile.request x
  once : ∀ request head, op.served.count (request, head) =
    if request < op.batchSize ∧ head < op.nh then 1 else 0

/-- The heads of each request fit into half the scratchpad at the same time. -/
def HeadsFit (config : SimulationConfig) (op : FusedMHA) : Prop :=
  ∀ request < op.batchSize, ∀ query ∈ op.query[request]?, ∀ key ∈ op.key[request]?,
    ∀ qLen ∈ query.dims[1]?, ∀ seqLen ∈ key.dims[2]?,
      op.nh * totalSizePerHead config op.dk qLen seqLen ≤ sramCapacity config

section Tiles

theorem headInstructions_computes {qLen seqLen hOfs : ℕ} {query key : NPUTensor}
    {x : HeadInstructions} (hquery : op.query[reqIdx]? = some query)
    (hkey : op.key[reqIdx]? = some key) (hqLen : query.dims[1]? = some qLen)
    (hseqLen : key.dims[2]? = some seqLen)
    (hx : op.headInstructions config reqIdx headIdx numHeads qLen seqLen hOfs = .ok x) :
    x.head = headIdx + hOfs ∧ op.ComputesHead reqIdx x := by
  obtain ⟨query', hquery', hx⟩ := bind_ok.mp hx
  obtain ⟨key', hkey', hx⟩ := bind_ok.mp hx
  obtain ⟨value, hvalue, hx⟩ := bind_ok.mp hx
  obtain ⟨queries, hqueries, hx⟩ := bind_ok.mp hx
  obtain ⟨cacheKeys, hcacheKeys, hx⟩ := bind_ok.mp hx
  obtain ⟨values, hvalues, hx⟩ := bind_ok.mp hx
  obtain ⟨stores, hstores, hx⟩ := bind_ok.mp hx
  cases hx
  obtain rfl : query' = query := Option.some.inj ((vectorAt_eq hquery').symm.trans hquery)
  obtain rfl : key' = key := Option.some.inj ((vectorAt_eq hkey').symm.trans hkey)
  exact ⟨rfl, query', key', value, qLen, seqLen, queries, cacheKeys, values, stores,
    headKeys config op.dk qLen seqLen numHeads hOfs, hquery, hkey, vectorAt_eq hvalue, hqLen,
    hseqLen, hqueries, hcacheKeys, hvalues, hstores, rfl⟩

/-- A tile is for the heads from its first one on. -/
theorem initializeInstructions_heads {tile : MHATile}
    (ht : op.initializeInstructions config reqIdx headIdx numHeads = .ok tile) :
    tile.request = reqIdx ∧
      tile.heads.map (·.head) = (List.range numHeads).map (headIdx + ·) ∧
      ∀ x ∈ tile.heads, op.ComputesHead reqIdx x := by
  obtain ⟨query, hquery, ht⟩ := bind_ok.mp ht
  obtain ⟨key, hkey, ht⟩ := bind_ok.mp ht
  obtain ⟨qLen, hqLen, ht⟩ := bind_ok.mp ht
  obtain ⟨seqLen, hseqLen, ht⟩ := bind_ok.mp ht
  obtain ⟨heads, hheads, ht⟩ := bind_ok.mp ht
  cases ht
  have hall := mapM_forall₂ hheads
  have hcomputes : ∀ hOfs x, op.headInstructions config reqIdx headIdx numHeads qLen seqLen hOfs =
      .ok x → x.head = headIdx + hOfs ∧ op.ComputesHead reqIdx x := fun hOfs x hx =>
    headInstructions_computes (vectorAt_eq hquery) (vectorAt_eq hkey) (vectorAt_eq hqLen)
      (vectorAt_eq hseqLen) hx
  refine ⟨rfl, ?_, ?_⟩
  · dsimp only
    rw [List.map_eq_flatMap, List.map_eq_flatMap]
    refine (Strided.flatMap_eq_of_forall₂ hall fun hOfs x hx => ?_).symm
    rw [(hcomputes hOfs x hx).1]
  · intro x hx
    obtain ⟨hOfs, -, hhead⟩ := Strided.forall₂_right hall x hx
    exact (hcomputes hOfs x hhead).2

/-- Each request has one tile, with its first heads. -/
theorem initializeTiles_served (htiles : op.initializeTiles config = .ok op.tiles) :
    op.served = (List.range op.batchSize).flatMap (fun request =>
        (List.range (op.headsPerTile.getD request 0)).map (Prod.mk request)) ∧
      ∀ tile ∈ op.tiles, ∀ x ∈ tile.heads, op.ComputesHead tile.request x := by
  have hall := mapM_forall₂ htiles
  have htile : ∀ request tile, (do
      let headsPerTile ← vectorAt op.headsPerTile request
      op.initializeInstructions config request 0 headsPerTile) = .ok tile →
      (tile.heads.map fun x => (tile.request, x.head)) =
          (List.range (op.headsPerTile.getD request 0)).map (Prod.mk request) ∧
        ∀ x ∈ tile.heads, op.ComputesHead tile.request x := by
    intro request tile h
    obtain ⟨n, hn, h⟩ := bind_ok.mp h
    obtain ⟨hrequest, hheads, hcomputes⟩ := initializeInstructions_heads h
    rw [List.getD_eq_getElem?_getD, vectorAt_eq hn, Option.getD_some, hrequest]
    refine ⟨?_, hcomputes⟩
    have hpairs := congrArg (List.map (Prod.mk request)) hheads
    rw [List.map_map, List.map_map] at hpairs
    rw [← Function.comp_def (Prod.mk request), hpairs]
    exact List.map_congr_left fun h _ => congrArg _ (Nat.zero_add h)
  constructor
  · exact (Strided.flatMap_eq_of_forall₂ hall fun request tile h =>
      (htile request tile h).1.symm).symm
  · intro tile hmem
    obtain ⟨request, -, h⟩ := Strided.forall₂_right hall tile hmem
    exact (htile request tile h).2

end Tiles

section Loops

/-- The loops and the tiles of the operation that is returned, and its tensors. -/
theorem getOutputs_tiles (h : getOutputs config id name inputs a = .ok (op, a')) :
    op.batchSize = inputs.length / 3 ∧
      (inputs.take op.batchSize).mapM TensorPtr.asNPU = .ok op.query ∧
      ((inputs.drop op.batchSize).take op.batchSize).mapM TensorPtr.asNPU = .ok op.key ∧
      (List.range op.batchSize).mapM (op.headsThatFit config) = .ok op.headsPerTile ∧
      op.initializeTiles config = .ok op.tiles := by
  obtain ⟨query, hquery, h⟩ := bind_ok.mp h
  obtain ⟨key, hkey, h⟩ := bind_ok.mp h
  obtain ⟨value, hvalue, h⟩ := bind_ok.mp h
  obtain ⟨q, hq, h⟩ := bind_ok.mp h
  obtain ⟨nh, hnh, h⟩ := bind_ok.mp h
  obtain ⟨dk, hdk, h⟩ := bind_ok.mp h
  obtain ⟨heads, hheads, h⟩ := bind_ok.mp h
  obtain ⟨width, hwidth, h⟩ := bind_ok.mp h
  split at h
  · cases h
  · obtain ⟨made, hmade, h⟩ := bind_ok.mp h
    obtain ⟨looped, hloops, h⟩ := bind_ok.mp h
    obtain ⟨tiles, htiles, h⟩ := bind_ok.mp h
    obtain ⟨headsPerTile, hfit, hloops⟩ := bind_ok.mp hloops
    cases hloops
    cases h
    exact ⟨rfl, hquery, hkey, hfit, htiles⟩

/-- As many heads as fit, and no more than there are. -/
theorem headsThatFit_eq {request n : ℕ} (h : op.headsThatFit config request = .ok n) :
    ∃ query key qLen seqLen, op.query[request]? = some query ∧ op.key[request]? = some key ∧
      query.dims[1]? = some qLen ∧ key.dims[2]? = some seqLen ∧
      (op.nh * totalSizePerHead config op.dk qLen seqLen ≤ sramCapacity config ↔ n = op.nh) ∧
      n ≤ op.nh := by
  obtain ⟨query, hquery, h⟩ := bind_ok.mp h
  obtain ⟨key, hkey, h⟩ := bind_ok.mp h
  obtain ⟨qLen, hqLen, h⟩ := bind_ok.mp h
  obtain ⟨seqLen, hseqLen, h⟩ := bind_ok.mp h
  obtain ⟨fit, hfit, h⟩ := bind_ok.mp h
  obtain ⟨hpos, rfl⟩ := divDown_eq hfit
  refine ⟨query, key, qLen, seqLen, vectorAt_eq hquery, vectorAt_eq hkey, vectorAt_eq hqLen,
    vectorAt_eq hseqLen, ?_⟩
  rw [← Nat.le_div_iff_mul_le (Nat.pos_of_ne_zero hpos)]
  split at h
  · cases h
    omega
  · cases h
    omega

/-- All heads of all requests have their place in a tile if and only if they fit at once. -/
theorem headsFit_iff
    (h : (List.range op.batchSize).mapM (op.headsThatFit config) = .ok op.headsPerTile) :
    op.HeadsFit config ↔ ∀ request < op.batchSize, op.headsPerTile.getD request 0 = op.nh := by
  have hget : ∀ request < op.batchSize,
      op.headsThatFit config request = .ok (op.headsPerTile.getD request 0) := by
    intro request hlt
    have hlen : op.headsPerTile.length = op.batchSize := by rw [mapM_length h, List.length_range]
    have hat := (mapM_forall₂ h).get (by rwa [List.length_range]) (hlen ▸ hlt)
    rw [List.getD_eq_getElem _ _ (hlen ▸ hlt)]
    simpa only [List.get_eq_getElem, List.getElem_range] using hat
  refine forall₂_congr fun request hlt => ?_
  obtain ⟨query, key, qLen, seqLen, hquery, hkey, hqLen, hseqLen, hfits, -⟩ :=
    headsThatFit_eq (hget request hlt)
  rw [← hfits, hquery, hkey]
  simp [hqLen, hseqLen]

end Loops

section Requests

/-- A pair occurs once where the head is among those of the request. -/
theorem count_heads (op : FusedMHA) (fit : ℕ → ℕ) (request head : ℕ) :
    ((List.range op.batchSize).flatMap fun r => (List.range (fit r)).map (Prod.mk r)).count
        (request, head) = if request < op.batchSize ∧ head < fit request then 1 else 0 := by
  have hnodup : ((List.range op.batchSize).flatMap fun r =>
      (List.range (fit r)).map (Prod.mk r)).Nodup := by
    rw [List.nodup_flatMap]
    constructor
    · intro r hr
      exact List.nodup_range.map (Prod.mk_right_injective r)
    · refine List.nodup_range.imp fun hne => ?_
      intro x hx hy
      obtain ⟨_, _, rfl⟩ := List.mem_map.mp hx
      obtain ⟨_, _, heq⟩ := List.mem_map.mp hy
      exact hne (congrArg Prod.fst heq).symm
  rw [hnodup.count]
  simp

/-- The heads of all requests are computed and stored once each if and only if, for each request, all
heads fit into half the scratchpad at the same time. -/
theorem heads_served_iff (h : getOutputs config id name inputs a = .ok (op, a')) :
    op.batchSize = inputs.length / 3 ∧
      (inputs.take op.batchSize).mapM TensorPtr.asNPU = .ok op.query ∧
      ((inputs.drop op.batchSize).take op.batchSize).mapM TensorPtr.asNPU = .ok op.key ∧
      (op.ServesAll ↔ op.HeadsFit config) := by
  obtain ⟨hbatch, hquery, hkey, hfit, htiles⟩ := getOutputs_tiles h
  obtain ⟨hserved, hcomputes⟩ := initializeTiles_served htiles
  have hcount : ∀ request head, op.served.count (request, head) =
      if request < op.batchSize ∧ head < op.headsPerTile.getD request 0 then 1 else 0 := by
    intro request head
    rw [hserved, count_heads]
  refine ⟨hbatch, hquery, hkey, ?_⟩
  rw [headsFit_iff hfit]
  constructor
  · intro hall request hlt
    -- the two counts agree at every head, so both bounds do
    have hbound : ∀ head, head < op.headsPerTile.getD request 0 ↔ head < op.nh := by
      intro head
      have honce := hall.once request head
      rw [hcount request head] at honce
      simp only [hlt, true_and] at honce
      split_ifs at honce with hhead hnh hnh
      · exact iff_of_true hhead hnh
      · exact iff_of_false hhead hnh
    have hfirst := hbound op.nh
    have hsecond := hbound (op.headsPerTile.getD request 0)
    omega
  · intro hall
    refine ⟨hcomputes, ?_⟩
    intro request head
    rw [hcount request head]
    by_cases hlt : request < op.batchSize
    · rw [hall request hlt]
    · simp [hlt]

end Requests

section Examples

/-- Both heads fit. -/
theorem heads_served_pair :
    ∃ op a', getOutputs (pairHeads 16) 0 "mha" (pairHeadsInputs 16) ⟨0, 4096⟩ = .ok (op, a') ∧
      op.nh = 2 ∧ op.ServesAll := by
  have hrun : (getOutputs (pairHeads 16) 0 "mha" (pairHeadsInputs 16) ⟨0, 4096⟩).map
      (fun r => (r.1.nh, r.1.batchSize, r.1.headsPerTile)) = .ok (2, 1, [2]) := by decide +kernel
  obtain ⟨⟨op, a'⟩, hop, hr⟩ := map_ok hrun
  simp only [Prod.mk.injEq] at hr
  obtain ⟨hnh, hbatch, hheads⟩ := hr
  obtain ⟨-, -, -, hserves⟩ := heads_served_iff hop
  refine ⟨op, a', hop, hnh, hserves.mpr ?_⟩
  obtain ⟨-, -, -, hfit, -⟩ := getOutputs_tiles hop
  rw [headsFit_iff hfit, hbatch, hheads, hnh]
  decide

/-- One head takes 288 bytes of 512. The tile has the first head only, and no tile has the second. -/
theorem heads_served_half :
    ∃ op a', getOutputs (pairHeads 32) 0 "mha" (pairHeadsInputs 32) ⟨0, 4096⟩ = .ok (op, a') ∧
      totalSizePerHead (pairHeads 32) 2 1 1 ≤ sramCapacity (pairHeads 32) ∧
      op.served = [(0, 0)] ∧ ¬ op.ServesAll := by
  have hrun : (getOutputs (pairHeads 32) 0 "mha" (pairHeadsInputs 32) ⟨0, 4096⟩).map
      (fun r => (r.1.nh, r.1.batchSize, r.1.served)) = .ok (2, 1, [(0, 0)]) := by decide +kernel
  obtain ⟨⟨op, a'⟩, hop, hr⟩ := map_ok hrun
  simp only [Prod.mk.injEq] at hr
  obtain ⟨hnh, hbatch, hserved⟩ := hr
  refine ⟨op, a', hop, by decide, hserved, ?_⟩
  intro hall
  have honce := hall.once 0 1
  rw [hserved, hbatch, hnh] at honce
  exact absurd honce (by decide)

end Examples

end NewPims.FusedMHA

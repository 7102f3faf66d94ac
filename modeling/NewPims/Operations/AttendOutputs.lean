import NewPims.Memory.Disjoint
import NewPims.Operations.CacheRows
import NewPims.Operations.RowOperations.Processing

/-! The outputs of the attention on the values: the heads' outputs lie apart from each other in the
activation buffer. -/
namespace NewPims

open Region Transition

/-- The activation buffer and `size` bytes more end before the address space does. -/
structure OutputRoom (config : SimulationConfig) (k size : ℕ) (a : ActAlloc) : Prop where
  aligned : Aligned config k
  top : a.topAddr.toNat ≤ a.actBufLimit.toNat + 2 ^ k
  limit : a.actBufLimit.toNat + 2 ^ k + size < 2 ^ 64

section Allocation

variable {config : SimulationConfig} {k size n : ℕ} {a a' : ActAlloc} {addr : AddrType}
  {dims : List ℕ} {inners : List NPUTensorInner}

/-- What is allocated begins at the top, and the next allocation above it. -/
theorem allocate_above (hroom : OutputRoom config k size a)
    (h : a.allocate config (BitVec.ofNat 64 size) = .ok (addr, a')) :
    addr = a.topAddr ∧ a.topAddr.toNat + size ≤ a'.topAddr.toNat ∧ OutputRoom config k size a' := by
  obtain ⟨halign, htop, hlimit⟩ := hroom
  have hsize : (BitVec.ofNat 64 size).toNat = size := by
    rw [BitVec.toNat_ofNat, Nat.mod_eq_of_lt (by omega)]
  obtain ⟨rfl, hbuf, hbelow, hnext⟩ :=
    Memory.allocateActivation_ok halign (by rw [hsize]; omega) h
  rw [hsize] at hbelow hnext
  have hlt := Nat.mod_lt (a.topAddr.toNat + size) (Nat.two_pow_pos k)
  have hround : roundUp (2 ^ k) (a.topAddr.toNat + size) < a.actBufLimit.toNat + 2 ^ k := by
    unfold roundUp
    split <;> omega
  have hnext := hnext (by omega)
  have hle := le_roundUp (2 ^ k) (a.topAddr.toNat + size)
  exact ⟨rfl, by omega, halign, by rw [hnext, hbuf]; omega, by rwa [hbuf]⟩

/-- The bytes of a tensor with two dimensions. -/
def innerRegion : NPUTensorInner → Region
  | .plain t => ⟨t.baseAddr.toNat, t.precision * t.dims.prod⟩
  | .kv _ => ⟨0, 0⟩

theorem inners2D_packed (hroom : OutputRoom config k (config.precision * dims.prod) a)
    (h : NPUTensor.inners2D config dims n a = .ok (inners, a')) :
    OutputRoom config k (config.precision * dims.prod) a' ∧
      a.topAddr.toNat ≤ a'.topAddr.toNat ∧
      Packed a.topAddr.toNat a'.topAddr.toNat (inners.map innerRegion) ∧
      inners.length = n ∧ ∀ inner ∈ inners, ∃ base, inner = .plain ⟨base, dims, config.precision⟩ := by
  induction n generalizing a inners with
  | zero =>
    cases h
    exact ⟨hroom, Nat.le_refl _, packed_nil _ _, rfl, fun _ h => absurd h List.not_mem_nil⟩
  | succ n ih =>
    obtain ⟨⟨addr, m⟩, hm, h⟩ := bind_ok.mp h
    obtain ⟨⟨rest, m'⟩, hrest, h⟩ := bind_ok.mp h
    cases h
    obtain ⟨haddr, habove, hroom'⟩ := allocate_above hroom hm
    obtain ⟨hlast, hle, hpacked, hlength, hplain⟩ := ih hroom' hrest
    have htop : a.topAddr.toNat ≤ m.topAddr.toNat := Nat.le_trans (Nat.le_add_right _ _) habove
    have hfirst : Packed a.topAddr.toNat m.topAddr.toNat
        [⟨addr.toNat, config.precision * dims.prod⟩] := by
      rw [haddr]
      exact packed_concat (packed_nil _ _) (Nat.le_refl _) (Nat.le_refl _) habove
    refine ⟨hlast, Nat.le_trans htop hle, packed_append hfirst hpacked htop hle,
      by rw [List.length_cons, hlength], ?_⟩
    intro inner hinner
    rcases List.mem_cons.mp hinner with rfl | hinner
    · exact ⟨addr, rfl⟩
    · exact hplain inner hinner

end Allocation

section Addresses

variable {base : AddrType} {dk precision : ℕ}

/-- The addresses of one row lie in the bytes of its tensor. -/
theorem rowTensor_bytes (hprecision : 0 < precision)
    (hroom : base.toNat + precision * ([1, dk] : List ℕ).prod < 2 ^ 64) :
    ∀ x ∈ (⟨base, [1, dk], precision⟩ : NPUTensor2D).getAllAddrs,
      x.toNat ∈ (innerRegion (.plain ⟨base, [1, dk], precision⟩)).bytes := by
  intro x hx
  have hprod : ([1, dk] : List ℕ).prod = dk := by simp
  rw [hprod] at hroom
  rw [NPUTensor2D.getAllAddrs] at hx
  obtain ⟨i, hi, hx⟩ := List.mem_flatMap.mp hx
  obtain ⟨j, hj, rfl⟩ := List.mem_map.mp hx
  have hzero : i = 0 := Nat.lt_one_iff.mp (List.mem_range.mp hi)
  have hlt : j * precision < precision * dk := by
    rw [Nat.mul_comm]
    exact Nat.mul_lt_mul_of_pos_left (List.mem_range.mp hj) hprecision
  have hoffset := Nat.mod_le (j * precision) (2 ^ 32)
  have hnat : (BitVec.ofNat 64 (j * precision % 2 ^ 32)).toNat = j * precision % 2 ^ 32 := by
    rw [BitVec.toNat_ofNat, Nat.mod_eq_of_lt]
    exact Nat.lt_trans (Nat.mod_lt _ (by decide)) (by decide)
  have hsum : base.toNat + (BitVec.ofNat 64 (j * precision % 2 ^ 32)).toNat < 2 ^ 64 := by omega
  rw [hzero, Nat.zero_mul, Nat.zero_add, NPUTensor2D.elementAddr]
  dsimp only
  rw [toNat_add_of_lt hsum, hnat, innerRegion, bytes, stop]
  dsimp only
  rw [hprod]
  exact ⟨Nat.le_add_right _ _, Nat.add_lt_add_left (Nat.lt_of_le_of_lt hoffset hlt) _⟩

end Addresses

namespace NeuPIMSAttend

variable {config : SimulationConfig} {op : NeuPIMSAttend} {k : ℕ} {a a' : ActAlloc}
  {is : List ℕ} {outputs : List NPUTensor}

/-- An output of one row for each head. -/
def OneRow (config : SimulationConfig) (nh dk : ℕ) (t : NPUTensor) : Prop :=
  t.inners.length = nh ∧ ∀ inner ∈ t.inners, ∃ base, inner = .plain ⟨base, [1, dk], config.precision⟩

theorem makeOutputs_packed (hroom : OutputRoom config k (config.precision * [1, op.dk].prod) a)
    (hdims : ∀ i ∈ is, ∀ dims, op.outputDims i = .ok dims → dims = [op.nh, 1, op.dk])
    (h : op.makeOutputs config is a = .ok (outputs, a')) :
    OutputRoom config k (config.precision * [1, op.dk].prod) a' ∧
      a.topAddr.toNat ≤ a'.topAddr.toNat ∧
      Packed a.topAddr.toNat a'.topAddr.toNat ((outputs.flatMap (·.inners)).map innerRegion) ∧
      outputs.length = is.length ∧ ∀ t ∈ outputs, OneRow config op.nh op.dk t := by
  induction is generalizing a outputs with
  | nil =>
    cases h
    exact ⟨hroom, Nat.le_refl _, packed_nil _ _, rfl, fun _ h => absurd h List.not_mem_nil⟩
  | cons i is ih =>
    obtain ⟨dims, hdims', h⟩ := bind_ok.mp h
    obtain ⟨⟨t, m⟩, hmade, h⟩ := bind_ok.mp h
    obtain ⟨⟨rest, m'⟩, hrest, h⟩ := bind_ok.mp h
    cases h
    rw [hdims i List.mem_cons_self dims hdims'] at hmade
    obtain ⟨⟨inners, m''⟩, hinners, hmade⟩ := bind_ok.mp hmade
    cases hmade
    obtain ⟨hroom', htop, hfirst, hlength, hplain⟩ := inners2D_packed hroom hinners
    obtain ⟨hlast, hle, hpacked, hcount, hrows⟩ :=
      ih hroom' (fun j hj => hdims j (List.mem_cons_of_mem _ hj)) hrest
    refine ⟨hlast, Nat.le_trans htop hle, ?_, by rw [List.length_cons, hcount, List.length_cons], ?_⟩
    · rw [List.flatMap_cons, List.map_append]
      exact packed_append hfirst hpacked htop hle
    · intro t ht
      rcases List.mem_cons.mp ht with rfl | ht
      · exact ⟨hlength, hplain⟩
      · exact hrows t ht

/-- The outputs are made for queries of one token only. -/
theorem getOutputs_made {id : ℕ} {name : String} {inputs : List TensorPtr}
    (h : getOutputs config id name inputs a = .ok (op, a')) :
    ∃ start : NeuPIMSAttend, start.makeOutputs config (List.range op.batchSize) a =
        .ok (op.outputs, a') ∧ start.nh = op.nh ∧ start.dk = op.dk ∧
      ∀ i ∈ List.range op.batchSize, ∀ dims, start.outputDims i = .ok dims →
        dims = [start.nh, 1, start.dk] := by
  obtain ⟨logits, -, h⟩ := bind_ok.mp h
  obtain ⟨vs, -, h⟩ := bind_ok.mp h
  obtain ⟨first, -, h⟩ := bind_ok.mp h
  obtain ⟨nh, -, h⟩ := bind_ok.mp h
  obtain ⟨dk, -, h⟩ := bind_ok.mp h
  obtain ⟨made, hmade, h⟩ := bind_ok.mp h
  obtain ⟨looped, hloops, h⟩ := bind_ok.mp h
  obtain ⟨tiles, -, h⟩ := bind_ok.mp h
  obtain ⟨page, -, hloops⟩ := bind_ok.mp hloops
  obtain ⟨tilesPerChunk, -, hloops⟩ := bind_ok.mp hloops
  obtain ⟨batch, hbatch, hloops⟩ := bind_ok.mp hloops
  obtain ⟨reqIdxs, -, hloops⟩ := bind_ok.mp hloops
  cases hloops
  cases h
  refine ⟨_, hmade, rfl, rfl, ?_⟩
  intro i hi dims hdims
  obtain ⟨E, -, hbatch⟩ := bind_ok.mp hbatch
  obtain ⟨headsPerDramPage, -, hbatch⟩ := bind_ok.mp hbatch
  obtain ⟨chunks, -, hbatch⟩ := bind_ok.mp hbatch
  obtain ⟨sramSize, -, hbatch⟩ := bind_ok.mp hbatch
  obtain ⟨needs, hneeds, -⟩ := bind_ok.mp hbatch
  obtain ⟨need, -, hneed⟩ := Strided.forall₂_left (mapM_forall₂ hneeds) i hi
  obtain ⟨logit, hlogit, hneed⟩ := bind_ok.mp hneed
  obtain ⟨value, -, hneed⟩ := bind_ok.mp hneed
  obtain ⟨qLen, hqLen, hneed⟩ := bind_ok.mp hneed
  obtain ⟨lastDim, -, hneed⟩ := bind_ok.mp hneed
  obtain ⟨logit', hlogit', hdims⟩ := bind_ok.mp hdims
  obtain ⟨value', -, hdims⟩ := bind_ok.mp hdims
  obtain ⟨seqLen, -, hdims⟩ := bind_ok.mp hdims
  obtain ⟨l, hl, hdims⟩ := bind_ok.mp hdims
  cases hlogit.symm.trans hlogit'
  cases hqLen.symm.trans hl
  split at hneed
  · next hone =>
    split at hdims
    · rw [hone] at hdims
      exact (Except.ok.inj hdims).symm
    · cases hdims
  · cases hneed

/-- The addresses of the output of a head. -/
def headAddrs (op : NeuPIMSAttend) (i hi : ℕ) : List AddrType :=
  (outputAddrs op.outputs i hi).toOption.getD []

/-- A head has an output. -/
theorem outputAddrs_head {i hi : ℕ} {t : NPUTensor} {base : AddrType} (hdk : 0 < op.dk)
    (ht : op.outputs[i]? = some t)
    (hinner : t.inners[hi]? = some (.plain ⟨base, [1, op.dk], config.precision⟩)) :
    outputAddrs op.outputs i hi =
      .ok (⟨base, [1, op.dk], config.precision⟩ : NPUTensor2D).getAllAddrs := by
  have hne : (⟨base, [1, op.dk], config.precision⟩ : NPUTensor2D).getAllAddrs ≠ [] := by
    rw [NPUTensor2D.getAllAddrs]
    simp only [List.range_one, List.flatMap_cons, List.flatMap_nil, List.append_nil, ne_eq,
      List.map_eq_nil_iff, List.range_eq_nil]
    exact Nat.ne_of_gt hdk
  refine bind_ok.mpr ⟨t, by rw [vectorAt, ht], bind_ok.mpr ⟨_, by rw [vectorAt, hinner],
    bind_ok.mpr ⟨_, rfl, ?_⟩⟩⟩
  rw [if_neg hne]

theorem outputAddrs_ne_nil {outputs : List NPUTensor} {i hi : ℕ} {addrs : List AddrType}
    (h : outputAddrs outputs i hi = .ok addrs) : addrs ≠ [] := by
  obtain ⟨output, -, h⟩ := bind_ok.mp h
  obtain ⟨inner, -, h⟩ := bind_ok.mp h
  obtain ⟨all, -, h⟩ := bind_ok.mp h
  split at h
  · cases h
  · next hne =>
    rw [← Except.ok.inj h]
    exact hne

/-- A symmetric relation between the elements of a list, at different places. -/
theorem pairwise_getElem {α : Type} {R : α → α → Prop} {xs : List α} {x y : α} {i j : ℕ}
    (hsymm : ∀ x y, R x y → R y x) (h : xs.Pairwise R) (hi : xs[i]? = some x)
    (hj : xs[j]? = some y) (hne : i ≠ j) : R x y := by
  obtain ⟨hi, rfl⟩ := List.getElem?_eq_some_iff.mp hi
  obtain ⟨hj, rfl⟩ := List.getElem?_eq_some_iff.mp hj
  rw [List.pairwise_iff_getElem] at h
  rcases Nat.lt_or_gt_of_ne hne with hlt | hlt
  · exact h i j _ _ hlt
  · exact hsymm _ _ (h j i _ _ hlt)

/-- The outputs of different heads have no address in common. -/
theorem headAddrs_apart {id : ℕ} {name : String} {inputs : List TensorPtr}
    (h : getOutputs config id name inputs a = .ok (op, a'))
    (hroom : OutputRoom config k (config.precision * op.dk) a) :
    (∀ i < op.batchSize, ∀ hi < op.nh,
      outputAddrs op.outputs i hi = .ok (op.headAddrs i hi) ∧ op.headAddrs i hi ≠ []) ∧
    ∀ i < op.batchSize, ∀ hi < op.nh, ∀ i' < op.batchSize, ∀ hi' < op.nh,
      (i, hi) ≠ (i', hi') → ∀ x ∈ op.headAddrs i hi, x ∉ op.headAddrs i' hi' := by
  obtain ⟨start, hmade, hnh, hdk, hdims⟩ := getOutputs_made h
  obtain ⟨-, hprecision, -, -, hpos⟩ := getOutputs_sizes h
  have hsize : ([1, op.dk] : List ℕ).prod = op.dk := by simp
  rw [← hsize, ← hdk] at hroom
  obtain ⟨hlast, -, hpacked, hlength, hrows⟩ := makeOutputs_packed hroom hdims hmade
  rw [hnh, hdk] at hrows
  rw [hdk] at hlast
  rw [List.length_range] at hlength
  have hinner : ∀ i < op.batchSize, ∀ hi < op.nh, ∃ t base, op.outputs[i]? = some t ∧
      t.inners[hi]? = some (.plain ⟨base, [1, op.dk], config.precision⟩) := by
    intro i hi head hhead
    have hlt : i < op.outputs.length := by omega
    obtain ⟨hheads, hplain⟩ := hrows op.outputs[i] (List.getElem_mem hlt)
    have hlt' : head < op.outputs[i].inners.length := by omega
    obtain ⟨base, hbase⟩ := hplain _ (List.getElem_mem hlt')
    refine ⟨_, base, List.getElem?_eq_getElem hlt, ?_⟩
    rw [List.getElem?_eq_getElem hlt', hbase]
  -- the bytes of the outputs lie apart
  have hbytes : ∀ {i hi t base}, op.outputs[i]? = some t →
      t.inners[hi]? = some (.plain ⟨base, [1, op.dk], config.precision⟩) →
      ∀ x ∈ op.headAddrs i hi,
        x.toNat ∈ (innerRegion (.plain ⟨base, [1, op.dk], config.precision⟩)).bytes := by
    intro i hi t base ht hbase x hx
    rw [headAddrs, outputAddrs_head hpos ht hbase] at hx
    refine rowTensor_bytes hprecision ?_ x hx
    have hmem : innerRegion (.plain ⟨base, [1, op.dk], config.precision⟩) ∈
        (op.outputs.flatMap (·.inners)).map innerRegion :=
      List.mem_map_of_mem (List.mem_flatMap.mpr ⟨t, List.mem_of_getElem? ht,
        List.mem_of_getElem? hbase⟩)
    have hstop := (hpacked.bounds _ hmem).2
    rw [innerRegion, stop] at hstop
    have htop := hlast.top
    have hlimit := hlast.limit
    dsimp only at hstop
    rw [hsize] at hstop hlimit ⊢
    have hone : 0 < config.precision * op.dk := Nat.mul_pos hprecision hpos
    omega
  have hapart := hpacked.pairwise
  rw [List.pairwise_map, List.pairwise_flatMap] at hapart
  obtain ⟨hwithin, hbetween⟩ := hapart
  refine ⟨?_, ?_⟩
  · intro i hi head hhead
    obtain ⟨t, base, ht, hbase⟩ := hinner i hi head hhead
    have haddrs := outputAddrs_head hpos ht hbase
    have heq : op.headAddrs i head =
        (⟨base, [1, op.dk], config.precision⟩ : NPUTensor2D).getAllAddrs := by
      rw [headAddrs, haddrs]
      rfl
    rw [heq]
    exact ⟨haddrs, outputAddrs_ne_nil haddrs⟩
  · intro i hi head hhead i' hi' head' hhead' hne x hx hx'
    obtain ⟨t, base, ht, hbase⟩ := hinner i hi head hhead
    obtain ⟨t', base', ht', hbase'⟩ := hinner i' hi' head' hhead'
    have hmem := hbytes ht hbase x hx
    have hmem' := hbytes ht' hbase' x hx'
    by_cases hi : i = i'
    · subst hi
      cases ht.symm.trans ht'
      have hhead : head ≠ head' := fun heq => hne (by rw [heq])
      exact pairwise_getElem (fun _ _ => apart_symm) (hwithin t (List.mem_of_getElem? ht)) hbase
        hbase' hhead _ hmem hmem'
    · have hall := pairwise_getElem (fun _ _ hxy y hy x hx => apart_symm (hxy x hx y hy)) hbetween
        ht ht' hi
      exact hall _ (List.mem_of_getElem? hbase) _ (List.mem_of_getElem? hbase') _ hmem hmem'

end NeuPIMSAttend

end NewPims

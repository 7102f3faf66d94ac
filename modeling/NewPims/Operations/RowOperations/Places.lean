import Mathlib.Algebra.BigOperators.Ring.List
import NewPims.Operations.RowOperations.Processing
import NewPims.Operations.Slots

/-! The tiles of the operations on rows fit in the scratchpad: each row that is loaded has a place
of its own, and the results take no room. -/
namespace NewPims

open Transition Strided
open NeuPIMSCore (takes)
open MatMul (sramOffset spadLimit)

section Tensors

variable {config : SimulationConfig} {t : NPUTensor} {r : ℕ} {addrs : List AddrType}

/-- The inner tensors have the dimensions that the constructor gives them. -/
structure NPUTensor.Consistent (t : NPUTensor) : Prop where
  length : t.inners.length = (innerDims t.dims).1
  dims : ∀ inner, .plain inner ∈ t.inners → inner.dims = (innerDims t.dims).2

theorem mem_of_vectorAt {α : Type} {xs : List α} {i : ℕ} {x : α} (h : vectorAt xs i = .ok x) :
    x ∈ xs := by
  unfold vectorAt at h
  split at h
  · next hsome =>
    cases h
    exact List.mem_of_getElem? hsome
  · cases h

/-- A row has as many addresses as the tensor has columns. -/
theorem getRowAddrs_back (h : t.Consistent) (haddrs : t.getRowAddrs r = .ok addrs) :
    t.dims.getLast? = some addrs.length := by
  have hinner : ∀ {inner : NPUTensorInner} {r : ℕ}, inner ∈ t.inners →
      inner.getRowAddrs r = .ok addrs →
      ∃ n rest, (NPUTensor.innerDims t.dims).2 = n :: addrs.length :: rest := by
    intro inner r hmem hrow
    cases inner with
    | kv => cases hrow
    | plain inner =>
      have hdims := h.dims inner hmem
      rw [← hdims]
      rw [NPUTensorInner.getRowAddrs, NPUTensor2D.getRowAddrs] at hrow
      split at hrow
      · next n columns rest heq =>
        cases hrow
        exact ⟨n, rest, by rw [heq, List.length_map, List.length_range]⟩
      · cases hrow
  unfold NPUTensor.getRowAddrs at haddrs
  split at haddrs
  · next heq =>
    obtain ⟨inner, hat, hrow⟩ := bind_ok.mp haddrs
    obtain ⟨n, rest, hdims⟩ := hinner (mem_of_vectorAt hat) hrow
    rw [heq] at hdims ⊢
    cases hdims
    rfl
  · next heq =>
    obtain ⟨i, -, haddrs⟩ := bind_ok.mp haddrs
    obtain ⟨inner, hat, hrow⟩ := bind_ok.mp haddrs
    obtain ⟨n, rest, hdims⟩ := hinner (mem_of_vectorAt hat) hrow
    rw [heq] at hdims ⊢
    cases hdims
    rfl
  · cases haddrs

theorem innerDims_prod (dims : List ℕ) :
    (NPUTensor.innerDims dims).1 * (NPUTensor.innerDims dims).2.prod = dims.prod := by
  unfold NPUTensor.innerDims
  split <;> simp

theorem zero_notMem_innerDims {dims : List ℕ} (h : 0 ∉ dims) :
    0 ∉ (NPUTensor.innerDims dims).2 := by
  unfold NPUTensor.innerDims
  split
  · exact fun hmem => h (List.mem_cons_of_mem _ hmem)
  · exact h

theorem length_getAllAddrs2D (inner : NPUTensor2D) (h : 0 ∉ inner.dims) :
    inner.getAllAddrs.length ≤ inner.dims.prod := by
  rw [NPUTensor2D.getAllAddrs]
  split
  · exact Nat.zero_le _
  · next heq => simp [heq]
  · next rows columns rest heq =>
    rw [heq] at h ⊢
    have hrest : 0 < rest.prod := by
      apply Nat.pos_of_ne_zero
      intro hzero
      have := List.prod_eq_zero_iff.mp hzero
      exact h (List.mem_cons_of_mem _ (List.mem_cons_of_mem _ this))
    simp only [List.length_flatMap, List.length_map, List.length_range, List.map_const',
      List.sum_replicate_nat, List.prod_cons]
    exact Nat.mul_le_mul_left _ (Nat.le_mul_of_pos_right _ hrest)

/-- A tensor has at most as many addresses as elements. -/
theorem length_getAllAddrs (h : t.Consistent) (hzero : 0 ∉ t.dims)
    (haddrs : t.getAllAddrs = .ok addrs) : addrs.length ≤ t.dims.prod := by
  rw [NPUTensor.getAllAddrs] at haddrs
  split_ifs at haddrs
  obtain ⟨parts, hparts, haddrs⟩ := bind_ok.mp haddrs
  cases haddrs
  have hforall := mapM_forall₂ hparts
  have hpart : ∀ x ∈ parts.map List.length, x ≤ (NPUTensor.innerDims t.dims).2.prod := by
    intro x hx
    obtain ⟨part, hpart, rfl⟩ := List.mem_map.mp hx
    obtain ⟨inner, hinner, hok⟩ := forall₂_right hforall part hpart
    cases inner with
    | kv => cases hok
    | plain inner =>
      cases hok
      rw [← h.dims inner hinner]
      apply length_getAllAddrs2D
      rw [h.dims inner hinner]
      exact zero_notMem_innerDims hzero
  rw [List.length_flatten, ← innerDims_prod, ← h.length, hforall.length_eq]
  have hsum := List.sum_le_card_nsmul _ _ hpart
  rwa [List.length_map] at hsum

/-- The constructor makes the inner tensors with these dimensions. -/
theorem activation_consistent {dims : List ℕ} {a : ActAlloc} {made : NPUTensor × ActAlloc}
    (h : NPUTensor.activation config dims a = .ok made) :
    made.1.Consistent ∧ made.1.dims = dims := by
  obtain ⟨⟨inners, b⟩, hinners, h⟩ := bind_ok.mp h
  cases h
  obtain ⟨hlength, hplain⟩ := inners2D_plain hinners
  refine ⟨⟨hlength, fun inner hinner => ?_⟩, rfl⟩
  obtain ⟨baseAddr, precision, heq⟩ := hplain _ hinner
  cases heq
  rfl

end Tensors

namespace RowOperation

variable {config : SimulationConfig} {W inner N count : ℕ}

/-- Rows of `W` elements that follow one another in the scratchpad: the key of the row `j`. -/
def rowKey (config : SimulationConfig) (W j : ℕ) : AddrType := spadSlot config (j * W)

/-- The key of the result of the row at an offset of the tile. -/
def resultKey (config : SimulationConfig) (W offset : ℕ) : AddrType := accSlot config (offset * W)

/-- The instructions load at most one row to each of the places, and their results, which come to
the first `inner` places of the accumulator, have no size. -/
structure Places (config : SimulationConfig) (W inner : ℕ) (places : List ℕ)
    (insts : List Instruction) : Prop where
  loads : ((insts.filter fun i => i.opcode = .MOVIN).map (·.destAddr)).Sublist
    (places.map (rowKey config W))
  size : ∀ i ∈ insts, i.opcode = .MOVIN → i.size ≤ W * config.precision
  compute : ∀ i ∈ insts, takes .SA .compute i →
    i.size = 0 ∧ ∃ offset < inner, i.destAddr = resultKey config W offset

section Places

variable {places places' : List ℕ} {insts insts' : List Instruction}

theorem places_nil (config : SimulationConfig) (W inner : ℕ) (places : List ℕ) :
    Places config W inner places [] :=
  ⟨List.nil_sublist _, fun _ hi => absurd hi List.not_mem_nil,
    fun _ hi => absurd hi List.not_mem_nil⟩

theorem places_append (h : Places config W inner places insts)
    (h' : Places config W inner places' insts') :
    Places config W inner (places ++ places') (insts ++ insts') := by
  refine ⟨?_, ?_, ?_⟩
  · rw [List.filter_append, List.map_append, List.map_append]
    exact List.Sublist.append h.loads h'.loads
  · intro i hi
    exact (List.mem_append.mp hi).elim (h.size i) (h'.size i)
  · intro i hi
    exact (List.mem_append.mp hi).elim (h.compute i) (h'.compute i)

theorem places_flatten {α : Type} {xs : List α} {blocks : List (List Instruction)}
    {places : α → List ℕ}
    (h : List.Forall₂ (fun x block => Places config W inner (places x) block) xs blocks) :
    Places config W inner (xs.flatMap places) blocks.flatten := by
  induction h with
  | nil => exact places_nil config W inner []
  | cons hx _ ih =>
    rw [List.flatMap_cons, List.flatten_cons]
    exact places_append hx ih

/-- A load of a row. -/
theorem places_load {j size : ℕ} {srcAddrs : List AddrType} {operandId : ℕ} {dest : AddrType}
    (hdest : dest = rowKey config W j) (hsize : size ≤ W * config.precision) :
    Places config W inner [j]
      [{ opcode := .MOVIN, destAddr := dest, size, srcAddrs, operandId }] := by
  refine ⟨?_, ?_, ?_⟩
  · rw [hdest]
    exact List.Sublist.refl _
  · intro i hi _
    rw [List.mem_singleton.mp hi]
    exact hsize
  · intro i hi htakes
    rw [List.mem_singleton.mp hi] at htakes
    exact absurd htakes Bool.false_ne_true

/-- The computation of a row and the store of its result. -/
theorem places_result {opcode : Opcode} {offset : ℕ} {srcAddrs : List AddrType}
    {store : Instruction} (hopcode : opcode ≠ .MOVIN) (hoffset : offset < inner)
    (hstore : store.opcode = .MOVOUT) :
    Places config W inner [] [computeRow opcode (resultKey config W offset) [] srcAddrs, store] := by
  refine ⟨?_, ?_, ?_⟩
  · simp [computeRow, hopcode, hstore]
  · intro i hi hmovin
    rcases List.mem_cons.mp hi with rfl | hi
    · exact absurd hmovin hopcode
    · rw [List.mem_singleton.mp hi, hstore] at hmovin
      cases hmovin
  · intro i hi htakes
    rcases List.mem_cons.mp hi with rfl | hi
    · exact ⟨rfl, offset, hoffset, rfl⟩
    · rw [List.mem_singleton.mp hi, takes, hstore] at htakes
      exact absurd htakes Bool.false_ne_true

end Places

section Fits

/-- The rooms of the rows, and those of the results, which need none. -/
def rowBudget (config : SimulationConfig) (W count : ℕ)
    (h : count * (W * config.precision) ≤ spadHalf config) : Budget AddrType (spadHalf config) :=
  (Budget.uniform ((List.range count).map (rowKey config W)) (W * config.precision)).widen
    (by rwa [List.length_map, List.length_range])

def resultBudget (config : SimulationConfig) (W inner : ℕ) : Budget AddrType (spadHalf config) :=
  (Budget.uniform ((List.range inner).map (resultKey config W)) 0).widen (Nat.zero_le _)

theorem rowKey_fits (h : Layout config) (hW : 0 < W)
    (hroom : count * (W * config.precision) ≤ spadHalf config) {j : ℕ} (hj : j < count) :
    j * W * config.precision < spadHalf config := by
  rw [Nat.mul_assoc]
  refine Nat.lt_of_lt_of_le ?_ hroom
  exact Nat.mul_lt_mul_of_pos_right hj (Nat.mul_pos hW h.precision)

/-- A tile whose rows have places of their own fits. -/
theorem fits_places {places : List ℕ} {tile : Tile} (h : Layout config)
    (hW : ∀ j ∈ places, 0 < W) (hroom : count * (W * config.precision) ≤ spadHalf config)
    (hnodup : places.Nodup) (hcount : ∀ j ∈ places, j < count) (hruns : tile.skip = false)
    (hplaces : Places config W inner places tile.instructions) :
    Fits (resultBudget config W inner) tile := by
  have hfits : ∀ j ∈ places, j * W * config.precision < spadHalf config :=
    fun j hj => rowKey_fits h (hW j hj) hroom (hcount j hj)
  have hkeys : (places.map (rowKey config W)).Nodup := by
    apply hnodup.map_on
    intro i hi j hj heq
    exact Nat.eq_of_mul_eq_mul_right (hW i hi) (spadSlot_inj h (hfits i hi) (hfits j hj) heq)
  have hload : ∀ i ∈ tile.loads, ∃ j ∈ places, i.destAddr = rowKey config W j := by
    intro i hi
    obtain ⟨j, hj, heq⟩ := List.mem_map.mp (hplaces.loads.subset (List.mem_map_of_mem hi))
    exact ⟨j, hj, heq.symm⟩
  refine ⟨hruns, hkeys.sublist hplaces.loads, ⟨rowBudget config W count hroom, ?_⟩, ?_, ?_⟩
  · intro i hi _
    obtain ⟨j, hj, heq⟩ := hload i hi
    have hmem := List.mem_filter.mp hi
    refine Budget.allows_uniform ?_ (hplaces.size i hmem.1 (of_decide_eq_true hmem.2))
    rw [heq]
    exact List.mem_map_of_mem (List.mem_range.mpr (hcount j hj))
  · intro i hi hside
    obtain ⟨j, hj, heq⟩ := hload i hi
    rw [heq] at hside
    exact absurd hside (spadSlot_lt h (hfits j hj))
  · intro i hi htakes
    obtain ⟨hsize, offset, hoffset, heq⟩ := hplaces.compute i hi htakes
    refine Budget.allows_uniform ?_ (Nat.le_of_eq hsize)
    rw [heq]
    exact List.mem_map_of_mem (List.mem_range.mpr hoffset)

variable {id : ℕ} {name : String} {common : Except Fault (List Instruction)}
  {body : ℕ → ℕ → Except Fault (List Instruction)} {loops : ℕ × ℕ} {tiles : List RowTile}
  {first : List ℕ} {rowPlaces : ℕ → List ℕ}

/-- Where the body of the loop over the rows loads to. -/
def BodyPlaces (config : SimulationConfig) (W inner : ℕ) (rowPlaces : ℕ → List ℕ)
    (body : ℕ → ℕ → Except Fault (List Instruction)) : Prop :=
  ∀ r, ∀ offset < inner, ∀ insts, body r offset = .ok insts →
    Places config W inner (rowPlaces offset) insts

/-- The instructions of a tile are those that come first and those of its rows. -/
theorem initializeInstructions_places {tile : RowTile}
    (hfirst : ∀ insts, common = .ok insts → Places config W inner first insts)
    (hbody : BodyPlaces config W inner rowPlaces body)
    (h : initializeInstructions id name common body inner N = .ok tile) :
    Places config W inner (first ++ (List.range inner).flatMap rowPlaces) tile.tile.instructions ∧
      tile.tile.skip = false ∧ tile.tile.accum = false ∧
      (0 < inner → ∃ r insts, body r 0 = .ok insts) := by
  obtain ⟨insts, hinsts, h⟩ := bind_ok.mp h
  obtain ⟨rows, hrows, h⟩ := bind_ok.mp h
  cases h
  have hforall := mapM_forall₂ hrows
  have hblocks : List.Forall₂ (fun offset block => Places config W inner (rowPlaces offset) block)
      (List.range inner) (rows.map fun row => row.map (·.inst)) := by
    rw [List.forall₂_map_right_iff]
    refine (List.forall₂_iff_get.mpr ⟨hforall.length_eq, ?_⟩)
    intro i hi hi'
    have hrow := (List.forall₂_iff_get.mp hforall).2 i hi hi'
    obtain ⟨block, hblock, heq⟩ := bind_ok.mp hrow
    have hlt := List.mem_range.mp (List.get_mem (List.range inner) ⟨i, hi⟩)
    rw [← Except.ok.inj heq, List.map_map]
    simpa [Function.comp_def] using hbody _ _ hlt block hblock
  refine ⟨?_, rfl, rfl, fun hinner => ?_⟩
  · dsimp only
    rw [List.map_flatten]
    exact places_append (hfirst insts hinsts) (places_flatten hblocks)
  · obtain ⟨row, -, hrow⟩ := forall₂_left hforall 0 (List.mem_range.mpr hinner)
    obtain ⟨block, hblock, -⟩ := bind_ok.mp hrow
    exact ⟨_, block, hblock⟩

/-- All tiles of an operation on rows fit the same budget, and none accumulates. -/
theorem fits_initializeTiles (h : Layout config)
    (hroom : count * (W * config.precision) ≤ spadHalf config)
    (hfirst : ∀ insts, common = .ok insts → Places config W loops.1 first insts)
    (hbody : BodyPlaces config W loops.1 rowPlaces body)
    (hnodup : (first ++ (List.range loops.1).flatMap rowPlaces).Nodup)
    (hcount : ∀ j ∈ first ++ (List.range loops.1).flatMap rowPlaces, j < count)
    (hW : ∀ j ∈ first, 0 < W) (hbodyW : ∀ r offset insts, body r offset = .ok insts → 0 < W)
    (hmade : RowOperation.initializeTiles id name common body loops = .ok tiles) :
    ∀ tile ∈ tiles, Fits (resultBudget config W loops.1) tile.tile ∧ tile.tile.accum = false := by
  intro tile htile
  obtain ⟨N, -, hN⟩ := forall₂_right (mapM_forall₂ hmade) tile htile
  obtain ⟨hplaces, hruns, haccum, hrow⟩ := initializeInstructions_places hfirst hbody hN
  refine ⟨fits_places h ?_ hroom hnodup hcount hruns hplaces, haccum⟩
  intro j hj
  rcases List.mem_append.mp hj with hj | hj
  · exact hW j hj
  · -- there is a row, and so one of its bodies has run
    obtain ⟨offset, hoffset, -⟩ := List.mem_flatMap.mp hj
    obtain ⟨r, insts, hok⟩ := hrow (Nat.lt_of_le_of_lt (Nat.zero_le _) (List.mem_range.mp hoffset))
    exact hbodyW r 0 insts hok

end Fits

end RowOperation

end NewPims

import NewPims.NPUKVCache.Addresses

/-! The shape of a tensor of keys or values and the shapes of its inner tensors while it grows. -/
namespace NewPims.NPUKVCache

open Transition

/-- The dimensions of a key `(nh, dk, T)` and of a value `(nh, T, dk)`. -/
def headDims (isKey : Bool) (nh dk len : ℕ) : List ℕ := if isKey then [nh, dk, len] else [nh, len, dk]

/-- The tensor reports the length `len`, gives addresses for its positions and no others, and its
inner tensors have its shape. -/
structure HasLength (t : NPUTensor) (isKey : Bool) (nh dk len : ℕ) : Prop where
  reports : t.getDims[if isKey then 2 else 1]? = some len
  accepts : ∀ head position component,
    (∃ addr, t.getAddr (headDims isKey head component position) = .ok addr) ↔
      head < nh ∧ component < dk ∧ position < len
  inner : ∀ inner ∈ t.inners, ∃ kv, inner = .kv kv ∧ t.getDims.tail = kv.dims

/-- `add_token`, with the free blocks that the allocator has at that time. -/
def growTensor (t : NPUTensor) (a : NPUKVCache) : Except Fault NPUTensor :=
  (t.addToken a).map Prod.fst

variable {config : SimulationConfig} {a b : NPUKVCache} {isKey : Bool} {nh dk len n : ℕ}
  {t t' : NPUTensor} {inners : List NPUTensorInner} {dims : List ℕ} {allocs : List NPUKVCache}

theorem innersKV_ok (hwidth : ∀ d ∈ dims[if isKey then 0 else 1]?, d ≤ dk)
    (h : NPUTensor.innersKV config dims isKey n a = .ok (inners, b)) :
    inners.length = n ∧ ∀ inner ∈ inners, ∃ kv, inner = .kv kv ∧ Shaped config dk kv ∧
      kv.isKey = isKey ∧ kv.dims = dims := by
  induction n generalizing a inners with
  | zero =>
    cases h
    exact ⟨rfl, fun inner hinner => absurd hinner List.not_mem_nil⟩
  | succ n ih =>
    rw [NPUTensor.innersKV] at h
    obtain ⟨⟨first, c⟩, hfirst, h⟩ := bind_ok.mp h
    obtain ⟨⟨rest, d⟩, hrest, h⟩ := bind_ok.mp h
    cases h
    obtain ⟨hlen, hall⟩ := ih hrest
    obtain ⟨hshaped, hkey, hdims, -⟩ := new_ok hfirst hwidth
    refine ⟨by rw [List.length_cons, hlen], fun inner hinner => ?_⟩
    rcases List.mem_cons.mp hinner with rfl | hinner
    · exact ⟨first, rfl, hshaped, hkey, hdims⟩
    · exact hall inner hinner

/-- An index in range reaches the inner tensor of its head. -/
theorem getAddr_three {x y i j k : ℕ} : NPUTensor.getAddr ⟨[nh, x, y], inners⟩ [i, j, k] =
    if i < nh ∧ j < x ∧ k < y then vectorAt inners i >>= fun inner => inner.getAddr [j, k]
    else .error .invalidAddress := by
  have hrange : List.Forall₂ (· < ·) [i, j, k] [nh, x, y] ↔ i < nh ∧ j < x ∧ k < y := by
    rw [List.forall₂_cons, List.forall₂_cons, List.forall₂_cons,
      and_iff_left List.Forall₂.nil]
  by_cases hin : i < nh ∧ j < x ∧ k < y
  · rw [if_pos hin]
    exact (if_neg (not_not_intro rfl)).trans (if_neg (not_not_intro (hrange.mpr hin)))
  · rw [if_neg hin]
    exact (if_neg (not_not_intro rfl)).trans (if_pos fun h => hin (hrange.mp h))

theorem getAddr_three_ok {x y i j k : ℕ} {addr : AddrType}
    (h : NPUTensor.getAddr ⟨[nh, x, y], inners⟩ [i, j, k] = .ok addr) : i < nh ∧ j < x ∧ k < y := by
  rw [getAddr_three] at h
  split at h
  · next hin => exact hin
  · cases h

/-- The inner tensor of a head has an address for every position and component. -/
theorem exists_headAddr {head position component : ℕ} (hlen : inners.length = nh)
    (hall : ∀ inner ∈ inners, ∃ kv, inner = .kv kv ∧ Shaped config dk kv ∧ kv.isKey = isKey ∧
      kv.dims = if isKey then [dk, len] else [len, dk])
    (hhead : head < nh) (hposition : position < len) (hcomponent : component < dk) :
    ∃ addr, (vectorAt inners head >>= fun inner => inner.getAddr
      (if isKey then [component, position] else [position, component])) = .ok addr := by
  have hlt : head < inners.length := by rwa [hlen]
  obtain ⟨kv, hkv, hshaped, hkey, hdims⟩ := hall inners[head] (List.getElem_mem hlt)
  have hin : InRange kv position component := by
    have hlength := hshaped.length
    rw [hkey, hdims] at hlength
    rw [InRange, hkey, hdims]
    cases isKey with
    | true =>
      cases hlength
      exact ⟨hposition, dk, rfl, hcomponent⟩
    | false =>
      cases hlength
      exact ⟨hposition, dk, rfl, hcomponent⟩
  obtain ⟨d, addr, -, -, -, -, hget⟩ := getAddr_shaped hshaped hin
  rw [elementIndex, hkey] at hget
  refine ⟨_, bind_ok.mpr ⟨.kv kv, ?_, hget⟩⟩
  rw [vectorAt, List.getElem?_eq_getElem hlt, hkv]

/-- The constructor makes a tensor of the length it is given. -/
theorem keysOrValues_hasLength
    (h : NPUTensor.keysOrValues config (headDims isKey nh dk len) isKey a = .ok (t, b)) :
    t.dims = headDims isKey nh dk len ∧ HasLength t isKey nh dk len := by
  unfold NPUTensor.keysOrValues at h
  split at h
  · cases h
  · obtain ⟨⟨inners, c⟩, hinners, h⟩ := bind_ok.mp h
    cases h
    refine ⟨rfl, ?_⟩
    cases isKey with
    | true =>
      have hwidth : ∀ d ∈ [dk, len][0]?, d ≤ dk := fun d hd => (Option.some.inj hd).symm.le
      obtain ⟨hlen, hall⟩ := innersKV_ok hwidth hinners
      refine ⟨rfl, fun head position component => ⟨fun haddr => ?_, fun hin => ?_⟩, ?_⟩
      · obtain ⟨addr, haddr⟩ := haddr
        exact getAddr_three_ok haddr
      · obtain ⟨hhead, hcomponent, hposition⟩ := hin
        obtain ⟨addr, haddr⟩ := exists_headAddr hlen hall hhead hposition hcomponent
        exact ⟨addr, getAddr_three.trans ((if_pos ⟨hhead, hcomponent, hposition⟩).trans haddr)⟩
      · intro inner hinner
        obtain ⟨kv, hkv, -, -, hdims⟩ := hall inner hinner
        exact ⟨kv, hkv, hdims.symm⟩
    | false =>
      have hwidth : ∀ d ∈ [len, dk][1]?, d ≤ dk := fun d hd => (Option.some.inj hd).symm.le
      obtain ⟨hlen, hall⟩ := innersKV_ok hwidth hinners
      refine ⟨rfl, fun head position component => ⟨fun haddr => ?_, fun hin => ?_⟩, ?_⟩
      · obtain ⟨addr, haddr⟩ := haddr
        obtain ⟨hhead, hposition, hcomponent⟩ := getAddr_three_ok haddr
        exact ⟨hhead, hcomponent, hposition⟩
      · obtain ⟨hhead, hcomponent, hposition⟩ := hin
        obtain ⟨addr, haddr⟩ := exists_headAddr hlen hall hhead hposition hcomponent
        exact ⟨addr, getAddr_three.trans ((if_pos ⟨hhead, hposition, hcomponent⟩).trans haddr)⟩
      · intro inner hinner
        obtain ⟨kv, hkv, -, -, hdims⟩ := hall inner hinner
        exact ⟨kv, hkv, hdims.symm⟩

theorem run_growTensor (h : run growTensor t allocs = .ok t') : t'.dims = t.dims := by
  refine run_invariant (fun s : NPUTensor => s.dims = t.dims) ?_ rfl h
  intro s a s' hs hstep
  obtain ⟨⟨grown, c⟩, hgrown, rfl⟩ := map_ok hstep
  obtain ⟨made, -, heq⟩ := map_ok hgrown
  cases heq
  exact hs

/-- After any number of tokens a tensor has the length that counts them if and only if there are
none. -/
theorem grown_hasLength_iff
    (hnew : NPUTensor.keysOrValues config (headDims isKey nh dk len) isKey a = .ok (t, b))
    (hrun : run growTensor t allocs = .ok t') :
    HasLength t' isKey nh dk (len + allocs.length) ↔ allocs.length = 0 := by
  obtain ⟨hdims, hlength⟩ := keysOrValues_hasLength hnew
  constructor
  · intro h
    have hreports := h.reports
    rw [NPUTensor.getDims, run_growTensor hrun] at hreports
    have hreported := hlength.reports.symm.trans hreports
    have hsame := Option.some.inj hreported
    omega
  · intro hnone
    rw [List.length_eq_zero_iff.mp hnone] at hrun ⊢
    cases hrun
    exact hlength

def freeBlocks : NPUKVCache := ⟨[0, 4096, 8192]⟩

theorem grown_hasLength_iff_sample : ∃ t b,
    NPUTensor.keysOrValues sampleConfig (headDims true 2 64 7) true freeBlocks = .ok (t, b) ∧
      HasLength t true 2 64 7 := by
  obtain ⟨⟨t, b⟩, hnew⟩ := exists_ok
    (x := NPUTensor.keysOrValues sampleConfig (headDims true 2 64 7) true freeBlocks) rfl
  exact ⟨t, b, hnew, (grown_hasLength_iff hnew (run_nil t)).mpr rfl⟩

/-- The eighth token of a key of length 7 is neither reported nor given an address. -/
theorem newToken_invalid : ∃ t b t',
    NPUTensor.keysOrValues sampleConfig (headDims true 2 64 7) true freeBlocks = .ok (t, b) ∧
      run growTensor t [b] = .ok t' ∧ t'.getDims = [2, 64, 7] ∧
      t'.getAddr [0, 0, 7] = .error .invalidAddress ∧ ¬ HasLength t' true 2 64 8 := by
  refine ⟨_, _, _, rfl, rfl, rfl, rfl, fun h => ?_⟩
  exact absurd h.reports (by decide)

end NewPims.NPUKVCache

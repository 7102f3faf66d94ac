import NewPims.Lib.Bank
import NewPims.Lib.Strided
import NewPims.MemoryAccess.Channels
import NewPims.NPUKVCache.Capacity

/-! The addresses of the elements of all key and value tensors of a run: they lie in the blocks of
their tensors, and no two elements share one. -/
namespace NewPims.NPUKVCache

open AddressConfig Bank Paging Strided Transition

inductive Call
  | construct (dims : List ℕ) (isKey : Bool)
  | addToken (tensor : ℕ)
  deriving DecidableEq, Repr

/-- The allocator with the tensors that have been constructed. -/
structure Pool where
  cache : NPUKVCache
  tensors : List NPUTensorKV := []
  deriving DecidableEq, Repr

def Pool.step (config : SimulationConfig) (P : Pool) : Call → Except Fault Pool
  | .construct dims isKey =>
    (NPUTensorKV.new config dims isKey P.cache).map fun made => ⟨made.2, P.tensors ++ [made.1]⟩
  | .addToken i =>
    match P.tensors[i]? with
    | none => .error .nullPointer
    | some t => (t.addToken P.cache).map fun grown => ⟨grown.2, P.tensors.set i grown.1⟩

/-- The tensor has no more components than the blocks are laid out for. -/
def Call.HeadSized (dk : ℕ) : Call → Prop
  | .construct dims isKey => ∀ d ∈ dims[if isKey then 0 else 1]?, d ≤ dk
  | .addToken _ => True

/-- The index of a component at a position of the sequence. -/
def elementIndex (t : NPUTensorKV) (position component : ℕ) : List ℕ :=
  if t.isKey then [component, position] else [position, component]

def InRange (t : NPUTensorKV) (position component : ℕ) : Prop :=
  position < t.seqLen ∧ ∃ dk, t.dims[if t.isKey then 0 else 1]? = some dk ∧ component < dk

/-- Every tensor has the blocks for its tokens, its elements lie in them before the exchange of the
column and the channel bits, and no two elements have the same address. -/
structure Separate (blockSize : ℕ) (P : Pool) : Prop where
  blocks : ∀ t ∈ P.tensors, t.bases.length = t.seqLen ⌈/⌉ entrySize
  inside : ∀ t ∈ P.tensors, ∀ position component, InRange t position component →
    ∃ base ∈ t.bases, ∃ offset < blockSize,
      t.getAddr (elementIndex t position component) =
        .ok (switchCoCh (base + BitVec.ofNat 64 offset))
  distinct : ∀ (i j : ℕ) (t u : NPUTensorKV) (p c p' c' : ℕ),
    P.tensors[i]? = some t → P.tensors[j]? = some u →
    InRange t p c → InRange u p' c' →
    t.getAddr (elementIndex t p c) = u.getAddr (elementIndex u p' c') → i = j ∧ p = p' ∧ c = c'

variable {config : SimulationConfig} {limits : CacheLimits} {base : AddrType}
  {a b cache : NPUKVCache} {t t' : NPUTensorKV} {P P' : Pool} {dk n : ℕ} {taken : List AddrType}

/-- A tensor as the constructor and `add_token` leave it. -/
structure Shaped (config : SimulationConfig) (dk : ℕ) (t : NPUTensorKV) : Prop where
  count : t.bases.length = t.seqLen ⌈/⌉ entrySize
  length : t.dims[if t.isKey then 1 else 0]? = some t.seqLen
  entry : t.kvCacheEntrySize = entrySize
  precision : t.precision = config.precision
  width : ∀ d ∈ t.dims[if t.isKey then 0 else 1]?, d ≤ dk

theorem allocate_ok {addr : AddrType} (h : a.allocate = .ok (addr, b)) :
    a.kvCache = addr :: b.kvCache := by
  unfold allocate at h
  split at h
  · cases h
  · next rest hrest =>
    cases h
    exact hrest

theorem allocateBlocks_ok (h : allocateBlocks n a = .ok (taken, b)) :
    taken.length = n ∧ a.kvCache = taken ++ b.kvCache := by
  induction n generalizing a taken with
  | zero =>
    cases h
    exact ⟨rfl, rfl⟩
  | succ n ih =>
    rw [allocateBlocks] at h
    obtain ⟨⟨addr, c⟩, hfirst, h⟩ := bind_ok.mp h
    obtain ⟨⟨rest, d⟩, hrest, h⟩ := bind_ok.mp h
    cases h
    obtain ⟨hlen, happend⟩ := ih hrest
    refine ⟨by rw [List.length_cons, hlen], ?_⟩
    rw [allocate_ok hfirst, happend, List.cons_append]

theorem new_ok {dims : List ℕ} {isKey : Bool}
    (h : NPUTensorKV.new config dims isKey a = .ok (t, b))
    (hwidth : ∀ d ∈ dims[if isKey then 0 else 1]?, d ≤ dk) :
    Shaped config dk t ∧ t.isKey = isKey ∧ t.dims = dims ∧ a.kvCache = t.bases ++ b.kvCache := by
  obtain ⟨seqLen, hseqLen, h⟩ := bind_ok.mp h
  obtain ⟨count, hcount, h⟩ := bind_ok.mp h
  obtain ⟨⟨taken, c⟩, htaken, h⟩ := bind_ok.mp h
  cases h
  obtain ⟨-, rfl⟩ := divUp_eq hcount
  obtain ⟨hlen, happend⟩ := allocateBlocks_ok htaken
  exact ⟨⟨hlen, vectorAt_eq hseqLen, rfl, rfl, hwidth⟩, rfl, rfl, happend⟩

theorem lengthen_dims (t : NPUTensorKV) (hlength : t.dims[if t.isKey then 1 else 0]? = some t.seqLen) :
    t.lengthen.dims[if t.isKey then 1 else 0]? = some (t.seqLen + 1) ∧
      t.lengthen.dims[if t.isKey then 0 else 1]? = t.dims[if t.isKey then 0 else 1]? := by
  unfold NPUTensorKV.lengthen
  dsimp only
  rw [List.getElem?_modify, List.getElem?_modify, hlength]
  cases t.isKey <;> simp

/-- A block is allocated exactly if the tokens no longer fit into the blocks the tensor has. -/
theorem addToken_ok (ht : Shaped config dk t) (h : t.addToken a = .ok (t', b)) :
    Shaped config dk t' ∧
      ∃ taken, t'.bases = t.bases ++ taken ∧ a.kvCache = taken ++ b.kvCache := by
  obtain ⟨hcount, hlength, hentry, hprecision, hwidth⟩ := ht
  obtain ⟨hlength', hwidth'⟩ := lengthen_dims t hlength
  have hceil : t.seqLen ⌈/⌉ entrySize = (t.seqLen + 32 - 1) / 32 := rfl
  have hceil' : (t.seqLen + 1) ⌈/⌉ entrySize = (t.seqLen + 1 + 32 - 1) / 32 := rfl
  unfold NPUTensorKV.addToken at h
  split at h
  · next hfits =>
    cases h
    change t.seqLen + 1 ≤ t.bases.length * t.kvCacheEntrySize at hfits
    rw [hentry, entrySize] at hfits
    refine ⟨⟨?_, hlength', hentry, hprecision, ?_⟩, [], (List.append_nil _).symm, rfl⟩
    · change t.bases.length = (t.seqLen + 1) ⌈/⌉ entrySize
      omega
    · rw [← hwidth'] at hwidth
      exact hwidth
  · next hfull =>
    obtain ⟨⟨addr, c⟩, haddr, heq⟩ := map_ok h
    cases heq
    change ¬ t.seqLen + 1 ≤ t.bases.length * t.kvCacheEntrySize at hfull
    rw [hentry, entrySize] at hfull
    refine ⟨⟨?_, hlength', hentry, hprecision, ?_⟩, [addr], rfl, allocate_ok haddr⟩
    · change (t.bases ++ [addr]).length = (t.seqLen + 1) ⌈/⌉ entrySize
      rw [List.length_append, List.length_singleton]
      omega
    · rw [← hwidth'] at hwidth
      exact hwidth

/-- The blocks of the layout are free or belong to the tensors. -/
structure Owned (config : SimulationConfig) (dk : ℕ) (blocks : List AddrType) (P : Pool) : Prop where
  perm : (P.tensors.flatMap NPUTensorKV.bases ++ P.cache.kvCache).Perm blocks
  shaped : ∀ t ∈ P.tensors, Shaped config dk t

theorem owned_step {blocks : List AddrType} {c : Call} (hP : Owned config dk blocks P)
    (hc : c.HeadSized dk) (h : P.step config c = .ok P') : Owned config dk blocks P' := by
  obtain ⟨hperm, hshaped⟩ := hP
  cases c with
  | construct dims isKey =>
    obtain ⟨⟨t, b⟩, hnew, rfl⟩ := map_ok h
    obtain ⟨ht, -, -, happend⟩ := new_ok hnew hc
    refine ⟨?_, fun u hu => ?_⟩
    · dsimp only
      rw [happend, ← List.append_assoc] at hperm
      rwa [List.flatMap_append, List.flatMap_singleton]
    · rcases List.mem_append.mp hu with hu | hu
      · exact hshaped u hu
      · rwa [List.mem_singleton.mp hu]
  | addToken i =>
    rw [Pool.step] at h
    split at h
    · cases h
    · next t ht =>
      obtain ⟨⟨t', b⟩, hgrown, rfl⟩ := map_ok h
      obtain ⟨ht', taken, htaken, hfront⟩ := addToken_ok (hshaped t (List.mem_of_getElem? ht)) hgrown
      refine ⟨?_, fun u hu => ?_⟩
      · dsimp only
        rw [hfront, ← List.append_assoc] at hperm
        exact ((perm_flatMap_set ht htaken).append_right _).trans hperm
      · rcases List.mem_or_eq_of_mem_set hu with hu | rfl
        · exact hshaped u hu
        · exact ht'

theorem owned_run {calls : List Call} (hcalls : ∀ c ∈ calls, c.HeadSized dk)
    (hrun : run (Pool.step config) ⟨cache, []⟩ calls = .ok P) :
    Owned config dk cache.kvCache P := by
  refine run_invariant_of (Owned config dk cache.kvCache) (fun _ c => c.HeadSized dk) ?_ ?_
    (allCalls_of_forall fun c hc _ => hcalls c hc) hrun
  · exact fun _ _ _ hP hc h => owned_step hP hc h
  · exact ⟨List.Perm.refl _, fun t ht => absurd ht List.not_mem_nil⟩

/-- Positions in blocks of one layout. -/
theorem block_offset_inj {i j size off off' : ℕ} (hi : i < n) (hj : j < n) (hoff : off < size)
    (hoff' : off' < size) (hsize : n * size < 2 ^ 64)
    (h : base + BitVec.ofNat 64 i * BitVec.ofNat 64 size + BitVec.ofNat 64 off =
      base + BitVec.ofNat 64 j * BitVec.ofNat 64 size + BitVec.ofNat 64 off') :
    i = j ∧ off = off' := by
  have hbound : ∀ {k o : ℕ}, k < n → o < size → size * k + o < 2 ^ 64 := by
    intro k o hk ho
    calc size * k + o < size * k + size := Nat.add_lt_add_left ho _
      _ = (k + 1) * size := by rw [Nat.succ_mul, Nat.mul_comm]
      _ ≤ n * size := Nat.mul_le_mul_right size hk
      _ < 2 ^ 64 := hsize
  have hsum : BitVec.ofNat 64 (size * i + off) = BitVec.ofNat 64 (size * j + off') := by
    rw [BitVec.ofNat_add, BitVec.ofNat_mul, BitVec.ofNat_add, BitVec.ofNat_mul,
      BitVec.mul_comm (BitVec.ofNat 64 size), BitVec.mul_comm (BitVec.ofNat 64 size)]
    rw [BitVec.add_assoc, BitVec.add_assoc] at h
    exact (BitVec.add_right_inj base).mp h
  have hnat := congrArg BitVec.toNat hsum
  rw [BitVec.toNat_ofNat, BitVec.toNat_ofNat, Nat.mod_eq_of_lt (hbound hi hoff),
    Nat.mod_eq_of_lt (hbound hj hoff')] at hnat
  exact axis_inj hoff hoff' hnat

theorem layBlocks_nodup {size : ℕ} (hpos : 0 < size) (hsize : n * size < 2 ^ 64) :
    (layBlocks (BitVec.ofNat 64 size) n base).Nodup := by
  rw [layBlocks_eq]
  refine List.Nodup.map_on (fun i hi j hj h => ?_) List.nodup_range
  exact (block_offset_inj (List.mem_range.mp hi) (List.mem_range.mp hj) hpos hpos hsize
    (congrArg (· + BitVec.ofNat 64 0) h)).1

/-- The blocks of the layout together, and so each of them, have fewer than 2^32 bytes. -/
theorem blocks_small {h : ℕ}
    (hfits : limits.maxActiveReqs * limits.maxSeqLen * h * dk * config.precision < 2 ^ 32) :
    limits.maxActiveReqs * limits.maxSeqLen * h % 2 ^ 32 / entrySize *
      (entrySize * dk * config.precision) < 2 ^ 32 := by
  refine Nat.lt_of_le_of_lt ?_ hfits
  have hblocks : limits.maxActiveReqs * limits.maxSeqLen * h % 2 ^ 32 / entrySize * entrySize ≤
      limits.maxActiveReqs * limits.maxSeqLen * h :=
    Nat.le_trans (Nat.div_mul_le_self _ _) (Nat.mod_le _ _)
  rw [Nat.mul_assoc entrySize, ← Nat.mul_assoc, Nat.mul_assoc _ dk]
  exact Nat.mul_le_mul_right _ hblocks

section Elements

variable {p c d : ℕ}

/-- The byte of an element in its block. -/
def elementOffset (config : SimulationConfig) (d p c : ℕ) : ℕ :=
  (p % entrySize * d + c) * config.precision

theorem elementOffset_lt (hd : d ≤ dk) (hc : c < d) (hprecision : 1 ≤ config.precision) :
    elementOffset config d p c < entrySize * dk * config.precision := by
  refine Nat.mul_lt_mul_of_pos_right ?_ hprecision
  have hp : p % entrySize + 1 ≤ entrySize := Nat.mod_lt p (by decide)
  calc p % entrySize * d + c < p % entrySize * d + d := Nat.add_lt_add_left hc _
    _ = (p % entrySize + 1) * d := (Nat.succ_mul _ d).symm
    _ ≤ entrySize * dk := Nat.mul_le_mul hp hd

theorem exists_base (ht : Shaped config dk t) (hin : InRange t p c) : ∃ addr, addr ∈ t.bases := by
  apply List.exists_mem_of_length_pos
  rw [ht.count]
  exact ceilDiv_pos (by decide) (Nat.zero_lt_of_lt hin.1)

/-- An element in range is looked up in one of the tensor's blocks. -/
theorem getAddr_shaped (ht : Shaped config dk t) (hin : InRange t p c) :
    ∃ d addr, t.dims[if t.isKey then 0 else 1]? = some d ∧ d ≤ dk ∧ c < d ∧
      t.bases[p / entrySize]? = some addr ∧ t.getAddr (elementIndex t p c) =
        .ok (switchCoCh (addr + BitVec.ofNat 64 (elementOffset config d p c % 2 ^ 32))) := by
  obtain ⟨hp, d, hdims, hc⟩ := hin
  have hblock : p / entrySize < t.bases.length := by
    rw [ht.count, ← Nat.not_le, ceilDiv_le_iff_le_mul (by decide)]
    have := Nat.mul_div_le p entrySize
    omega
  refine ⟨d, t.bases[p / entrySize], hdims, ht.width d hdims, hc, List.getElem?_eq_getElem hblock, ?_⟩
  have hposition : vectorAt (elementIndex t p c) (if t.isKey then 1 else 0) = .ok p := by
    unfold elementIndex
    cases t.isKey <;> rfl
  have hcomponent : vectorAt (elementIndex t p c) (if t.isKey then 0 else 1) = .ok c := by
    unfold elementIndex
    cases t.isKey <;> rfl
  have hdk : vectorAt t.dims (if t.isKey then 0 else 1) = .ok d := by
    rw [vectorAt, hdims]
  have hidx : divDown p t.kvCacheEntrySize = .ok (p / entrySize) := by
    rw [ht.entry]
    rfl
  have hbase : vectorAt t.bases (p / entrySize) = .ok t.bases[p / entrySize] := by
    rw [vectorAt, List.getElem?_eq_getElem hblock]
  refine bind_ok.mpr ⟨p, hposition, bind_ok.mpr ⟨c, hcomponent, bind_ok.mpr ⟨d, hdk, ?_⟩⟩⟩
  refine bind_ok.mpr ⟨_, hidx, bind_ok.mpr ⟨_, hbase, ?_⟩⟩
  rw [ht.entry, ht.precision]
  rfl

/-- Its place is in that block. -/
theorem getAddr_inRange (ht : Shaped config dk t) (hin : InRange t p c)
    (hprecision : 1 ≤ config.precision) (hsmall : entrySize * dk * config.precision < 2 ^ 32) :
    ∃ d addr, t.dims[if t.isKey then 0 else 1]? = some d ∧ d ≤ dk ∧ c < d ∧
      t.bases[p / entrySize]? = some addr ∧ t.getAddr (elementIndex t p c) =
        .ok (switchCoCh (addr + BitVec.ofNat 64 (elementOffset config d p c))) := by
  obtain ⟨d, addr, hdims, hd, hc, haddr, hget⟩ := getAddr_shaped ht hin
  have hoffset := elementOffset_lt (p := p) hd hc hprecision
  rw [Nat.mod_eq_of_lt (Nat.lt_trans hoffset hsmall)] at hget
  exact ⟨d, addr, hdims, hd, hc, haddr, hget⟩

end Elements

/-- The tensors of every run on a layout without overflow, with components for whole blocks at most,
have their own blocks and elements. -/
theorem addresses_separate {h : ℕ} {calls : List Call}
    (hh : h = config.modelNHead / config.nTp) (hdk : dk = config.modelNEmbd / config.modelNHead)
    (hinit : initNpuLayout config limits base = .ok cache)
    (hfits : limits.maxActiveReqs * limits.maxSeqLen * h * dk * config.precision < 2 ^ 32)
    (hprecision : 1 ≤ config.precision) (hcalls : ∀ c ∈ calls, c.HeadSized dk)
    (hrun : run (Pool.step config) ⟨cache, []⟩ calls = .ok P) :
    Separate (entrySize * dk * config.precision) P := by
  obtain ⟨hperm, hshaped⟩ := owned_run hcalls hrun
  have hcache := initNpuLayout_ok hinit
  rw [← hh, ← hdk] at hcache
  have hsmall := blocks_small hfits
  generalize limits.maxActiveReqs * limits.maxSeqLen * h % 2 ^ 32 / entrySize = n at hcache hsmall
  -- a block is one of the layout
  have hblock : ∀ t ∈ P.tensors, ∀ addr ∈ t.bases, ∃ i < n,
      addr = base + BitVec.ofNat 64 i * BitVec.ofNat 64 (entrySize * dk * config.precision) := by
    intro t ht addr haddr
    have hmem : addr ∈ cache.kvCache :=
      hperm.subset (List.mem_append_left _ (List.mem_flatMap.mpr ⟨t, ht, haddr⟩))
    rw [hcache, layBlocks_eq] at hmem
    obtain ⟨i, hi, rfl⟩ := List.mem_map.mp hmem
    exact ⟨i, List.mem_range.mp hi, rfl⟩
  have helement : ∀ t ∈ P.tensors, ∀ p c, InRange t p c →
      ∃ d addr, t.dims[if t.isKey then 0 else 1]? = some d ∧ d ≤ dk ∧ c < d ∧
        t.bases[p / entrySize]? = some addr ∧ t.getAddr (elementIndex t p c) =
          .ok (switchCoCh (addr + BitVec.ofNat 64 (elementOffset config d p c))) := by
    intro t ht p c hin
    obtain ⟨addr, haddr⟩ := exists_base (hshaped t ht) hin
    obtain ⟨i, hi, -⟩ := hblock t ht addr haddr
    exact getAddr_inRange (hshaped t ht) hin hprecision
      (Nat.lt_of_le_of_lt (Nat.le_mul_of_pos_left _ (Nat.zero_lt_of_lt hi)) hsmall)
  refine ⟨fun t ht => (hshaped t ht).count, fun t ht p c hin => ?_, ?_⟩
  · obtain ⟨d, addr, -, hd, hc, haddr, hget⟩ := helement t ht p c hin
    exact ⟨addr, List.mem_of_getElem? haddr, _, elementOffset_lt hd hc hprecision, hget⟩
  · intro i j t u p c p' c' hi hj hin hin' heq
    have ht := List.mem_of_getElem? hi
    have hu := List.mem_of_getElem? hj
    obtain ⟨d, addr, hdims, hd, hc, haddr, hget⟩ := helement t ht p c hin
    obtain ⟨d', addr', hdims', hd', hc', haddr', hget'⟩ := helement u hu p' c' hin'
    have hoffset := elementOffset_lt (p := p) hd hc hprecision
    have hoffset' := elementOffset_lt (p := p') hd' hc' hprecision
    obtain ⟨m, hm, hmaddr⟩ := hblock t ht addr (List.mem_of_getElem? haddr)
    obtain ⟨m', hm', hmaddr'⟩ := hblock u hu addr' (List.mem_of_getElem? haddr')
    rw [hget, hget'] at heq
    have hbytes := switchCoCh_inj.mp (Except.ok.inj heq)
    have hsmall' : n * (entrySize * dk * config.precision) < 2 ^ 64 :=
      Nat.lt_trans hsmall (by decide)
    rw [hmaddr, hmaddr'] at hbytes
    obtain ⟨rfl, hsame⟩ := block_offset_inj hm hm' hoffset hoffset' hsmall' hbytes
    -- one block has one owner and one place with it
    have hnodup : (P.tensors.flatMap NPUTensorKV.bases).Nodup := by
      have hall : (layBlocks _ n base).Nodup := layBlocks_nodup (Nat.zero_lt_of_lt hoffset) hsmall'
      rw [← hcache] at hall
      exact ((hperm.nodup_iff).mpr hall).of_append_left
    rw [← hmaddr] at hmaddr'
    rw [hmaddr'] at haddr'
    obtain ⟨rfl, hquotient⟩ := position_unique hnodup hi hj haddr haddr'
    rw [hi] at hj
    cases hj
    rw [hdims] at hdims'
    cases hdims'
    have hcell := Nat.eq_of_mul_eq_mul_right hprecision hsame
    rw [Nat.mul_comm, Nat.mul_comm _ d] at hcell
    obtain ⟨hremainder, rfl⟩ := axis_inj hc hc' hcell
    refine ⟨rfl, ?_, rfl⟩
    rw [← Nat.div_add_mod p entrySize, hquotient, hremainder, Nat.div_add_mod]

/-- A key of 31 tokens that grows into its second block beside a value. -/
def growingCalls : List Call := [.construct [64, 31] true, .construct [1, 64] false, .addToken 0,
  .addToken 0]

theorem addresses_separate_sample : ∃ cache P,
    initNpuLayout sampleConfig smallLimits 4096 = .ok cache ∧
      run (Pool.step sampleConfig) ⟨cache, []⟩ growingCalls = .ok P ∧ Separate 4096 P := by
  obtain ⟨cache, hcache⟩ := exists_ok (x := initNpuLayout sampleConfig smallLimits 4096) rfl
  obtain ⟨P, hP⟩ : ∃ P, run (Pool.step sampleConfig) ⟨cache, []⟩ growingCalls = .ok P := by
    cases hcache
    exact exists_ok rfl
  refine ⟨cache, P, hcache, hP, ?_⟩
  have hdk : 64 = sampleConfig.modelNEmbd / sampleConfig.modelNHead := rfl
  refine addresses_separate (h := 2) rfl hdk hcache (by decide) (by decide) ?_ hP
  simp [growingCalls, Call.HeadSized]

def noBytesConfig : SimulationConfig := { sampleConfig with precision := 0 }

/-- Elements without bytes share an address, and a value of 17 tokens with twice the components of
a head reaches into the next block. -/
theorem addresses_shared :
    (∃ cache P, initNpuLayout noBytesConfig smallLimits 4096 = .ok cache ∧
      run (Pool.step noBytesConfig) ⟨cache, []⟩ [.construct [2, 64] false] = .ok P ∧
      ¬ Separate 0 P) ∧
    ∃ cache P, initNpuLayout sampleConfig smallLimits 4096 = .ok cache ∧
      run (Pool.step sampleConfig) ⟨cache, []⟩
        [.construct [17, 128] false, .construct [1, 64] false] = .ok P ∧ ¬ Separate 4096 P := by
  constructor
  · refine ⟨_, _, rfl, rfl, fun h => ?_⟩
    have hsame := h.distinct 0 0 _ _ 0 0 1 0 rfl rfl ⟨by decide, 64, rfl, by decide⟩
      ⟨by decide, 64, rfl, by decide⟩ (by decide)
    exact absurd hsame.2.1 (by decide)
  · refine ⟨_, _, rfl, rfl, fun h => ?_⟩
    have hsame := h.distinct 0 1 _ _ 16 0 0 0 rfl rfl ⟨by decide, 128, rfl, by decide⟩
      ⟨by decide, 64, rfl, by decide⟩ (by decide)
    exact absurd hsame.1 (by decide)

end NewPims.NPUKVCache

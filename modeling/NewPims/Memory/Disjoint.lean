import Mathlib.Data.Nat.Bitwise
import NewPims.Memory

/-! What the allocators give out is disjoint, as long as no address computation wraps around. -/
namespace NewPims

open Region Transition
open KVCacheAlloc (rowPerBank rowOffset)

section Arithmetic

variable {config : SimulationConfig} {k : ℕ} {x size : AddrType}

/-- The alignment as a power of two, which a `uint32_t` can hold. -/
def Aligned (config : SimulationConfig) (k : ℕ) : Prop :=
  config.dramReqSize * config.dramChannels = 2 ^ k ∧ k < 32

theorem pow_lt (h : Aligned config k) : 2 ^ k < 2 ^ 32 := Nat.pow_lt_pow_right (by decide) h.2

theorem alignment_toNat (h : Aligned config k) : (AddressConfig.alignment config).toNat = 2 ^ k := by
  have := pow_lt h
  rw [AddressConfig.alignment, h.1, Nat.mod_eq_of_lt (pow_lt h), BitVec.toNat_ofNat,
    Nat.mod_eq_of_lt (by omega)]

theorem and_alignment (h : Aligned config k) :
    (x &&& (AddressConfig.alignment config - 1)).toNat = x.toNat % 2 ^ k := by
  have hpos : 0 < 2 ^ k := Nat.two_pow_pos k
  have hlt := pow_lt h
  have hmask : (AddressConfig.alignment config - 1).toNat = 2 ^ k - 1 := by
    have hone : (1 : AddrType).toNat = 1 := rfl
    rw [BitVec.toNat_sub, alignment_toNat h, hone]
    omega
  rw [BitVec.toNat_and, hmask, Nat.and_two_pow_sub_one_eq_mod]

/-- The mask of the activation buffer has been a `uint32_t` before. -/
theorem and_alignment32 (h : Aligned config k) :
    (x &&& (((AddressConfig.alignment config).setWidth 32 - 1).setWidth 64)).toNat =
      x.toNat % 2 ^ k := by
  have hpos : 0 < 2 ^ k := Nat.two_pow_pos k
  have hlt := pow_lt h
  have hmask : (((AddressConfig.alignment config).setWidth 32 - 1).setWidth 64).toNat =
      2 ^ k - 1 := by
    have hone : (1 : BitVec 32).toNat = 1 := rfl
    rw [BitVec.toNat_setWidth, BitVec.toNat_sub, BitVec.toNat_setWidth, alignment_toNat h, hone]
    omega
  rw [BitVec.toNat_and, hmask, Nat.and_two_pow_sub_one_eq_mod]

theorem toNat_add_of_lt {y : AddrType} (h : x.toNat + y.toNat < 2 ^ 64) :
    (x + y).toNat = x.toNat + y.toNat := by
  rw [BitVec.toNat_add, Nat.mod_eq_of_lt h]

/-- The rounding of both allocators. -/
theorem roundUp_toNat {rest alignment : AddrType} (halign : alignment.toNat = 2 ^ k)
    (hrest : rest.toNat = x.toNat % 2 ^ k) (h : roundUp (2 ^ k) x.toNat < 2 ^ 64) :
    (if rest = 0 then x else x + (alignment - rest)).toNat = roundUp (2 ^ k) x.toNat := by
  have hzero : rest = 0 ↔ x.toNat % 2 ^ k = 0 := by
    rw [← hrest]
    exact ⟨fun h => by rw [h]; rfl, fun h => BitVec.eq_of_toNat_eq h⟩
  unfold roundUp at h ⊢
  by_cases hmod : x.toNat % 2 ^ k = 0
  · rw [if_pos (hzero.mpr hmod), if_pos hmod]
  · rw [if_neg (hzero.not.mpr hmod), if_neg hmod]
    rw [if_neg hmod] at h
    have hlt := Nat.mod_lt x.toNat (Nat.two_pow_pos k)
    have hsub : (alignment - rest).toNat = 2 ^ k - x.toNat % 2 ^ k := by
      rw [BitVec.toNat_sub_of_le (by rw [BitVec.le_def]; omega), halign, hrest]
    rw [toNat_add_of_lt (by omega), hsub]

theorem roundDown_toNat (halign : Aligned config k) :
    (AddressConfig.align config x).toNat = x.toNat - x.toNat % 2 ^ k := by
  have hle : x &&& (AddressConfig.alignment config - 1) ≤ x := by
    rw [BitVec.le_def, and_alignment halign]
    exact Nat.mod_le x.toNat (2 ^ k)
  rw [AddressConfig.align, BitVec.toNat_sub_of_le hle, and_alignment halign]

theorem align_toNat (halign : Aligned config k)
    (h : x.toNat - x.toNat % 2 ^ k + 2 ^ k < 2 ^ 64) :
    (AddressConfig.align config x + AddressConfig.alignment config).toNat =
      x.toNat - x.toNat % 2 ^ k + 2 ^ k := by
  have hsub := roundDown_toNat (x := x) halign
  rw [toNat_add_of_lt (by rw [hsub, alignment_toNat halign]; exact h), hsub,
    alignment_toNat halign]

theorem and_mask : x &&& KVCacheAlloc.mask = (x >>> rowOffset) <<< rowOffset := by
  have hmask : KVCacheAlloc.mask = BitVec.allOnes 64 <<< 20 := by decide
  ext i hi
  rw [hmask, rowOffset]
  simp only [BitVec.getElem_and, BitVec.getElem_shiftLeft, BitVec.getElem_ushiftRight,
    BitVec.getElem_allOnes]
  by_cases hlow : i < 20
  · simp only [hlow, decide_true, Bool.not_true, Bool.false_and, Bool.and_false]
  · simp only [hlow, decide_false, Bool.not_false, Bool.true_and, Bool.and_true]
    rw [Nat.add_sub_cancel' (Nat.le_of_not_lt hlow), BitVec.getLsbD_eq_getElem]

/-- The row above the one of an address. -/
theorem baseRow_eq (h : x.toNat / 2 ^ rowOffset + 1 < 2 ^ 32) :
    KVCacheAlloc.baseRow x = x.toNat / 2 ^ rowOffset + 1 := by
  have hshift : (1#64 <<< rowOffset).toNat = 2 ^ rowOffset := by decide
  have hrow : (x &&& KVCacheAlloc.mask).toNat = x.toNat / 2 ^ rowOffset * 2 ^ rowOffset := by
    rw [and_mask, BitVec.toNat_shiftLeft, BitVec.toNat_ushiftRight, Nat.shiftRight_eq_div_pow,
      Nat.shiftLeft_eq, Nat.mod_eq_of_lt]
    exact Nat.lt_of_le_of_lt (Nat.div_mul_le_self _ _) x.isLt
  rw [KVCacheAlloc.baseRow, BitVec.toNat_ushiftRight, Nat.shiftRight_eq_div_pow]
  rw [rowOffset] at h hshift hrow ⊢
  rw [toNat_add_of_lt (by rw [hrow, hshift]; omega), hrow, hshift]
  omega

end Arithmetic

theorem initPimLayout_ge {config : SimulationConfig} {baseAddr : AddrType} {ch row : ℕ}
    (h : row ∈ (KVCacheAlloc.initPimLayout config baseAddr).rows ch) :
    KVCacheAlloc.baseRow baseAddr ≤ row := by
  dsimp only [KVCacheAlloc.initPimLayout] at h
  split at h
  · obtain ⟨i, -, rfl⟩ := List.mem_map.mp (List.mem_filter.mp h).1
    exact Nat.le_add_right _ i
  · exact absurd h List.not_mem_nil

namespace Memory

variable {config : SimulationConfig} {actBufSize : AddrType} {k : ℕ} {m m' : Memory} {c : Call}

/-- The addresses that a call computes stay below 2^64, and the rows begin within a bank. -/
def NoWrap (config : SimulationConfig) (actBufSize : AddrType) (m : Memory) : Call → Prop
  | .allocateWeight size =>
    roundUp (config.dramReqSize * config.dramChannels) (m.wgt.topAddr.toNat + size.toNat) < 2 ^ 64
  | .initActivations =>
    let top := m.wgt.topAddr.toNat
    let unit := config.dramReqSize * config.dramChannels
    top - top % unit + unit + actBufSize.toNat < 2 ^ 64
  | .allocateActivation size => ∀ buffer, m.act = some buffer →
    roundUp (config.dramReqSize * config.dramChannels)
      (buffer.alloc.topAddr.toNat + size.toNat) < 2 ^ 64
  | .initRows => ∀ buffer, m.act = some buffer →
    let limit := buffer.alloc.actBufLimit.toNat
    let unit := config.dramReqSize * config.dramChannels
    limit - limit % unit + unit < 2 ^ 64 ∧
      (limit - limit % unit + unit) / 2 ^ rowOffset + 1 < rowPerBank
  | _ => True

/-- The memory is laid out from the weights up to the rows. -/
structure Laid (m : Memory) : Prop where
  weights : Packed 0 m.wgt.topAddr.toNat m.weights
  noBuffer : m.act = none → m.activations = [] ∧ m.kv = none
  buffer : ∀ b, m.act = some b → m.wgt.topAddr.toNat ≤ b.baseAddr.toNat ∧
    b.baseAddr.toNat ≤ b.alloc.topAddr.toNat ∧
    Packed b.baseAddr.toNat b.alloc.topAddr.toNat m.activations ∧
    b.baseAddr.toNat ≤ b.alloc.actBufLimit.toNat ∧
    ∀ r ∈ m.activations, r.stop ≤ b.alloc.actBufLimit.toNat
  noRows : m.kv = none → ∀ ch, m.held ch = []
  rows : ∀ kv, m.kv = some kv → ∃ b, m.act = some b ∧ ∀ ch,
    (kv.rows ch ++ m.held ch).Nodup ∧
    ∀ row ∈ kv.rows ch ++ m.held ch, b.alloc.actBufLimit.toNat ≤ row * 2 ^ rowOffset

theorem laid_initial : Laid {} :=
  ⟨packed_nil _ _, fun _ => ⟨rfl, rfl⟩, nofun, fun _ _ => rfl, nofun⟩

theorem laid_allocateWeight {size : AddrType} (halign : Aligned config k) (hm : Laid m)
    (hact : m.act = none)
    (hwrap : roundUp (2 ^ k) (m.wgt.topAddr.toNat + size.toNat) < 2 ^ 64) :
    Laid { m with
      wgt := (m.wgt.allocate config size).2
      weights := m.weights ++ [region (m.wgt.allocate config size).1 size] } := by
  have hle := le_roundUp (2 ^ k) (m.wgt.topAddr.toNat + size.toNat)
  have hadd := toNat_add_of_lt (x := m.wgt.topAddr) (y := size) (by omega)
  have htop : (m.wgt.allocate config size).2.topAddr.toNat =
      roundUp (2 ^ k) (m.wgt.topAddr.toNat + size.toNat) := by
    rw [← hadd] at hwrap ⊢
    exact roundUp_toNat (alignment_toNat halign) (and_alignment halign) hwrap
  refine ⟨?_, hm.noBuffer, ?_, hm.noRows, hm.rows⟩
  · rw [htop]
    exact packed_concat hm.weights (Nat.zero_le _) (Nat.le_refl _) hle
  · intro b hb
    cases hact.symm.trans hb

theorem laid_initActivations {next : AddrType} (halign : Aligned config k) (hm : Laid m)
    (hact : m.act = none) (hnext : m.wgt.getNextAlignedAddr config = .ok next)
    (hwrap : m.wgt.topAddr.toNat - m.wgt.topAddr.toNat % 2 ^ k + 2 ^ k + actBufSize.toNat <
      2 ^ 64) :
    Laid { m with act := some (ActBuffer.init actBufSize next) } := by
  obtain ⟨hactivations, hkv⟩ := hm.noBuffer hact
  obtain ⟨hbase, hlimit⟩ : m.wgt.topAddr.toNat ≤ next.toNat ∧
      next.toNat ≤ (next + actBufSize).toNat := by
    unfold WgtAlloc.getNextAlignedAddr at hnext
    split at hnext
    · cases hnext
    · cases hnext
      have hnext := align_toNat (x := m.wgt.topAddr) halign (by omega)
      have hsum := toNat_add_of_lt (y := actBufSize) (by rw [hnext]; exact hwrap)
      rw [hsum, hnext]
      exact ⟨Nat.le_of_lt (lt_next _ (Nat.two_pow_pos k)), Nat.le_add_right _ _⟩
  refine ⟨hm.weights, nofun, ?_, hm.noRows, fun kv h => ?_⟩
  · intro b hb
    cases hb
    rw [hactivations]
    exact ⟨hbase, Nat.le_refl _, packed_nil _ _, hlimit, fun r hr => absurd hr List.not_mem_nil⟩
  · cases hkv.symm.trans h

/-- What is allocated in the activation buffer begins at the top, and the next allocation at the next
multiple of the alignment. -/
theorem allocateActivation_ok {size addr : AddrType} {a a' : ActAlloc}
    (halign : Aligned config k) (hadd : a.topAddr.toNat + size.toNat < 2 ^ 64)
    (h : a.allocate config size = .ok (addr, a')) :
    addr = a.topAddr ∧ a'.actBufLimit = a.actBufLimit ∧
      a.topAddr.toNat + size.toNat < a.actBufLimit.toNat ∧
      (roundUp (2 ^ k) (a.topAddr.toNat + size.toNat) < 2 ^ 64 →
        a'.topAddr.toNat = roundUp (2 ^ k) (a.topAddr.toNat + size.toNat)) := by
  have hsum := toNat_add_of_lt hadd
  unfold ActAlloc.allocate at h
  split at h
  · next hroom =>
    cases h
    rw [BitVec.lt_def, hsum] at hroom
    -- the alignment has been a `uint32_t` here
    have hwidth : (((AddressConfig.alignment config).setWidth 32).setWidth 64).toNat = 2 ^ k := by
      have hlt := pow_lt halign
      rw [BitVec.toNat_setWidth, BitVec.toNat_setWidth, alignment_toNat halign,
        Nat.mod_eq_of_lt hlt, Nat.mod_eq_of_lt (Nat.lt_trans hlt (by decide))]
    refine ⟨rfl, rfl, hroom, fun hwrap => ?_⟩
    have htop := roundUp_toNat hwidth (and_alignment32 (x := a.topAddr + size) halign)
      (by rwa [hsum])
    rwa [hsum] at htop
  · cases h

theorem laid_allocateActivation {b : ActBuffer} {size addr : AddrType} {a : ActAlloc}
    (halign : Aligned config k) (hm : Laid m) (hact : m.act = some b)
    (hmade : b.alloc.allocate config size = .ok (addr, a))
    (hwrap : roundUp (2 ^ k) (b.alloc.topAddr.toNat + size.toNat) < 2 ^ 64) :
    Laid { m with
      act := some { b with alloc := a }, activations := m.activations ++ [region addr size] } := by
  obtain ⟨hweights, hbase, hpacked, hbuffer, hlimit⟩ := hm.buffer b hact
  have hle := le_roundUp (2 ^ k) (b.alloc.topAddr.toNat + size.toNat)
  obtain ⟨rfl, hbuf, hroom, htop⟩ := allocateActivation_ok halign (by omega) hmade
  have htop := htop hwrap
  refine ⟨hm.weights, nofun, ?_, hm.noRows, ?_⟩
  · intro b' hb'
    cases hb'
    refine ⟨hweights, ?_, ?_, ?_, ?_⟩
    · dsimp only
      rw [htop]
      omega
    · dsimp only
      rw [htop]
      exact packed_concat hpacked hbase (Nat.le_refl _) hle
    · dsimp only
      rwa [hbuf]
    · intro r hr
      dsimp only
      rw [hbuf]
      rcases List.mem_append.mp hr with hr | hr
      · exact hlimit r hr
      · rw [List.mem_singleton.mp hr]
        exact Nat.le_of_lt hroom
  · intro kv hkv
    obtain ⟨b', hb', hrows⟩ := hm.rows kv hkv
    cases hact.symm.trans hb'
    refine ⟨_, rfl, ?_⟩
    dsimp only
    rwa [hbuf]

theorem laid_initRows {b : ActBuffer} {next : AddrType} (halign : Aligned config k) (hm : Laid m)
    (hact : m.act = some b) (hkv : m.kv = none) (hnext : b.getNextAlignedAddr config = .ok next)
    (hwrap : b.alloc.actBufLimit.toNat - b.alloc.actBufLimit.toNat % 2 ^ k + 2 ^ k < 2 ^ 64)
    (hrow : (b.alloc.actBufLimit.toNat - b.alloc.actBufLimit.toNat % 2 ^ k + 2 ^ k) /
      2 ^ rowOffset + 1 < rowPerBank) :
    Laid { m with kv := some (KVCacheAlloc.initPimLayout config next) } := by
  refine ⟨hm.weights, fun h => ?_, hm.buffer, nofun, ?_⟩
  · cases hact.symm.trans h
  · intro kv h
    cases h
    refine ⟨b, hact, ?_⟩
    intro ch
    rw [hm.noRows hkv ch, List.append_nil]
    refine ⟨(KVCacheAlloc.initPimLayout_rows next ch).1, ?_⟩
    intro row hmem
    have hbase := initPimLayout_ge hmem
    unfold ActBuffer.getNextAlignedAddr at hnext
    split at hnext
    · cases hnext
    · cases hnext
      have hlt := lt_next b.alloc.actBufLimit.toNat (Nat.two_pow_pos k)
      rw [rowPerBank] at hrow
      rw [baseRow_eq (by rw [align_toNat halign hwrap]; omega), align_toNat halign hwrap] at hbase
      rw [rowOffset] at hbase ⊢
      omega

/-- What the free and the held rows of a channel are together does not change. -/
theorem laid_rows_perm {kv kv' : KVCacheAlloc} {held : ℕ → List ℕ} (hm : Laid m)
    (hkv : m.kv = some kv)
    (hperm : ∀ ch, (kv'.rows ch ++ held ch).Perm (kv.rows ch ++ m.held ch)) :
    Laid { m with kv := some kv', held } := by
  obtain ⟨b, hact, hrows⟩ := hm.rows kv hkv
  refine ⟨hm.weights, fun h => ?_, hm.buffer, nofun, ?_⟩
  · cases hact.symm.trans h
  · intro kv'' h
    cases h
    refine ⟨b, hact, ?_⟩
    intro ch
    obtain ⟨hnodup, hge⟩ := hrows ch
    exact ⟨(hperm ch).nodup_iff.mpr hnodup, fun row hrow => hge row ((hperm ch).mem_iff.mp hrow)⟩

theorem laid_allocateRow {kv kv' : KVCacheAlloc} {ch row : ℕ} (hm : Laid m) (hkv : m.kv = some kv)
    (hmade : kv.allocate ch = .ok (row, kv')) :
    Laid { m with kv := some kv', held := Function.update m.held ch (m.held ch ++ [row]) } := by
  obtain ⟨hfront, hframe⟩ := KVCacheAlloc.allocate_ok hmade
  refine laid_rows_perm hm hkv ?_
  intro ch'
  by_cases hch : ch' = ch
  · subst hch
    rw [Function.update_self, hfront, ← List.append_assoc, List.cons_append]
    exact List.perm_append_singleton row _
  · rw [Function.update_of_ne hch, hframe ch' hch]

theorem laid_freeRow {kv : KVCacheAlloc} {ch row : ℕ} (hm : Laid m) (hkv : m.kv = some kv)
    (hheld : row ∈ m.held ch) :
    Laid { m with
      kv := some (kv.free ch row)
      held := Function.update m.held ch ((m.held ch).erase row) } := by
  refine laid_rows_perm hm hkv ?_
  intro ch'
  by_cases hch : ch' = ch
  · subst hch
    dsimp only [KVCacheAlloc.free]
    rw [Function.update_self, Function.update_self, List.append_assoc]
    exact (List.perm_cons_erase hheld).symm.append_left _
  · dsimp only [KVCacheAlloc.free]
    rw [Function.update_of_ne hch, Function.update_of_ne hch]

theorem laid_step (halign : Aligned config k) (hm : Laid m)
    (hwrap : NoWrap config actBufSize m c) (h : step config actBufSize m c = .ok m') :
    Laid m' := by
  cases c with
  | allocateWeight size =>
    simp only [step] at h
    split at h
    · cases h
    · next hact =>
      cases h
      have hwrap' : roundUp (2 ^ k) (m.wgt.topAddr.toNat + size.toNat) < 2 ^ 64 := by
        rw [← halign.1]
        exact hwrap
      exact laid_allocateWeight halign hm (Option.not_isSome_iff_eq_none.mp hact) hwrap'
  | initActivations =>
    simp only [step] at h
    split at h
    · cases h
    · next hact =>
      obtain ⟨next, hnext, h⟩ := bind_ok.mp h
      cases h
      have hwrap' : m.wgt.topAddr.toNat - m.wgt.topAddr.toNat % 2 ^ k + 2 ^ k +
          actBufSize.toNat < 2 ^ 64 := by
        rw [← halign.1]
        exact hwrap
      exact laid_initActivations halign hm (Option.not_isSome_iff_eq_none.mp hact) hnext hwrap'
  | allocateActivation size =>
    simp only [step] at h
    split at h
    · cases h
    · next b hact =>
      obtain ⟨⟨addr, a⟩, hmade, h⟩ := bind_ok.mp h
      cases h
      have hwrapb := hwrap b hact
      rw [halign.1] at hwrapb
      exact laid_allocateActivation halign hm hact hmade hwrapb
  | initRows =>
    simp only [step] at h
    split at h
    · next b hact hkv =>
      obtain ⟨next, hnext, h⟩ := bind_ok.mp h
      cases h
      obtain ⟨hlimit, hrow⟩ := hwrap b hact
      rw [halign.1] at hlimit hrow
      exact laid_initRows halign hm hact hkv hnext hlimit hrow
    · cases h
  | allocateRow ch =>
    simp only [step] at h
    split at h
    · cases h
    · next kv hkv =>
      obtain ⟨⟨row, kv'⟩, hmade, h⟩ := bind_ok.mp h
      cases h
      exact laid_allocateRow hm hkv hmade
  | freeRow ch row =>
    simp only [step] at h
    split at h
    · cases h
    · next kv hkv =>
      split at h
      · next hheld =>
        cases h
        exact laid_freeRow hm hkv hheld
      · cases h

/-- What is given out does not overlap. -/
structure Safe (m : Memory) : Prop where
  disjoint : (m.weights ++ m.activations).Pairwise Apart
  buffer : ∀ b, m.act = some b → ∀ r ∈ m.activations,
    b.baseAddr.toNat ≤ r.start ∧ r.stop ≤ b.alloc.actBufLimit.toNat
  rows : ∀ ch, ∀ row ∈ m.held ch, ∀ r ∈ m.weights ++ m.activations, Apart (rowRegion row) r
  held_nodup : ∀ ch, (m.held ch).Nodup

theorem safe_of_laid (hm : Laid m) : Safe m := by
  constructor
  · cases hact : m.act with
    | none =>
      rw [(hm.noBuffer hact).1, List.append_nil]
      exact hm.weights.pairwise
    | some b =>
      obtain ⟨hbase, htop, hpacked, -⟩ := hm.buffer b hact
      exact (packed_append (packed_le hm.weights hbase) hpacked (Nat.zero_le _) htop).pairwise
  · intro b hact r hr
    obtain ⟨-, -, hpacked, -, hlimit⟩ := hm.buffer b hact
    exact ⟨(hpacked.bounds r hr).1, hlimit r hr⟩
  · intro ch row hrow r hr
    cases hkv : m.kv with
    | none =>
      rw [hm.noRows hkv ch] at hrow
      exact absurd hrow List.not_mem_nil
    | some kv =>
      obtain ⟨b, hact, hrows⟩ := hm.rows kv hkv
      have hge := (hrows ch).2 row (List.mem_append_right _ hrow)
      obtain ⟨hbase, -, -, hbuffer, hlimit⟩ := hm.buffer b hact
      refine apart_symm (apart_of_le (Nat.le_trans ?_ hge))
      rcases List.mem_append.mp hr with hr | hr
      · exact Nat.le_trans (hm.weights.bounds r hr).2 (Nat.le_trans hbase hbuffer)
      · exact hlimit r hr
  · intro ch
    cases hkv : m.kv with
    | none =>
      rw [hm.noRows hkv ch]
      exact List.nodup_nil
    | some kv =>
      obtain ⟨b, -, hrows⟩ := hm.rows kv hkv
      exact (List.nodup_append.mp (hrows ch).1).2.1

theorem laid_run {cs : List Call} (halign : Aligned config k) (hm : Laid m)
    (hwrap : AllCalls (step config actBufSize) (NoWrap config actBufSize) m cs)
    (h : run (step config actBufSize) m cs = .ok m') : Laid m' :=
  run_invariant_of Laid (NoWrap config actBufSize)
    (fun _ _ _ hm hwrap h => laid_step halign hm hwrap h) hm hwrap h

/-- Whatever the allocators are asked for, what they give out does not overlap, as long as the
addresses they compute do not wrap around. -/
theorem memory_safe (config : SimulationConfig) (actBufSize : AddrType) (k : ℕ) (cs : List Call)
    (m : Memory) (halign : Aligned config k)
    (hwrap : AllCalls (step config actBufSize) (NoWrap config actBufSize) {} cs)
    (h : run (step config actBufSize) {} cs = .ok m) : Safe m :=
  safe_of_laid (laid_run halign laid_initial hwrap h)

/-- One free row is left in each channel above an activation buffer of 32766 rows. -/
def sampleCalls : List Call :=
  [.allocateWeight 100, .allocateWeight 200, .initActivations, .allocateActivation 100,
    .allocateActivation 50, .initRows, .allocateRow 0, .freeRow 0 32767, .allocateRow 0]

theorem memory_safe_sample : ∃ m, run (step sampleConfig 0x7FFE00000) {} sampleCalls = .ok m ∧
    m.held 0 = [32767] ∧ Safe m := by
  have hwrap : AllCalls (step sampleConfig 0x7FFE00000) (NoWrap sampleConfig 0x7FFE00000) {}
      sampleCalls := by
    refine allCalls_cons (by unfold NoWrap; decide) rfl ?_
    refine allCalls_cons (by unfold NoWrap; decide) rfl ?_
    refine allCalls_cons (by unfold NoWrap; decide) rfl ?_
    refine allCalls_cons (fun b hb => by cases hb; decide) rfl ?_
    refine allCalls_cons (fun b hb => by cases hb; decide) rfl ?_
    refine allCalls_cons (fun b hb => by cases hb; decide) rfl ?_
    exact allCalls_cons trivial rfl (allCalls_cons trivial rfl (allCalls_cons trivial rfl trivial))
  exact ⟨_, rfl, by decide, memory_safe sampleConfig 0x7FFE00000 7 sampleCalls _
    ⟨by decide, by decide⟩ hwrap rfl⟩

/-- Two weights of half the address space: the next one begins at zero again. -/
theorem weights_wrap : ∃ m, run (step sampleConfig 1024) {}
      [.allocateWeight 0x8000000000000000, .allocateWeight 0x8000000000000000, .allocateWeight 64,
        .initActivations, .initRows] = .ok m ∧
    Aligned sampleConfig 7 ∧ ¬ Safe m := by
  refine ⟨_, rfl, ⟨by decide, by decide⟩, ?_⟩
  intro h
  have hzero := (List.pairwise_cons.mp h.disjoint).1 _ (List.mem_cons_of_mem _ List.mem_cons_self)
  -- the first byte of both
  have hfirst : 0 ∈ (region 0 0x8000000000000000).bytes := ⟨Nat.le_refl 0, by decide⟩
  have hnext : 0 ∈ (region 0 64).bytes := ⟨Nat.le_refl 0, by decide⟩
  exact hzero 0 hfirst hnext

end Memory

end NewPims

import Mathlib.Data.BitVec
import NewPims.Lib.Paging
import NewPims.Lib.Region
import NewPims.NPUKVCache
import NewPims.Operations.Kernels

/-! The blocks of the cache: where they lie, and how many there are. -/
namespace NewPims.NPUKVCache

open Paging Region Transition

variable {config : SimulationConfig} {limits : CacheLimits} {base block : AddrType}
  {cache : NPUKVCache} {n : ℕ}

theorem block_succ (base block : AddrType) (i : ℕ) :
    base + BitVec.ofNat 64 (i + 1) * block = base + BitVec.ofNat 64 i * block + block := by
  have hsucc : BitVec.ofNat 64 (i + 1) = BitVec.ofNat 64 i + 1 := BitVec.ofNat_add i 1
  rw [hsucc]
  ring

theorem layBlocks_eq (block : AddrType) (n : ℕ) (base : AddrType) :
    layBlocks block n base = (List.range n).map fun i => base + BitVec.ofNat 64 i * block := by
  induction n generalizing base with
  | zero => rfl
  | succ n ih =>
    rw [layBlocks, ih, List.range_succ_eq_map, List.map_cons, List.map_map]
    congr 1
    · simp
    · apply List.map_congr_left
      intro i _
      change base + block + BitVec.ofNat 64 i * block = base + BitVec.ofNat 64 (i + 1) * block
      rw [block_succ, add_right_comm]

theorem layBlocks_getElem? {i : ℕ} (hi : i < n) :
    (layBlocks block n base)[i]? = some (base + BitVec.ofNat 64 i * block) := by
  rw [layBlocks_eq, List.getElem?_map, List.getElem?_range hi]
  rfl

theorem layBlocks_length (block : AddrType) (n : ℕ) (base : AddrType) :
    (layBlocks block n base).length = n := by
  rw [layBlocks_eq, List.length_map, List.length_range]

/-- Every block of `size` bytes lies below the limit, no two that follow one another overlap, and
there are enough of them. -/
structure Holds (limit size needed : ℕ) (cache : NPUKVCache) : Prop where
  below : ∀ addr ∈ cache.kvCache, addr.toNat + size ≤ limit
  apart : ∀ i a b, cache.kvCache[i]? = some a → cache.kvCache[i + 1]? = some b →
    Apart ⟨a.toNat, size⟩ ⟨b.toNat, size⟩
  enough : needed ≤ cache.kvCache.length

/-- The blocks lie below the limit if and only if the sum of their sizes does. -/
theorem layBlocks_below_iff {limit size : ℕ} (hlimit : limit < 2 ^ 64) :
    (∀ addr ∈ layBlocks (BitVec.ofNat 64 size) n base, addr.toNat + size ≤ limit) ↔
      n = 0 ∨ base.toNat + n * size ≤ limit := by
  induction n generalizing base with
  | zero => exact iff_of_true (fun addr h => absurd h List.not_mem_nil) (Or.inl rfl)
  | succ n ih =>
    rw [layBlocks, List.forall_mem_cons, ih, Nat.succ_mul]
    constructor
    · rintro ⟨hfirst, hrest⟩
      right
      have hnext : (base + BitVec.ofNat 64 size).toNat = base.toNat + size := by
        rw [BitVec.toNat_add, BitVec.toNat_ofNat, Nat.add_mod_mod, Nat.mod_eq_of_lt (by omega)]
      rcases hrest with rfl | hrest
      · omega
      · omega
    · rintro (hzero | hall)
      · exact absurd hzero (Nat.succ_ne_zero n)
      · have hnext : (base + BitVec.ofNat 64 size).toNat = base.toNat + size := by
          rw [BitVec.toNat_add, BitVec.toNat_ofNat, Nat.add_mod_mod, Nat.mod_eq_of_lt (by omega)]
        exact ⟨by omega, Or.inr (by omega)⟩

/-- Below the limit the blocks follow one another. -/
theorem layBlocks_apart {limit size i : ℕ} {a b : AddrType} (hlimit : limit < 2 ^ 64)
    (hbelow : ∀ addr ∈ layBlocks (BitVec.ofNat 64 size) n base, addr.toNat + size ≤ limit)
    (ha : (layBlocks (BitVec.ofNat 64 size) n base)[i]? = some a)
    (hb : (layBlocks (BitVec.ofNat 64 size) n base)[i + 1]? = some b) :
    Apart ⟨a.toNat, size⟩ ⟨b.toNat, size⟩ := by
  have hi : i + 1 < n := by
    have hlt := (List.getElem?_eq_some_iff.mp hb).1
    rwa [layBlocks_length] at hlt
  have hafter := hbelow a (List.mem_of_getElem? ha)
  rw [layBlocks_getElem? (Nat.lt_of_succ_lt hi)] at ha
  rw [layBlocks_getElem? hi] at hb
  cases ha
  cases hb
  apply apart_of_le
  dsimp only [stop]
  rw [block_succ]
  generalize base + BitVec.ofNat 64 i * BitVec.ofNat 64 size = addr at hafter ⊢
  rw [BitVec.toNat_add, BitVec.toNat_ofNat, Nat.add_mod_mod,
    Nat.mod_eq_of_lt (Nat.lt_of_le_of_lt hafter hlimit)]

/-- The whole blocks of the tokens of all heads are enough if and only if no head has an incomplete
one. -/
theorem blocks_enough_iff (heads tokens : ℕ) :
    heads * (tokens ⌈/⌉ entrySize) ≤ heads * tokens / entrySize ↔
      heads = 0 ∨ entrySize ∣ tokens := by
  have hpos : 0 < entrySize := by decide
  rw [Nat.le_div_iff_mul_le hpos]
  constructor
  · intro h
    rcases Nat.eq_zero_or_pos heads with hzero | hheads
    · exact Or.inl hzero
    · right
      rw [Nat.mul_assoc] at h
      have hle := Nat.le_of_mul_le_mul_left h hheads
      have hge := le_mul_ceilDiv (n := tokens) hpos
      exact Dvd.intro _ (Nat.le_antisymm (by rwa [Nat.mul_comm] at hle) hge)
  · rintro (rfl | hdvd)
    · rw [Nat.zero_mul, Nat.zero_mul, Nat.zero_mul]
    · rw [Nat.mul_assoc, Nat.mul_comm _ entrySize, mul_ceilDiv hpos hdvd]

theorem initNpuLayout_ok (h : initNpuLayout config limits base = .ok cache) :
    cache.kvCache = layBlocks
      (BitVec.ofNat 64 (entrySize * (config.modelNEmbd / config.modelNHead) * config.precision))
      (limits.maxActiveReqs * limits.maxSeqLen * (config.modelNHead / config.nTp) % 2 ^ 32 / entrySize)
      base := by
  obtain ⟨heads, hheads, h⟩ := bind_ok.mp h
  obtain ⟨width, hwidth, h⟩ := bind_ok.mp h
  obtain ⟨-, rfl⟩ := divDown_eq hheads
  obtain ⟨-, rfl⟩ := divDown_eq hwidth
  dsimp only at h
  split at h
  · cases h
    rfl
  · cases h

/-- No number of blocks that comes out of 32 bits is enough for more tokens than these hold. -/
theorem enough_iff (requests tokens : ℕ) :
    requests * (tokens ⌈/⌉ entrySize) ≤ requests * tokens % 2 ^ 32 / entrySize ↔
      requests * tokens < 2 ^ 32 ∧ (requests = 0 ∨ entrySize ∣ tokens) := by
  rcases Nat.lt_or_ge (requests * tokens) (2 ^ 32) with hlt | hge
  · rw [Nat.mod_eq_of_lt hlt, blocks_enough_iff, and_iff_right hlt]
  · refine iff_of_false (fun hle => ?_) fun h => absurd h.1 (Nat.not_lt.mpr hge)
    have hneed : requests * tokens ≤ requests * (entrySize * (tokens ⌈/⌉ entrySize)) :=
      Nat.mul_le_mul_left requests (le_mul_ceilDiv (by decide))
    rw [Nat.mul_left_comm] at hneed
    have hmod := Nat.mod_lt (requests * tokens) (Nat.two_pow_pos 32)
    simp only [entrySize] at hle hneed
    omega

/-- The layout holds what it is meant to if and only if the number of tokens of all heads fits into
32 bits, these tokens fill whole blocks, and the blocks end below the limit. -/
theorem initNpuLayout_holds_iff {h dk : ℕ} (hh : h = config.modelNHead / config.nTp)
    (hdk : dk = config.modelNEmbd / config.modelNHead)
    (hinit : initNpuLayout config limits base = .ok cache) :
    Holds limits.hbmSize.toNat (entrySize * dk * config.precision)
        (limits.maxActiveReqs * h * (limits.maxSeqLen ⌈/⌉ entrySize)) cache ↔
      limits.maxActiveReqs * h * limits.maxSeqLen < 2 ^ 32 ∧
      (limits.maxActiveReqs * h = 0 ∨ entrySize ∣ limits.maxSeqLen) ∧
      (limits.maxActiveReqs * h * limits.maxSeqLen / entrySize = 0 ∨
        base.toNat + limits.maxActiveReqs * h * limits.maxSeqLen / entrySize *
          (entrySize * dk * config.precision) ≤ limits.hbmSize.toNat) := by
  have hcache := initNpuLayout_ok hinit
  rw [← hh, ← hdk, Nat.mul_right_comm limits.maxActiveReqs] at hcache
  generalize limits.maxActiveReqs * h = requests at *
  have hlimit := limits.hbmSize.isLt
  constructor
  · rintro ⟨hbelow, -, henough⟩
    rw [hcache, layBlocks_length, enough_iff] at henough
    rw [hcache, layBlocks_below_iff hlimit, Nat.mod_eq_of_lt henough.1] at hbelow
    exact ⟨henough.1, henough.2, hbelow⟩
  · rintro ⟨hfits, hwhole, hroom⟩
    have hbelow : ∀ addr ∈ cache.kvCache,
        addr.toNat + entrySize * dk * config.precision ≤ limits.hbmSize.toNat := by
      rw [hcache, layBlocks_below_iff hlimit, Nat.mod_eq_of_lt hfits]
      exact hroom
    refine ⟨hbelow, fun i a b ha hb => ?_, ?_⟩
    · rw [hcache] at hbelow ha hb
      exact layBlocks_apart hlimit hbelow ha hb
    · rw [hcache, layBlocks_length, enough_iff]
      exact ⟨hfits, hwhole⟩

/-- Two requests of 32 tokens. -/
def smallLimits : CacheLimits := ⟨2, 32, 1 <<< 20⟩

theorem initNpuLayout_holds_iff_sample : ∃ cache,
    initNpuLayout sampleConfig smallLimits 4096 = .ok cache ∧
      Holds smallLimits.hbmSize.toNat 4096 4 cache := by
  obtain ⟨cache, hcache⟩ := exists_ok (x := initNpuLayout sampleConfig smallLimits 4096) rfl
  have hdk : 64 = sampleConfig.modelNEmbd / sampleConfig.modelNHead := rfl
  refine ⟨cache, hcache, (initNpuLayout_holds_iff (h := 2) rfl hdk hcache).mpr ?_⟩
  decide

/-- A model of 96 heads and 12288 components on 8 devices. -/
def largeConfig : SimulationConfig :=
  { sampleConfig with modelNHead := 96, modelNEmbd := 12288, nTp := 8 }

/-- 8192 requests of 2048 tokens in 32 GB. -/
def largeLimits : CacheLimits := ⟨8192, 2048, 32 <<< 30⟩

/-- The size of the cache, 48 GB, is a multiple of 2^32 and passes as zero. -/
theorem initNpuLayout_exceeds : ∃ cache, initNpuLayout largeConfig largeLimits 0 = .ok cache ∧
    ¬ Holds largeLimits.hbmSize.toNat (entrySize * 128 * largeConfig.precision)
      (largeLimits.maxActiveReqs * 12 * (largeLimits.maxSeqLen ⌈/⌉ entrySize)) cache := by
  obtain ⟨cache, hcache⟩ := exists_ok (x := initNpuLayout largeConfig largeLimits 0) rfl
  refine ⟨cache, hcache, fun hholds => ?_⟩
  have hbelow := hholds.below
  rw [initNpuLayout_ok hcache] at hbelow
  exact absurd ((layBlocks_below_iff largeLimits.hbmSize.isLt).mp hbelow) (by decide)

end NewPims.NPUKVCache

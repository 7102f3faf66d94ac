import NewPims.Lib.BitExchange
import NewPims.Lib.BitField
import NewPims.Memory.Disjoint

/-! How the addresses of the memory requests are made: the column and the channel bits change places,
and what is below the alignment is cleared, which with several channels reaches into both. -/
namespace NewPims

open BitExchange AddressConfig

section Switch

variable {addr : AddrType}

/-- Bits 6 to 10 and bits 11 to 14 change places. -/
theorem switchCoCh_eq : switchCoCh addr = exchange addr 6 5 4 := by
  have hmask : mask 64 6 (5 + 4) = 32704 := by decide
  have hcol : mask 64 (6 + 5) 4 = 30720 := by decide
  have hch : mask 64 6 5 = 1984 := by decide
  rw [exchange, hmask, hcol, hch]
  rfl

/-- An address that is not moved has the same bit nine times. -/
theorem switchCoCh_fixed : switchCoCh addr = addr ↔ Uniform addr 6 9 := by
  rw [switchCoCh_eq]
  exact exchange_eq_self (by decide) (by decide)

theorem switchCoCh_inj {x y : AddrType} :
    switchCoCh x = switchCoCh y ↔ x = y := by
  rw [switchCoCh_eq, switchCoCh_eq]
  exact exchange_injective (by decide)

/-- The byte within its block, the bits that are exchanged and the rest of the address. -/
theorem switchCoCh_fields :
    (switchCoCh addr).toNat % 2 ^ 6 = addr.toNat % 2 ^ 6 ∧
      (switchCoCh addr).toNat / 2 ^ 6 % 2 ^ 4 = addr.toNat / 2 ^ 11 % 2 ^ 4 ∧
      (switchCoCh addr).toNat / 2 ^ 10 % 2 ^ 5 = addr.toNat / 2 ^ 6 % 2 ^ 5 ∧
      (switchCoCh addr).toNat / 2 ^ 15 = addr.toNat / 2 ^ 15 := by
  rw [switchCoCh_eq]
  exact exchange_fields (by decide)

end Switch

section Rotation

variable {config : SimulationConfig} {addr : AddrType}

/-- A map that can be undone by the exchange of four bits with the five above them. -/
theorem switchCoCh_bijective : Function.Bijective switchCoCh := by
  constructor
  · intro x y h
    exact switchCoCh_inj.mp h
  · intro y
    refine ⟨exchange y 6 4 5, ?_⟩
    rw [switchCoCh_eq]
    exact exchange_exchange (by decide)

/-- The nine bits from bit 6 on move round by five places. -/
theorem switchCoCh_getLsbD {i : ℕ} (hi : i < 9) :
    (switchCoCh addr).getLsbD (6 + i) = addr.getLsbD (6 + (i + 5) % 9) := by
  rw [switchCoCh_eq, getLsbD_exchange (by decide), source_rotates hi]

theorem switchCoCh_outside {i : ℕ} (hi : i < 6 ∨ 15 ≤ i) :
    (switchCoCh addr).getLsbD i = addr.getLsbD i := by
  have hsource : source 6 5 4 i = i := by
    simp only [source]
    split_ifs <;> omega
  rw [switchCoCh_eq, getLsbD_exchange (by decide), hsource]

theorem maskChannel_field (h : config.dramChannels = 32) (x : AddrType) :
    maskChannel config x = x.toNat / 2 ^ 10 % 2 ^ 5 := by
  have hmask : channelMask config = BitVec.ofNat 64 (2 ^ 5 - 1) := by
    rw [channelMask, h]
    rfl
  rw [maskChannel, hmask]
  exact BitField.toNat_field (by decide)

/-- The channel of an address after the exchange is the number of its block of 64 bytes. -/
theorem maskChannel_switchCoCh (h : config.dramChannels = 32) :
    maskChannel config (switchCoCh addr) = addr.toNat / 2 ^ 6 % 2 ^ 5 := by
  rw [maskChannel_field h]
  exact (@switchCoCh_fields addr).2.2.1

/-- `switch_co_ch` rotates the nine bits from bit 6 on and keeps all the others, so it is a
bijection; with 32 channels the channel of an address is the number of its block of 64 bytes, so
that consecutive blocks lie in consecutive channels. -/
theorem switchCoCh_rotates (config : SimulationConfig) (h : config.dramChannels = 32) :
    (∀ (addr : AddrType) (i : ℕ), i < 6 ∨ 15 ≤ i →
      (switchCoCh addr).getLsbD i = addr.getLsbD i) ∧
    (∀ (addr : AddrType), ∀ i < 9,
      (switchCoCh addr).getLsbD (6 + i) = addr.getLsbD (6 + (i + 5) % 9)) ∧
    Function.Bijective switchCoCh ∧
    (∀ addr, maskChannel config (switchCoCh addr) = (addr >>> 6).toNat % 32) ∧
    ∀ addr, maskChannel config (switchCoCh (addr + 64)) =
      (maskChannel config (switchCoCh addr) + 1) % 32 := by
  refine ⟨fun addr i hi => switchCoCh_outside hi, fun addr i hi => switchCoCh_getLsbD hi,
    switchCoCh_bijective, ?_, ?_⟩
  · intro addr
    rw [maskChannel_switchCoCh h, BitVec.toNat_ushiftRight, Nat.shiftRight_eq_div_pow,
      show 2 ^ 5 = 32 by rfl]
  · intro addr
    have hnext : (addr + 64).toNat = (addr.toNat + 64) % 2 ^ 64 := BitVec.toNat_add addr 64
    rw [maskChannel_switchCoCh h, maskChannel_switchCoCh h, hnext]
    omega

theorem switchCoCh_rotates_wide :
    maskChannel { sampleConfig with dramChannels := 32 } (switchCoCh (64 + 64)) =
      (maskChannel { sampleConfig with dramChannels := 32 } (switchCoCh 64) + 1) % 32 :=
  (switchCoCh_rotates _ rfl).2.2.2.2 64

end Rotation

section Blocks

variable {config : SimulationConfig} {x y : AddrType}

/-- The number of the block of `dram_req_size` bytes. -/
def blockOf (config : SimulationConfig) (x : AddrType) : ℕ := x.toNat / config.dramReqSize

/-- The configuration with blocks of 64 bytes and 32 channels. -/
structure Wide (config : SimulationConfig) : Prop where
  block : config.dramReqSize = 64
  channels : config.dramChannels = 32

theorem Wide.aligned (h : Wide config) : Aligned config 11 := by
  rw [Aligned, h.block, h.channels]
  decide

theorem align_wide (h : Wide config) (x : AddrType) :
    (align config x).toNat = x.toNat - x.toNat % 2 ^ 11 := roundDown_toNat h.aligned

theorem maskChannel_wide (h : Wide config) (x : AddrType) :
    maskChannel config x = x.toNat / 2 ^ 10 % 2 ^ 5 :=
  maskChannel_field h.channels x

/-- The address of a request, for an address of the stream. -/
def accessAddr (config : SimulationConfig) (x : AddrType) : AddrType := align config (switchCoCh x)

/-- A request lies in the block and the channel of its address only where the bits that the
alignment clears are zero. -/
theorem accessAddr_keeps (h : Wide config) :
    (blockOf config (accessAddr config x) = blockOf config (switchCoCh x) ∧
        maskChannel config (accessAddr config x) = maskChannel config (switchCoCh x)) ↔
      x.toNat / 2 ^ 6 % 2 = 0 ∧ x.toNat / 2 ^ 11 % 2 ^ 4 = 0 := by
  obtain ⟨-, hcol, hch, -⟩ := @switchCoCh_fields x
  rw [blockOf, blockOf, maskChannel_wide h, maskChannel_wide h, accessAddr, align_wide h, h.block]
  omega

/-- The requests go to the channels with even numbers. -/
theorem accessAddr_channel (h : Wide config) :
    maskChannel config (accessAddr config x) = 2 * (x.toNat / 2 ^ 7 % 2 ^ 4) := by
  obtain ⟨-, -, hch, -⟩ := @switchCoCh_fields x
  rw [maskChannel_wide h, accessAddr, align_wide h]
  omega

/-- The bits of an address that the address of its request depends on. -/
theorem accessAddr_eq_iff (h : Wide config) :
    accessAddr config x = accessAddr config y ↔
      x.toNat / 2 ^ 15 = y.toNat / 2 ^ 15 ∧ x.toNat / 2 ^ 7 % 2 ^ 4 = y.toNat / 2 ^ 7 % 2 ^ 4 := by
  obtain ⟨-, -, hchx, habovex⟩ := @switchCoCh_fields x
  obtain ⟨-, -, hchy, habovey⟩ := @switchCoCh_fields y
  rw [← BitVec.toNat_inj, accessAddr, accessAddr, align_wide h, align_wide h]
  omega

end Blocks

section Stream

variable {config : SimulationConfig} {constAddr : AddrType}

/-- The stream from `constAddr` on, while it stays below the bound where it starts again. -/
theorem insertedAddrs_run (srcAddrs : List AddrType)
    (hbound : constAddr.toNat + 2 * srcAddrs.length < (MemoryAccess.maxAddress config).toNat) :
    (MemoryAccess.insertedAddrs config constAddr srcAddrs).1 =
      (List.range srcAddrs.length).map fun i =>
        accessAddr config (constAddr + BitVec.ofNat 64 (2 * (i + 1))) := by
  induction srcAddrs generalizing constAddr with
  | nil => rfl
  | cons src srcAddrs ih =>
    rw [List.length_cons] at hbound
    have hlimit := (MemoryAccess.maxAddress config).isLt
    have hnext : (constAddr + 2).toNat = constAddr.toNat + 2 := by
      rw [BitVec.toNat_add, Nat.mod_eq_of_lt]
      · rfl
      · change constAddr.toNat + 2 < 2 ^ 64
        omega
    have hstep : MemoryAccess.nextConstAddr config constAddr = constAddr + 2 := by
      apply if_neg
      rw [ge_iff_le, BitVec.le_def, hnext]
      omega
    have hrest := ih (by rw [hnext]; omega : (constAddr + 2).toNat + 2 * srcAddrs.length < _)
    simp only [MemoryAccess.insertedAddrs, hstep, hrest, List.length_cons, List.range_succ_eq_map,
      List.map_cons, List.map_map]
    congr 1
    apply List.map_congr_left
    intro i _
    simp only [Function.comp_apply]
    rw [BitVec.add_assoc]
    congr 2
    rw [show 2 * (i.succ + 1) = 2 + 2 * (i + 1) by omega, BitVec.ofNat_add]
    rfl

/-- Among the addresses of 2048 bytes in steps of two there is one with each value of the bits 7 to
10. -/
theorem exists_run_bits (start : ℕ) {n m : ℕ} (hn : 1024 ≤ n) (hm : m < 16) :
    ∃ i < n, (start + 2 * (i + 1)) / 2 ^ 7 % 2 ^ 4 = m := by
  by_cases hfirst : (start + 2) / 2 ^ 7 % 2 ^ 4 = m
  · exact ⟨0, by omega, hfirst⟩
  · -- the distance from the first address to the next byte where the bits take this value
    let d := (2 ^ 7 * m + 2 ^ 11 - (start + 2) % 2 ^ 11) % 2 ^ 11
    have hd : d ≤ 2 ^ 11 - 2 ^ 7 ∧ (start + 2 + d) / 2 ^ 7 % 2 ^ 4 = m ∧
        (start + 2 + d) % 2 ^ 7 = 0 := by
      dsimp only [d]
      omega
    exact ⟨(d + 1) / 2, by omega, by omega⟩

/-- Every request goes to a channel with an even number. -/
theorem insertedAddrs_channel (h : Wide config) {srcAddrs : List AddrType} {a : AddrType}
    (ha : a ∈ (MemoryAccess.insertedAddrs config constAddr srcAddrs).1) :
    maskChannel config a % 2 = 0 := by
  induction srcAddrs generalizing constAddr with
  | nil => exact absurd ha List.not_mem_nil
  | cons src srcAddrs ih =>
    simp only [MemoryAccess.insertedAddrs, List.mem_cons] at ha
    rcases ha with rfl | ha
    · have hchannel := accessAddr_channel (x := MemoryAccess.nextConstAddr config constAddr) h
      rw [accessAddr] at hchannel
      omega
    · exact ih ha

/-- Over a run of 2048 bytes of the stream, the channels that get requests are those with even
numbers. -/
theorem channel_receives (h : Wide config) {srcAddrs : List AddrType} {ch : ℕ} (hch : ch < 32)
    (hrun : 2048 ≤ 2 * srcAddrs.length)
    (hbound : constAddr.toNat + 2 * srcAddrs.length < (MemoryAccess.maxAddress config).toNat) :
    (∃ a ∈ (MemoryAccess.insertedAddrs config constAddr srcAddrs).1,
      maskChannel config a = ch) ↔ ch % 2 = 0 := by
  constructor
  · rintro ⟨a, ha, rfl⟩
    exact insertedAddrs_channel h ha
  · intro heven
    have hlimit := (MemoryAccess.maxAddress config).isLt
    obtain ⟨i, hi, hbits⟩ := exists_run_bits constAddr.toNat
      (show 1024 ≤ srcAddrs.length by omega) (show ch / 2 < 16 by omega)
    refine ⟨accessAddr config (constAddr + BitVec.ofNat 64 (2 * (i + 1))), ?_, ?_⟩
    · rw [insertedAddrs_run srcAddrs hbound]
      exact List.mem_map.mpr ⟨i, List.mem_range.mpr hi, rfl⟩
    · have hnat : (constAddr + BitVec.ofNat 64 (2 * (i + 1))).toNat =
          constAddr.toNat + 2 * (i + 1) := by
        rw [BitVec.toNat_add, BitVec.toNat_ofNat]
        omega
      rw [accessAddr_channel h, hnat, hbits]
      omega

/-- With blocks of 64 bytes and 32 channels, a request keeps the block and the channel of its address
exactly where bit 6 and bits 11 to 14 of the address in the stream are zero; over a run of 2048 bytes
only the channels with even numbers get requests; and two addresses with one request lie in one block
only if they agree in those bits, too. -/
theorem requests_keep_blocks (h : Wide config) :
    (∀ x, (blockOf config (align config (switchCoCh x)) = blockOf config (switchCoCh x) ∧
        maskChannel config (align config (switchCoCh x)) = maskChannel config (switchCoCh x)) ↔
      x.toNat / 2 ^ 6 % 2 = 0 ∧ x.toNat / 2 ^ 11 % 2 ^ 4 = 0) ∧
    (∀ (constAddr : AddrType) (srcAddrs : List AddrType),
      config.dramReqSize * config.dramChannels ≤ 2 * srcAddrs.length →
      constAddr.toNat + 2 * srcAddrs.length < (MemoryAccess.maxAddress config).toNat →
      ∀ ch < config.dramChannels,
        ((∃ a ∈ (MemoryAccess.insertedAddrs config constAddr srcAddrs).1,
          maskChannel config a = ch) ↔ ch % 2 = 0)) ∧
    ∀ x y, (align config (switchCoCh x) = align config (switchCoCh y) →
        blockOf config x = blockOf config y) ↔
      (x.toNat / 2 ^ 15 = y.toNat / 2 ^ 15 ∧ x.toNat / 2 ^ 7 % 2 ^ 4 = y.toNat / 2 ^ 7 % 2 ^ 4 →
        x.toNat / 2 ^ 6 % 2 = y.toNat / 2 ^ 6 % 2 ∧
          x.toNat / 2 ^ 11 % 2 ^ 4 = y.toNat / 2 ^ 11 % 2 ^ 4) := by
  refine ⟨fun x => accessAddr_keeps h, ?_, ?_⟩
  · intro constAddr srcAddrs hrun hbound ch hch
    rw [h.block, h.channels] at hrun
    rw [h.channels] at hch
    exact channel_receives h hch hrun hbound
  · intro x y
    have hmerged := accessAddr_eq_iff (x := x) (y := y) h
    unfold accessAddr at hmerged
    rw [hmerged, blockOf, blockOf, h.block]
    constructor
    · intro hblock hkept
      have heq := hblock hkept
      omega
    · intro hdropped hkept
      obtain ⟨hlow, hhigh⟩ := hdropped hkept
      obtain ⟨habove, hmiddle⟩ := hkept
      omega

end Stream

section Samples

/-- A memory with 32 channels. -/
def channels32 : SimulationConfig := { sampleConfig with dramChannels := 32 }

theorem requests_keep_blocks_start :
    blockOf channels32 (align channels32 (switchCoCh 0)) = blockOf channels32 (switchCoCh 0) ∧
      maskChannel channels32 (align channels32 (switchCoCh 0)) =
        maskChannel channels32 (switchCoCh 0) :=
  ((requests_keep_blocks ⟨rfl, rfl⟩).1 0).mpr (by decide)

/-- The second block of the stream is read from the first one, whose channel is another. -/
theorem requests_keep_blocks_second :
    blockOf channels32 (align channels32 (switchCoCh 64)) ≠ blockOf channels32 (switchCoCh 64) ∧
      maskChannel channels32 (align channels32 (switchCoCh 64)) ≠
        maskChannel channels32 (switchCoCh 64) ∧
      align channels32 (switchCoCh 0) = align channels32 (switchCoCh 64) ∧
      blockOf channels32 0 ≠ blockOf channels32 64 := by
  decide +kernel

end Samples

end NewPims

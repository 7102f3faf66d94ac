import Mathlib.Data.Nat.Log
import NewPims.NewtonSim.Codec
import NewPims.Tensor

/-! The channel and the row in an address of `make_address`, for any number of channels, and what
is left of them in 32 bits. -/
namespace NewPims

open BitField NewtonSim

theorem logBase2_eq_log (n : ℕ) : logBase2 n = Nat.log 2 n := by
  induction n using Nat.strong_induction_on with
  | h n ih =>
    rw [logBase2]
    split_ifs with hbig
    · rw [ih (n / 2) (by omega), Nat.log_of_one_lt_of_le (by decide) hbig]
    · rw [Nat.log_of_lt (by omega)]

namespace AddressConfig

variable (config : SimulationConfig)

def layoutRow (addr : AddrType) : ℕ := addr.toNat / 2 ^ (15 + logBase2 config.dramChannels)

def layoutChannel (addr : AddrType) : ℕ := addr.toNat / 2 ^ 10 % 2 ^ logBase2 config.dramChannels

variable {config} {channel rank bankgroup bank row : BitVec 32}

/-- A channel number may be one bit wider than its field, and then reaches into the bank. -/
theorem layout_makeAddress (col : BitVec 32) (hfew : config.dramChannels < 2 ^ 31)
    (hch : channel.toNat < config.dramChannels) (hrank : rank.toNat < 2)
    (hbankgroup : bankgroup.toNat < 4) (hbank : bank.toNat < 4) (hrow : row.toNat < 32768) :
    let addr := makeAddress config channel rank bankgroup bank row col
    layoutRow config addr = row.toNat ∧
      layoutChannel config addr = channel.toNat % 2 ^ logBase2 config.dramChannels := by
  set k := logBase2 config.dramChannels with hk
  have hpos : config.dramChannels ≠ 0 := by omega
  have hlow : 2 ^ k ≤ config.dramChannels := by
    rw [hk, logBase2_eq_log]
    exact Nat.pow_log_le_self 2 hpos
  have hhigh : config.dramChannels < 2 ^ (k + 1) := by
    rw [hk, logBase2_eq_log]
    exact Nat.lt_pow_succ_log_self (by decide) _
  have hk31 : k < 31 := (Nat.pow_lt_pow_iff_right (by decide)).mp (Nat.lt_of_le_of_lt hlow hfew)
  have hchw := toNat_wide (Nat.lt_trans hch hfew)
  have hra := toNat_wide (Nat.lt_trans hrank (by decide))
  have hbg := toNat_wide (Nat.lt_trans hbankgroup (by decide))
  have hba := toNat_wide (Nat.lt_trans hbank (by decide))
  have hro := toNat_wide (Nat.lt_trans hrow (by decide))
  have hco := toNat_wide (Nat.lt_trans (column_lt col) (by decide))
  have h1 : (row.signExtend 64).toNat < 2 ^ 15 := by rw [hro]; exact hrow
  have v1 : (rank.signExtend 64).toNat < 2 ^ 1 := by rw [hra]; exact hrank
  have v2 : (bankgroup.signExtend 64).toNat < 2 ^ 2 := by rw [hbg]; exact hbankgroup
  have v3 : (bank.signExtend 64).toNat < 2 ^ 2 := by rw [hba]; exact hbank
  have v5 : ((col &&& 15).signExtend 64).toNat < 2 ^ 4 := by rw [hco]; exact column_lt col
  have h2 := append_lt h1 v1 (by omega)
  have h3 := append_lt h2 v2 (by omega)
  have h4 := append_lt h3 v3 (by omega)
  -- the bank and everything above it
  set upper := append (append (append (row.signExtend 64) 1 (rank.signExtend 64)) 2
    (bankgroup.signExtend 64)) 2 (bank.signExtend 64) with hupper
  have hupperRow : upper.toNat / 2 ^ 5 = row.toNat := by
    rw [hupper, toNat_append h3 v3 (by omega), toNat_append h2 v2 (by omega),
      toNat_append h1 v1 (by omega), hro]
    omega
  have hor := toNat_append_or (v := channel.signExtend 64) (w := k) h4 (by omega)
  have h5 : (append upper k (channel.signExtend 64)).toNat < 2 ^ (20 + k) := by
    rw [hor, Nat.shiftLeft_eq]
    apply Nat.or_lt_two_pow
    · rw [Nat.pow_add]
      exact Nat.mul_lt_mul_of_pos_right h4 (Nat.two_pow_pos k)
    · rw [hchw]
      exact Nat.lt_trans hch (Nat.lt_of_lt_of_le hhigh (Nat.pow_le_pow_right (by decide) (by omega)))
  have h6 := append_lt h5 v5 (by omega)
  have haddr : (makeAddress config channel rank bankgroup bank row col).toNat / 2 ^ 10 =
      (append upper k (channel.signExtend 64)).toNat := by
    rw [makeAddress_eq, ← hk, ← hupper, toNat_append h6 (by decide) (by omega),
      toNat_append h5 v5 (by omega)]
    have hcol : ((col &&& 15).signExtend 64).toNat < 16 := v5
    have hzero : (0 : BitVec 64).toNat = 0 := rfl
    omega
  refine ⟨?_, ?_⟩
  · rw [layoutRow, ← hk, show 15 + k = 10 + (k + 5) by omega, Nat.pow_add, ← Nat.div_div_eq_div_mul,
      haddr, hor, ← Nat.shiftRight_eq_div_pow, Nat.shiftRight_or_distrib, Nat.shiftRight_add,
      Nat.shiftLeft_shiftRight, Nat.shiftRight_eq_div_pow, hupperRow, Nat.shiftRight_eq_div_pow,
      hchw, Nat.div_eq_of_lt, Nat.or_zero]
    exact Nat.lt_trans hch (Nat.lt_of_lt_of_le hhigh (Nat.pow_le_pow_right (by decide) (by omega)))
  · rw [layoutChannel, ← hk, haddr, hor, Nat.or_mod_two_pow, Nat.shiftLeft_eq, Nat.mul_mod_left,
      Nat.zero_or, hchw]

section Commands

theorem layout_encodePimHeader (hfew : config.dramChannels < 2 ^ 31)
    (hch : channel.toNat < config.dramChannels) (hrow : row.toNat < 32768) (g : Bool)
    (c r : BitVec 32) :
    let addr := encodePimHeader config channel row g c r
    layoutRow config addr = row.toNat ∧
      layoutChannel config addr = channel.toNat % 2 ^ logBase2 config.dramChannels := by
  obtain ⟨hrank, hbankgroup, hbank, -, -⟩ := readres_parts ⟨logBase2Int r, logBase2Int_lt r⟩
  exact layout_makeAddress _ hfew hch hrank hbankgroup hbank hrow

/-- The assertion bounds the number of computations. -/
theorem encodePimCompsReadres_le {n : BitVec 32} (hpos : 1 ≤ n.toNat) (hn : n.toNat < 2 ^ 31)
    {last : Bool} {addr : AddrType}
    (h : encodePimCompsReadres config channel row n last = .ok addr) : n.toNat ≤ 32 := by
  rw [encodePimCompsReadres] at h
  dsimp only at h
  split at h
  · next hless =>
    have hminus : (n - 1).toNat = n.toNat - 1 := by
      rw [BitVec.toNat_sub_of_le (by rw [BitVec.le_def]; exact hpos)]
      rfl
    rw [BitVec.slt, decide_eq_true_eq] at hless
    change (n - 1).toInt < 32 at hless
    rw [BitVec.toInt_eq_toNat_of_lt (by omega), hminus] at hless
    omega
  · cases h

theorem layout_encodePimCompsReadres (hfew : config.dramChannels < 2 ^ 31)
    (hch : channel.toNat < config.dramChannels) (hrow : row.toNat < 32768) {n : BitVec 32}
    (hpos : 1 ≤ n.toNat) (hn : n.toNat < 2 ^ 31) {last : Bool} {addr : AddrType}
    (h : encodePimCompsReadres config channel row n last = .ok addr) :
    layoutRow config addr = row.toNat ∧
      layoutChannel config addr = channel.toNat % 2 ^ logBase2 config.dramChannels := by
  have hn32 := encodePimCompsReadres_le hpos hn h
  obtain ⟨-, hrank, hbankgroup, hbank, -⟩ := comps_parts ⟨n.toNat - 1, by omega⟩
  have hofNat : BitVec.ofNat 32 (n.toNat - 1 + 1) = n := by
    rw [Nat.sub_add_cancel hpos, BitVec.ofNat_toNat, BitVec.setWidth_eq]
  simp only [hofNat] at hrank hbankgroup hbank
  rw [encodePimCompsReadres] at h
  dsimp only at h
  split at h
  · cases h
    exact layout_makeAddress _ hfew hch hrank hbankgroup hbank hrow
  · cases h

/-- An address that went through a `uint32_t` keeps its row and its channel exactly where they
fit into 32 bits. -/
theorem layout_truncate (addr : AddrType) :
    (layoutChannel config ((addr.setWidth 32).setWidth 64) = layoutChannel config addr ∧
      layoutRow config ((addr.setWidth 32).setWidth 64) = layoutRow config addr) ↔
    layoutChannel config addr * 2 ^ 10 < 2 ^ 32 ∧
      layoutRow config addr * 2 ^ (15 + logBase2 config.dramChannels) < 2 ^ 32 := by
  have hnarrow : ((addr.setWidth 32).setWidth 64).toNat = addr.toNat % 2 ^ 32 := by
    have := Nat.mod_lt addr.toNat (Nat.two_pow_pos 32)
    rw [BitVec.toNat_setWidth, BitVec.toNat_setWidth, Nat.mod_eq_of_lt (by omega)]
  unfold layoutChannel layoutRow
  rw [hnarrow]
  exact and_congr truncate_field_iff truncate_div_iff

end Commands

end AddressConfig

end NewPims

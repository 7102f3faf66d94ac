import Mathlib.Algebra.Ring.Nat
import Mathlib.Data.Nat.Notation

/-! Bit fields of a machine word: a word is built by appending fields at its low end, and a field
is read back with a shift and a mask. -/
namespace NewPims.BitField

variable {N n w pos width : ℕ} {hi v x : BitVec N}

/-- The word `hi` moved up by `w` bits, with `v` below it. -/
def append (hi : BitVec N) (w : ℕ) (v : BitVec N) : BitVec N := hi <<< w ||| v

/-- The `width` bits from the position `pos` on. -/
def field (x : BitVec N) (pos width : ℕ) : BitVec N := (x >>> pos) &&& BitVec.ofNat N (2 ^ width - 1)

theorem toNat_field (hwidth : width ≤ N) :
    (field x pos width).toNat = x.toNat / 2 ^ pos % 2 ^ width := by
  have hmask : 2 ^ width - 1 < 2 ^ N := by
    have := Nat.pow_le_pow_right (show 0 < 2 by decide) hwidth
    have := Nat.two_pow_pos width
    omega
  rw [field, BitVec.toNat_and, BitVec.toNat_ofNat, Nat.mod_eq_of_lt hmask,
    Nat.and_two_pow_sub_one_eq_mod, BitVec.toNat_ushiftRight, Nat.shiftRight_eq_div_pow]

/-- Appending loses nothing of what stands above. -/
theorem toNat_append_or (hhi : hi.toNat < 2 ^ n) (hN : n + w ≤ N) :
    (append hi w v).toNat = hi.toNat <<< w ||| v.toNat := by
  have hroom : hi.toNat <<< w < 2 ^ N := by
    rw [Nat.shiftLeft_eq]
    calc hi.toNat * 2 ^ w < 2 ^ n * 2 ^ w := Nat.mul_lt_mul_of_pos_right hhi (Nat.two_pow_pos w)
      _ = 2 ^ (n + w) := (Nat.pow_add 2 n w).symm
      _ ≤ 2 ^ N := Nat.pow_le_pow_right (by decide) hN
  rw [append, BitVec.toNat_or, BitVec.toNat_shiftLeft, Nat.mod_eq_of_lt hroom]

/-- Appending loses nothing as long as the word is wide enough. -/
theorem toNat_append (hhi : hi.toNat < 2 ^ n) (hv : v.toNat < 2 ^ w) (hN : n + w ≤ N) :
    (append hi w v).toNat = hi.toNat * 2 ^ w + v.toNat := by
  rw [toNat_append_or hhi hN, ← Nat.shiftLeft_add_eq_or_of_lt hv, Nat.shiftLeft_eq]

theorem append_lt (hhi : hi.toNat < 2 ^ n) (hv : v.toNat < 2 ^ w) (hN : n + w ≤ N) :
    (append hi w v).toNat < 2 ^ (n + w) := by
  rw [toNat_append hhi hv hN, Nat.pow_add]
  calc hi.toNat * 2 ^ w + v.toNat < hi.toNat * 2 ^ w + 2 ^ w := Nat.add_lt_add_left hv _
    _ = (hi.toNat + 1) * 2 ^ w := (Nat.succ_mul _ _).symm
    _ ≤ 2 ^ n * 2 ^ w := Nat.mul_le_mul_right _ hhi

/-- The field appended last. -/
theorem field_append_low (hhi : hi.toNat < 2 ^ n) (hv : v.toNat < 2 ^ w) (hN : n + w ≤ N) :
    field (append hi w v) 0 w = v := by
  apply BitVec.eq_of_toNat_eq
  rw [toNat_field (by omega), toNat_append hhi hv hN, Nat.pow_zero, Nat.div_one,
    Nat.mul_comm, Nat.mul_add_mod, Nat.mod_eq_of_lt hv]

/-- The fields appended before. -/
theorem field_append_high (hhi : hi.toNat < 2 ^ n) (hv : v.toNat < 2 ^ w) (hN : n + w ≤ N)
    (pos width : ℕ) (hwidth : width ≤ N) :
    field (append hi w v) (w + pos) width = field hi pos width := by
  apply BitVec.eq_of_toNat_eq
  rw [toNat_field hwidth, toNat_field hwidth, toNat_append hhi hv hN, Nat.pow_add,
    ← Nat.div_div_eq_div_mul, Nat.mul_comm, Nat.mul_add_div (Nat.two_pow_pos w),
    Nat.div_eq_of_lt hv, Nat.add_zero]

/-- A field of the word shifted down. -/
theorem field_shiftRight (s : ℕ) : field (x >>> s) pos width = field x (s + pos) width := by
  rw [field, field, BitVec.shiftRight_add]

/-- Where the word itself is the field. -/
theorem field_of_lt (hx : x.toNat < 2 ^ n) (hn : n ≤ N) : field x 0 n = x := by
  apply BitVec.eq_of_toNat_eq
  rw [toNat_field hn, Nat.pow_zero, Nat.div_one, Nat.mod_eq_of_lt hx]

section Truncate

variable {x p q w : ℕ}

theorem eq_zero_of_mul_lt {a b c : ℕ} (h : a * b < c) (hle : c ≤ b) : a = 0 := by
  apply Nat.eq_zero_of_not_pos
  intro hpos
  have := Nat.le_mul_of_pos_left b hpos
  omega

/-- What is above the position `p` survives a truncation to `q` bits exactly where it fits. -/
theorem truncate_div_iff : x % 2 ^ q / 2 ^ p = x / 2 ^ p ↔ x / 2 ^ p * 2 ^ p < 2 ^ q := by
  constructor
  · intro h
    rw [← h]
    exact Nat.lt_of_le_of_lt (Nat.div_mul_le_self _ _) (Nat.mod_lt x (Nat.two_pow_pos q))
  · intro h
    rcases Nat.lt_or_ge q p with hqp | hpq
    · have hpow : 2 ^ q < 2 ^ p := Nat.pow_lt_pow_right (by decide) hqp
      have hlt : x % 2 ^ q < 2 ^ p := Nat.lt_trans (Nat.mod_lt x (Nat.two_pow_pos q)) hpow
      rw [eq_zero_of_mul_lt h (Nat.le_of_lt hpow), Nat.div_eq_of_lt hlt]
    · rw [← Nat.sub_add_cancel hpq, Nat.pow_add] at h ⊢
      have hlt : x / 2 ^ p < 2 ^ (q - p) := Nat.lt_of_mul_lt_mul_right h
      rw [Nat.mul_comm, Nat.mod_mul_right_div_self, Nat.mod_eq_of_lt hlt]

/-- A field of `w` bits at the position `p` survives a truncation to `q` bits exactly where it
fits. -/
theorem truncate_field_iff :
    x % 2 ^ q / 2 ^ p % 2 ^ w = x / 2 ^ p % 2 ^ w ↔ x / 2 ^ p % 2 ^ w * 2 ^ p < 2 ^ q := by
  rcases Nat.lt_or_ge q p with hqp | hpq
  · have hpow : 2 ^ q < 2 ^ p := Nat.pow_lt_pow_right (by decide) hqp
    rw [Nat.div_eq_of_lt (Nat.lt_trans (Nat.mod_lt x (Nat.two_pow_pos q)) hpow), Nat.zero_mod]
    constructor
    · intro h
      rw [← h, Nat.zero_mul]
      exact Nat.two_pow_pos q
    · exact fun h => (eq_zero_of_mul_lt h (Nat.le_of_lt hpow)).symm
  · rw [← Nat.sub_add_cancel hpq, Nat.pow_add, Nat.mul_lt_mul_right (Nat.two_pow_pos p),
      Nat.mul_comm (2 ^ (q - p)), Nat.mod_mul_right_div_self]
    rcases Nat.le_total w (q - p) with hw | hw
    · rw [Nat.mod_mod_of_dvd _ (Nat.pow_dvd_pow 2 hw)]
      have hpow := Nat.pow_le_pow_right (show 0 < 2 by decide) hw
      exact ⟨fun _ => Nat.lt_of_lt_of_le (Nat.mod_lt _ (Nat.two_pow_pos w)) hpow, fun _ => rfl⟩
    · have hpow := Nat.pow_le_pow_right (show 0 < 2 by decide) hw
      have hsmall := Nat.mod_lt (x / 2 ^ p) (Nat.two_pow_pos (q - p))
      rw [Nat.mod_eq_of_lt (Nat.lt_of_lt_of_le hsmall hpow),
        ← Nat.mod_mod_of_dvd (x / 2 ^ p) (Nat.pow_dvd_pow 2 hw)]
      exact ⟨fun h => by rw [← h]; exact Nat.mod_lt _ (Nat.two_pow_pos _), Nat.mod_eq_of_lt⟩

theorem truncate_field_le : x % 2 ^ q / 2 ^ p % 2 ^ w ≤ x / 2 ^ p % 2 ^ w := by
  rcases Nat.lt_or_ge q p with hqp | hpq
  · have hpow : 2 ^ q < 2 ^ p := Nat.pow_lt_pow_right (by decide) hqp
    rw [Nat.div_eq_of_lt (Nat.lt_trans (Nat.mod_lt x (Nat.two_pow_pos q)) hpow), Nat.zero_mod]
    exact Nat.zero_le _
  · rw [← Nat.sub_add_cancel hpq, Nat.pow_add, Nat.mul_comm (2 ^ (q - p)),
      Nat.mod_mul_right_div_self]
    rcases Nat.le_total w (q - p) with hw | hw
    · rw [Nat.mod_mod_of_dvd _ (Nat.pow_dvd_pow 2 hw)]
    · rw [← Nat.mod_mod_of_dvd (x / 2 ^ p) (Nat.pow_dvd_pow 2 hw)]
      exact Nat.le_trans (Nat.mod_le _ _) (Nat.mod_le _ _)

end Truncate

end NewPims.BitField

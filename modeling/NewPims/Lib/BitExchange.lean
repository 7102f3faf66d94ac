import Mathlib.Data.BitVec
import Mathlib.Data.Int.GCD

/-! Two neighbouring bit fields of a machine word that change places: which bit goes where, and
which words stay as they are. -/
namespace NewPims.BitExchange

variable {N pos low high n i : ℕ} {x y : BitVec N}

/-- The `n` bits from the position `pos` on. -/
def mask (N pos n : ℕ) : BitVec N := BitVec.ofNat N (2 ^ n - 1) <<< pos

/-- The `low` bits from `pos` on move up, and the `high` bits above them move down. -/
def exchange (x : BitVec N) (pos low high : ℕ) : BitVec N :=
  (x &&& ~~~ mask N pos (low + high)) ||| ((x &&& mask N (pos + low) high) >>> low) |||
    ((x &&& mask N pos low) <<< high)

/-- Where a bit of the word comes from. -/
def source (pos low high i : ℕ) : ℕ :=
  if i < pos then i
  else if i < pos + high then i + low
  else if i < pos + high + low then i - high
  else i

theorem getLsbD_mask : (mask N pos n).getLsbD i = decide (i < N ∧ pos ≤ i ∧ i < pos + n) := by
  rw [mask, BitVec.getLsbD_shiftLeft, BitVec.getLsbD_ofNat, Nat.testBit_two_pow_sub_one,
    Bool.eq_iff_iff]
  simp only [Bool.and_eq_true, Bool.not_eq_true', decide_eq_true_eq, decide_eq_false_iff_not]
  omega

theorem getLsbD_exchange (hN : pos + low + high ≤ N) :
    (exchange x pos low high).getLsbD i = x.getLsbD (source pos low high i) := by
  rcases Nat.lt_or_ge i N with hi | hi
  · simp only [exchange, BitVec.getLsbD_or, BitVec.getLsbD_and, BitVec.getLsbD_not,
      BitVec.getLsbD_shiftLeft, BitVec.getLsbD_ushiftRight, getLsbD_mask, source]
    grind
  · have hsource : N ≤ source pos low high i := by
      simp only [source]
      split_ifs <;> omega
    rw [BitVec.getLsbD_of_ge _ _ hi, BitVec.getLsbD_of_ge _ _ hsource]

/-- Exchanging the fields back. -/
theorem exchange_exchange (hN : pos + low + high ≤ N) :
    exchange (exchange x pos low high) pos high low = x := by
  apply BitVec.eq_of_getLsbD_eq
  intro i _
  have hback : source pos low high (source pos high low i) = i := by
    simp only [source]
    split_ifs <;> omega
  rw [getLsbD_exchange (by omega), getLsbD_exchange hN, hback]

theorem exchange_injective (hN : pos + low + high ≤ N) :
    exchange x pos low high = exchange y pos low high ↔ x = y := by
  constructor
  · intro h
    rw [← exchange_exchange (x := x) hN, h, exchange_exchange hN]
  · intro h
    rw [h]

/-- Fields with the same bits are the same number. -/
theorem field_of_bits {p q : ℕ} (h : ∀ i < n, y.getLsbD (p + i) = x.getLsbD (q + i)) :
    y.toNat / 2 ^ p % 2 ^ n = x.toNat / 2 ^ q % 2 ^ n := by
  apply Nat.eq_of_testBit_eq
  intro i
  rw [Nat.testBit_mod_two_pow, Nat.testBit_mod_two_pow, Nat.testBit_div_two_pow,
    Nat.testBit_div_two_pow, BitVec.testBit_toNat, BitVec.testBit_toNat, Nat.add_comm i p,
    Nat.add_comm i q]
  by_cases hi : i < n
  · rw [h i hi]
  · simp only [hi, decide_false, Bool.false_and]

/-- The four fields of a word after the exchange. -/
theorem exchange_fields (hN : pos + low + high ≤ N) :
    (exchange x pos low high).toNat % 2 ^ pos = x.toNat % 2 ^ pos ∧
      (exchange x pos low high).toNat / 2 ^ pos % 2 ^ high = x.toNat / 2 ^ (pos + low) % 2 ^ high ∧
      (exchange x pos low high).toNat / 2 ^ (pos + high) % 2 ^ low =
        x.toNat / 2 ^ pos % 2 ^ low ∧
      (exchange x pos low high).toNat / 2 ^ (pos + low + high) =
        x.toNat / 2 ^ (pos + low + high) := by
  have hbits : ∀ p q n, (∀ i < n, source pos low high (p + i) = q + i) →
      (exchange x pos low high).toNat / 2 ^ p % 2 ^ n = x.toNat / 2 ^ q % 2 ^ n := by
    intro p q n h
    apply field_of_bits
    intro i hi
    rw [getLsbD_exchange hN, h i hi]
  refine ⟨?_, ?_, ?_, ?_⟩
  · have hlow := hbits 0 0 pos (by intro i hi; simp only [source]; split_ifs <;> omega)
    rwa [Nat.pow_zero, Nat.div_one, Nat.div_one] at hlow
  · exact hbits _ _ _ (by intro i hi; simp only [source]; split_ifs <;> omega)
  · exact hbits _ _ _ (by intro i hi; simp only [source]; split_ifs <;> omega)
  · have habove := hbits (pos + low + high) (pos + low + high) N
      (by intro i hi; simp only [source]; split_ifs <;> omega)
    rwa [Nat.mod_eq_of_lt (Nat.lt_of_le_of_lt (Nat.div_le_self _ _) (BitVec.isLt _)),
      Nat.mod_eq_of_lt (Nat.lt_of_le_of_lt (Nat.div_le_self _ _) (BitVec.isLt _))] at habove

/-- The bits of the two fields move round, by the length of the lower one. -/
theorem source_rotates (hi : i < low + high) :
    source pos low high (pos + i) = pos + (i + low) % (low + high) := by
  simp only [source]
  split_ifs
  · omega
  · rw [Nat.mod_eq_of_lt (by omega)]
    omega
  · have hwrap : (i + low) % (low + high) = i + low - (low + high) := by
      rw [Nat.mod_eq_sub_mod (by omega), Nat.mod_eq_of_lt (by omega)]
    omega
  · omega

/-- The bits of a field are all the same. -/
def Uniform (x : BitVec N) (pos n : ℕ) : Prop := ∀ i < n, x.getLsbD (pos + i) = x.getLsbD pos

instance : Decidable (Uniform x pos n) := Nat.decidableBallLT n _

/-- Lengths without a common factor bring every bit to every place, so only the words whose bits
there are all the same stay as they are. -/
theorem exchange_eq_self (hN : pos + low + high ≤ N) (hcoprime : Nat.Coprime low (low + high)) :
    exchange x pos low high = x ↔ Uniform x pos (low + high) := by
  constructor
  · intro h i hi
    -- the bit after `k` rounds of the rotation
    have hround : ∀ k, x.getLsbD (pos + low * k % (low + high)) = x.getLsbD pos := by
      intro k
      induction k with
      | zero => simp
      | succ k ih =>
        have hlt : low * k % (low + high) < low + high := Nat.mod_lt _ (by omega)
        have hbit := getLsbD_exchange (x := x) (i := pos + low * k % (low + high)) hN
        rw [h, source_rotates hlt, Nat.mod_add_mod, ← Nat.mul_succ] at hbit
        exact hbit.symm.trans ih
    obtain ⟨k, -, hk⟩ := Nat.exists_mul_mod_eq_of_coprime i hcoprime (by omega)
    rw [← hround k, hk, Nat.mod_eq_of_lt hi]
  · intro h
    apply BitVec.eq_of_getLsbD_eq
    intro i _
    rw [getLsbD_exchange hN]
    simp only [source]
    split_ifs with h1 h2 h3
    · rfl
    · have hi := h (i - pos) (by omega)
      have hlow := h (i - pos + low) (by omega)
      rw [show pos + (i - pos) = i by omega] at hi
      rw [show pos + (i - pos + low) = i + low by omega] at hlow
      rw [hi, hlow]
    · have hi := h (i - pos) (by omega)
      have hhigh := h (i - pos - high) (by omega)
      rw [show pos + (i - pos) = i by omega] at hi
      rw [show pos + (i - pos - high) = i - high by omega] at hhigh
      rw [hi, hhigh]
    · rfl

end NewPims.BitExchange

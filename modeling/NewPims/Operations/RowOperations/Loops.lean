import Mathlib.Tactic.Ring
import NewPims.Operations.MatMul.Halving
import NewPims.Operations.RowOperations

/-! The loops of the operations on rows: halving goes through all rows without a remainder only for
row counts that stay even, and through none where the number of parts becomes zero. -/
namespace NewPims

namespace RowOperation

open MatMul

variable {f : ℕ → ℕ} {limit rows inner parts outer : ℕ} {loops : ℕ × ℕ}

section Split

/-- `fitRows` without a limit to the number of parts. -/
def splitRows (sramSizeNeeded : ℕ → ℕ) (limit inner parts : ℕ) : Except Fault (ℕ × ℕ) :=
  if sramSizeNeeded inner ≤ limit then .ok (inner, parts)
  else if 1 < inner then splitRows sramSizeNeeded limit (ceilHalf inner) (parts * 2)
  else .error .endlessRecursion
termination_by inner
decreasing_by exact MatMul.ceilHalf_lt ‹_›

theorem fitRows_word (f : ℕ → ℕ) (limit inner parts : ℕ) :
    fitRows f limit inner (parts % 2 ^ 32) =
      (splitRows f limit inner parts).map fun loops => (loops.1, loops.2 % 2 ^ 32) := by
  fun_induction splitRows f limit inner parts with
  | case1 inner parts hfits => rw [fitRows, if_pos hfits]; rfl
  | case2 inner parts hlarge hlt ih =>
    have hmod : parts % 2 ^ 32 * 2 % 2 ^ 32 = parts * 2 % 2 ^ 32 := Nat.mod_mul_mod ..
    rw [fitRows, if_neg hlarge, if_pos hlt, hmod, ih]
  | case3 inner parts hlarge hle => rw [fitRows, if_neg hlarge, if_neg hle]; rfl

theorem fitRows_split (h : fitRows f limit rows 1 = .ok loops) :
    ∃ parts, splitRows f limit rows 1 = .ok (loops.1, parts) ∧ loops.2 = parts % 2 ^ 32 := by
  have hword := fitRows_word f limit rows 1
  rw [show 1 % 2 ^ 32 = 1 from rfl, h] at hword
  cases hsplit : splitRows f limit rows 1 with
  | error e => rw [hsplit] at hword; cases hword
  | ok split =>
    rw [hsplit] at hword
    cases hword
    exact ⟨split.2, rfl, rfl⟩

theorem fitRows_of_split (h : splitRows f limit rows 1 = .ok (inner, parts)) :
    fitRows f limit rows 1 = .ok (inner, parts % 2 ^ 32) := by
  have hword := fitRows_word f limit rows 1
  rw [h] at hword
  exact hword

theorem splitRows_halved (hhalved : Halved rows inner parts)
    (h : splitRows f limit inner parts = .ok loops) : Halved rows loops.1 loops.2 := by
  fun_induction splitRows f limit inner parts with
  | case1 inner parts =>
    cases h
    exact hhalved
  | case2 inner parts _ hlt ih => exact ih (halved_ceilHalf hhalved hlt) h
  | case3 => cases h

/-- Tiles of one row fit: the halving ends, and its tiles fit. -/
theorem exists_splitRows (inner parts : ℕ) (hzero : f 0 ≤ limit) (hone : f 1 ≤ limit) :
    ∃ loops, splitRows f limit inner parts = .ok loops ∧ f loops.1 ≤ limit := by
  fun_induction splitRows f limit inner parts with
  | case1 inner parts hfits => exact ⟨_, rfl, hfits⟩
  | case2 inner parts _ _ ih => exact ih
  | case3 inner parts hlarge hle =>
    -- neither no row nor one row is too large
    refine absurd ?_ hlarge
    rcases Nat.le_one_iff_eq_zero_or_eq_one.mp (Nat.le_of_not_lt hle) with rfl | rfl
    · exact hzero
    · exact hone

theorem exists_fitRows (rows : ℕ) (hzero : f 0 ≤ limit) (hone : f 1 ≤ limit) :
    ∃ loops, fitRows f limit rows 1 = .ok loops ∧ f loops.1 ≤ limit := by
  obtain ⟨loops, hsplit, hfits⟩ := exists_splitRows rows 1 hzero hone
  exact ⟨_, fitRows_of_split hsplit, hfits⟩

end Split

section Vanish

/-- The halvings that make the tiles fit cut more than 2^31 rows down to single ones. -/
inductive RowsVanish (f : ℕ → ℕ) (limit rows : ℕ) : ℕ → Prop
  | fits (h : f 1 ≤ limit) (hrows : 2 ^ 31 < rows) : RowsVanish f limit rows 1
  | halve {inner : ℕ} (h : limit < f inner) (hlt : 1 < inner)
      (hrest : RowsVanish f limit rows (ceilHalf inner)) : RowsVanish f limit rows inner

theorem rowsVanish_iff (h : splitRows f limit inner parts = .ok loops) :
    RowsVanish f limit rows inner ↔ 2 ^ 31 < rows ∧ loops.1 = 1 := by
  fun_induction splitRows f limit inner parts with
  | case1 inner parts hfits =>
    cases h
    constructor
    · rintro (⟨-, hrows⟩ | ⟨hlarge, -, -⟩)
      · exact ⟨hrows, rfl⟩
      · omega
    · rintro ⟨hrows, rfl⟩
      exact .fits hfits hrows
  | case2 inner parts hlarge hlt ih =>
    rw [← ih h]
    constructor
    · rintro (⟨-, -⟩ | ⟨-, -, hrest⟩)
      · exact absurd hlt (Nat.lt_irrefl 1)
      · exact hrest
    · exact .halve (Nat.lt_of_not_le hlarge) hlt
  | case3 => cases h

/-- No row is processed: there is none, or the number of parts has become zero. -/
def NoRows (f : ℕ → ℕ) (limit rows : ℕ) : Prop := rows = 0 ∨ RowsVanish f limit rows rows

theorem lt_of_rowsVanish (h : RowsVanish f limit rows inner) : 2 ^ 31 < rows := by
  induction h with
  | fits _ hrows => exact hrows
  | halve _ _ _ ih => exact ih

/-- No number of parts becomes zero for at most 2^31 rows. -/
theorem noRows_iff (h : rows ≤ 2 ^ 31) : NoRows f limit rows ↔ rows = 0 :=
  or_iff_left fun hvanish => Nat.not_lt_of_le h (lt_of_rowsVanish hvanish)

theorem fitRows_zero (hrows : rows < 2 ^ 32) (h : fitRows f limit rows 1 = .ok loops) :
    loops.2 * loops.1 = 0 ↔ NoRows f limit rows := by
  obtain ⟨parts, hsplit, hparts⟩ := fitRows_split h
  have hhalved := splitRows_halved (halved_whole rows) hsplit
  rw [Nat.mul_eq_zero, hparts, halved_zero_iff hhalved hrows, NoRows, rowsVanish_iff hsplit, or_comm]
  refine or_congr_left ⟨fun hzero => ?_, fun hzero => ?_⟩
  · have hcover := hhalved.cover
    rw [hzero, Nat.mul_zero] at hcover
    omega
  · have htight := hhalved.tight
    dsimp only at htight
    by_contra hne
    have := Nat.le_mul_of_pos_right parts (Nat.pos_of_ne_zero hne)
    omega

/-- Where tiles of two rows fit, the rows are cut only while there are three of them. -/
theorem splitRows_partsBelow (hpair : ∀ n ≤ 2, f n ≤ limit) (hhalved : Halved rows inner parts)
    (hparts : parts = 1 ∨ parts < rows) (h : splitRows f limit inner parts = .ok loops) :
    loops.2 = 1 ∨ loops.2 < rows := by
  fun_induction splitRows f limit inner parts with
  | case1 inner parts =>
    cases h
    exact hparts
  | case2 inner parts hlarge hlt ih =>
    have hthree : 3 ≤ inner := by
      by_contra hle
      exact hlarge (hpair inner (by omega))
    exact ih (halved_ceilHalf hhalved hlt) (.inr (halved_parts_lt hhalved hthree)) h
  | case3 => cases h

theorem fitRows_cover (hrows : rows ≤ 2 ^ 31 ∨ rows < 2 ^ 32 ∧ ∀ n ≤ 2, f n ≤ limit)
    (h : fitRows f limit rows 1 = .ok loops) : rows ≤ loops.2 * loops.1 := by
  obtain ⟨parts, hsplit, hparts⟩ := fitRows_split h
  have hhalved := splitRows_halved (halved_whole rows) hsplit
  rw [hparts]
  rcases hrows with hsmall | ⟨hword, hpair⟩
  · exact halved_cover hhalved (.inl hsmall)
  · exact halved_cover hhalved
      (.inr ⟨hword, splitRows_partsBelow hpair (halved_whole rows) (.inl rfl) hsplit⟩)

end Vanish

section Exact

theorem splitRows_le (h : splitRows f limit inner parts = .ok loops) :
    parts * inner ≤ loops.2 * loops.1 := by
  fun_induction splitRows f limit inner parts with
  | case1 inner parts =>
    cases h
    exact Nat.le_refl _
  | case2 inner parts _ _ ih => exact Nat.le_trans (MatMul.le_twice_ceilHalf parts inner) (ih h)
  | case3 => cases h

/-- The number of rows can be halved, without a remainder, until the tiles fit. -/
def EvenHalvings (f : ℕ → ℕ) (limit rows : ℕ) : Prop :=
  ∃ h, (∀ i < h, limit < f (rows / 2 ^ i)) ∧ f (rows / 2 ^ h) ≤ limit ∧ 2 ^ h ∣ rows

theorem evenHalvings_of_le (h : f inner ≤ limit) : EvenHalvings f limit inner := by
  refine ⟨0, fun i hi => absurd hi (Nat.not_lt_zero i), ?_, one_dvd inner⟩
  rw [pow_zero, Nat.div_one]
  exact h

theorem evenHalvings_half (h : limit < f inner) :
    EvenHalvings f limit inner ↔ 2 ∣ inner ∧ EvenHalvings f limit (inner / 2) := by
  have hdiv : ∀ i, inner / 2 / 2 ^ i = inner / 2 ^ (i + 1) := by
    intro i
    rw [Nat.div_div_eq_div_mul, pow_succ']
  constructor
  · rintro ⟨halvings, hlarge, hfits, hdvd⟩
    cases halvings with
    | zero =>
      rw [pow_zero, Nat.div_one] at hfits
      omega
    | succ halvings =>
      refine ⟨Nat.dvd_trans (Dvd.intro_left _ (pow_succ 2 halvings).symm) hdvd,
        halvings, ?_, ?_, ?_⟩
      · intro i hi
        rw [hdiv]
        exact hlarge (i + 1) (by omega)
      · rw [hdiv]
        exact hfits
      · rw [pow_succ'] at hdvd
        exact (Nat.dvd_div_iff_mul_dvd (Nat.dvd_trans (Nat.dvd_mul_right _ _) hdvd)).mpr hdvd
  · rintro ⟨heven, halvings, hlarge, hfits, hdvd⟩
    refine ⟨halvings + 1, ?_, ?_, ?_⟩
    · intro i hi
      cases i with
      | zero =>
        rw [pow_zero, Nat.div_one]
        exact h
      | succ i =>
        rw [← hdiv]
        exact hlarge i (by omega)
    · rw [← hdiv]
      exact hfits
    · rw [pow_succ']
      exact (Nat.dvd_div_iff_mul_dvd heven).mp hdvd

/-- Without a limit to the number of parts, the tiles end with the rows exactly where all halvings
are even. -/
theorem splitRows_exact (h : splitRows f limit inner parts = .ok loops) (hparts : 0 < parts) :
    loops.2 * loops.1 = parts * inner ↔ EvenHalvings f limit inner := by
  fun_induction splitRows f limit inner parts with
  | case1 inner parts hfits =>
    cases h
    exact iff_of_true rfl (evenHalvings_of_le hfits)
  | case2 inner parts hlarge _ ih =>
    rw [evenHalvings_half (Nat.lt_of_not_le hlarge)]
    have hcover := splitRows_le h
    have hstep := MatMul.le_twice_ceilHalf parts inner
    by_cases heven : 2 ∣ inner
    · have hhalf : ceilHalf inner = inner / 2 := by
        rw [ceilHalf]
        omega
      have hsame : parts * 2 * (inner / 2) = parts * inner := by
        rw [Nat.mul_assoc, Nat.mul_div_cancel' heven]
      rw [hhalf] at ih h
      rw [← hsame, ih h (by omega), and_iff_right heven]
    · -- a remainder is a row too many
      refine iff_of_false (fun heq => heven ?_) fun hand => heven hand.1
      have hexact : parts * 2 * ceilHalf inner = parts * inner := by omega
      have hdvd := MatMul.exact_half hparts hexact (one_dvd _)
      exact hdvd
  | case3 => cases h

/-- The tiles end with the rows exactly where there are less than 2^32 of them and all halvings are
even. -/
theorem fitRows_exact (h : fitRows f limit (rows % 2 ^ 32) 1 = .ok loops) :
    loops.2 * loops.1 = rows ↔ rows < 2 ^ 32 ∧ EvenHalvings f limit rows := by
  obtain ⟨parts, hsplit, hparts⟩ := fitRows_split h
  have hmod : rows % 2 ^ 32 < 2 ^ 32 := Nat.mod_lt rows (by decide)
  have hhalved := splitRows_halved (halved_whole (rows % 2 ^ 32)) hsplit
  have hexact := splitRows_exact hsplit Nat.one_pos
  rw [Nat.one_mul] at hexact
  dsimp only at hhalved hexact
  rw [hparts]
  by_cases hzero : parts % 2 ^ 32 = 0
  · -- the parts of single rows are more than the rows, and none of them is processed
    obtain ⟨hmany, hsingle⟩ := (halved_zero_iff hhalved hmod).mp hzero
    rw [hzero, Nat.zero_mul]
    refine iff_of_false (by omega) fun ⟨hrows, heven⟩ => ?_
    rw [Nat.mod_eq_of_lt hrows, hsingle, Nat.mul_one] at hexact
    have := hexact.mpr heven
    omega
  · have hnot := fun hvanish => hzero ((halved_zero_iff hhalved hmod).mpr hvanish)
    have hword := halved_mod_eq hhalved hmod hnot
    rw [hword]
    rcases Nat.lt_or_ge rows (2 ^ 32) with hrows | hrows
    · rw [Nat.mod_eq_of_lt hrows] at hexact
      rw [and_iff_right hrows, ← hexact]
    · -- not even a tile more reaches all rows
      have htight := hhalved.tight
      have hpartsLt := Nat.mod_lt parts (Nat.two_pow_pos 32)
      refine iff_of_false ?_ fun hand => absurd hand.1 (Nat.not_lt_of_le hrows)
      omega

end Exact

end RowOperation

open RowOperation
open MatMul (spadLimit)

section Loops

variable {config : SimulationConfig}

theorem prodBatches_append (batches tail : List ℕ) :
    prodBatches (batches ++ tail) tail.length = batches.prod % 2 ^ 32 := by
  rw [prodBatches, List.length_append, Nat.add_sub_cancel, List.take_left']
  rfl

theorem prodBatches_concat (batches : List ℕ) (k : ℕ) :
    prodBatches (batches ++ [k]) 1 = batches.prod % 2 ^ 32 := prodBatches_append batches [k]

theorem back_append (batches : List ℕ) (k : ℕ) : back (batches ++ [k]) = .ok k := by
  rw [back, List.getLast?_concat]

theorem LayerNorm.calculateLoops_eq (batches weightDim : List ℕ) (hwidth : 0 < config.coreWidth) :
    LayerNorm.calculateLoops config (batches ++ weightDim) weightDim =
      fitRows (LayerNorm.sramSizeNeeded config (LayerNorm.prodWeightDim weightDim))
        (spadLimit config) (batches.prod % 2 ^ 32) 1 := by
  rw [calculateLoops, if_neg (Nat.ne_of_gt hwidth), prodBatches_append]

/-- Even without rows there are the two weights. -/
theorem LayerNorm.unit_fits {k : ℕ}
    (hunit : padded config.coreWidth k * 5 * config.precision ≤ spadLimit config) :
    LayerNorm.sramSizeNeeded config k 0 ≤ spadLimit config ∧
      LayerNorm.sramSizeNeeded config k 1 ≤ spadLimit config := by
  refine ⟨?_, Nat.le_trans (Nat.mod_le _ _) hunit⟩
  refine Nat.le_trans (Nat.mod_le _ _) (Nat.le_trans ?_ hunit)
  apply Nat.mul_le_mul_right
  apply Nat.mul_le_mul_left
  omega

theorem Add.calculateLoops_eq (batches : List ℕ) (k : ℕ) (hwidth : 0 < config.coreWidth) :
    Add.calculateLoops config (batches ++ [k]) =
      fitRows (Add.sramSizeNeeded config k) (spadLimit config) (batches.prod % 2 ^ 32) 1 := by
  rw [calculateLoops, if_neg (Nat.ne_of_gt hwidth), back_append, ← prodBatches_concat batches k]
  rfl

theorem Add.unit_fits {k : ℕ}
    (hunit : 3 * padded config.coreWidth k * config.precision ≤ spadLimit config) :
    Add.sramSizeNeeded config k 0 ≤ spadLimit config ∧
      Add.sramSizeNeeded config k 1 ≤ spadLimit config := by
  refine ⟨?_, Nat.le_trans (Nat.mod_le _ _) hunit⟩
  simp [sramSizeNeeded]

theorem Gelu.calculateLoops_eq (batches : List ℕ) (k : ℕ) (hwidth : 0 < config.vectorCoreWidth) :
    Gelu.calculateLoops config (batches ++ [k]) =
      fitRows (Gelu.sramSizeNeeded config k) (spadLimit config) (batches.prod % 2 ^ 32) 1 := by
  rw [calculateLoops, if_neg (Nat.ne_of_gt hwidth), back_append, ← prodBatches_concat batches k]
  rfl

theorem Gelu.unit_fits {k : ℕ}
    (hunit : 2 * padded config.vectorCoreWidth k * config.precision ≤ spadLimit config) :
    Gelu.sramSizeNeeded config k 0 ≤ spadLimit config ∧
      Gelu.sramSizeNeeded config k 1 ≤ spadLimit config := by
  refine ⟨?_, Nat.le_trans (Nat.mod_le _ _) hunit⟩
  simp [sramSizeNeeded]

theorem Softmax.calculateLoops_eq (batches : List ℕ) (k : ℕ)
    (hwidth : 0 < config.vectorCoreWidth) :
    Softmax.calculateLoops config (batches ++ [k]) =
      fitRows (Softmax.sramSizeNeeded config k) (spadLimit config) (batches.prod % 2 ^ 32) 1 := by
  rw [calculateLoops, if_neg (Nat.ne_of_gt hwidth), back_append, ← prodBatches_concat batches k]
  rfl

theorem Softmax.unit_fits {k : ℕ}
    (hunit : (2 * padded config.vectorCoreWidth k + 1) * config.precision ≤ spadLimit config) :
    Softmax.sramSizeNeeded config k 0 ≤ spadLimit config ∧
      Softmax.sramSizeNeeded config k 1 ≤ spadLimit config := by
  constructor
  · simp [sramSizeNeeded]
  · rw [sramSizeNeeded, Nat.one_mul]
    exact Nat.le_trans (Nat.mod_le _ _) hunit

end Loops

end NewPims

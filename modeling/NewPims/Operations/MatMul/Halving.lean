import Mathlib.Tactic.SplitIfs
import NewPims.Operations.MatMul

/-! The halvings of a matrix multiplication. Its numbers of parts are `uint32_t`, so they are compared
with the same halvings without this limit; only an axis of more than 2^31 elements can be halved 32
times, and then its number of parts is zero. Where no number of parts is, the tiles end with their
axes if every halving was exact. -/
namespace NewPims

/-- The numbers as `uint32_t`. -/
def Axes.word (a : Axes) : Axes := ⟨a.m % 2 ^ 32, a.k % 2 ^ 32, a.n % 2 ^ 32⟩

/-- All numbers are values of `uint32_t`. -/
def Axes.IsWord (a : Axes) : Prop := a.m < 2 ^ 32 ∧ a.k < 2 ^ 32 ∧ a.n < 2 ^ 32

namespace MatMul

section Halved

/-- What an axis of `dim` elements becomes in some halvings: `parts` parts of `inner` elements, where
no limit is set to the number of parts. -/
structure Halved (dim inner parts : ℕ) : Prop where
  power : ∃ halvings, parts = 2 ^ halvings
  cover : dim ≤ parts * inner
  tight : parts * inner < dim + parts
  bound : parts = 1 ∨ parts < 2 * dim

variable {dim inner parts : ℕ}

theorem le_twice_ceilHalf (outer x : ℕ) : outer * x ≤ outer * 2 * ceilHalf x := by
  rw [Nat.mul_assoc]
  apply Nat.mul_le_mul_left
  rw [ceilHalf]
  omega

theorem twice_ceilHalf_le (outer x : ℕ) : outer * 2 * ceilHalf x ≤ outer * x + outer := by
  rw [Nat.mul_assoc, ← Nat.mul_succ]
  apply Nat.mul_le_mul_left
  rw [ceilHalf]
  omega

theorem halved_whole (dim : ℕ) : Halved dim dim 1 where
  power := ⟨0, rfl⟩
  cover := Nat.le_of_eq (Nat.one_mul dim).symm
  tight := by omega
  bound := .inl rfl

theorem halved_ceilHalf (h : Halved dim inner parts) (hlt : 1 < inner) :
    Halved dim (ceilHalf inner) (parts * 2) where
  power := by
    obtain ⟨halvings, rfl⟩ := h.power
    exact ⟨halvings + 1, (pow_succ 2 halvings).symm⟩
  cover := Nat.le_trans h.cover (le_twice_ceilHalf parts inner)
  tight := by
    have := twice_ceilHalf_le parts inner
    have := h.tight
    omega
  bound := by
    have htwo : parts * 2 ≤ parts * inner := Nat.mul_le_mul_left parts hlt
    have := h.tight
    omega

/-- The number of parts is zero exactly for an axis of more than 2^31 elements that has been cut
down to single ones. -/
theorem halved_zero_iff (h : Halved dim inner parts) (hdim : dim < 2 ^ 32) :
    parts % 2 ^ 32 = 0 ↔ 2 ^ 31 < dim ∧ inner = 1 := by
  obtain ⟨halvings, rfl⟩ := h.power
  have htight := h.tight
  have hcover := h.cover
  rcases Nat.lt_or_ge halvings 32 with hlt | hge
  · have hsmall : 2 ^ halvings ≤ 2 ^ 31 := Nat.pow_le_pow_right (by decide) (by omega)
    have hpos : 0 < 2 ^ halvings := Nat.two_pow_pos halvings
    rw [Nat.mod_eq_of_lt (by omega)]
    constructor
    · omega
    · rintro ⟨hlarge, rfl⟩
      omega
  · have hparts : 2 ^ 32 ≤ 2 ^ halvings := Nat.pow_le_pow_right (by decide) hge
    refine iff_of_true (Nat.mod_eq_zero_of_dvd (Nat.pow_dvd_pow 2 hge)) ?_
    have hbound : 2 ^ halvings < 2 * dim := h.bound.resolve_left (by omega)
    refine ⟨by omega, ?_⟩
    rcases Nat.lt_or_ge inner 2 with hone | htwo
    · have hne : inner ≠ 0 := by
        rintro rfl
        omega
      omega
    · have := Nat.mul_le_mul_left (2 ^ halvings) htwo
      omega

/-- All other numbers of parts are below 2^32. -/
theorem halved_mod_eq (h : Halved dim inner parts) (hdim : dim < 2 ^ 32)
    (hparts : ¬ (2 ^ 31 < dim ∧ inner = 1)) : parts % 2 ^ 32 = parts := by
  rw [← halved_zero_iff h hdim] at hparts
  obtain ⟨halvings, rfl⟩ := h.power
  rcases Nat.lt_or_ge halvings 32 with hlt | hge
  · exact Nat.mod_eq_of_lt (Nat.pow_lt_pow_right (by decide) hlt)
  · exact absurd (Nat.mod_eq_zero_of_dvd (Nat.pow_dvd_pow 2 hge)) hparts

theorem halved_le (h : Halved dim inner parts) : inner ≤ dim := by
  obtain ⟨halvings, hparts⟩ := h.power
  have hpos : 0 < parts := hparts ▸ Nat.two_pow_pos halvings
  have htight := h.tight
  by_contra hlt
  have := Nat.mul_le_mul_left parts (Nat.lt_of_not_le hlt)
  rw [Nat.mul_succ] at this
  have := Nat.le_mul_of_pos_left dim hpos
  omega

/-- Three elements are not yet as many parts as the axis has elements. -/
theorem halved_parts_lt (h : Halved dim inner parts) (hthree : 3 ≤ inner) : parts * 2 < dim := by
  have := Nat.mul_le_mul_left parts hthree
  have := h.tight
  omega

/-- The axis is covered where it has at most 2^31 elements, or less parts than elements. -/
theorem halved_cover (h : Halved dim inner parts)
    (hparts : dim ≤ 2 ^ 31 ∨ dim < 2 ^ 32 ∧ (parts = 1 ∨ parts < dim)) :
    dim ≤ parts % 2 ^ 32 * inner := by
  have hword : parts % 2 ^ 32 = parts := by
    rcases hparts with hsmall | ⟨hdim, hparts⟩
    · exact halved_mod_eq h (by omega) (by omega)
    · exact Nat.mod_eq_of_lt (by omega)
  rw [hword]
  exact h.cover

end Halved

section Parts

variable {config : SimulationConfig} {dims inner outer parts : Axes} {loops : Axes × Axes}

/-- `halveLargest` without a limit to the number of parts. -/
def splitLargest (inner parts : Axes) : Axes × Axes :=
  if inner.k ≤ inner.m ∧ inner.n ≤ inner.m then
    ({ inner with m := ceilHalf inner.m }, { parts with m := parts.m * 2 })
  else if inner.n ≤ inner.k then
    ({ inner with k := ceilHalf inner.k }, { parts with k := parts.k * 2 })
  else ({ inner with n := ceilHalf inner.n }, { parts with n := parts.n * 2 })

theorem splitLargest_inner (inner parts outer : Axes) :
    (splitLargest inner parts).1 = (halveLargest inner outer).1 := by
  unfold splitLargest halveLargest
  split_ifs <;> rfl

theorem splitLargest_word (inner parts : Axes) :
    halveLargest inner parts.word =
      ((splitLargest inner parts).1, (splitLargest inner parts).2.word) := by
  unfold splitLargest halveLargest
  split_ifs <;> simp [Axes.word]

/-- One of the axes, a largest one, is halved, and the others stay as they are. -/
theorem splitLargest_cases (inner parts : Axes) :
    (largest inner = inner.m ∧ splitLargest inner parts =
        ({ inner with m := ceilHalf inner.m }, { parts with m := parts.m * 2 })) ∨
      (largest inner = inner.k ∧ splitLargest inner parts =
        ({ inner with k := ceilHalf inner.k }, { parts with k := parts.k * 2 })) ∨
      (largest inner = inner.n ∧ splitLargest inner parts =
        ({ inner with n := ceilHalf inner.n }, { parts with n := parts.n * 2 })) := by
  unfold splitLargest
  rw [largest]
  split_ifs
  · exact .inl ⟨by omega, rfl⟩
  · exact .inr (.inl ⟨by omega, rfl⟩)
  · exact .inr (.inr ⟨by omega, rfl⟩)

/-- `fitLoops` without a limit to the number of parts. -/
def splitLoops (config : SimulationConfig) (inner parts : Axes) : Except Fault (Axes × Axes) :=
  if sramSizeNeeded config inner ≤ spadLimit config then .ok (inner, parts)
  else if 1 < largest inner then
    splitLoops config (splitLargest inner parts).1 (splitLargest inner parts).2
  else .error .endlessRecursion
termination_by inner.m + inner.k + inner.n
decreasing_by
  rw [splitLargest_inner inner parts parts]
  exact halveLargest_lt parts ‹_›

theorem fitLoops_word (inner parts : Axes) :
    fitLoops config inner parts.word =
      (splitLoops config inner parts).map fun loops => (loops.1, loops.2.word) := by
  fun_induction splitLoops config inner parts with
  | case1 inner parts hfits => rw [fitLoops, if_pos hfits]; rfl
  | case2 inner parts hlarge hlt ih =>
    rw [fitLoops, if_neg hlarge, if_pos hlt, splitLargest_word, ih]
  | case3 inner parts hlarge hle => rw [fitLoops, if_neg hlarge, if_neg hle]; rfl

theorem fitLoops_split (h : fitLoops config dims ⟨1, 1, 1⟩ = .ok (inner, outer)) :
    ∃ parts, splitLoops config dims ⟨1, 1, 1⟩ = .ok (inner, parts) ∧ outer = parts.word := by
  have hword : fitLoops config dims (Axes.word ⟨1, 1, 1⟩) = _ := fitLoops_word dims ⟨1, 1, 1⟩
  rw [show (⟨1, 1, 1⟩ : Axes).word = ⟨1, 1, 1⟩ from rfl, h] at hword
  cases hsplit : splitLoops config dims ⟨1, 1, 1⟩ with
  | error e => rw [hsplit] at hword; cases hword
  | ok loops =>
    rw [hsplit] at hword
    obtain ⟨rfl, rfl⟩ := Prod.mk.inj (Except.ok.inj hword)
    exact ⟨loops.2, rfl, rfl⟩

theorem fitLoops_of_split (h : splitLoops config dims ⟨1, 1, 1⟩ = .ok (inner, parts)) :
    fitLoops config dims ⟨1, 1, 1⟩ = .ok (inner, parts.word) := by
  have hword : fitLoops config dims (Axes.word ⟨1, 1, 1⟩) = _ := fitLoops_word dims ⟨1, 1, 1⟩
  rw [h] at hword
  exact hword

/-- The three axes of a product as they are halved. -/
structure HalvedAxes (dims inner parts : Axes) : Prop where
  m : Halved dims.m inner.m parts.m
  k : Halved dims.k inner.k parts.k
  n : Halved dims.n inner.n parts.n

theorem halvedAxes_whole (dims : Axes) : HalvedAxes dims dims ⟨1, 1, 1⟩ :=
  ⟨halved_whole dims.m, halved_whole dims.k, halved_whole dims.n⟩

theorem halvedAxes_splitLargest (h : HalvedAxes dims inner parts) (hlt : 1 < largest inner) :
    HalvedAxes dims (splitLargest inner parts).1 (splitLargest inner parts).2 := by
  rcases splitLargest_cases inner parts with ⟨hmax, heq⟩ | ⟨hmax, heq⟩ | ⟨hmax, heq⟩ <;>
    rw [heq] <;> rw [hmax] at hlt
  · exact ⟨halved_ceilHalf h.m hlt, h.k, h.n⟩
  · exact ⟨h.m, halved_ceilHalf h.k hlt, h.n⟩
  · exact ⟨h.m, h.k, halved_ceilHalf h.n hlt⟩

theorem splitLoops_halved (hhalved : HalvedAxes dims inner parts)
    (h : splitLoops config inner parts = .ok loops) : HalvedAxes dims loops.1 loops.2 := by
  fun_induction splitLoops config inner parts with
  | case1 inner parts =>
    cases h
    exact hhalved
  | case2 inner parts _ hlt ih => exact ih (halvedAxes_splitLargest hhalved hlt) h
  | case3 => cases h

end Parts

section Vanish

variable {config : SimulationConfig} {dims inner outer parts : Axes} {loops : Axes × Axes}

/-- An axis of more than 2^31 elements has been cut down to single ones. -/
def SingleElements (dims inner : Axes) : Prop :=
  (2 ^ 31 < dims.m ∧ inner.m = 1) ∨ (2 ^ 31 < dims.k ∧ inner.k = 1) ∨ 2 ^ 31 < dims.n ∧ inner.n = 1

/-- The halvings that make the tiles fit cut an axis of more than 2^31 elements down to single
ones. -/
inductive Vanishes (config : SimulationConfig) (dims : Axes) : Axes → Prop
  | fits {inner : Axes} (h : sramSizeNeeded config inner ≤ spadLimit config)
      (hsingle : SingleElements dims inner) : Vanishes config dims inner
  | halve {inner : Axes} (h : spadLimit config < sramSizeNeeded config inner)
      (hlt : 1 < largest inner)
      (hrest : Vanishes config dims (halveLargest inner ⟨1, 1, 1⟩).1) : Vanishes config dims inner

theorem vanishes_iff (h : splitLoops config inner parts = .ok loops) :
    Vanishes config dims inner ↔ SingleElements dims loops.1 := by
  fun_induction splitLoops config inner parts with
  | case1 inner parts hfits =>
    cases h
    constructor
    · rintro (⟨-, hsingle⟩ | ⟨hlarge, -, -⟩)
      · exact hsingle
      · omega
    · exact .fits hfits
  | case2 inner parts hlarge hlt ih =>
    rw [← ih h, splitLargest_inner inner parts ⟨1, 1, 1⟩]
    constructor
    · rintro (⟨hfits, -⟩ | ⟨-, -, hrest⟩)
      · exact absurd hfits hlarge
      · exact hrest
    · exact .halve (Nat.lt_of_not_le hlarge) hlt
  | case3 => cases h

theorem splitLoops_of_vanishes (parts : Axes) (h : Vanishes config dims inner) :
    ∃ loops, splitLoops config inner parts = .ok loops := by
  induction h generalizing parts with
  | fits hfits =>
    rw [splitLoops, if_pos hfits]
    exact ⟨_, rfl⟩
  | @halve inner hlarge hlt _ ih =>
    rw [splitLoops, if_neg (Nat.not_le_of_lt hlarge), if_pos hlt,
      splitLargest_inner inner parts ⟨1, 1, 1⟩]
    exact ih _

/-- Where an axis vanishes there is no part of it, and so no tile. -/
theorem word_zero_of_vanishes (hdims : dims.IsWord)
    (h : splitLoops config dims ⟨1, 1, 1⟩ = .ok (inner, parts))
    (hvanishes : Vanishes config dims dims) :
    parts.word.m = 0 ∨ parts.word.k = 0 ∨ parts.word.n = 0 := by
  obtain ⟨hm, hk, hn⟩ := splitLoops_halved (halvedAxes_whole dims) h
  rcases (vanishes_iff h).mp hvanishes with hsingle | hsingle | hsingle
  · exact .inl ((halved_zero_iff hm hdims.1).mpr hsingle)
  · exact .inr (.inl ((halved_zero_iff hk hdims.2.1).mpr hsingle))
  · exact .inr (.inr ((halved_zero_iff hn hdims.2.2).mpr hsingle))

/-- Where no axis vanishes the numbers of parts are exact. -/
theorem word_eq_of_not_vanishes (hdims : dims.IsWord)
    (h : splitLoops config dims ⟨1, 1, 1⟩ = .ok (inner, parts))
    (hvanishes : ¬ Vanishes config dims dims) : parts.word = parts := by
  obtain ⟨hm, hk, hn⟩ := splitLoops_halved (halvedAxes_whole dims) h
  rw [vanishes_iff h, SingleElements, not_or, not_or] at hvanishes
  obtain ⟨hm', hk', hn'⟩ := hvanishes
  rw [Axes.word, halved_mod_eq hm hdims.1 hm', halved_mod_eq hk hdims.2.1 hk',
    halved_mod_eq hn hdims.2.2 hn']

theorem splitLoops_of_fitLoops (hdims : dims.IsWord) (hvanishes : ¬ Vanishes config dims dims)
    (h : fitLoops config dims ⟨1, 1, 1⟩ = .ok (inner, outer)) :
    splitLoops config dims ⟨1, 1, 1⟩ = .ok (inner, outer) := by
  obtain ⟨parts, hsplit, rfl⟩ := fitLoops_split h
  rw [word_eq_of_not_vanishes hdims hsplit hvanishes]
  exact hsplit

/-- Axes of at most 2^31 elements do not vanish. -/
theorem not_vanishes_of_le (h : largest dims ≤ 2 ^ 31) : ¬ Vanishes config dims inner := by
  intro hvanishes
  obtain ⟨loops, hloops⟩ := splitLoops_of_vanishes ⟨1, 1, 1⟩ hvanishes
  have hsingle := (vanishes_iff hloops).mp hvanishes
  rw [largest] at h
  rw [SingleElements] at hsingle
  omega

/-- Every axis is whole or has less parts than elements. -/
def PartsBelow (dims parts : Axes) : Prop :=
  (parts.m = 1 ∨ parts.m < dims.m) ∧ (parts.k = 1 ∨ parts.k < dims.k) ∧
    (parts.n = 1 ∨ parts.n < dims.n)

/-- Where all tiles of at most two elements along each axis fit, an axis is cut only while it has
three elements. -/
theorem splitLoops_partsBelow
    (hpair : ∀ x : Axes, x.m ≤ dims.m → x.k ≤ dims.k → x.n ≤ dims.n → largest x ≤ 2 →
      sramSizeNeeded config x ≤ spadLimit config)
    (hhalved : HalvedAxes dims inner parts) (hparts : PartsBelow dims parts)
    (h : splitLoops config inner parts = .ok loops) : PartsBelow dims loops.2 := by
  fun_induction splitLoops config inner parts with
  | case1 inner parts =>
    cases h
    exact hparts
  | case2 inner parts hlarge hlt ih =>
    refine ih (halvedAxes_splitLargest hhalved hlt) ?_ h
    have hthree : 3 ≤ largest inner := by
      by_contra hle
      exact hlarge (hpair inner (halved_le hhalved.m) (halved_le hhalved.k) (halved_le hhalved.n)
        (by omega))
    rcases splitLargest_cases inner parts with ⟨hmax, heq⟩ | ⟨hmax, heq⟩ | ⟨hmax, heq⟩ <;>
      rw [heq] <;> rw [hmax] at hthree
    · exact ⟨.inr (halved_parts_lt hhalved.m hthree), hparts.2⟩
    · exact ⟨hparts.1, .inr (halved_parts_lt hhalved.k hthree), hparts.2.2⟩
    · exact ⟨hparts.1, hparts.2.1, .inr (halved_parts_lt hhalved.n hthree)⟩
  | case3 => cases h

theorem fitLoops_cover
    (hdims : largest dims ≤ 2 ^ 31 ∨ dims.IsWord ∧
      ∀ x : Axes, x.m ≤ dims.m → x.k ≤ dims.k → x.n ≤ dims.n → largest x ≤ 2 →
        sramSizeNeeded config x ≤ spadLimit config)
    (h : fitLoops config dims ⟨1, 1, 1⟩ = .ok (inner, outer)) :
    dims.m ≤ outer.m * inner.m ∧ dims.k ≤ outer.k * inner.k ∧ dims.n ≤ outer.n * inner.n := by
  obtain ⟨parts, hsplit, rfl⟩ := fitLoops_split h
  obtain ⟨hm, hk, hn⟩ := splitLoops_halved (halvedAxes_whole dims) hsplit
  rcases hdims with hsmall | ⟨⟨wm, wk, wn⟩, hpair⟩
  · rw [largest] at hsmall
    exact ⟨halved_cover hm (.inl (by omega)), halved_cover hk (.inl (by omega)),
      halved_cover hn (.inl (by omega))⟩
  · obtain ⟨pm, pk, pn⟩ := splitLoops_partsBelow hpair (halvedAxes_whole dims)
      ⟨.inl rfl, .inl rfl, .inl rfl⟩ hsplit
    exact ⟨halved_cover hm (.inr ⟨wm, pm⟩), halved_cover hk (.inr ⟨wk, pk⟩),
      halved_cover hn (.inr ⟨wn, pn⟩)⟩

end Vanish

section EvenSplit

variable {config : SimulationConfig}

/-- Every axis that is halved for a tile to fit has an even number of blocks. -/
inductive EvenSplit (config : SimulationConfig) : Axes → Prop
  | fits {inner : Axes} (h : sramSizeNeeded config inner ≤ spadLimit config) :
      EvenSplit config inner
  | halve {inner : Axes} (h : spadLimit config < sramSizeNeeded config inner)
      (heven : 2 * config.coreWidth ∣ largest inner)
      (hrest : EvenSplit config (halveLargest inner ⟨1, 1, 1⟩).1) : EvenSplit config inner

/-- All axes consist of whole blocks. -/
def Blocks (config : SimulationConfig) (inner : Axes) : Prop :=
  config.coreWidth ∣ inner.m ∧ config.coreWidth ∣ inner.k ∧ config.coreWidth ∣ inner.n

/-- The parts end with their axes. -/
def SameSize (dims inner outer : Axes) : Prop :=
  outer.m * inner.m = dims.m ∧ outer.k * inner.k = dims.k ∧ outer.n * inner.n = dims.n

/-- Halves of the same total size are exact. -/
theorem exact_half {outer x step : ℕ} (houter : 0 < outer)
    (h : outer * 2 * ceilHalf x = outer * x) (hstep : step ∣ ceilHalf x) : 2 * step ∣ x := by
  rw [Nat.mul_assoc] at h
  rw [← Nat.eq_of_mul_eq_mul_left houter h]
  exact Nat.mul_dvd_mul_left 2 hstep

theorem half_exact (outer : ℕ) {x step : ℕ} (h : 2 * step ∣ x) :
    outer * 2 * ceilHalf x = outer * x ∧ step ∣ ceilHalf x := by
  obtain ⟨i, rfl⟩ := h
  have hhalf : ceilHalf (2 * step * i) = step * i := by
    rw [ceilHalf, Nat.mul_assoc]
    omega
  rw [hhalf, Nat.mul_assoc, Nat.mul_assoc 2]
  exact ⟨rfl, Nat.dvd_mul_right step i⟩

/-- The total size of an axis never shrinks. -/
theorem splitLoops_le {inner outer : Axes} {loops : Axes × Axes}
    (h : splitLoops config inner outer = .ok loops) :
    outer.m * inner.m ≤ loops.2.m * loops.1.m ∧ outer.k * inner.k ≤ loops.2.k * loops.1.k ∧
      outer.n * inner.n ≤ loops.2.n * loops.1.n := by
  fun_induction splitLoops config inner outer with
  | case1 inner outer =>
    cases h
    exact ⟨Nat.le_refl _, Nat.le_refl _, Nat.le_refl _⟩
  | case2 inner outer _ _ ih =>
    obtain ⟨hm, hk, hn⟩ := ih h
    rcases splitLargest_cases inner outer with ⟨-, heq⟩ | ⟨-, heq⟩ | ⟨-, heq⟩ <;> rw [heq] at hm hk hn
    · exact ⟨Nat.le_trans (le_twice_ceilHalf _ _) hm, hk, hn⟩
    · exact ⟨hm, Nat.le_trans (le_twice_ceilHalf _ _) hk, hn⟩
    · exact ⟨hm, hk, Nat.le_trans (le_twice_ceilHalf _ _) hn⟩
  | case3 => cases h

/-- Where the parts are whole blocks and end with their axes, every halving was exact. -/
theorem evenSplit_of_splitLoops {inner outer : Axes} {loops : Axes × Axes}
    (h : splitLoops config inner outer = .ok loops) (hm : 0 < outer.m) (hk : 0 < outer.k)
    (hn : 0 < outer.n) (hblocks : Blocks config loops.1)
    (hsame : SameSize ⟨outer.m * inner.m, outer.k * inner.k, outer.n * inner.n⟩ loops.1 loops.2) :
    EvenSplit config inner ∧ Blocks config inner := by
  fun_induction splitLoops config inner outer with
  | case1 inner outer hfits =>
    cases h
    exact ⟨.fits hfits, hblocks⟩
  | case2 inner outer hlarge _ ih =>
    obtain ⟨lem, lek, len⟩ := splitLoops_le h
    obtain ⟨eqm, eqk, eqn⟩ := hsame
    have hhalf := splitLargest_inner inner outer ⟨1, 1, 1⟩
    rcases splitLargest_cases inner outer with ⟨hmax, heq⟩ | ⟨hmax, heq⟩ | ⟨hmax, heq⟩ <;>
      rw [heq] at lem lek len hhalf ih h
    · have hsize := Nat.le_antisymm (Nat.le_trans lem (Nat.le_of_eq eqm)) (le_twice_ceilHalf _ _)
      obtain ⟨heven, bm, bk, bn⟩ := ih h (by dsimp only; omega) hk hn
        ⟨eqm.trans hsize.symm, eqk, eqn⟩
      have hdvd := exact_half hm hsize bm
      exact ⟨.halve (Nat.lt_of_not_le hlarge) (by rwa [hmax]) (by rwa [← hhalf]),
        Nat.dvd_trans (Nat.dvd_mul_left _ 2) hdvd, bk, bn⟩
    · have hsize := Nat.le_antisymm (Nat.le_trans lek (Nat.le_of_eq eqk)) (le_twice_ceilHalf _ _)
      obtain ⟨heven, bm, bk, bn⟩ := ih h hm (by dsimp only; omega) hn
        ⟨eqm, eqk.trans hsize.symm, eqn⟩
      have hdvd := exact_half hk hsize bk
      exact ⟨.halve (Nat.lt_of_not_le hlarge) (by rwa [hmax]) (by rwa [← hhalf]),
        bm, Nat.dvd_trans (Nat.dvd_mul_left _ 2) hdvd, bn⟩
    · have hsize := Nat.le_antisymm (Nat.le_trans len (Nat.le_of_eq eqn)) (le_twice_ceilHalf _ _)
      obtain ⟨heven, bm, bk, bn⟩ := ih h hm hk (by dsimp only; omega)
        ⟨eqm, eqk, eqn.trans hsize.symm⟩
      have hdvd := exact_half hn hsize bn
      exact ⟨.halve (Nat.lt_of_not_le hlarge) (by rwa [hmax]) (by rwa [← hhalf]),
        bm, bk, Nat.dvd_trans (Nat.dvd_mul_left _ 2) hdvd⟩
  | case3 => cases h

theorem sramSizeNeeded_zero {inner : Axes} (h : largest inner = 0) :
    sramSizeNeeded config inner = 0 := by
  obtain ⟨hm, hk, hn⟩ : inner.m = 0 ∧ inner.k = 0 ∧ inner.n = 0 := by
    rw [largest] at h
    omega
  simp [sramSizeNeeded, alignUp, hm, hk, hn]

/-- Even splits give parts of whole blocks that end with their axes. -/
theorem splitLoops_of_evenSplit {inner : Axes} (outer : Axes) (hcw : 0 < config.coreWidth)
    (heven : EvenSplit config inner) (hblocks : Blocks config inner) :
    ∃ loops, splitLoops config inner outer = .ok loops ∧ Blocks config loops.1 ∧
      SameSize ⟨outer.m * inner.m, outer.k * inner.k, outer.n * inner.n⟩ loops.1 loops.2 := by
  induction heven generalizing outer with
  | fits hfits =>
    rw [splitLoops, if_pos hfits]
    exact ⟨_, rfl, hblocks, rfl, rfl, rfl⟩
  | @halve inner hlarge heven _ ih =>
    have hpos : 0 < largest inner := Nat.pos_of_ne_zero fun hzero => by
      rw [sramSizeNeeded_zero hzero] at hlarge
      exact Nat.not_lt_zero _ hlarge
    have hlt : 1 < largest inner := by
      have := Nat.le_of_dvd hpos heven
      omega
    rw [splitLoops, if_neg (Nat.not_le_of_lt hlarge), if_pos hlt]
    rw [← splitLargest_inner inner outer ⟨1, 1, 1⟩] at ih
    obtain ⟨bm, bk, bn⟩ := hblocks
    rcases splitLargest_cases inner outer with ⟨hmax, heq⟩ | ⟨hmax, heq⟩ | ⟨hmax, heq⟩ <;>
      rw [heq] at ih ⊢ <;> rw [hmax] at heven
    · obtain ⟨hsize, hhalf⟩ := half_exact outer.m heven
      obtain ⟨loops, hloops, hwhole, eqm, eqk, eqn⟩ := ih { outer with m := outer.m * 2 }
        ⟨hhalf, bk, bn⟩
      exact ⟨loops, hloops, hwhole, eqm.trans hsize, eqk, eqn⟩
    · obtain ⟨hsize, hhalf⟩ := half_exact outer.k heven
      obtain ⟨loops, hloops, hwhole, eqm, eqk, eqn⟩ := ih { outer with k := outer.k * 2 }
        ⟨bm, hhalf, bn⟩
      exact ⟨loops, hloops, hwhole, eqm, eqk.trans hsize, eqn⟩
    · obtain ⟨hsize, hhalf⟩ := half_exact outer.n heven
      obtain ⟨loops, hloops, hwhole, eqm, eqk, eqn⟩ := ih { outer with n := outer.n * 2 }
        ⟨bm, bk, hhalf⟩
      exact ⟨loops, hloops, hwhole, eqm, eqk, eqn.trans hsize⟩

end EvenSplit

end MatMul

end NewPims

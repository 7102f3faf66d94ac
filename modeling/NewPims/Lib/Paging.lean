import Mathlib.Algebra.Order.Floor.Div
import Mathlib.Tactic.Ring

/-! An axis that is cut into pages of equal length, and each page into pieces: how many pieces there
are when the last piece of every page may be an incomplete one. -/
namespace NewPims.Paging

variable {n m d p : ℕ}

theorem ceilDiv_mono (h : m ≤ n) : m ⌈/⌉ d ≤ n ⌈/⌉ d :=
  Nat.div_le_div_right (Nat.sub_le_sub_right (Nat.add_le_add_right h d) 1)

theorem ceilDiv_eq_zero (hd : 0 < d) : n ⌈/⌉ d = 0 ↔ n = 0 := by
  rw [← Nat.le_zero, ceilDiv_le_iff_le_mul hd, Nat.mul_zero, Nat.le_zero]

theorem ceilDiv_pos (hd : 0 < d) (hn : 0 < n) : 0 < n ⌈/⌉ d :=
  Nat.pos_of_ne_zero fun hzero => Nat.ne_of_gt hn ((ceilDiv_eq_zero hd).mp hzero)

theorem le_mul_ceilDiv (hd : 0 < d) : n ≤ d * (n ⌈/⌉ d) :=
  (ceilDiv_le_iff_le_mul hd).mp (Nat.le_refl _)

/-- A whole number of blocks. -/
theorem mul_ceilDiv (hd : 0 < d) (h : d ∣ n) : d * (n ⌈/⌉ d) = n := by
  obtain ⟨c, rfl⟩ := h
  have hle : d * c ⌈/⌉ d ≤ c := (ceilDiv_le_iff_le_mul hd).mpr (Nat.le_refl _)
  exact Nat.le_antisymm (Nat.mul_le_mul_left d hle) (le_mul_ceilDiv hd)

/-- The place of an index pair, where the axes are not longer than those of the allocation. -/
theorem place_lt {ti tiles chunk chunks : ℕ} (hti : ti < tiles) (hchunk : chunk < chunks)
    (htiles : tiles ≤ m) (hchunks : chunks ≤ n) : ti * chunks + chunk < m * n := by
  calc ti * chunks + chunk < ti * chunks + chunks := Nat.add_lt_add_left hchunk _
    _ = (ti + 1) * chunks := (Nat.succ_mul ti chunks).symm
    _ ≤ m * n := Nat.mul_le_mul (Nat.le_trans hti htiles) hchunks

/-- The length of the last page of an axis. -/
def lastPage (n p : ℕ) : ℕ := if n % p = 0 then p else n % p

/-- The axis is its whole pages and the last one. -/
theorem pages_add_lastPage (hp : 0 < p) (hn : 0 < n) :
    p * (n ⌈/⌉ p - 1) + lastPage n p = n := by
  have hdiv := Nat.div_add_mod n p
  rw [lastPage]
  split
  · next hmod =>
    -- the last page is a whole one, too
    have hmul := mul_ceilDiv hp (Nat.dvd_of_mod_eq_zero hmod)
    have hpos := ceilDiv_pos hp hn
    calc p * (n ⌈/⌉ p - 1) + p = p * (n ⌈/⌉ p - 1 + 1) := (Nat.mul_succ p _).symm
      _ = p * (n ⌈/⌉ p) := by rw [Nat.sub_add_cancel hpos]
      _ = n := hmul
  · next hmod =>
    have hceil : n ⌈/⌉ p - 1 = n / p := by
      have hle : n ⌈/⌉ p ≤ n / p + 1 := by
        rw [ceilDiv_le_iff_le_mul hp, Nat.mul_succ]
        have := Nat.mod_lt n hp
        omega
      have hlt : n / p < n ⌈/⌉ p := by
        rw [← Nat.not_le, ceilDiv_le_iff_le_mul hp]
        omega
      rw [Nat.le_antisymm hle hlt, Nat.add_sub_cancel]
    rw [hceil, hdiv]

/-- The pieces of at most `d` elements of all pages. -/
def pieces (n p d : ℕ) : ℕ := (p ⌈/⌉ d) * (n ⌈/⌉ p - 1) + lastPage n p ⌈/⌉ d

/-- The pieces hold at least the axis. -/
theorem le_mul_pieces (hp : 0 < p) (hd : 0 < d) (hn : 0 < n) : n ≤ d * pieces n p d := by
  calc n = p * (n ⌈/⌉ p - 1) + lastPage n p := (pages_add_lastPage hp hn).symm
    _ ≤ d * (p ⌈/⌉ d) * (n ⌈/⌉ p - 1) + d * (lastPage n p ⌈/⌉ d) :=
      Nat.add_le_add (Nat.mul_le_mul_right _ (le_mul_ceilDiv hd)) (le_mul_ceilDiv hd)
    _ = d * pieces n p d := by rw [pieces]; ring

/-- They hold no more than the axis exactly if a page consists of whole pieces, or there is only one
page. -/
theorem mul_pieces_eq_iff (hp : 0 < p) (hd : 0 < d) (hn : 0 < n) (hdvd : d ∣ n) :
    d * pieces n p d = n ↔ d ∣ p ∨ n ≤ p := by
  have hsplit := pages_add_lastPage hp hn
  have hexpand : d * pieces n p d =
      d * (p ⌈/⌉ d) * (n ⌈/⌉ p - 1) + d * (lastPage n p ⌈/⌉ d) := by rw [pieces]; ring
  constructor
  · intro h
    by_contra hboth
    obtain ⟨hpage, hmany⟩ := not_or.mp hboth
    have hlt : p < d * (p ⌈/⌉ d) := by
      refine Nat.lt_of_le_of_ne (le_mul_ceilDiv hd) ?_
      intro heq
      exact hpage (heq ▸ Nat.dvd_mul_right d _)
    have hpages : 0 < n ⌈/⌉ p - 1 := by
      have : ¬ n ⌈/⌉ p ≤ 1 := by
        rw [ceilDiv_le_iff_le_mul hp, Nat.mul_one]
        exact hmany
      omega
    have hfull := Nat.mul_lt_mul_of_pos_right hlt hpages
    have hlast := le_mul_ceilDiv (n := lastPage n p) hd
    omega
  · intro h
    rw [hexpand]
    rcases h with hpage | hone
    · have hrest : d ∣ lastPage n p := by
        rw [← Nat.dvd_add_right (Nat.dvd_mul_right_of_dvd hpage (n ⌈/⌉ p - 1)), hsplit]
        exact hdvd
      rw [mul_ceilDiv hd hpage, mul_ceilDiv hd hrest]
      exact hsplit
    · have hpages : n ⌈/⌉ p ≤ 1 := by
        rw [ceilDiv_le_iff_le_mul hp, Nat.mul_one]
        exact hone
      have hzero : n ⌈/⌉ p - 1 = 0 := by omega
      rw [hzero, Nat.mul_zero, Nat.zero_add] at hsplit ⊢
      rw [hsplit]
      exact mul_ceilDiv hd hdvd

/-- The pieces of the pages, numbered page by page, are numbered consecutively: every page but the
last has `per` of them. -/
theorem flatMap_pages (pages per last : ℕ) :
    ((List.range (pages + 1)).flatMap fun page =>
      (List.range (if page + 1 = pages + 1 then last else per)).map (per * page + ·)) =
      List.range (per * pages + last) := by
  have hwhole : ((List.range pages).flatMap fun page =>
      (List.range (if page + 1 = pages + 1 then last else per)).map (per * page + ·)) =
      List.range (per * pages) := by
    have hper : ∀ page ∈ List.range pages,
        (List.range (if page + 1 = pages + 1 then last else per)).map (per * page + ·) =
          (List.range per).map (per * page + ·) := by
      intro page hpage
      have := List.mem_range.mp hpage
      rw [if_neg (by omega)]
    rw [List.flatMap_congr hper]
    clear hper
    induction pages with
    | zero => rfl
    | succ pages ih =>
      rw [List.range_succ, List.flatMap_append, ih, List.flatMap_singleton, Nat.mul_succ,
        List.range_add]
  rw [List.range_succ, List.flatMap_append, hwhole, List.flatMap_singleton, if_pos rfl,
    List.range_add]

end NewPims.Paging

import Mathlib.Algebra.Ring.Nat
import Mathlib.Order.Interval.Set.Defs

/-! Regions of memory that are laid out one above the other, the rounding of an address up to a
multiple of a unit, and regions that are given out one after the other, each from the address that the
one before it has moved the top to. -/
namespace NewPims

structure Region where
  start : ℕ
  size : ℕ
  deriving DecidableEq, Repr

namespace Region

variable {r s : Region} {rs ss : List Region} {lo mid hi : ℕ}

def stop (r : Region) : ℕ := r.start + r.size

def bytes (r : Region) : Set ℕ := Set.Ico r.start r.stop

/-- No byte is in both. -/
def Apart (r s : Region) : Prop := ∀ b ∈ r.bytes, b ∉ s.bytes

theorem apart_of_le (h : r.stop ≤ s.start) : Apart r s := by
  intro b hr hs
  exact absurd (Nat.lt_of_lt_of_le hr.2 h) (Nat.not_lt.mpr hs.1)

theorem apart_symm (h : Apart r s) : Apart s r := fun b hs hr => h b hr hs

/-- Two regions with bytes are apart if one ends before the other begins. -/
theorem apart_iff (hr : 0 < r.size) (hs : 0 < s.size) :
    Apart r s ↔ r.stop ≤ s.start ∨ s.stop ≤ r.start := by
  constructor
  · intro h
    by_contra hboth
    obtain ⟨hrs, hsr⟩ := not_or.mp hboth
    rw [Nat.not_le] at hrs hsr
    have hrstop : r.start < r.stop := Nat.lt_add_of_pos_right hr
    have hsstop : s.start < s.stop := Nat.lt_add_of_pos_right hs
    -- the later of the two starts is in both
    exact h (max r.start s.start) ⟨Nat.le_max_left _ _, Nat.max_lt.mpr ⟨hrstop, hrs⟩⟩
      ⟨Nat.le_max_right _ _, Nat.max_lt.mpr ⟨hsr, hsstop⟩⟩
  · intro h
    rcases h with h | h
    · exact apart_of_le h
    · exact apart_symm (apart_of_le h)

/-- Regions apart from each other, from one address up to another. -/
structure Packed (lo hi : ℕ) (rs : List Region) : Prop where
  pairwise : rs.Pairwise Apart
  bounds : ∀ r ∈ rs, lo ≤ r.start ∧ r.stop ≤ hi

theorem packed_nil (lo hi : ℕ) : Packed lo hi [] :=
  ⟨List.Pairwise.nil, fun _ h => absurd h List.not_mem_nil⟩

theorem packed_append (h : Packed lo mid rs) (h' : Packed mid hi ss) (hlo : lo ≤ mid)
    (hhi : mid ≤ hi) : Packed lo hi (rs ++ ss) := by
  constructor
  · rw [List.pairwise_append]
    refine ⟨h.pairwise, h'.pairwise, ?_⟩
    intro r hr s hs
    exact apart_of_le (Nat.le_trans (h.bounds r hr).2 (h'.bounds s hs).1)
  · intro r hr
    rcases List.mem_append.mp hr with hr | hr
    · exact ⟨(h.bounds r hr).1, Nat.le_trans (h.bounds r hr).2 hhi⟩
    · exact ⟨Nat.le_trans hlo (h'.bounds r hr).1, (h'.bounds r hr).2⟩

/-- The next region begins where the others end, or above. -/
theorem packed_concat (h : Packed lo mid rs) (hlo : lo ≤ mid) (hmid : mid ≤ r.start)
    (hhi : r.stop ≤ hi) : Packed lo hi (rs ++ [r]) := by
  have hle : r.start ≤ r.stop := Nat.le_add_right r.start r.size
  refine packed_append h ⟨List.pairwise_singleton _ _, ?_⟩ hlo (Nat.le_trans hmid (by omega))
  intro s hs
  rw [List.mem_singleton.mp hs]
  exact ⟨hmid, hhi⟩

theorem packed_le (h : Packed lo mid rs) (hhi : mid ≤ hi) : Packed lo hi rs :=
  ⟨h.pairwise, fun r hr => ⟨(h.bounds r hr).1, Nat.le_trans (h.bounds r hr).2 hhi⟩⟩

/-- The next multiple of `unit`, unless `n` is one. -/
def roundUp (unit n : ℕ) : ℕ := if n % unit = 0 then n else n + (unit - n % unit)

theorem le_roundUp (unit n : ℕ) : n ≤ roundUp unit n := by
  unfold roundUp
  split <;> omega

/-- The multiple below, and the next one above. -/
theorem lt_next (n : ℕ) {unit : ℕ} (h : 0 < unit) : n < n - n % unit + unit := by
  have := Nat.mod_lt n h
  omega

section Layout

variable {next : ℕ → ℕ → ℕ} {advance : ℕ → ℕ} {top : ℕ} {sizes : List ℕ}

/-- The regions of the sizes of a list, where `next top size` is the top after an allocation. -/
def layout (next : ℕ → ℕ → ℕ) : ℕ → List ℕ → List Region
  | _, [] => []
  | top, size :: sizes => ⟨top, size⟩ :: layout next (next top size) sizes

theorem layout_start (hmono : ∀ top size, top ≤ next top size) :
    ∀ r ∈ layout next top sizes, top ≤ r.start := by
  induction sizes generalizing top with
  | nil => exact fun r hr => absurd hr List.not_mem_nil
  | cons size sizes ih =>
    intro r hr
    rcases List.mem_cons.mp hr with rfl | hr
    · exact Nat.le_refl top
    · exact Nat.le_trans (hmono top size) (ih r hr)

/-- The regions are apart if the top moves past each of them but the last. -/
theorem layout_apart (hmono : ∀ top size, top ≤ next top size)
    (hnext : ∀ size ∈ sizes.dropLast, ∀ top, top + size ≤ next top size) :
    (layout next top sizes).Pairwise Apart := by
  induction sizes generalizing top with
  | nil => exact List.Pairwise.nil
  | cons size sizes ih =>
    cases sizes with
    | nil => exact List.pairwise_singleton _ _
    | cons size' sizes =>
      rw [List.dropLast_cons_cons] at hnext
      refine List.pairwise_cons.mpr ⟨fun r hr => ?_, ?_⟩
      · apply apart_of_le
        exact Nat.le_trans (hnext size List.mem_cons_self top) (layout_start hmono r hr)
      · exact ih fun s hs => hnext s (List.mem_cons_of_mem size hs)

/-- The second of two regions that are apart starts past the first, unless it is empty. -/
theorem le_of_apart {size size' step : ℕ} (hsize : 0 < size')
    (h : Apart ⟨top, size⟩ ⟨top + step, size'⟩) : size ≤ step := by
  by_contra hlt
  have hfirst : top + step ∈ bytes ⟨top, size⟩ := by
    refine ⟨Nat.le_add_right top step, ?_⟩
    dsimp only [stop]
    omega
  refine h (top + step) hfirst ⟨Nat.le_refl _, ?_⟩
  dsimp only [stop]
  omega

/-- Where the top moves by an amount that only depends on the size, the regions are apart if and
only if it covers every size but the last. -/
theorem layout_apart_iff (hpos : ∀ size ∈ sizes, 0 < size) :
    (layout (fun top size => top + advance size) top sizes).Pairwise Apart ↔
      ∀ size ∈ sizes.dropLast, size ≤ advance size := by
  constructor
  · intro h
    induction sizes generalizing top with
    | nil => exact fun size hsize => absurd hsize List.not_mem_nil
    | cons size sizes ih =>
      cases sizes with
      | nil => exact fun s hs => absurd hs List.not_mem_nil
      | cons size' sizes =>
        obtain ⟨hhead, htail⟩ := List.pairwise_cons.mp h
        have hpos' : ∀ s ∈ size' :: sizes, 0 < s := fun s hs => hpos s (List.mem_cons_of_mem size hs)
        have hsecond := hhead ⟨top + advance size, size'⟩ List.mem_cons_self
        rw [List.dropLast_cons_cons]
        intro s hs
        rcases List.mem_cons.mp hs with rfl | hs
        · exact le_of_apart (hpos' size' List.mem_cons_self) hsecond
        · exact ih hpos' htail s hs
  · intro h
    refine layout_apart (fun top size => Nat.le_add_right top _) fun size hsize top => ?_
    exact Nat.add_le_add_left (h size hsize) top

end Layout

end Region

end NewPims

import Mathlib.Data.List.Forall2
import Mathlib.Data.List.Nodup
import Mathlib.Data.List.ProdSigma
import Mathlib.Data.Prod.Basic

/-! Loops with a stride, and the cutting of an axis into `outer` parts of `inner` elements, each of
which such a loop goes through. -/
namespace NewPims.Strided

/-- The values of `i` in `for (i = 0; i < bound; i += step)`, for a positive step. -/
def strided (bound step : ℕ) : List ℕ := (List.range ((bound + step - 1) / step)).map (· * step)

variable {bound step x : ℕ}

theorem mem_strided (hstep : 0 < step) : x ∈ strided bound step ↔ x < bound ∧ step ∣ x := by
  simp only [strided, List.mem_map, List.mem_range]
  constructor
  · rintro ⟨i, hi, rfl⟩
    refine ⟨?_, Nat.dvd_mul_left step i⟩
    have := (Nat.lt_div_iff_mul_lt hstep).mp hi
    omega
  · rintro ⟨hx, i, rfl⟩
    refine ⟨i, ?_, Nat.mul_comm i step⟩
    rw [Nat.lt_div_iff_mul_lt hstep, Nat.mul_comm]
    omega

theorem nodup_strided (hstep : 0 < step) : (strided bound step).Nodup := by
  refine List.nodup_range.map ?_
  intro i j hij
  exact Nat.eq_of_mul_eq_mul_right hstep hij

theorem pairwise_strided (hstep : 0 < step) : (strided bound step).Pairwise (· < ·) := by
  rw [strided, List.pairwise_map]
  exact List.pairwise_lt_range.imp fun hij => Nat.mul_lt_mul_of_pos_right hij hstep

theorem zero_mem_strided (hstep : 0 < step) (hbound : 0 < bound) : 0 ∈ strided bound step :=
  (mem_strided hstep).mpr ⟨hbound, Nat.dvd_zero step⟩

/-- In a loop over whole blocks, every block ends within the bound. -/
theorem strided_add_le (hstep : 0 < step) (hbound : step ∣ bound) (hx : x ∈ strided bound step) :
    x + step ≤ bound := by
  obtain ⟨hlt, i, rfl⟩ := (mem_strided hstep).mp hx
  obtain ⟨j, rfl⟩ := hbound
  rw [← Nat.mul_succ]
  exact Nat.mul_le_mul_left step (Nat.lt_of_mul_lt_mul_left hlt)

/-- The last value. -/
theorem exists_last_strided (hstep : 0 < step) (hbound : 0 < bound) :
    ∃ x ∈ strided bound step, bound ≤ x + step := by
  refine ⟨step * ((bound - 1) / step), (mem_strided hstep).mpr ⟨?_, Nat.dvd_mul_right _ _⟩, ?_⟩
  · have := Nat.mul_div_le (bound - 1) step
    omega
  · have := Nat.lt_mul_div_succ (bound - 1) hstep
    rw [Nat.mul_add, Nat.mul_one] at this
    omega

theorem steps_eq (hstep : 0 < step) (hbound : 0 < bound) :
    (bound + step - 1) / step = (bound - 1) / step + 1 := by
  rw [← Nat.add_div_right _ hstep]
  congr 1
  omega

/-- The first value is zero. -/
theorem strided_cons (hstep : 0 < step) (hbound : 0 < bound) :
    ∃ rest, strided bound step = 0 :: rest := by
  rw [strided, steps_eq hstep hbound, List.range_succ_eq_map, List.map_cons, Nat.zero_mul]
  exact ⟨_, rfl⟩

/-- The values end with the last multiple of the step. -/
theorem strided_last (hstep : 0 < step) (hbound : 0 < bound) :
    ∃ init, strided bound step = init ++ [(bound - 1) / step * step] := by
  rw [strided, steps_eq hstep hbound, List.range_succ, List.map_append, List.map_singleton]
  exact ⟨_, rfl⟩

/-- A loop over whole blocks has one step for each of them. -/
theorem length_strided (hstep : 0 < step) (hbound : step ∣ bound) :
    (strided bound step).length * step = bound := by
  obtain ⟨i, rfl⟩ := hbound
  have hdiv : (step * i + step - 1) / step = i := by
    rw [Nat.add_sub_assoc hstep, Nat.mul_add_div hstep, Nat.div_eq_of_lt (by omega), Nat.add_zero]
  rw [strided, List.length_map, List.length_range, hdiv, Nat.mul_comm]

theorem product_last {α β : Type*} (xs : List α) (ys : List β) (x : α) (y : β) :
    ∃ init, (xs ++ [x]) ×ˢ (ys ++ [y]) = init ++ [(x, y)] := by
  refine ⟨xs ×ˢ (ys ++ [y]) ++ ys.map (Prod.mk x), ?_⟩
  change (xs ++ [x]).flatMap (fun a => (ys ++ [y]).map (Prod.mk a)) =
    (xs.flatMap fun a => (ys ++ [y]).map (Prod.mk a)) ++ ys.map (Prod.mk x) ++ [(x, y)]
  rw [List.flatMap_append, List.flatMap_singleton, List.map_append, List.map_singleton,
    List.append_assoc]

/-- Two nested loops go through the pairs in lexicographic order. -/
theorem pairwise_product {α β : Type*} {xs : List α} {ys : List β} {R : α → α → Prop}
    {S : β → β → Prop} (hxs : xs.Pairwise R) (hys : ys.Pairwise S) :
    (xs ×ˢ ys).Pairwise (Prod.Lex R S) := by
  change (xs.flatMap fun a => ys.map (Prod.mk a)).Pairwise (Prod.Lex R S)
  rw [List.pairwise_flatMap]
  refine ⟨fun a _ => ?_, hxs.imp fun hab x hx y hy => ?_⟩
  · rw [List.pairwise_map]
    exact hys.imp fun h => Prod.Lex.right a h
  · obtain ⟨b, -, rfl⟩ := List.mem_map.mp hx
    obtain ⟨b', -, rfl⟩ := List.mem_map.mp hy
    exact Prod.Lex.left b b' hab

/-- Two nested loops over the parts of an axis and their elements go through the axis in order. -/
theorem flatMap_parts {α : Type*} (outer inner : ℕ) (f : ℕ → List α) :
    ((List.range outer).flatMap fun o => (List.range inner).flatMap fun i => f (inner * o + i)) =
      (List.range (outer * inner)).flatMap f := by
  induction outer with
  | zero => rw [Nat.zero_mul, List.range_zero, List.flatMap_nil, List.flatMap_nil]
  | succ outer ih =>
    rw [List.range_succ, List.flatMap_append, ih, Nat.succ_mul, List.range_add,
      List.flatMap_append, List.flatMap_singleton, List.flatMap_map, Nat.mul_comm inner]

/-- What two nested loops show of the pairs that satisfy a condition. -/
theorem flatMap_flatMap_ite {α β γ : Type*} (xs : List α) (ys : List β) (p : α → β → Bool)
    (g : α → β → γ) :
    (xs.flatMap fun x => ys.flatMap fun y => if p x y then [g x y] else []) =
      ((xs ×ˢ ys).filter fun z => p z.1 z.2).map fun z => g z.1 z.2 := by
  have hinner : ∀ x, (ys.flatMap fun y => if p x y then [g x y] else []) =
      ((ys.map (Prod.mk x)).filter fun z => p z.1 z.2).map fun z => g z.1 z.2 := by
    intro x
    induction ys with
    | nil => rfl
    | cons y ys ih =>
      rw [List.flatMap_cons, ih, List.map_cons, List.filter_cons]
      split <;> rfl
  change _ = ((xs.flatMap fun a => ys.map (Prod.mk a)).filter _).map _
  rw [List.filter_flatMap, List.map_flatMap]
  exact List.flatMap_congr fun x _ => hinner x

theorem forall₂_left {α β : Type*} {R : α → β → Prop} {xs : List α} {ys : List β}
    (h : List.Forall₂ R xs ys) : ∀ x ∈ xs, ∃ y ∈ ys, R x y := by
  induction h with
  | nil => simp
  | cons hxy _ ih => simpa [hxy] using fun x hx => Or.inr (ih x hx)

theorem forall₂_right {α β : Type*} {R : α → β → Prop} {xs : List α} {ys : List β}
    (h : List.Forall₂ R xs ys) : ∀ y ∈ ys, ∃ x ∈ xs, R x y := by
  induction h with
  | nil => simp
  | cons hxy _ ih => simpa [hxy] using fun y hy => Or.inr (ih y hy)

theorem forall₂_head {α β : Type*} {R : α → β → Prop} {xs : List α} {ys : List β}
    (h : List.Forall₂ R xs ys) : ∀ y ∈ ys.head?, ∃ x ∈ xs.head?, R x y := by
  cases h with
  | nil => exact fun y hy => nomatch hy
  | cons hxy _ =>
    intro y hy
    cases hy
    exact ⟨_, rfl, hxy⟩

theorem flatMap_eq_of_forall₂ {α β γ : Type*} {R : α → β → Prop} {xs : List α} {ys : List β}
    {f : α → List γ} {g : β → List γ} (h : List.Forall₂ R xs ys) (hfg : ∀ x y, R x y → f x = g y) :
    xs.flatMap f = ys.flatMap g := by
  induction h with
  | nil => rfl
  | cons hxy _ ih => rw [List.flatMap_cons, List.flatMap_cons, hfg _ _ hxy, ih]

/-- Where a loop shows an element, it is in what one of its steps shows, after the steps before. -/
theorem flatMap_eq_append_cons {α β : Type*} {xs : List α} {f : α → List β} {pre post : List β}
    {e : β} (h : xs.flatMap f = pre ++ e :: post) :
    ∃ before x after first last, xs = before ++ x :: after ∧ f x = first ++ e :: last ∧
      pre = before.flatMap f ++ first := by
  induction xs generalizing pre with
  | nil => simp at h
  | cons x xs ih =>
    rw [List.flatMap_cons, List.append_eq_append_iff] at h
    rcases h with ⟨rest, hpre, hrest⟩ | ⟨rest, hx, hrest⟩
    · obtain ⟨before, y, after, first, last, hxs, hy, hpre'⟩ := ih hrest
      exact ⟨x :: before, y, after, first, last, by rw [hxs]; rfl, hy,
        by rw [hpre, hpre', List.flatMap_cons, List.append_assoc]⟩
    · cases rest with
      | nil =>
        have hnil : xs.flatMap f = [] ++ e :: post := hrest.symm
        obtain ⟨before, y, after, first, last, hxs, hy, hpre'⟩ := ih hnil
        refine ⟨x :: before, y, after, first, last, by rw [hxs]; rfl, hy, ?_⟩
        rw [List.flatMap_cons, List.append_assoc, ← hpre', List.append_nil]
        simpa using hx.symm
      | cons e' rest =>
        obtain ⟨rfl, -⟩ := List.cons.inj hrest
        exact ⟨[], x, xs, pre, rest, rfl, hx, rfl⟩

/-- The only element with a property has one place in a list. -/
theorem append_cons_inj {α : Type*} {P : α → Prop} {xs ys xs' ys' : List α} {c e : α}
    (h : xs ++ c :: ys = xs' ++ e :: ys') (hxs : ∀ x ∈ xs, ¬ P x) (hys : ∀ y ∈ ys, ¬ P y)
    (he : P e) : xs = xs' ∧ c = e := by
  rcases List.append_eq_append_iff.mp h with ⟨rest, rfl, hrest⟩ | ⟨rest, rfl, hrest⟩
  · cases rest with
    | nil => exact ⟨(List.append_nil xs).symm, (List.cons.inj hrest).1⟩
    | cons x rest =>
      refine absurd he (hys e ?_)
      rw [(List.cons.inj hrest).2]
      exact List.mem_append_right _ List.mem_cons_self
  · cases rest with
    | nil => exact ⟨List.append_nil xs', (List.cons.inj hrest).1.symm⟩
    | cons x rest =>
      obtain ⟨rfl, -⟩ := List.cons.inj hrest
      exact absurd he (hxs e (List.mem_append_right _ List.mem_cons_self))

section Axis

variable {dim outer inner o p : ℕ}

/-- Where the parts cover an axis and no block of a part goes beyond it, the parts consist of whole
blocks and end with the axis. -/
theorem axis_exact (hstep : 0 < step) (hcover : dim ≤ outer * inner) (hdim : 0 < dim)
    (hbound : ∀ o < outer, ∀ x ∈ strided inner step, inner * o + x + step ≤ dim) :
    step ∣ inner ∧ outer * inner = dim := by
  have hinner : 0 < inner := Nat.pos_of_mul_pos_left (Nat.lt_of_lt_of_le hdim hcover)
  have houter : 0 < outer := Nat.pos_of_mul_pos_right (Nat.lt_of_lt_of_le hdim hcover)
  obtain ⟨x, hx, hlast⟩ := exists_last_strided hstep hinner
  have hlastBound := hbound (outer - 1) (by omega) x hx
  have hsplit : outer * inner = inner * (outer - 1) + inner := by
    rw [← Nat.mul_succ, Nat.succ_eq_add_one, Nat.sub_add_cancel houter, Nat.mul_comm]
  have hend : x + step = inner := by omega
  refine ⟨?_, by omega⟩
  rw [← hend]
  exact Nat.dvd_add ((mem_strided hstep).mp hx).2 (Nat.dvd_refl step)

/-- A position lies in one part only, and at one place of it. -/
theorem axis_inj {o o' x x' : ℕ} (hx : x < inner) (hx' : x' < inner)
    (h : inner * o + x = inner * o' + x') : o = o' ∧ x = x' := by
  have hpos : 0 < inner := Nat.lt_of_le_of_lt (Nat.zero_le x) hx
  have hdiv := congrArg (· / inner) h
  have hmod := congrArg (· % inner) h
  simp only [Nat.mul_add_div hpos, Nat.mul_add_mod, Nat.div_eq_of_lt hx,
    Nat.div_eq_of_lt hx', Nat.mod_eq_of_lt hx, Nat.mod_eq_of_lt hx', Nat.add_zero] at hdiv hmod
  exact ⟨hdiv, hmod⟩

/-- The blocks of all parts are the blocks of the axis. -/
theorem axis_mem (hstep : 0 < step) (hinner : step ∣ inner) :
    (∃ o < outer, ∃ x ∈ strided inner step, inner * o + x = p) ↔ p < outer * inner ∧ step ∣ p := by
  constructor
  · rintro ⟨o, ho, x, hx, rfl⟩
    obtain ⟨hlt, hdvd⟩ := (mem_strided hstep).mp hx
    refine ⟨?_, Nat.dvd_add (Nat.dvd_mul_right_of_dvd hinner o) hdvd⟩
    calc inner * o + x < inner * o + inner := Nat.add_lt_add_left hlt _
      _ = (o + 1) * inner := by rw [Nat.succ_mul, Nat.mul_comm]
      _ ≤ outer * inner := Nat.mul_le_mul_right inner ho
  · rintro ⟨hp, hdvd⟩
    have hpos : 0 < inner := Nat.pos_of_mul_pos_left (Nat.lt_of_le_of_lt (Nat.zero_le p) hp)
    refine ⟨p / inner, Nat.div_lt_of_lt_mul (by rwa [Nat.mul_comm]), p % inner, ?_,
      Nat.div_add_mod p inner⟩
    exact (mem_strided hstep).mpr ⟨Nat.mod_lt p hpos, (Nat.dvd_mod_iff hinner).mpr hdvd⟩

/-- Every block of every part lies within the axis. -/
theorem axis_le {x : ℕ} (hstep : 0 < step) (hinner : step ∣ inner) (ho : o < outer)
    (hx : x ∈ strided inner step) : inner * o + x + step ≤ outer * inner := by
  have hblock := strided_add_le hstep hinner hx
  calc inner * o + x + step ≤ inner * o + inner := by omega
    _ = (o + 1) * inner := by rw [Nat.succ_mul, Nat.mul_comm]
    _ ≤ outer * inner := Nat.mul_le_mul_right inner ho

/-- Only the last block of the last part ends with the axis. -/
theorem axis_end {x : ℕ} (hstep : 0 < step) (hinner : step ∣ inner) (ho : o < outer)
    (hx : x ∈ strided inner step) :
    o + 1 = outer ∧ inner ≤ x + step ↔ inner * o + x + step = outer * inner := by
  have hblock := strided_add_le hstep hinner hx
  have hpart : inner * o + inner = (o + 1) * inner := by
    rw [Nat.succ_mul, Nat.mul_comm o]
  constructor
  · rintro ⟨rfl, hle⟩
    omega
  · intro hend
    have hle : outer * inner ≤ (o + 1) * inner := by omega
    have houter : outer ≤ o + 1 := Nat.le_of_mul_le_mul_right hle (by omega)
    obtain rfl : o + 1 = outer := by omega
    exact ⟨rfl, by omega⟩

end Axis

end NewPims.Strided

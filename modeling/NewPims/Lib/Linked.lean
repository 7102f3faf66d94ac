import Mathlib.Data.List.Basic
import Mathlib.Data.List.Forall2

/-! Lists that fall into runs: an element either opens one or goes on from the element before it. -/
namespace NewPims

variable {α β : Type*}

/-- Every element opens a run or follows the one before it, which is `prev` for the first. -/
def Linked (opens : α → Prop) (next : α → α → Prop) : Option α → List α → Prop
  | _, [] => True
  | prev, a :: l => (opens a ∨ ∃ b, prev = some b ∧ next b a) ∧ Linked opens next (some a) l

variable {opens : α → Prop} {next : α → α → Prop} {prev : Option α} {l l' : List α}

theorem linked_append :
    Linked opens next prev (l ++ l') ↔
      Linked opens next prev l ∧ Linked opens next (l.getLast?.or prev) l' := by
  induction l generalizing prev with
  | nil => exact ⟨fun h => ⟨trivial, h⟩, fun h => h.2⟩
  | cons a l ih =>
    have hlast : (a :: l).getLast?.or prev = l.getLast?.or (some a) := by
      rw [List.getLast?_cons]
      cases l.getLast? <;> rfl
    rw [hlast, List.cons_append, Linked, Linked, ih, and_assoc]

/-- A list that opens its first run itself goes on from anything. -/
theorem linked_fresh (h : Linked opens next none l) : Linked opens next prev l := by
  cases l with
  | nil => trivial
  | cons a l =>
    obtain ⟨hopens | ⟨b, hb, -⟩, hrest⟩ := h
    · exact ⟨Or.inl hopens, hrest⟩
    · cases hb

/-- What follows one element follows the other. -/
theorem linked_congr {b b' : α} (hnext : ∀ a, next b a → next b' a)
    (h : Linked opens next (some b) l) : Linked opens next (some b') l := by
  cases l with
  | nil => trivial
  | cons a l =>
    obtain ⟨hopens | ⟨c, hc, ha⟩, hrest⟩ := h
    · exact ⟨Or.inl hopens, hrest⟩
    · cases hc
      exact ⟨Or.inr ⟨b', rfl, hnext a ha⟩, hrest⟩

theorem linked_of_forall (h : ∀ a ∈ l, opens a) : Linked opens next prev l := by
  induction l generalizing prev with
  | nil => trivial
  | cons a l ih =>
    exact ⟨Or.inl (h a List.mem_cons_self), ih fun b hb => h b (List.mem_cons_of_mem a hb)⟩

theorem linked_flatMap {κ : Type*} {f : κ → List α} {ks : List κ}
    (h : ∀ k ∈ ks, Linked opens next none (f k)) : Linked opens next prev (ks.flatMap f) := by
  induction ks generalizing prev with
  | nil => trivial
  | cons k ks ih =>
    rw [List.flatMap_cons]
    refine linked_append.mpr ⟨linked_fresh (h k List.mem_cons_self), ?_⟩
    exact ih fun k' hk' => h k' (List.mem_cons_of_mem k hk')

/-- A run of numbered elements. -/
theorem linked_range {f : ℕ → α} (hopens : opens (f 0)) (hnext : ∀ n, next (f n) (f (n + 1)))
    (n : ℕ) : Linked opens next none ((List.range n).map f) := by
  induction n with
  | zero => trivial
  | succ n ih =>
    rw [List.range_succ, List.map_append]
    refine linked_append.mpr ⟨ih, ?_, trivial⟩
    cases n with
    | zero => exact Or.inl hopens
    | succ n => exact Or.inr ⟨f n, by simp [List.range_succ], hnext n⟩

/-- Lists whose elements correspond have the same runs. -/
theorem linked_forall₂ {S : α → β → Prop} {opens' : β → Prop} {next' : β → β → Prop} {ls : List β}
    (hopens : ∀ a b, S a b → opens a → opens' b)
    (hnext : ∀ a b a' b', S a b → S a' b' → next a a' → next' b b')
    (hall : List.Forall₂ S l ls) (h : Linked opens next none l) : Linked opens' next' none ls := by
  have hgo : ∀ prev prev', Option.Rel S prev prev' → Linked opens next prev l →
      Linked opens' next' prev' ls := by
    clear h
    induction hall with
    | nil => exact fun _ _ _ _ => trivial
    | cons hab _ ih =>
      rintro prev prev' hprev ⟨hfirst, hrest⟩
      refine ⟨?_, ih _ _ (.some hab) hrest⟩
      rcases hfirst with hfirst | ⟨a, rfl, ha⟩
      · exact Or.inl (hopens _ _ hab hfirst)
      · cases hprev with
        | some hS => exact Or.inr ⟨_, rfl, hnext _ _ _ _ hS hab ha⟩
  exact hgo none none .none h

theorem linked_map {opens' : β → Prop} {next' : β → β → Prop} {f : α → β}
    (hopens : ∀ a, opens a → opens' (f a)) (hnext : ∀ a a', next a a' → next' (f a) (f a'))
    (h : Linked opens next none l) : Linked opens' next' none (l.map f) := by
  have hall : List.Forall₂ (fun a b => b = f a) l (l.map f) :=
    List.forall₂_map_right_iff.mpr (List.forall₂_same.mpr fun a _ => rfl)
  refine linked_forall₂ ?_ ?_ hall h
  · rintro a _ rfl ha
    exact hopens a ha
  · rintro a _ a' _ rfl rfl hnx
    exact hnext a a' hnx

end NewPims

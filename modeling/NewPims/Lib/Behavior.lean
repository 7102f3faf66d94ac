import NewPims.Lib.Transition

/-! Runs that do not end, and the rules by which something comes about in them where calls of some
kind recur. -/
namespace NewPims.Transition

variable {σ κ ε : Type*} {step : σ → κ → Except ε σ} {s : σ}

/-- A run from the state `s` that makes call after call without a fault. -/
structure Behavior (step : σ → κ → Except ε σ) (s : σ) where
  state : ℕ → σ
  call : ℕ → κ
  start : state 0 = s
  next : ∀ t, step (state t) (call t) = .ok (state (t + 1))

namespace Behavior

variable {b : Behavior step s} {P Q R : σ → Prop} {helpful : κ → Prop}

/-- Calls of the kind are made again and again. -/
def Recurs (b : Behavior step s) (helpful : κ → Prop) : Prop := ∀ t, ∃ u, t ≤ u ∧ helpful (b.call u)

/-- Whenever `P` holds, `Q` will. -/
def LeadsTo (b : Behavior step s) (P Q : σ → Prop) : Prop :=
  ∀ t, P (b.state t) → ∃ u, t ≤ u ∧ Q (b.state u)

theorem invariant {Inv : σ → Prop} (hstep : ∀ s c t, Inv s → step s c = .ok t → Inv t) (hs : Inv s)
    (t : ℕ) : Inv (b.state t) := by
  induction t with
  | zero =>
    rw [b.start]
    exact hs
  | succ t ih => exact hstep _ _ _ ih (b.next t)

theorem LeadsTo.trans (h : LeadsTo b P Q) (h' : LeadsTo b Q R) : LeadsTo b P R := by
  intro t ht
  obtain ⟨u, hu, hQ⟩ := h t ht
  obtain ⟨v, hv, hR⟩ := h' u hQ
  exact ⟨v, Nat.le_trans hu hv, hR⟩

theorem LeadsTo.of_imp (h : ∀ s, P s → Q s) : LeadsTo b P Q :=
  fun t ht => ⟨t, Nat.le_refl t, h _ ht⟩

/-- A property that every call keeps and that a recurring call turns into another. -/
theorem leadsTo_of_recurs (hrecurs : b.Recurs helpful)
    (hkeep : ∀ t, P (b.state t) → P (b.state (t + 1)) ∨ Q (b.state (t + 1)))
    (hhelp : ∀ t, helpful (b.call t) → P (b.state t) → Q (b.state (t + 1))) : LeadsTo b P Q := by
  intro t ht
  obtain ⟨u, hu, hhelpful⟩ := hrecurs t
  obtain ⟨d, rfl⟩ := Nat.exists_eq_add_of_le hu
  clear hu
  -- the number of calls before the helpful one
  induction d generalizing t with
  | zero => exact ⟨t + 1, Nat.le_succ t, hhelp t hhelpful ht⟩
  | succ d ih =>
    rcases hkeep t ht with hP | hQ
    · obtain ⟨v, hv, hQ⟩ := ih (t + 1) hP (by rwa [Nat.add_right_comm])
      exact ⟨v, Nat.le_of_succ_le hv, hQ⟩
    · exact ⟨t + 1, Nat.le_succ t, hQ⟩

/-- A bound that goes down one by one reaches zero. -/
theorem leadsTo_countdown {P : ℕ → σ → Prop} (h : ∀ n, LeadsTo b (P (n + 1)) (P n)) (n : ℕ) :
    LeadsTo b (P n) (P 0) := by
  induction n with
  | zero => exact .of_imp fun _ => id
  | succ n ih => exact (h n).trans ih

end Behavior

end NewPims.Transition

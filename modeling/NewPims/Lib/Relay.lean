import Mathlib.Data.List.ReduceOption
import NewPims.Lib.Behavior

/-! Queues in a row: what leaves the front of one joins the back of the one before it, and queue 0
collects what has come out. An element is `none` where it is of no interest; such elements may join
or leave any queue. The others come out in the order in which they went in. -/
namespace NewPims

/-- The queues of a row, from its exit on. -/
abbrev Relay (β : Type*) := ℕ → List (Option β)

namespace Relay

variable {β : Type*} {k i j m n : ℕ} {q q' : Relay β}

/-- The elements in the queues up to `k`, from the exit on. -/
def content : ℕ → Relay β → List β
  | 0, q => (q 0).reduceOption
  | k + 1, q => content k q ++ (q (k + 1)).reduceOption

/-- The number of elements that come out before queue `k + 1` has lost more than `n` of its
entries. -/
def reach (k n : ℕ) (q : Relay β) : ℕ :=
  (content k q).length + ((q (k + 1)).take n).reduceOption.length

/-- The front of queue `i + 1` leaves it. -/
inductive Advance (i : ℕ) (q q' : Relay β) : Prop
  | pass (x : Option β) :
      q (i + 1) = x :: q' (i + 1) → q' i = q i ++ [x] →
      (∀ j, j ≠ i → j ≠ i + 1 → q' j = q j) → Advance i q q'
  | leave : q (i + 1) = none :: q' (i + 1) → (∀ j, j ≠ i + 1 → q' j = q j) → Advance i q q'

/-- A step inside the row of the queues up to `k`. -/
inductive Step (k : ℕ) (q q' : Relay β) : Prop
  | idle : (∀ j, q' j = q j) → Step k q q'
  | advance (i : ℕ) : i < k → Advance i q q' → Step k q q'
  | join (i : ℕ) : i ≤ k → q' i = q i ++ [none] → (∀ j, j ≠ i → q' j = q j) → Step k q q'

section Lists

variable (x : Option β) (xs ys : List (Option β))

theorem reduceOption_cons : (x :: xs).reduceOption = [x].reduceOption ++ xs.reduceOption :=
  List.reduceOption_append [x] xs

theorem reduceOption_length_le : xs.reduceOption.length ≤ (xs ++ ys).reduceOption.length := by
  rw [List.reduceOption_append, List.length_append]
  exact Nat.le_add_right _ _

theorem take_append_le (n : ℕ) :
    (xs.take n).reduceOption.length ≤ ((xs ++ ys).take n).reduceOption.length := by
  rw [List.take_append]
  exact reduceOption_length_le _ _

end Lists

theorem content_congr (h : ∀ j ≤ k, q' j = q j) : content k q' = content k q := by
  induction k with
  | zero => rw [content, content, h 0 (Nat.le_refl 0)]
  | succ k ih =>
    rw [content, content, ih fun j hj => h j (Nat.le_succ_of_le hj), h (k + 1) (Nat.le_refl _)]

/-- What joins the last queue is the newest. -/
theorem content_append {xs : List (Option β)} (hlast : q' k = q k ++ xs)
    (hsame : ∀ j < k, q' j = q j) : content k q' = content k q ++ xs.reduceOption := by
  cases k with
  | zero => rw [content, content, hlast, List.reduceOption_append]
  | succ k =>
    rw [content, content, hlast, List.reduceOption_append, List.append_assoc,
      content_congr fun j hj => hsame j (Nat.lt_succ_of_le hj)]

/-- Where the queues beyond `i` stay, so does what they hold. -/
theorem content_extend (hle : i ≤ k) (hcontent : content i q' = content i q)
    (hsame : ∀ j, i < j → q' j = q j) : content k q' = content k q := by
  induction k with
  | zero =>
    rw [Nat.le_zero.mp hle] at hcontent
    exact hcontent
  | succ k ih =>
    rcases Nat.le_succ_iff.mp hle with hle | rfl
    · rw [content, content, ih hle, hsame (k + 1) (Nat.lt_succ_of_le hle)]
    · exact hcontent

theorem content_join (hto : q' i = q i ++ [none]) (hsame : ∀ j, j ≠ i → q' j = q j) (k : ℕ) :
    content k q' = content k q := by
  by_cases hle : i ≤ k
  · refine content_extend hle ?_ fun j hj => hsame j (Nat.ne_of_gt hj)
    rw [content_append hto fun j hj => hsame j (Nat.ne_of_lt hj)]
    exact List.append_nil _
  · exact content_congr fun j hj => hsame j (by omega)

/-- The front of queue `i + 1` keeps its place in the row. -/
theorem content_advance (h : Advance i q q') (hk : i < k) : content k q' = content k q := by
  cases h with
  | pass x hfrom hto hsame =>
    refine content_extend (Nat.succ_le_of_lt hk) ?_ fun j hj => hsame j (by omega) (by omega)
    rw [content, content, hfrom, reduceOption_cons, content_append hto fun j hj =>
      hsame j (by omega) (by omega), List.append_assoc]
  | leave hfrom hsame =>
    refine content_extend (Nat.succ_le_of_lt hk) ?_ fun j hj => hsame j (by omega)
    rw [content, content, hfrom, List.reduceOption_cons_of_none, content_congr fun j hj =>
      hsame j (by omega)]

/-- No step loses, doubles or reorders an element. -/
theorem content_step (h : Step k q q') : content k q' = content k q := by
  cases h with
  | idle hsame => exact content_congr fun j _ => hsame j
  | advance i hi hadvance => exact content_advance hadvance hi
  | join i hi hto hsame => exact content_join hto hsame k

theorem reach_zero (k : ℕ) (q : Relay β) : reach k 0 q = (content k q).length := by
  rw [reach, List.take_zero]
  rfl

/-- As many entries as the queue has are all that it holds. -/
theorem reach_of_length_le (h : (q (k + 1)).length ≤ n) :
    reach k n q = (content (k + 1) q).length := by
  rw [reach, List.take_of_length_le h, content, List.length_append]

theorem reach_le_succ (k n : ℕ) (q : Relay β) : reach k n q ≤ reach k (n + 1) q := by
  unfold reach
  rw [List.take_add_one]
  exact Nat.add_le_add_left (reduceOption_length_le _ _) _

/-- When the front of queue `i + 1` leaves it, one entry less has to leave. -/
theorem reach_front (h : Advance i q q') (n : ℕ) : reach i (n + 1) q ≤ reach i n q' := by
  refine Nat.le_of_eq ?_
  unfold reach
  cases h with
  | pass x hfrom hto hsame =>
    rw [hfrom, content_append hto fun j hj => hsame j (by omega) (by omega), List.take_succ_cons,
      reduceOption_cons, List.length_append, List.length_append, Nat.add_assoc]
  | leave hfrom hsame =>
    rw [hfrom, content_congr fun j hj => hsame j (by omega), List.take_succ_cons,
      List.reduceOption_cons_of_none]

/-- Where the row behind queue `i` only grows at its back, the reach does not fall. -/
theorem reach_of_append {xs : List (Option β)} (hcontent : content i q' = content i q)
    (hqueue : q' (i + 1) = q (i + 1) ++ xs) (n : ℕ) : reach i n q ≤ reach i n q' := by
  unfold reach
  rw [hcontent, hqueue]
  exact Nat.add_le_add_left (take_append_le _ _ n) _

theorem reach_of_same (hcontent : content i q' = content i q) (hqueue : q' (i + 1) = q (i + 1))
    (n : ℕ) : reach i n q ≤ reach i n q' := by
  refine Nat.le_of_eq ?_
  unfold reach
  rw [hcontent, hqueue]

theorem reach_advance (h : Advance m q q') (i n : ℕ) : reach i n q ≤ reach i n q' := by
  rcases Nat.lt_trichotomy i m with hi | rfl | hi
  · have hcontent : content i q' = content i q := by
      cases h with
      | pass x hfrom hto hsame => exact content_congr fun j hj => hsame j (by omega) (by omega)
      | leave hfrom hsame => exact content_congr fun j hj => hsame j (by omega)
    cases h with
    | pass x hfrom hto hsame =>
      by_cases hnext : i + 1 = m
      · subst hnext
        exact reach_of_append hcontent hto n
      · exact reach_of_same hcontent (hsame (i + 1) hnext (by omega)) n
    | leave hfrom hsame =>
      exact reach_of_same hcontent (hsame (i + 1) (by omega)) n
  · exact Nat.le_trans (reach_le_succ i n q) (reach_front h n)
  · refine reach_of_same (content_advance h hi) ?_ n
    cases h with
    | pass x hfrom hto hsame => exact hsame (i + 1) (by omega) (by omega)
    | leave hfrom hsame => exact hsame (i + 1) (by omega)

theorem reach_step (h : Step k q q') (i n : ℕ) : reach i n q ≤ reach i n q' := by
  cases h with
  | idle hsame =>
    exact reach_of_same (content_congr fun j _ => hsame j) (hsame (i + 1)) n
  | advance m hm hadvance => exact reach_advance hadvance i n
  | join m hm hto hsame =>
    by_cases hnext : i + 1 = m
    · subst hnext
      exact reach_of_append (content_join hto hsame i) hto n
    · exact reach_of_same (content_join hto hsame i) (hsame (i + 1) hnext) n

/-- A step in which the front of queue `i + 1` leaves, if there is one. -/
theorem reach_serve (h : Advance i q q' ∨ q (i + 1) = []) (hstep : Step k q q') (n : ℕ) :
    reach i (n + 1) q ≤ reach i n q' := by
  rcases h with hadvance | hempty
  · exact reach_front hadvance n
  · have hall : reach i (n + 1) q = reach i n q := by
      unfold reach
      rw [hempty, List.take_nil, List.take_nil]
    rw [hall]
    exact reach_step hstep i n

/-- What joins the row at queue `k` puts nothing back. -/
theorem reach_feed {xs : List (Option β)} (hlast : q' k = q k ++ xs)
    (hsame : ∀ j, j ≠ k → q' j = q j) (hi : i < k) (n : ℕ) : reach i n q ≤ reach i n q' := by
  have hcontent : content i q' = content i q := content_congr fun j hj => hsame j (by omega)
  by_cases hnext : i + 1 = k
  · subst hnext
    exact reach_of_append hcontent hlast n
  · exact reach_of_same hcontent (hsame (i + 1) hnext) n

section Runs

open Transition

variable {σ κ ε : Type*} {step : σ → κ → Except ε σ} {s : σ} {b : Behavior step s}
  {row : σ → Relay β} {helpful : κ → Prop}

/-- From one state to the next, one entry less has to leave queue `i + 1`. -/
def Serves (row : σ → Relay β) (i : ℕ) (s s' : σ) : Prop :=
  ∀ n, reach i (n + 1) (row s) ≤ reach i n (row s')

/-- No call of the run puts an entry back into queue `i + 1`. -/
def Monotone (row : σ → Relay β) (i : ℕ) (b : Behavior step s) : Prop :=
  ∀ t n, reach i n (row (b.state t)) ≤ reach i n (row (b.state (t + 1)))

/-- Where every entry of a queue leaves it in time, so does every element up to there. -/
theorem leadsTo_queue (h : ∀ n, b.LeadsTo (fun x => m < reach i (n + 1) (row x))
      fun x => m < reach i n (row x)) :
    b.LeadsTo (fun x => m < (content (i + 1) (row x)).length)
      fun x => m < (content i (row x)).length := by
  intro t ht
  have hall : reach i (row (b.state t) (i + 1)).length (row (b.state t)) =
      (content (i + 1) (row (b.state t))).length := reach_of_length_le (Nat.le_refl _)
  rw [← hall] at ht
  obtain ⟨u, hu, hQ⟩ :=
    Behavior.leadsTo_countdown (P := fun n x => m < reach i n (row x)) h _ t ht
  rw [reach_zero] at hQ
  exact ⟨u, hu, hQ⟩

/-- A queue from which every call of a kind that recurs takes an entry. -/
theorem leadsTo_serve (hrecurs : b.Recurs helpful) (hmono : Monotone row i b)
    (hserve : ∀ t, helpful (b.call t) → Serves row i (b.state t) (b.state (t + 1))) :
    b.LeadsTo (fun x => m < (content (i + 1) (row x)).length)
      fun x => m < (content i (row x)).length := by
  refine leadsTo_queue fun n => Behavior.leadsTo_of_recurs hrecurs ?_ ?_
  · intro t ht
    exact Or.inl (Nat.lt_of_lt_of_le ht (hmono t (n + 1)))
  · intro t hhelp ht
    exact Nat.lt_of_lt_of_le ht (hserve t hhelp n)

/-- Either the front has left queue `i + 1`, or it will within `w` calls of a kind. -/
def Waits (row : σ → Relay β) (i : ℕ) (front : ℕ → σ → Prop) (m n : ℕ) : ℕ → σ → Prop
  | 0, x => m < reach i n (row x)
  | w + 1, x => m < reach i n (row x) ∨ m < reach i (n + 1) (row x) ∧ front w x

theorem Waits.of_left {front : ℕ → σ → Prop} {w : ℕ} {x : σ} (h : m < reach i n (row x)) :
    Waits row i front m n w x := by
  cases w with
  | zero => exact h
  | succ w => exact Or.inl h

/-- A queue whose front leaves it after a number of calls of a kind that recurs. -/
theorem leadsTo_wait (front : ℕ → σ → Prop) (hrecurs : b.Recurs helpful) (hmono : Monotone row i b)
    (hfront : ∀ t, row (b.state t) (i + 1) = [] ∨ ∃ w, front w (b.state t))
    (hkeep : ∀ t w, front w (b.state t) → helpful (b.call t) ∨ front w (b.state (t + 1)))
    (hwait : ∀ t w, helpful (b.call t) → front w (b.state t) →
      Serves row i (b.state t) (b.state (t + 1)) ∨ ∃ v, w = v + 1 ∧ front v (b.state (t + 1))) :
    b.LeadsTo (fun x => m < (content (i + 1) (row x)).length)
      fun x => m < (content i (row x)).length := by
  refine leadsTo_queue fun n => ?_
  have hhelp : ∀ t w, helpful (b.call t) → Waits row i front m n (w + 1) (b.state t) →
      Waits row i front m n w (b.state (t + 1)) := by
    intro t w hhelpful h
    rcases h with h | ⟨h, hf⟩
    · exact .of_left (Nat.lt_of_lt_of_le h (hmono t n))
    · rcases hwait t w hhelpful hf with hserve | ⟨v, rfl, hf'⟩
      · exact .of_left (Nat.lt_of_lt_of_le h (hserve n))
      · exact Or.inr ⟨Nat.lt_of_lt_of_le h (hmono t (n + 1)), hf'⟩
  intro t ht
  rcases hfront t with hempty | ⟨w, hf⟩
  · exact ⟨t, Nat.le_refl t, Nat.lt_of_lt_of_le ht
      (reach_serve (k := 0) (Or.inr hempty) (.idle fun _ => rfl) n)⟩
  refine Behavior.leadsTo_countdown (P := Waits row i front m n) (fun w => ?_) (w + 1) t
    (Or.inr ⟨ht, hf⟩)
  refine Behavior.leadsTo_of_recurs hrecurs ?_ fun t => hhelp t w
  intro t h
  rcases h with h | ⟨h, hf⟩
  · exact Or.inl (.of_left (Nat.lt_of_lt_of_le h (hmono t n)))
  · rcases hkeep t w hf with hhelpful | hf'
    · exact Or.inr (hhelp t w hhelpful (Or.inr ⟨h, hf⟩))
    · exact Or.inl (Or.inr ⟨Nat.lt_of_lt_of_le h (hmono t (n + 1)), hf'⟩)

end Runs

end Relay

end NewPims

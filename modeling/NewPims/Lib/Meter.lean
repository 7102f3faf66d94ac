import Mathlib.Algebra.BigOperators.Group.List.Basic
import Mathlib.Algebra.Order.BigOperators.Group.Finset
import Mathlib.Algebra.Ring.Nat
import Mathlib.Order.Interval.Finset.Nat

/-! How long a predicate holds along a timed trace: the closed intervals in which it holds, their
total length, and the cycles in which it holds. And a log of starts and ends, in turns: the intervals
that have been closed, and one that may be open. -/
namespace NewPims.Timed

open Finset

/-- The states of a run with the cycles they were entered in, the latest one first. -/
abbrev Trace (σ : Type*) := List (ℕ × σ)

/-- The start of the interval that is open, and the intervals closed so far. -/
structure Meter where
  since : Option ℕ := none
  closed : List (ℕ × ℕ) := []
  deriving DecidableEq, Repr

namespace Meter

/-- A state is entered in `cycle`, in which the predicate holds or does not. -/
def observe (m : Meter) (cycle : ℕ) (holds : Prop) [Decidable holds] : Meter :=
  match m.since with
  | none => if holds then ⟨some cycle, m.closed⟩ else m
  | some start => if holds then m else ⟨none, (start, cycle) :: m.closed⟩

/-- The length of the closed intervals. -/
def total (m : Meter) : ℕ := (m.closed.map fun i => i.2 - i.1).sum

/-- The cycles of the closed intervals. -/
def covered (m : Meter) : Finset ℕ := m.closed.foldr (fun i cycles => Ico i.1 i.2 ∪ cycles) ∅

end Meter

variable {σ : Type*} (p q r : σ → Prop) [DecidablePred p] [DecidablePred q] [DecidablePred r]

def meter : Trace σ → Meter
  | [] => {}
  | (cycle, s) :: older => (meter older).observe cycle (p s)

/-- The cycles in which a state with the predicate was current. -/
def held : Trace σ → Finset ℕ
  | (cycle', _) :: (cycle, s) :: older =>
    (if p s then Ico cycle cycle' else ∅) ∪ held ((cycle, s) :: older)
  | _ => ∅

/-- The cycles do not go down. -/
def Ordered (trace : Trace σ) : Prop := trace.Pairwise fun later earlier => earlier.1 ≤ later.1

variable {p q r} {trace : Trace σ} {cycle cycle' start : ℕ} {s s' : σ} {m : Meter}

section Observe

variable {holds : Prop} [Decidable holds]

theorem observe_since_isSome : (m.observe cycle holds).since.isSome ↔ holds := by
  unfold Meter.observe
  split
  · next hsince => by_cases h : holds <;> simp [h, hsince]
  · next hsince => by_cases h : holds <;> simp [h, hsince]

theorem observe_open (h : m.since = none) (hholds : holds) :
    m.observe cycle holds = ⟨some cycle, m.closed⟩ := by
  simp only [Meter.observe, h, if_pos hholds]

theorem observe_close (h : m.since = some start) (hholds : ¬ holds) :
    m.observe cycle holds = ⟨none, (start, cycle) :: m.closed⟩ := by
  simp only [Meter.observe, h, if_neg hholds]

/-- Nothing changes where the predicate goes on to hold, or not to. -/
theorem observe_same (h : m.since.isSome ↔ holds) : m.observe cycle holds = m := by
  unfold Meter.observe
  split
  · next hsince =>
    rw [hsince] at h
    rw [if_neg fun hholds => absurd (h.mpr hholds) (by decide)]
  · next hsince =>
    rw [hsince] at h
    rw [if_pos (h.mp rfl)]

end Observe

/-- An interval is open as long as the predicate holds. -/
theorem meter_since_isSome : (meter p ((cycle, s) :: trace)).since.isSome ↔ p s := by
  rw [meter, observe_since_isSome]

/-- The meter has run along with the cycles in which the predicate held, up to `now`. -/
structure Measured (cycles : Finset ℕ) (m : Meter) (now : ℕ) : Prop where
  cycles_eq : cycles = m.covered ∪ Ico (m.since.getD now) now
  since_le : m.since.getD now ≤ now
  lt_since : ∀ t ∈ m.covered, t < m.since.getD now
  card_eq : m.covered.card = m.total

theorem measured_start : Measured ∅ {} cycle := by
  refine ⟨?_, Nat.le_refl cycle, fun t ht => absurd ht (Finset.notMem_empty t), rfl⟩
  change ∅ = ∅ ∪ Ico cycle cycle
  rw [Ico_self, empty_union]

/-- Time goes on in the same state. -/
theorem measured_wait {cycles : Finset ℕ} (h : Measured cycles m cycle) (hle : cycle ≤ cycle') :
    Measured ((if m.since.isSome then Ico cycle cycle' else ∅) ∪ cycles) m cycle' := by
  obtain ⟨hcycles, hsince, hlt, hcard⟩ := h
  cases hm : m.since with
  | none =>
    simp only [hm, Option.getD_none, Ico_self, union_empty] at hcycles hlt
    refine ⟨?_, ?_, ?_, hcard⟩
    · simp only [hm, Option.getD_none, Ico_self, union_empty, Option.isSome_none, empty_union,
        Bool.false_eq_true, if_false]
      exact hcycles
    · rw [hm]
      exact Nat.le_refl cycle'
    · intro t ht
      rw [hm]
      exact Nat.lt_of_lt_of_le (hlt t ht) hle
  | some start =>
    simp only [hm, Option.getD_some] at hcycles hsince hlt
    refine ⟨?_, ?_, ?_, hcard⟩
    · simp only [hm, Option.getD_some, Option.isSome_some, if_true]
      rw [hcycles, union_left_comm, union_comm (Ico cycle cycle'),
        Ico_union_Ico_eq_Ico hsince hle]
    · rw [hm]
      exact Nat.le_trans hsince hle
    · rw [hm]
      exact hlt

/-- What is observed at the end moves the open interval to the closed ones, or opens one. -/
theorem measured_observe {cycles : Finset ℕ} {holds : Prop} [Decidable holds]
    (h : Measured cycles m cycle) : Measured cycles (m.observe cycle holds) cycle := by
  by_cases hsame : m.since.isSome ↔ holds
  · rw [observe_same hsame]
    exact h
  · obtain ⟨hcycles, hsince, hlt, hcard⟩ := h
    cases hm : m.since with
    | none =>
      have hholds : holds := by
        by_contra hnot
        refine hsame ⟨fun hsome => ?_, fun hh => absurd hh hnot⟩
        rw [hm] at hsome
        cases hsome
      rw [hm] at hcycles hlt
      rw [observe_open hm hholds]
      exact ⟨hcycles, Nat.le_refl cycle, hlt, hcard⟩
    | some start =>
      have hholds : ¬ holds := fun hh => hsame ⟨fun _ => hh, fun _ => by rw [hm]; rfl⟩
      rw [hm] at hcycles hlt hsince
      rw [observe_close hm hholds]
      -- the closed interval begins where the others have ended
      have hdisj : Disjoint (Ico start cycle) m.covered := by
        rw [Finset.disjoint_left]
        intro t ht hmem
        exact absurd (hlt t hmem) (Nat.not_lt.mpr (mem_Ico.mp ht).1)
      refine ⟨?_, Nat.le_refl cycle, ?_, ?_⟩
      · change cycles = (Ico start cycle ∪ m.covered) ∪ Ico cycle cycle
        rw [Ico_self, union_empty, hcycles, union_comm]
        rfl
      · intro t ht
        rcases mem_union.mp ht with ht | ht
        · exact (mem_Ico.mp ht).2
        · exact Nat.lt_of_lt_of_le (hlt t ht) hsince
      · change (Ico start cycle ∪ m.covered).card = (cycle - start) + m.total
        rw [card_union_of_disjoint hdisj, Nat.card_Ico, hcard]

theorem meter_measured (h : Ordered ((cycle, s) :: trace)) :
    Measured (held p ((cycle, s) :: trace)) (meter p ((cycle, s) :: trace)) cycle := by
  induction trace generalizing cycle s with
  | nil => exact measured_observe measured_start
  | cons entry older ih =>
    obtain ⟨hle, hordered⟩ := List.pairwise_cons.mp h
    have hwait := measured_wait (ih hordered) (hle entry List.mem_cons_self)
    simp only [meter_since_isSome] at hwait
    exact measured_observe hwait

theorem held_or : held (fun s => p s ∨ q s) trace = held p trace ∪ held q trace := by
  induction trace with
  | nil => rfl
  | cons entry older ih =>
    cases older with
    | nil => rfl
    | cons entry' older =>
      simp only [held]
      rw [ih]
      ext t
      by_cases hp : p entry'.2
      · by_cases hq : q entry'.2
        · simp only [hp, hq, or_self, if_true, mem_union]
          tauto
        · simp only [hp, hq, or_false, if_true, if_false, mem_union, notMem_empty, false_or]
          tauto
      · by_cases hq : q entry'.2
        · simp only [hp, hq, false_or, if_true, if_false, mem_union, notMem_empty]
          tauto
        · simp only [hp, hq, or_self, if_false, mem_union, notMem_empty, false_or]

theorem observe_since_le {n : Meter} {holds holds' : Prop} [Decidable holds] [Decidable holds']
    (hprev : ∀ a, m.since = some a → ∃ b ≤ a, n.since = some b)
    (hle : n.since.getD cycle ≤ cycle) (himp : holds → holds')
    (h : (m.observe cycle holds).since = some start) :
    ∃ b ≤ start, (n.observe cycle holds').since = some b := by
  have hholds : holds := by
    have hopen : (m.observe cycle holds).since.isSome := by rw [h]; rfl
    exact observe_since_isSome.mp hopen
  have hholds' := himp hholds
  cases hn : n.since with
  | none =>
    cases hm : m.since with
    | none =>
      rw [observe_open hm hholds] at h
      cases h
      exact ⟨cycle, Nat.le_refl cycle, by rw [observe_open hn hholds']⟩
    | some a =>
      obtain ⟨b, -, hb⟩ := hprev a hm
      cases hn.symm.trans hb
  | some b =>
    rw [observe_same (m := n) (by rw [hn]; exact ⟨fun _ => hholds', fun _ => rfl⟩)]
    refine ⟨b, ?_, hn⟩
    cases hm : m.since with
    | none =>
      rw [observe_open hm hholds] at h
      cases h
      rwa [hn] at hle
    | some a =>
      rw [observe_same (by rw [hm]; exact ⟨fun _ => hholds, fun _ => rfl⟩)] at h
      obtain ⟨b', hle', hb'⟩ := hprev start h
      cases hn.symm.trans hb'
      exact hle'

/-- A predicate that follows from another one began to hold no later. -/
theorem since_le_since (himp : ∀ s, p s → r s) (h : Ordered ((cycle, s) :: trace))
    (hp : (meter p ((cycle, s) :: trace)).since = some start) :
    ∃ start' ≤ start, (meter r ((cycle, s) :: trace)).since = some start' := by
  induction trace generalizing cycle s start with
  | nil => exact observe_since_le (fun a ha => by cases ha) (Nat.le_refl cycle) (himp s) hp
  | cons entry older ih =>
    obtain ⟨hle, hordered⟩ := List.pairwise_cons.mp h
    have hsince := (meter_measured (p := r) hordered).since_le
    have hentry := hle entry List.mem_cons_self
    refine observe_since_le (fun a ha => ih hordered ha) ?_ (himp s) hp
    cases hr : (meter r (entry :: older)).since with
    | none => exact Nat.le_refl cycle
    | some b =>
      rw [hr] at hsince
      exact Nat.le_trans hsince hentry

section Or

variable (h : Ordered ((cycle, s) :: trace))

include h

/-- A cycle in which one of two predicates held is in a closed interval of one of them. -/
theorem covered_or_subset : (meter (fun s => p s ∨ q s) ((cycle, s) :: trace)).covered ⊆
    (meter p ((cycle, s) :: trace)).covered ∪ (meter q ((cycle, s) :: trace)).covered := by
  have hp := meter_measured (p := p) h
  have hq := meter_measured (p := q) h
  have hor := meter_measured (p := fun s => p s ∨ q s) h
  intro t ht
  have hlt := hor.lt_since t ht
  -- what is open now has been open since `start` at least, when `t` was over
  have hout : ∀ m : Meter, (∀ start, m.since = some start → ∃ b ≤ start,
      (meter (fun s => p s ∨ q s) ((cycle, s) :: trace)).since = some b) →
      t ∉ Ico (m.since.getD cycle) cycle := by
    intro m hm hmem
    cases hsince : m.since with
    | none =>
      rw [hsince, Option.getD_none, Ico_self] at hmem
      exact absurd hmem (Finset.notMem_empty t)
    | some start =>
      obtain ⟨b, hb, hopen⟩ := hm start hsince
      rw [hopen] at hlt
      rw [hsince] at hmem
      exact absurd (Nat.le_trans hb (mem_Ico.mp hmem).1) (Nat.not_le.mpr hlt)
  have hheld : t ∈ held p ((cycle, s) :: trace) ∪ held q ((cycle, s) :: trace) := by
    rw [← held_or, hor.cycles_eq]
    exact mem_union_left _ ht
  rw [hp.cycles_eq, hq.cycles_eq, mem_union, mem_union, mem_union] at hheld
  rw [mem_union]
  rcases hheld with (hheld | hheld) | (hheld | hheld)
  · exact Or.inl hheld
  · exact absurd hheld (hout _ fun _ hs => since_le_since (fun _ => Or.inl) h hs)
  · exact Or.inr hheld
  · exact absurd hheld (hout _ fun _ hs => since_le_since (fun _ => Or.inr) h hs)

/-- Where nothing is open, the closed intervals are all there is. -/
theorem covered_eq_held (hnot : ¬ p s) :
    (meter p ((cycle, s) :: trace)).covered = held p ((cycle, s) :: trace) := by
  have hnone : (meter p ((cycle, s) :: trace)).since = none := by
    rw [← Option.not_isSome_iff_eq_none, meter_since_isSome]
    exact hnot
  rw [(meter_measured h).cycles_eq, hnone, Option.getD_none, Ico_self, union_empty]

theorem covered_or (hp : ¬ p s) (hq : ¬ q s) :
    (meter (fun s => p s ∨ q s) ((cycle, s) :: trace)).covered =
      (meter p ((cycle, s) :: trace)).covered ∪ (meter q ((cycle, s) :: trace)).covered := by
  rw [covered_eq_held h hp, covered_eq_held h hq, ← held_or]
  exact covered_eq_held h fun hor => hor.elim hp hq

end Or

end NewPims.Timed

namespace NewPims.Spans

variable {closed : List (ℕ × ℕ)} {opened : Option ℕ} {start stop : ℕ}

/-- A mark is a start or an end. -/
def marks (closed : List (ℕ × ℕ)) (opened : Option ℕ) : List (Bool × ℕ) :=
  closed.flatMap (fun i => [(true, i.1), (false, i.2)]) ++ opened.toList.map fun i => (true, i)

/-- From each start to the next end. -/
def durations : List (Bool × ℕ) → List ℕ
  | (true, start) :: (false, stop) :: rest => (stop - start) :: durations rest
  | _ => []

/-- The starts stand at the even positions, the ends at the odd ones. -/
def Alternates (log : List (Bool × ℕ)) : Prop := ∀ i m, log[i]? = some m → (m.1 ↔ i % 2 = 0)

theorem marks_open : marks closed (some start) = marks closed none ++ [(true, start)] := by
  simp only [marks, Option.toList_some, Option.toList_none, List.map_nil, List.append_nil]
  rfl

theorem marks_close :
    marks (closed ++ [(start, stop)]) none = marks closed (some start) ++ [(false, stop)] := by
  rw [marks_open]
  simp only [marks, List.flatMap_append, Option.toList_none, List.map_nil, List.append_nil,
    List.append_assoc]
  rfl

theorem durations_marks : durations (marks closed opened) = closed.map fun i => i.2 - i.1 := by
  induction closed with
  | nil => cases opened <;> rfl
  | cons i closed ih => exact congrArg (List.cons (i.2 - i.1)) ih

theorem marks_alternates : Alternates (marks closed opened) := by
  induction closed with
  | nil =>
    intro i m hm
    cases opened with
    | none => cases hm
    | some start =>
      cases i with
      | zero =>
        cases hm
        exact iff_of_true rfl rfl
      | succ i => cases hm
  | cons interval closed ih =>
    intro i m hm
    rcases i with _ | _ | i
    · cases hm
      exact iff_of_true rfl rfl
    · cases hm
      exact iff_of_false Bool.false_ne_true (by decide)
    · rw [ih i m hm, Nat.add_assoc, Nat.add_mod_right]

end NewPims.Spans

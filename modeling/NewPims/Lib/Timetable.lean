import Mathlib.Data.List.Basic

/-! Queues in time: jobs that run one after another, jobs that finish in the order of the queue, and a
queue that gives up at most its head in each cycle, and that once the head is ready. There every
entry has the cycle it was put in; the queue keeps a latency if no entry can leave before it has
waited that long. -/
namespace NewPims.Timetable

variable {α : Type*}

/-- Behind the last element the new one is related to all if it is related to the last. -/
theorem pairwise_concat {R : α → α → Prop} {q : List α} {b x : α} (h : q.Pairwise R)
    (hb : q.getLast? = some b) (htrans : ∀ a ∈ q, R a b → R b x → R a x) :
    (q ++ [x]).Pairwise R ↔ R b x := by
  obtain ⟨ys, rfl⟩ := List.getLast?_eq_some_iff.mp hb
  constructor
  · intro hall
    exact (List.pairwise_append.mp hall).2.2 b (by simp) x (by simp)
  · intro hbx
    refine List.pairwise_append.mpr ⟨h, List.pairwise_singleton R x, ?_⟩
    intro a ha y hy
    rw [List.mem_singleton] at hy
    subst hy
    rcases List.mem_append.mp ha with hmem | hmem
    · have hab := (List.pairwise_append.mp h).2.2 a hmem b (by simp)
      exact htrans a ha hab hbx
    · rw [List.mem_singleton.mp hmem]
      exact hbx

variable (start finish : α → ℕ)

/-- Every job finishes before the ones behind it start. -/
def Sequential (q : List α) : Prop := q.Pairwise fun a b => finish a ≤ start b

/-- No job finishes before the ones in front of it. -/
def InTurn (q : List α) : Prop := q.Pairwise fun a b => finish a ≤ finish b

variable {start finish} {q : List α} {b x : α}

theorem inTurn_concat (h : InTurn finish q) (hb : q.getLast? = some b) :
    InTurn finish (q ++ [x]) ↔ finish b ≤ finish x :=
  pairwise_concat h hb fun _ _ hab hbx => Nat.le_trans hab hbx

theorem sequential_concat (h : Sequential start finish q) (hb : q.getLast? = some b)
    (hrun : start b ≤ finish b) :
    Sequential start finish (q ++ [x]) ↔ finish b ≤ start x :=
  pairwise_concat h hb fun _ _ hab hbx => Nat.le_trans hab (Nat.le_trans hrun hbx)

/-- No two jobs run in the same cycle. -/
theorem Sequential.alone (h : Sequential start finish q) {i j t : ℕ} (hi : i < q.length)
    (hj : j < q.length) (hrun : start q[i] ≤ t ∧ t < finish q[i])
    (hrun' : start q[j] ≤ t ∧ t < finish q[j]) : i = j := by
  have hpairs := List.pairwise_iff_getElem.mp h
  rcases Nat.lt_trichotomy i j with hlt | heq | hgt
  · have hle := hpairs i j hi hj hlt
    omega
  · exact heq
  · have hle := hpairs j i hj hi hgt
    omega

end NewPims.Timetable

namespace NewPims.DelayQueue

variable {α : Type*} (stamp ready : α → ℕ) {latency now : ℕ} {q : List α} {e : α}

/-- The entry in position `i` leaves no earlier than `i` cycles from now and no earlier than it is
ready, and by then it has waited for the latency. -/
def Keeps (latency now : ℕ) (q : List α) : Prop :=
  ∀ i e, q[i]? = some e → stamp e + latency ≤ max (now + i) (ready e)

variable {stamp ready}

theorem keeps_nil : Keeps stamp ready latency now [] := by
  intro i e h
  rw [List.getElem?_nil] at h
  cases h

theorem keeps_concat (h : Keeps stamp ready latency now q)
    (he : stamp e + latency ≤ max (now + q.length) (ready e)) :
    Keeps stamp ready latency now (q ++ [e]) := by
  intro i e' hi
  rcases Nat.lt_or_ge i q.length with hlt | hge
  · rw [List.getElem?_append_left hlt] at hi
    exact h i e' hi
  · rw [List.getElem?_append_right hge] at hi
    have hlen := (List.getElem?_eq_some_iff.mp hi).1
    have hi' : i = q.length := by
      rw [List.length_singleton] at hlen
      omega
    rw [hi', Nat.sub_self] at hi
    cases hi
    rw [hi']
    exact he

/-- A cycle in which nothing leaves. -/
theorem keeps_tick (h : Keeps stamp ready latency now q) :
    Keeps stamp ready latency (now + 1) q := by
  intro i e hi
  have hle := h i e hi
  omega

/-- A cycle in which the head leaves. -/
theorem keeps_tail (h : Keeps stamp ready latency now q) :
    Keeps stamp ready latency (now + 1) q.tail := by
  intro i e hi
  rw [List.getElem?_tail] at hi
  have hle := h (i + 1) e hi
  omega

/-- A head that is ready has waited for the latency. -/
theorem Keeps.head (h : Keeps stamp ready latency now (e :: q)) (hready : ready e ≤ now) :
    stamp e + latency ≤ now := by
  have hle := h 0 e rfl
  omega

end NewPims.DelayQueue

import Mathlib.Algebra.Ring.Nat
import Mathlib.Data.List.Basic

/-! Events that put off others: each event sets deadlines before which events of certain kinds may
not come, and a table holds the latest deadline of each kind. -/
namespace NewPims.Timers

variable {E K : Type*}

/-- The deadlines that an event at a time sets for the events of a kind, and the kinds of an
event. -/
structure Rules (E K : Type*) where
  deadlines : ℕ → E → K → List ℕ
  kinds : E → List K

variable {rules : Rules E K} {past : List (ℕ × E)} {table table' : K → ℕ} {t : ℕ} {e : E}

/-- The second event comes when the deadlines that the first one set for it are over. -/
def Rules.Respects (rules : Rules E K) (first second : ℕ × E) : Prop :=
  ∀ k ∈ rules.kinds second.2, ∀ d ∈ rules.deadlines first.1 first.2 k, d ≤ second.1

/-- The table holds at least every deadline that was set, and all events kept to it. -/
structure Kept (rules : Rules E K) (past : List (ℕ × E)) (table : K → ℕ) : Prop where
  bound : ∀ p ∈ past, ∀ k, ∀ d ∈ rules.deadlines p.1 p.2 k, d ≤ table k
  respected : past.Pairwise rules.Respects

theorem kept_nil (table : K → ℕ) : Kept rules [] table :=
  ⟨fun _ hp => absurd hp List.not_mem_nil, List.Pairwise.nil⟩

/-- The table only grows, and takes the deadlines of the event that comes. -/
theorem kept_append (h : Kept rules past table) (hready : ∀ k ∈ rules.kinds e, table k ≤ t)
    (hgrows : ∀ k, table k ≤ table' k)
    (hsets : ∀ k, ∀ d ∈ rules.deadlines t e k, d ≤ table' k) :
    Kept rules (past ++ [(t, e)]) table' := by
  constructor
  · intro p hp k d hd
    rcases List.mem_append.mp hp with hp | hp
    · exact Nat.le_trans (h.bound p hp k d hd) (hgrows k)
    · rw [List.mem_singleton] at hp
      subst hp
      exact hsets k d hd
  · refine List.pairwise_append.mpr ⟨h.respected, List.pairwise_singleton _ _, ?_⟩
    intro p hp q hq k hk d hd
    rw [List.mem_singleton] at hq
    subst hq
    exact Nat.le_trans (h.bound p hp k d hd) (hready k hk)

end NewPims.Timers

/-! A limit on how often something may happen, kept in a queue of the times at which the last few
happenings expire. One entry leaves the queue at most whenever one enters it. -/
namespace NewPims.RateWindow

variable {expiry : ℕ → ℕ} {limit now t : ℕ} {times window : List ℕ}

/-- Anything that happened has expired when the one `limit` places after it happens. -/
def Spaced (expiry : ℕ → ℕ) (limit : ℕ) (times : List ℕ) : Prop :=
  ∀ i x y, times[i]? = some x → times[i + limit]? = some y → expiry x ≤ y

/-- The queue holds the expiry of the last happenings, and those before them have expired. -/
structure Covers (expiry : ℕ → ℕ) (limit now : ℕ) (times window : List ℕ) : Prop where
  split : ∃ old recent, times = old ++ recent ∧ window = recent.map expiry ∧
    ∀ x ∈ old, expiry x ≤ now
  short : window.length ≤ limit
  spaced : Spaced expiry limit times

/-- Whether something may happen. -/
def Ready (limit t : ℕ) (window : List ℕ) : Prop :=
  ∀ first rest, window = first :: rest → first ≤ t ∨ window.length < limit

/-- The queue without its first entry, if that has expired. -/
def expire (t : ℕ) : List ℕ → List ℕ
  | [] => []
  | first :: rest => if first ≤ t then rest else first :: rest

theorem covers_nil : Covers expiry limit now [] [] := by
  refine ⟨⟨[], [], rfl, rfl, fun x hx => absurd hx List.not_mem_nil⟩, Nat.zero_le _, ?_⟩
  intro i x y hx
  rw [List.getElem?_nil] at hx
  cases hx

theorem covers_later (h : Covers expiry limit now times window) (hle : now ≤ t) :
    Covers expiry limit t times window := by
  obtain ⟨old, recent, htimes, hwindow, hold⟩ := h.split
  exact ⟨⟨old, recent, htimes, hwindow, fun x hx => Nat.le_trans (hold x hx) hle⟩, h.short,
    h.spaced⟩

/-- What happens when it may is far enough from what happened before. -/
theorem spaced_append (hlimit : 0 < limit) (h : Covers expiry limit now times window)
    (hle : now ≤ t) (hready : Ready limit t window) : Spaced expiry limit (times ++ [t]) := by
  obtain ⟨old, recent, htimes, hwindow, hold⟩ := h.split
  have hshort := h.short
  rw [hwindow, List.length_map] at hshort
  have hlength : times.length = old.length + recent.length := by
    rw [htimes, List.length_append]
  intro i x y hx hy
  have hi : i + limit < times.length + 1 := by
    have := (List.getElem?_eq_some_iff.mp hy).1
    rwa [List.length_append, List.length_singleton] at this
  rw [List.getElem?_append_left (by omega)] at hx
  rcases Nat.lt_or_ge (i + limit) times.length with hlt | hge
  · rw [List.getElem?_append_left hlt] at hy
    exact h.spaced i x y hx hy
  · have hyt : y = t := by
      rw [List.getElem?_append_right hge, show i + limit - times.length = 0 by omega] at hy
      exact (Option.some.inj hy).symm
    subst hyt
    rw [htimes] at hx
    rcases Nat.lt_or_ge i old.length with hin | hout
    · -- it has left the queue
      rw [List.getElem?_append_left hin] at hx
      exact Nat.le_trans (hold x (List.mem_of_getElem? hx)) hle
    · -- it is the first of a full queue
      rw [List.getElem?_append_right hout, show i - old.length = 0 by omega] at hx
      cases hrecent : recent with
      | nil =>
        rw [hrecent, List.length_nil] at hlength
        omega
      | cons first rest =>
        rw [hrecent] at hx hwindow hlength
        cases hx
        rcases hready (expiry x) (rest.map expiry) hwindow with hfirst | hfirst
        · exact hfirst
        · rw [hwindow, List.length_map] at hfirst
          omega

theorem covers_happen (hlimit : 0 < limit) (h : Covers expiry limit now times window)
    (hle : now ≤ t) (hready : Ready limit t window) :
    Covers expiry limit t (times ++ [t]) (expire t window ++ [expiry t]) := by
  have hspaced := spaced_append hlimit h hle hready
  obtain ⟨old, recent, htimes, hwindow, hold⟩ := h.split
  have hshort := h.short
  cases recent with
  | nil =>
    subst hwindow
    refine ⟨⟨old, [t], by rw [htimes, List.append_nil], rfl,
      fun x hx => Nat.le_trans (hold x hx) hle⟩, ?_, hspaced⟩
    exact hlimit
  | cons first rest =>
    have hfirst := hready (expiry first) (rest.map expiry) hwindow
    rw [List.map_cons] at hwindow
    subst hwindow
    rw [List.length_cons] at hshort hfirst
    rw [expire]
    split
    · rename_i hexpired
      refine ⟨⟨old ++ [first], rest ++ [t], ?_, ?_, ?_⟩, ?_, hspaced⟩
      · rw [htimes]
        simp
      · rw [List.map_append]
        rfl
      · intro x hx
        rcases List.mem_append.mp hx with hx | hx
        · exact Nat.le_trans (hold x hx) hle
        · rw [List.mem_singleton] at hx
          rw [hx]
          exact hexpired
      · rw [List.length_append, List.length_singleton]
        exact hshort
    · rename_i hfull
      refine ⟨⟨old, first :: rest ++ [t], ?_, ?_, fun x hx => Nat.le_trans (hold x hx) hle⟩, ?_,
        hspaced⟩
      · rw [htimes, List.append_assoc]
      · rw [List.map_append]
        rfl
      · rw [List.length_append, List.length_singleton, List.length_cons]
        omega

end NewPims.RateWindow

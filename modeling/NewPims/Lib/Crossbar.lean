import Mathlib.Data.List.Basic
import Mathlib.Logic.Function.Basic

/-! A switch with one input queue per source and one output queue per place, together with
the history of what entered and what left it. Every message names its place through `route`.
Conservation says that the messages a source pushed are, in order, those that left its input
queue followed by those still in it, and that the former are found once each, in the same
order, at the places they name. -/
namespace NewPims

structure Crossbar (σ π μ : Type*) where
  input : σ → List μ
  /-- The queue at a place; each message keeps the source it came from. -/
  output : π → List (σ × μ)
  pushed : σ → List μ
  popped : π → List (σ × μ)

namespace Crossbar

variable {σ π μ : Type*}

def empty : Crossbar σ π μ where
  input _ := []
  output _ := []
  pushed _ := []
  popped _ := []

variable [DecidableEq σ] [DecidableEq π]

def enqueue (X : Crossbar σ π μ) (s : σ) (m : μ) : Crossbar σ π μ :=
  { X with
    input := Function.update X.input s (X.input s ++ [m])
    pushed := Function.update X.pushed s (X.pushed s ++ [m]) }

/-- The head `m` of the input queue of `s` moves to the place `p`. -/
def transfer (X : Crossbar σ π μ) (s : σ) (m : μ) (p : π) : Crossbar σ π μ :=
  { X with
    input := Function.update X.input s (X.input s).tail
    output := Function.update X.output p (X.output p ++ [(s, m)]) }

def dequeue (X : Crossbar σ π μ) (p : π) : Crossbar σ π μ :=
  { X with
    output := Function.update X.output p (X.output p).tail
    popped := Function.update X.popped p (X.popped p ++ (X.output p).take 1) }

/-- The messages of a list that came from the source `s`. -/
def fromSource (s : σ) (ms : List (σ × μ)) : List μ :=
  (ms.filter (·.1 = s)).map Prod.snd

/-- Everything that ever reached the place `p`, oldest first. -/
def arrived (X : Crossbar σ π μ) (p : π) : List (σ × μ) := X.popped p ++ X.output p

/-- The messages that left the input queue of each source, `left`, account for everything the
source pushed and for everything that arrived anywhere from it. -/
def ConservedBy (route : μ → π) (X : Crossbar σ π μ) (left : σ → List μ) : Prop :=
  (∀ s, X.pushed s = left s ++ X.input s) ∧
    ∀ s p, fromSource s (X.arrived p) = (left s).filter (route · = p)

def Conserved (route : μ → π) (X : Crossbar σ π μ) : Prop :=
  ∃ left, ConservedBy route X left

omit [DecidableEq π] in
@[simp]
theorem fromSource_nil (s : σ) : fromSource s ([] : List (σ × μ)) = [] := rfl

omit [DecidableEq π] in
theorem fromSource_append (s : σ) (ms ns : List (σ × μ)) :
    fromSource s (ms ++ ns) = fromSource s ms ++ fromSource s ns := by
  simp [fromSource]

omit [DecidableEq π] in
theorem fromSource_singleton (s t : σ) (m : μ) :
    fromSource s [(t, m)] = if t = s then [m] else [] := by
  by_cases h : t = s <;> simp [fromSource, h]

theorem conserved_empty (route : μ → π) : Conserved route (empty : Crossbar σ π μ) :=
  ⟨fun _ => [], fun _ => rfl, fun _ _ => rfl⟩

theorem conserved_enqueue {route : μ → π} {X : Crossbar σ π μ} (h : Conserved route X)
    (s : σ) (m : μ) : Conserved route (X.enqueue s m) := by
  obtain ⟨left, hpushed, harrived⟩ := h
  refine ⟨left, ?_, harrived⟩
  intro t
  by_cases hts : t = s
  · subst hts
    simp [enqueue, hpushed t]
  · simp [enqueue, hts, hpushed t]

theorem arrived_transfer (X : Crossbar σ π μ) (s : σ) (m : μ) (p q : π) :
    (X.transfer s m p).arrived q = X.arrived q ++ if q = p then [(s, m)] else [] := by
  by_cases hqp : q = p
  · subst hqp
    simp [arrived, transfer]
  · simp [arrived, transfer, hqp]

theorem conserved_transfer {route : μ → π} {X : Crossbar σ π μ} (h : Conserved route X)
    {s : σ} {m : μ} {rest : List μ} (hhead : X.input s = m :: rest) :
    Conserved route (X.transfer s m (route m)) := by
  obtain ⟨left, hpushed, harrived⟩ := h
  refine ⟨Function.update left s (left s ++ [m]), ?_, ?_⟩
  · intro t
    by_cases hts : t = s
    · subst hts
      simp [transfer, hpushed t, hhead]
    · simp [transfer, hts, hpushed t]
  · intro t q
    rw [arrived_transfer, fromSource_append, harrived t q]
    by_cases hts : t = s
    · subst hts
      by_cases hq : q = route m
      · subst hq
        simp [fromSource_singleton]
      · have hq' : route m ≠ q := fun h => hq h.symm
        simp [hq, hq']
    · have hst : s ≠ t := fun h => hts h.symm
      by_cases hq : q = route m
      · simp [hts, hq, hst, fromSource_singleton]
      · simp [hts, hq]

omit [DecidableEq σ] in
theorem arrived_dequeue (X : Crossbar σ π μ) (p q : π) :
    (X.dequeue p).arrived q = X.arrived q := by
  by_cases hqp : q = p
  · subst hqp
    cases hout : X.output q <;> simp [arrived, dequeue, hout]
  · simp [arrived, dequeue, hqp]

theorem conserved_dequeue {route : μ → π} {X : Crossbar σ π μ} (h : Conserved route X)
    (p : π) : Conserved route (X.dequeue p) := by
  obtain ⟨left, hpushed, harrived⟩ := h
  refine ⟨left, hpushed, ?_⟩
  intro s q
  rw [arrived_dequeue]
  exact harrived s q

end Crossbar

end NewPims

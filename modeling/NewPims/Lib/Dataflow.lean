import Mathlib.Data.Set.Finite.Basic
import Mathlib.Data.Set.Finite.List
import Mathlib.Logic.Relation
import Mathlib.Order.WellFoundedSet

/-! Nodes that consume and produce tokens. A node is ready when it is not done and every
token it needs is available; finishing a node makes its own tokens available. In an acyclic
graph whose needs are all supplied there is always a ready node until every node is done, and
the nodes that become ready when one finishes are among its consumers. -/
namespace NewPims

structure Dataflow (ν τ : Type*) where
  nodes : List ν
  needs : ν → List τ
  makes : ν → List τ

namespace Dataflow

variable {ν τ : Type*} (G : Dataflow ν τ)

def Feeds (a b : ν) : Prop := a ∈ G.nodes ∧ b ∈ G.nodes ∧ ∃ t ∈ G.makes a, t ∈ G.needs b

def Acyclic : Prop := ∀ a, ¬ Relation.TransGen G.Feeds a a

/-- The tokens given at the start and those made by the nodes that are done. -/
def Available (given : τ → Prop) (done : ν → Prop) (t : τ) : Prop :=
  given t ∨ ∃ a ∈ G.nodes, done a ∧ t ∈ G.makes a

def Ready (given : τ → Prop) (done : ν → Prop) (n : ν) : Prop :=
  n ∈ G.nodes ∧ ¬ done n ∧ ∀ t ∈ G.needs n, G.Available given done t

/-- Every needed token is given or made by some node. -/
def Supplied (given : τ → Prop) : Prop :=
  ∀ n ∈ G.nodes, ∀ t ∈ G.needs n, given t ∨ ∃ a ∈ G.nodes, t ∈ G.makes a

/-- A numbering that grows along every edge rules out cycles. -/
theorem acyclic_of_lt (rank : ν → ℕ) (h : ∀ a b, G.Feeds a b → rank a < rank b) :
    G.Acyclic := by
  have htrans : ∀ a b, Relation.TransGen G.Feeds a b → rank a < rank b := by
    intro a b hab
    induction hab with
    | single hab => exact h a _ hab
    | tail _ hbc ih => exact ih.trans (h _ _ hbc)
  intro a haa
  exact absurd (htrans a a haa) (lt_irrefl _)

variable {G} {given : τ → Prop} {done : ν → Prop}

theorem acyclic_wellFoundedOn (h : G.Acyclic) :
    {n | n ∈ G.nodes}.WellFoundedOn (Relation.TransGen G.Feeds) := by
  have htrans : IsTrans ν (Relation.TransGen G.Feeds) := ⟨fun _ _ _ => Relation.TransGen.trans⟩
  have hirrefl : Std.Irrefl (Relation.TransGen G.Feeds) := ⟨h⟩
  have horder : IsStrictOrder ν (Relation.TransGen G.Feeds) := ⟨⟩
  have hfinite : {n | n ∈ G.nodes}.Finite := List.finite_toSet G.nodes
  exact hfinite.wellFoundedOn

/-- While a node of an acyclic, supplied graph is not done, some node is ready. -/
theorem exists_ready (hacyclic : G.Acyclic) (hsupplied : G.Supplied given) {n : ν}
    (hn : n ∈ G.nodes) (hdone : ¬ done n) : ∃ m, G.Ready given done m := by
  revert hdone
  -- along the edges: a node that is not ready waits for one that is not done
  refine (acyclic_wellFoundedOn hacyclic).induction
    (P := fun n => ¬ done n → ∃ m, G.Ready given done m) hn ?_
  intro b hb ih hbdone
  by_cases hready : ∀ t ∈ G.needs b, G.Available given done t
  · exact ⟨b, hb, hbdone, hready⟩
  · push Not at hready
    obtain ⟨t, ht, hunavailable⟩ := hready
    have hnotgiven : ¬ given t := fun h => hunavailable (Or.inl h)
    obtain ⟨a, ha, hmakes⟩ := (hsupplied b hb t ht).resolve_left hnotgiven
    have hadone : ¬ done a := fun h => hunavailable (Or.inr ⟨a, ha, h, hmakes⟩)
    exact ih a ha (Relation.TransGen.single ⟨ha, hb, t, hmakes, ht⟩) hadone

theorem available_mono {done' : ν → Prop} (h : ∀ n, done n → done' n) {t : τ}
    (ht : G.Available given done t) : G.Available given done' t := by
  rcases ht with ht | ⟨a, ha, hdone, hmakes⟩
  · exact Or.inl ht
  · exact Or.inr ⟨a, ha, h a hdone, hmakes⟩

theorem available_finish {a : ν} (ha : a ∈ G.nodes) (t : τ) :
    G.Available given (fun m => done m ∨ m = a) t ↔ G.Available given done t ∨ t ∈ G.makes a := by
  constructor
  · rintro (h | ⟨b, hb, hdone | rfl, hmakes⟩)
    · exact Or.inl (Or.inl h)
    · exact Or.inl (Or.inr ⟨b, hb, hdone, hmakes⟩)
    · exact Or.inr hmakes
  · rintro (h | hmakes)
    · exact available_mono (fun _ => Or.inl) h
    · exact Or.inr ⟨a, ha, Or.inr rfl, hmakes⟩

/-- Once `a` is done, the ready nodes are those that were ready, `a` apart, and the consumers
of `a` that have become ready. -/
theorem ready_finish (a : ν) {n : ν} :
    G.Ready given (fun m => done m ∨ m = a) n ↔
      n ≠ a ∧ (G.Ready given done n ∨
        (∃ t ∈ G.makes a, t ∈ G.needs n) ∧ G.Ready given (fun m => done m ∨ m = a) n) := by
  constructor
  · intro h
    obtain ⟨hn, hdone, havailable⟩ := h
    have hne : n ≠ a := fun h => hdone (Or.inr h)
    refine ⟨hne, ?_⟩
    by_cases hconsumes : ∃ t ∈ G.makes a, t ∈ G.needs n
    · exact Or.inr ⟨hconsumes, hn, hdone, havailable⟩
    · refine Or.inl ⟨hn, fun h => hdone (Or.inl h), ?_⟩
      intro t ht
      rcases havailable t ht with hgiven | ⟨b, hb, hbdone | rfl, hmakes⟩
      · exact Or.inl hgiven
      · exact Or.inr ⟨b, hb, hbdone, hmakes⟩
      · exact absurd ⟨t, hmakes, ht⟩ hconsumes
  · rintro ⟨hne, ⟨hn, hdone, havailable⟩ | ⟨-, h⟩⟩
    · refine ⟨hn, ?_, fun t ht => available_mono (fun _ => Or.inl) (havailable t ht)⟩
      rintro (h | h)
      · exact hdone h
      · exact hne h
    · exact h

section Worklist

variable [DecidableEq ν]

/-- Append the candidates that pass the test and are not yet in the list. -/
def pushNew (test : ν → Bool) (l cands : List ν) : List ν :=
  cands.foldl (fun l c => if test c && !decide (c ∈ l) then l ++ [c] else l) l

theorem mem_pushNew (test : ν → Bool) (l cands : List ν) (n : ν) :
    n ∈ pushNew test l cands ↔ n ∈ l ∨ n ∈ cands ∧ test n = true := by
  induction cands generalizing l with
  | nil => simp [pushNew]
  | cons c cs ih =>
    have hstep : pushNew test l (c :: cs) =
        pushNew test (if test c && !decide (c ∈ l) then l ++ [c] else l) cs := rfl
    rw [hstep, ih]
    by_cases hpush : (test c && !decide (c ∈ l)) = true
    · rw [if_pos hpush]
      have htest : test c = true := by simpa using (Bool.and_eq_true_iff.mp hpush).1
      constructor
      · rintro (h | ⟨h, ht⟩)
        · rcases List.mem_append.mp h with h | h
          · exact Or.inl h
          · rw [List.mem_singleton.mp h]
            exact Or.inr ⟨List.mem_cons_self, htest⟩
        · exact Or.inr ⟨List.mem_cons_of_mem c h, ht⟩
      · rintro (h | ⟨h, ht⟩)
        · exact Or.inl (List.mem_append_left _ h)
        · rcases List.mem_cons.mp h with rfl | h
          · exact Or.inl (by simp)
          · exact Or.inr ⟨h, ht⟩
    · rw [if_neg hpush]
      constructor
      · rintro (h | ⟨h, ht⟩)
        · exact Or.inl h
        · exact Or.inr ⟨List.mem_cons_of_mem c h, ht⟩
      · rintro (h | ⟨h, ht⟩)
        · exact Or.inl h
        · rcases List.mem_cons.mp h with rfl | h
          · exact Or.inl (by simpa [ht] using hpush)
          · exact Or.inr ⟨h, ht⟩

theorem pushNew_nodup (test : ν → Bool) {l : List ν} (cands : List ν) (h : l.Nodup) :
    (pushNew test l cands).Nodup := by
  induction cands generalizing l with
  | nil => exact h
  | cons c cs ih =>
    have hstep : pushNew test l (c :: cs) =
        pushNew test (if test c && !decide (c ∈ l) then l ++ [c] else l) cs := rfl
    rw [hstep]
    apply ih
    split_ifs with hpush
    · have hnew : c ∉ l := by simpa using (Bool.and_eq_true_iff.mp hpush).2
      rw [List.nodup_append]
      refine ⟨h, List.nodup_singleton c, ?_⟩
      rintro x hx y hy rfl
      exact hnew (List.mem_singleton.mp hy ▸ hx)
    · exact h

end Worklist

end Dataflow

end NewPims

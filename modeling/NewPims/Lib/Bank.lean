import Mathlib.Data.List.Count
import Mathlib.Data.List.Flatten
import Mathlib.Data.List.Nodup

/-! A bank of lists under finitely many indices: what replacing one of the lists does to the
contents of the bank. -/
namespace NewPims.Bank

variable {κ α β : Type*} [DecidableEq κ] {ks : List κ} {q : κ → List α} {k : κ}

/-- Everything the bank holds. -/
def contents (ks : List κ) (q : κ → List α) : List α := ks.flatMap q

omit [DecidableEq κ] in
@[simp]
theorem mem_contents {a : α} : a ∈ contents ks q ↔ ∃ k ∈ ks, a ∈ q k := List.mem_flatMap

omit [DecidableEq κ] in
theorem contents_congr {r : κ → List α} (h : ∀ k ∈ ks, q k = r k) :
    contents ks q = contents ks r := List.flatMap_congr h

theorem contents_update_of_notMem (hk : k ∉ ks) (l : List α) :
    contents ks (Function.update q k l) = contents ks q := by
  apply contents_congr
  intro j hj
  refine Function.update_of_ne ?_ _ _
  rintro rfl
  exact hk hj

/-- The contents change by exactly what the list at the index changes by. -/
theorem countP_contents_update (hks : ks.Nodup) (hk : k ∈ ks) (l : List α) (P : α → Bool) :
    (contents ks (Function.update q k l)).countP P + (q k).countP P =
      (contents ks q).countP P + l.countP P := by
  induction ks with
  | nil => cases hk
  | cons j js ih =>
    obtain ⟨hj, hjs⟩ := List.nodup_cons.mp hks
    simp only [contents, List.flatMap_cons, List.countP_append]
    by_cases hjk : k = j
    · subst hjk
      have hrest := contents_update_of_notMem (q := q) hj l
      simp only [contents] at hrest
      rw [hrest, Function.update_self]
      omega
    · have hmem : k ∈ js := (List.mem_cons.mp hk).resolve_left hjk
      have := ih hjs hmem
      simp only [contents] at this
      rw [Function.update_of_ne (fun h => hjk h.symm)]
      omega

theorem mem_contents_update {l : List α} {a : α}
    (h : a ∈ contents ks (Function.update q k l)) : a ∈ contents ks q ∨ a ∈ l := by
  obtain ⟨j, hj, ha⟩ := mem_contents.mp h
  by_cases hjk : j = k
  · subst hjk
    rw [Function.update_self] at ha
    exact Or.inr ha
  · rw [Function.update_of_ne hjk] at ha
    exact Or.inl (mem_contents.mpr ⟨j, hj, ha⟩)

/-- What is put into one of the lists is what the bank gets. -/
theorem perm_contents_put (hks : ks.Nodup) (hk : k ∈ ks) {r : κ → List α} {l : List α}
    (hself : (r k).Perm (q k ++ l)) (hother : ∀ j, j ≠ k → r j = q j) :
    (contents ks r).Perm (contents ks q ++ l) := by
  have hsplit : ks.Perm (k :: ks.erase k) := List.perm_cons_erase hk
  have hrest : contents (ks.erase k) r = contents (ks.erase k) q :=
    contents_congr fun j hj => hother j (List.Nodup.mem_erase_iff hks |>.mp hj).1
  calc (contents ks r).Perm (r k ++ contents (ks.erase k) q) := by
        rw [← hrest]
        exact hsplit.flatMap_right r
    List.Perm _ (q k ++ l ++ contents (ks.erase k) q) := hself.append_right _
    List.Perm _ (q k ++ contents (ks.erase k) q ++ l) := by
        rw [List.append_assoc, List.append_assoc]
        exact List.perm_append_comm.append_left _
    List.Perm _ (contents ks q ++ l) := (hsplit.flatMap_right q).symm.append_right l

omit [DecidableEq κ] in
theorem contents_sublist {js : List κ} (h : js.Sublist ks) :
    (contents js q).Sublist (contents ks q) := h.flatMap q

omit [DecidableEq κ] in
/-- Nothing is lost with lists that are empty. -/
theorem contents_of_sublist {js : List κ} (h : js.Sublist ks) (hks : ks.Nodup)
    (hempty : ∀ j ∈ ks, j ∉ js → q j = []) : contents js q = contents ks q := by
  induction h with
  | slnil => rfl
  | cons j h ih =>
    obtain ⟨hj, hks⟩ := List.nodup_cons.mp hks
    have hnil : q j = [] := hempty j List.mem_cons_self fun hmem => hj (h.subset hmem)
    rw [ih hks fun i hi => hempty i (List.mem_cons_of_mem _ hi), contents, contents,
      List.flatMap_cons, hnil, List.nil_append]
  | cons_cons j h ih =>
    obtain ⟨hj, hks⟩ := List.nodup_cons.mp hks
    have hrest := ih hks fun i hi hnot => hempty i (List.mem_cons_of_mem _ hi) fun hmem => by
      rcases List.mem_cons.mp hmem with rfl | hmem
      · exact hj hi
      · exact hnot hmem
    rw [contents, contents] at hrest ⊢
    rw [List.flatMap_cons, List.flatMap_cons, hrest]

/-- Replacing an element of an indexed family replaces the list it is mapped to. -/
theorem comp_update (f : β → List α) (g : κ → β) (b : β) :
    (fun j => f (Function.update g k b j)) = Function.update (fun j => f (g j)) k (f b) := by
  funext j
  by_cases hjk : j = k
  · subst hjk
    simp
  · simp [hjk]

omit [DecidableEq κ] in
/-- One owner of a list takes some items. -/
theorem perm_flatMap_set {owners : List κ} {i : ℕ} {k k' : κ} {l : List α}
    (hi : owners[i]? = some k) (hk : q k' = q k ++ l) :
    ((owners.set i k').flatMap q).Perm (owners.flatMap q ++ l) := by
  induction owners generalizing i with
  | nil => cases hi
  | cons owner owners ih =>
    cases i with
    | zero =>
      cases hi
      rw [List.set_cons_zero, List.flatMap_cons, List.flatMap_cons, hk, List.append_assoc,
        List.append_assoc]
      exact List.perm_append_comm.append_left _
    | succ i =>
      rw [List.set_cons_succ, List.flatMap_cons, List.flatMap_cons, List.append_assoc]
      exact (ih hi).append_left _

omit [DecidableEq κ] in
/-- Where no item is held twice, an item has one owner and one position with it. -/
theorem position_unique {owners : List κ} (h : (owners.flatMap q).Nodup) {i j m n : ℕ} {k k' : κ}
    {x : α} (hi : owners[i]? = some k) (hj : owners[j]? = some k') (hm : (q k)[m]? = some x)
    (hn : (q k')[n]? = some x) : i = j ∧ m = n := by
  obtain ⟨heach, hpair⟩ := List.nodup_flatMap.mp h
  have hne : ∀ {i j : ℕ} {k k' : κ}, owners[i]? = some k → owners[j]? = some k' → x ∈ q k →
      x ∈ q k' → ¬ i < j := by
    intro i j k k' hi hj hx hx' hlt
    obtain ⟨hi', rfl⟩ := List.getElem?_eq_some_iff.mp hi
    obtain ⟨hj', rfl⟩ := List.getElem?_eq_some_iff.mp hj
    exact List.pairwise_iff_getElem.mp hpair i j hi' hj' hlt hx hx'
  have hx := List.mem_of_getElem? hm
  have hx' := List.mem_of_getElem? hn
  have hij : i = j :=
    Nat.le_antisymm (Nat.not_lt.mp (hne hj hi hx' hx)) (Nat.not_lt.mp (hne hi hj hx hx'))
  refine ⟨hij, ?_⟩
  rw [hij, hj] at hi
  cases hi
  obtain ⟨hm', hmx⟩ := List.getElem?_eq_some_iff.mp hm
  obtain ⟨hn', hnx⟩ := List.getElem?_eq_some_iff.mp hn
  exact (List.Nodup.getElem_inj_iff (heach k (List.mem_of_getElem? hj))).mp (hmx.trans hnx.symm)

end NewPims.Bank

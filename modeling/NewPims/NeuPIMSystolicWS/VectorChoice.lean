import NewPims.NeuPIMSystolicWS.Phases

/-! The loop over the vector units that looks for the one to take an instruction: which unit it ends
with. -/
namespace NewPims.NeuPIMSystolicWS

/-- The end of the last instruction of a unit; a unit without instructions is free now. -/
def busyUntil (c : NeuPIMSCore) (k : ℕ) : CycleType :=
  match (c.vectorPipelines k).getLast? with
  | some back => back.finishCycle
  | none => c.coreCycle

section Choice

variable {c : NeuPIMSCore} {k : ℕ} {start : CycleType}

theorem busyUntil_getLast {back : Instruction}
    (h : (c.vectorPipelines k).getLast? = some back) : busyUntil c k = back.finishCycle := by
  rw [busyUntil, h]

theorem leastFilledVpu_cons_busy {ks : List ℕ} {least : Option ℕ} {finish : CycleType}
    (hk : c.vectorPipelines k ≠ []) :
    leastFilledVpu c (k :: ks) least finish =
      if busyUntil c k < finish then leastFilledVpu c ks (some k) c.coreCycle
      else leastFilledVpu c ks least finish := by
  cases hlast : (c.vectorPipelines k).getLast? with
  | none => exact absurd (List.getLast?_eq_none_iff.mp hlast) hk
  | some back => rw [leastFilledVpu, hlast, busyUntil_getLast hlast]

/-- A unit without instructions is taken if there is one. -/
theorem leastFilledVpu_empty {ks : List ℕ} {least : Option ℕ} {finish : CycleType}
    (hempty : ∃ j ∈ ks, c.vectorPipelines j = [])
    (h : leastFilledVpu c ks least finish = (some k, start)) :
    c.vectorPipelines k = [] ∧ start = c.coreCycle := by
  induction ks generalizing least finish with
  | nil =>
    obtain ⟨j, hj, -⟩ := hempty
    cases hj
  | cons i is ih =>
    by_cases hi : c.vectorPipelines i = []
    · rw [leastFilledVpu, hi] at h
      cases h
      exact ⟨hi, rfl⟩
    · rw [leastFilledVpu_cons_busy hi] at h
      have hrest : ∃ j ∈ is, c.vectorPipelines j = [] := by
        obtain ⟨j, hj, hnil⟩ := hempty
        rcases List.mem_cons.mp hj with rfl | hj
        · exact absurd hnil hi
        · exact ⟨j, hj, hnil⟩
      split_ifs at h
      · exact ih hrest h
      · exact ih hrest h

/-- The loop ends with the unit `k`: it is the last one that is free before now, if it is not the
first one that is found at all. -/
structure LastFound (c : NeuPIMSCore) (finish : CycleType) (before : List ℕ) (k : ℕ)
    (after : List ℕ) : Prop where
  found : busyUntil c k < c.coreCycle ∧ (∃ j ∈ before, busyUntil c j < finish) ∨
    busyUntil c k < finish ∧ ∀ j ∈ before, finish ≤ busyUntil c j
  last : ∀ j ∈ after, c.coreCycle ≤ busyUntil c j

theorem leastFilledVpu_skip {ks : List ℕ} {least : Option ℕ} {finish : CycleType}
    (hbusy : ∀ j ∈ ks, c.vectorPipelines j ≠ []) (hks : ∀ j ∈ ks, finish ≤ busyUntil c j) :
    leastFilledVpu c ks least finish = (least, finish) := by
  induction ks with
  | nil => rfl
  | cons i is ih =>
    rw [leastFilledVpu_cons_busy (hbusy i List.mem_cons_self),
      if_neg (Nat.not_lt.mpr (hks i List.mem_cons_self))]
    exact ih (fun j hj => hbusy j (List.mem_cons_of_mem i hj))
      fun j hj => hks j (List.mem_cons_of_mem i hj)

theorem leastFilledVpu_of_lastFound {before after : List ℕ} {least : Option ℕ}
    {finish : CycleType} (hbusy : ∀ j ∈ before ++ k :: after, c.vectorPipelines j ≠ [])
    (h : LastFound c finish before k after) :
    leastFilledVpu c (before ++ k :: after) least finish = (some k, c.coreCycle) := by
  induction before generalizing least finish with
  | nil =>
    have hk : busyUntil c k < finish := by
      rcases h.found with ⟨-, j, hj, -⟩ | ⟨hk, -⟩
      · cases hj
      · exact hk
    rw [List.nil_append, leastFilledVpu_cons_busy (hbusy k (by simp)), if_pos hk]
    exact leastFilledVpu_skip (fun j hj => hbusy j (by simp [hj])) h.last
  | cons i is ih =>
    have hrest : ∀ j ∈ is ++ k :: after, c.vectorPipelines j ≠ [] :=
      fun j hj => hbusy j (List.mem_cons_of_mem i hj)
    rw [List.cons_append, leastFilledVpu_cons_busy (hbusy i (by simp))]
    split_ifs with hi
    · -- behind a unit that is found the search is for one that is free before now
      refine ih hrest ⟨?_, h.last⟩
      have hk : busyUntil c k < c.coreCycle := by
        rcases h.found with ⟨hk, -⟩ | ⟨-, hall⟩
        · exact hk
        · exact absurd hi (Nat.not_lt.mpr (hall i List.mem_cons_self))
      by_cases hex : ∃ j ∈ is, busyUntil c j < c.coreCycle
      · exact Or.inl ⟨hk, hex⟩
      · push Not at hex
        exact Or.inr ⟨hk, hex⟩
    · refine ih hrest ⟨?_, h.last⟩
      rcases h.found with ⟨hk, j, hj, hlt⟩ | ⟨hk, hall⟩
      · rcases List.mem_cons.mp hj with rfl | hj
        · exact absurd hlt hi
        · exact Or.inl ⟨hk, j, hj, hlt⟩
      · exact Or.inr ⟨hk, fun j hj => hall j (List.mem_cons_of_mem i hj)⟩

/-- Among busy units the loop returns the one it came with or one that it found. -/
theorem leastFilledVpu_busy {ks : List ℕ} {least : Option ℕ} {finish : CycleType}
    (hbusy : ∀ j ∈ ks, c.vectorPipelines j ≠ [])
    (h : leastFilledVpu c ks least finish = (some k, start)) :
    (least = some k ∧ start = finish ∧ ∀ j ∈ ks, finish ≤ busyUntil c j) ∨
      start = c.coreCycle ∧
        ∃ before after, ks = before ++ k :: after ∧ LastFound c finish before k after := by
  induction ks generalizing least finish with
  | nil =>
    cases h
    exact Or.inl ⟨rfl, rfl, by simp⟩
  | cons i is ih =>
    have hrest : ∀ j ∈ is, c.vectorPipelines j ≠ [] :=
      fun j hj => hbusy j (List.mem_cons_of_mem i hj)
    rw [leastFilledVpu_cons_busy (hbusy i List.mem_cons_self)] at h
    split_ifs at h with hi
    · right
      rcases ih hrest h with ⟨hik, hstart, hlast⟩ | ⟨hstart, before, after, his, hfound⟩
      · cases hik
        exact ⟨hstart, [], is, rfl, Or.inr ⟨hi, by simp⟩, hlast⟩
      · have hk : busyUntil c k < c.coreCycle := by
          rcases hfound.found with ⟨hk, -⟩ | ⟨hk, -⟩
          · exact hk
          · exact hk
        refine ⟨hstart, i :: before, after, by rw [his, List.cons_append], ?_, hfound.last⟩
        exact Or.inl ⟨hk, i, List.mem_cons_self, hi⟩
    · have hle := Nat.not_lt.mp hi
      rcases ih hrest h with ⟨hleast, hstart, hall⟩ | ⟨hstart, before, after, his, hfound⟩
      · refine Or.inl ⟨hleast, hstart, fun j hj => ?_⟩
        rcases List.mem_cons.mp hj with rfl | hj
        · exact hle
        · exact hall j hj
      · refine Or.inr ⟨hstart, i :: before, after, by rw [his, List.cons_append], ?_,
          hfound.last⟩
        rcases hfound.found with ⟨hk, j, hj, hlt⟩ | ⟨hk, hall⟩
        · exact Or.inl ⟨hk, j, List.mem_cons_of_mem i hj, hlt⟩
        · refine Or.inr ⟨hk, fun j hj => ?_⟩
          rcases List.mem_cons.mp hj with rfl | hj
          · exact hle
          · exact hall j hj

/-- The unit that the loop over all `n` units ends with when all of them are busy. -/
structure Chosen (n : ℕ) (c : NeuPIMSCore) (k : ℕ) : Prop where
  lt : k < n
  found : busyUntil c k < c.coreCycle ∧ (∃ j < k, busyUntil c j < maxCycle) ∨
    busyUntil c k < maxCycle ∧ ∀ j < k, maxCycle ≤ busyUntil c j
  last : ∀ j < n, k < j → c.coreCycle ≤ busyUntil c j

theorem mem_around {n : ℕ} {before after : List ℕ} (h : List.range n = before ++ k :: after) :
    (∀ j, j ∈ before ↔ j < k) ∧ ∀ j, j ∈ after ↔ k < j ∧ j < n := by
  have hmem : ∀ j, j < n ↔ j ∈ before ∨ j = k ∨ j ∈ after := by
    intro j
    rw [← List.mem_range, h]
    simp
  have hsorted := List.pairwise_lt_range (n := n)
  rw [h] at hsorted
  obtain ⟨-, hafter, hbefore⟩ := List.pairwise_append.mp hsorted
  have hlow : ∀ j ∈ before, j < k := fun j hj => hbefore j hj k List.mem_cons_self
  have hhigh : ∀ j ∈ after, k < j := (List.pairwise_cons.mp hafter).1
  have hk : k < n := (hmem k).mpr (Or.inr (Or.inl rfl))
  constructor
  · intro j
    refine ⟨hlow j, fun hlt => ?_⟩
    rcases (hmem j).mp (Nat.lt_trans hlt hk) with hj | hj | hj
    · exact hj
    · omega
    · exact absurd (hhigh j hj) (Nat.lt_asymm hlt)
  · intro j
    refine ⟨fun hj => ⟨hhigh j hj, (hmem j).mpr (Or.inr (Or.inr hj))⟩, ?_⟩
    rintro ⟨hlt, hn⟩
    rcases (hmem j).mp hn with hj | hj | hj
    · exact absurd (hlow j hj) (Nat.lt_asymm hlt)
    · omega
    · exact hj

theorem leastFilledVpu_iff {n : ℕ} (hbusy : ∀ j < n, c.vectorPipelines j ≠ []) :
    leastFilledVpu c (List.range n) none maxCycle = (some k, start) ↔
      Chosen n c k ∧ start = c.coreCycle := by
  have hrange : ∀ j ∈ List.range n, c.vectorPipelines j ≠ [] :=
    fun j hj => hbusy j (List.mem_range.mp hj)
  constructor
  · intro h
    rcases leastFilledVpu_busy hrange h with ⟨hnone, -⟩ | ⟨hstart, before, after, hks, hfound⟩
    · cases hnone
    · obtain ⟨hbefore, hafter⟩ := mem_around hks
      have hk : k < n := by
        rw [← List.mem_range, hks]
        simp
      refine ⟨⟨hk, ?_, fun j hn hlt => hfound.last j ((hafter j).mpr ⟨hlt, hn⟩)⟩, hstart⟩
      rcases hfound.found with ⟨hlt, j, hj, hj'⟩ | ⟨hlt, hall⟩
      · exact Or.inl ⟨hlt, j, (hbefore j).mp hj, hj'⟩
      · exact Or.inr ⟨hlt, fun j hj => hall j ((hbefore j).mpr hj)⟩
  · rintro ⟨h, rfl⟩
    obtain ⟨before, after, hks⟩ := List.append_of_mem (List.mem_range.mpr h.lt)
    obtain ⟨hbefore, hafter⟩ := mem_around hks
    rw [hks] at hrange ⊢
    refine leastFilledVpu_of_lastFound hrange ⟨?_, fun j hj => ?_⟩
    · rcases h.found with ⟨hlt, j, hj, hj'⟩ | ⟨hlt, hall⟩
      · exact Or.inl ⟨hlt, j, (hbefore j).mpr hj, hj'⟩
      · exact Or.inr ⟨hlt, fun j hj => hall j ((hbefore j).mp hj)⟩
    · obtain ⟨hlt, hn⟩ := (hafter j).mp hj
      exact h.last j hn hlt

end Choice

end NewPims.NeuPIMSystolicWS

import NewPims.Lib.Budget
import NewPims.Lib.Transition
import NewPims.Sram

/-! The entries of a scratchpad buffer within a budget: no entry that the budget allows fails the
checks of `reserve`. -/
namespace NewPims.Sram

variable {s t : Sram} {address : AddrType} {bufferId b size count limit used : ℕ}
  {g : Budget AddrType limit}

section Words

variable {config : SimulationConfig} {accum : Bool}

/-- A number that an `int` holds. -/
theorem bmod_word {n : ℕ} (h : n < 2 ^ 31) : (n : ℤ).bmod (2 ^ 32) = n := by
  apply Int.bmod_eq_of_le_mul_two
  · omega
  · omega

/-- A scratchpad of less than 2 GiB. -/
theorem takes_init (h : bytes config accum < 2 ^ 31) (hlimit : limit ≤ bytes config accum / 2) :
    (init config accum).Takes limit := by
  have hsize : (init config accum).size = bytes config accum := by
    have hword := bmod_word h
    dsimp only [init]
    exact hword
  refine ⟨?_, ?_, ?_⟩
  · rw [hsize]
    exact Int.natCast_nonneg _
  · rw [hsize]
    exact Int.ofNat_lt.mpr h
  · rw [hsize]
    exact Int.ofNat_le.mpr hlimit

theorem takes_congr (h : s.Takes limit) (hsize : t.size = s.size) : t.Takes limit := by
  obtain ⟨hnonneg, hlt, hlimit⟩ := h
  exact ⟨hsize ▸ hnonneg, hsize ▸ hlt, hsize ▸ hlimit⟩

theorem Takes.limit_lt (h : s.Takes limit) : limit < 2 ^ 30 := by
  obtain ⟨hnonneg, hlt, hlimit⟩ := h
  rw [Int.tdiv_eq_ediv_of_nonneg hnonneg] at hlimit
  omega

/-- The sum in `size_t` does not wrap around. -/
theorem checkRemain_iff (htakes : s.Takes limit) (hused : s.currentSize b = used)
    (hle : used ≤ limit) (hsize : size < 2 ^ 64 - 2 ^ 30) :
    s.checkRemain size b = true ↔ ((used + size : ℕ) : ℤ) ≤ s.size.tdiv 2 := by
  obtain ⟨hnonneg, hlt, hlimit⟩ := htakes
  rw [Int.tdiv_eq_ediv_of_nonneg hnonneg] at hlimit ⊢
  rw [checkRemain, decide_eq_true_iff, hused, Int.tdiv_eq_ediv_of_nonneg hnonneg]
  omega

/-- Nor does the sum in `int`. -/
theorem currentSize_grow (htakes : s.Takes limit) (hused : s.currentSize b = used)
    (hle : ((used + size : ℕ) : ℤ) ≤ s.size.tdiv 2) :
    (s.grow b size).currentSize b = (used + size : ℕ) := by
  have hhalf := htakes.size_lt
  rw [Int.tdiv_eq_ediv_of_nonneg htakes.size_nonneg] at hle
  simp only [grow, Function.update_self, hused]
  exact bmod_word (by omega)

end Words

/-- The buffer has keys of the budget only, and they take no more than it gives them. -/
def Room (s : Sram) (bufferId : ℕ) (g : Budget AddrType limit) : Prop :=
  ∃ used : ℕ, s.currentSize bufferId = used ∧ g.Within (s.cacheTable bufferId) used

/-- The same keys are allocated, with the same sizes. -/
structure SameRoom (s t : Sram) : Prop where
  capacity : t.size = s.size
  currentSize : t.currentSize = s.currentSize
  allocated : ∀ b a, (t.cacheTable b a).isSome = (s.cacheTable b a).isSome

/-- The key is allocated, in a buffer that has not had it before. -/
structure Reserved (s t : Sram) (address : AddrType) (bufferId size : ℕ) : Prop where
  capacity : t.size = s.size
  currentSize : t.currentSize = (s.grow bufferId size).currentSize
  entry : ∃ e, t.cacheTable = Function.update s.cacheTable bufferId
    (Function.update (s.cacheTable bufferId) address (some e))

theorem sameRoom_refl (s : Sram) : SameRoom s s := ⟨rfl, rfl, fun _ _ => rfl⟩

theorem sameRoom_trans {u : Sram} (h : SameRoom s t) (h' : SameRoom t u) : SameRoom s u where
  capacity := h'.capacity.trans h.capacity
  currentSize := h'.currentSize.trans h.currentSize
  allocated := fun b a => (h'.allocated b a).trans (h.allocated b a)

theorem room_same (h : s.Room b g) (hsame : SameRoom s t) : t.Room b g := by
  obtain ⟨used, hused, hwithin⟩ := h
  refine ⟨used, ?_, Budget.within_congr hwithin (hsame.allocated b)⟩
  rw [hsame.currentSize, hused]

theorem currentSize_le (h : s.Room b g) : s.currentSize b ≤ limit := by
  obtain ⟨used, hused, hwithin⟩ := h
  rw [hused]
  exact Int.ofNat_le.mpr (Budget.within_le hwithin)

theorem none_same (hsame : SameRoom s t) (h : s.cacheTable b address = none) :
    t.cacheTable b address = none := by
  have hnone := hsame.allocated b address
  rw [h] at hnone
  exact Option.isNone_iff_eq_none.mp (Option.isSome_eq_false_iff.mp hnone)

theorem room_flush (s : Sram) (bufferId : ℕ) (g : Budget AddrType limit) :
    (s.flush bufferId).Room bufferId g := by
  refine ⟨0, Function.update_self bufferId _ _, ?_⟩
  simp only [flush, Function.update_self]
  exact Budget.within_empty g

theorem room_flush_ne (hne : b ≠ bufferId) : (s.flush bufferId).Room b g ↔ s.Room b g := by
  simp only [Room, flush, Function.update_of_ne hne]

theorem none_flush (h : s.cacheTable b address = none) :
    (s.flush bufferId).cacheTable b address = none := by
  rw [cacheTable_flush, h, ite_self]

/-- Another entry for a key that has one. -/
theorem sameRoom_setEntry {e : SramEntry} (h : (s.cacheTable bufferId address).isSome) :
    SameRoom s (s.setEntry address bufferId e) := by
  refine ⟨rfl, rfl, ?_⟩
  intro b' a
  rw [cacheTable_setEntry]
  split_ifs with hat
  · rw [hat.1, hat.2, h]
    rfl
  · rfl

theorem sameRoom_fill (h : s.fill address bufferId = .ok t) : SameRoom s t := by
  obtain ⟨e, hentry, -, -, rfl⟩ := fill_ok h
  apply sameRoom_setEntry
  rw [hentry]
  rfl

theorem sameRoom_countUp (h : s.countUp address bufferId = .ok t) : SameRoom s t := by
  obtain ⟨e, hentry, rfl⟩ := countUp_ok h
  apply sameRoom_setEntry
  rw [hentry]
  rfl

theorem checkRemain_room (h : s.Room bufferId g) (htakes : s.Takes limit)
    (hnew : s.cacheTable bufferId address = none) (hallows : g.Allows address size) :
    s.checkRemain size bufferId = true := by
  obtain ⟨used, hused, hwithin⟩ := h
  obtain ⟨hle, -⟩ := Budget.within_update hwithin hnew hallows ⟨false, size, 0⟩
  have hlimit := le_trans (Int.ofNat_le.mpr hle) htakes.limit_le
  have hsmall := htakes.limit_lt
  exact (checkRemain_iff htakes hused (by omega) (by omega)).mpr hlimit

/-- What the budget allows passes the checks. -/
theorem exists_reserve (h : s.Room bufferId g) (htakes : s.Takes limit)
    (hnew : s.cacheTable bufferId address = none) (hallows : g.Allows address size) (count : ℕ) :
    ∃ t, s.reserve address bufferId size count = .ok t ∧ Reserved s t address bufferId size := by
  have halloc : s.checkAllocated address bufferId = false := by
    rw [checkAllocated, hnew]
    rfl
  have hremain := checkRemain_room h htakes hnew hallows
  refine ⟨(s.grow bufferId size).setEntry address bufferId ⟨false, size, count⟩, ?_, rfl, rfl, _, rfl⟩
  simp [reserve, halloc, hremain]

theorem room_reserved (h : s.Room bufferId g) (htakes : s.Takes limit)
    (hnew : s.cacheTable bufferId address = none) (hallows : g.Allows address size)
    (ht : Reserved s t address bufferId size) : t.Room bufferId g := by
  obtain ⟨e, hentry⟩ := ht.entry
  obtain ⟨used, hused, hwithin⟩ := h
  obtain ⟨hle, hnext⟩ := Budget.within_update hwithin hnew hallows e
  refine ⟨used + size, ?_, ?_⟩
  · rw [ht.currentSize]
    exact currentSize_grow htakes hused (le_trans (Int.ofNat_le.mpr hle) htakes.limit_le)
  · rw [hentry, Function.update_self]
    exact hnext

theorem room_reserved_ne (hne : b ≠ bufferId) (ht : Reserved s t address bufferId size) :
    t.Room b g ↔ s.Room b g := by
  obtain ⟨e, hentry⟩ := ht.entry
  simp only [Room, ht.currentSize, hentry, grow, Function.update_of_ne hne]

/-- The other keys stay as they were. -/
theorem cacheTable_reserved {a : AddrType} (ht : Reserved s t address bufferId size)
    (hne : ¬ (a = address ∧ b = bufferId)) : t.cacheTable b a = s.cacheTable b a := by
  obtain ⟨e, hentry⟩ := ht.entry
  rw [hentry]
  by_cases hb : b = bufferId
  · subst hb
    rw [Function.update_self, Function.update_of_ne fun ha => hne ⟨ha, rfl⟩]
  · rw [Function.update_of_ne hb]

section ReserveAll

/-- The entries of a list one after the other, each for one request. -/
def reserveAll (s : Sram) (bufferId : ℕ) (entries : List (AddrType × ℕ)) : Except Fault Sram :=
  entries.foldlM (fun s e => s.reserve e.1 bufferId e.2 1) s

theorem reserve_iff (htakes : s.Takes limit) (hused : s.currentSize bufferId = used)
    (hle : used ≤ limit) (hsize : size < 2 ^ 64 - 2 ^ 30) :
    s.reserve address bufferId size count = .ok t ↔
      s.cacheTable bufferId address = none ∧ ((used + size : ℕ) : ℤ) ≤ s.size.tdiv 2 ∧
        t = (s.grow bufferId size).setEntry address bufferId ⟨false, size, count⟩ := by
  have halloc : s.checkAllocated address bufferId = true ↔ ¬ s.cacheTable bufferId address = none := by
    rw [checkAllocated, Option.isSome_iff_ne_none]
  have hremain := checkRemain_iff htakes hused hle hsize
  unfold reserve
  by_cases hnone : s.cacheTable bufferId address = none
  · rw [if_neg (fun h => halloc.mp h hnone)]
    by_cases hfits : ((used + size : ℕ) : ℤ) ≤ s.size.tdiv 2
    · rw [if_neg (not_not_intro (hremain.mpr hfits)), Except.ok.injEq, eq_comm]
      exact ⟨fun h => ⟨hnone, hfits, h⟩, fun h => h.2.2⟩
    · rw [if_pos fun h => hfits (hremain.mp h)]
      exact iff_of_false (by simp) fun h => hfits h.2.1
  · rw [if_pos (halloc.mpr hnone)]
    exact iff_of_false (by simp) fun h => hnone h.1

/-- Entries can all be reserved if they are new and distinct, and fit together. -/
theorem exists_reserveAll {entries : List (AddrType × ℕ)} (htakes : s.Takes limit)
    (hused : s.currentSize bufferId = used) (hnodup : (entries.map Prod.fst).Nodup)
    (hnew : ∀ e ∈ entries, s.cacheTable bufferId e.1 = none)
    (hsum : used + (entries.map Prod.snd).sum ≤ limit) :
    ∃ t, s.reserveAll bufferId entries = .ok t := by
  induction entries generalizing s used with
  | nil => exact ⟨s, rfl⟩
  | cons e entries ih =>
    rw [List.map_cons, List.nodup_cons] at hnodup
    rw [List.map_cons, List.sum_cons] at hsum
    obtain ⟨hnone, hrest⟩ := List.forall_mem_cons.mp hnew
    have hsmall := htakes.limit_lt
    have hle : ((used + e.2 : ℕ) : ℤ) ≤ s.size.tdiv 2 :=
      le_trans (Int.ofNat_le.mpr (by omega)) htakes.limit_le
    let next := (s.grow bufferId e.2).setEntry e.1 bufferId ⟨false, e.2, 1⟩
    have hreserve : s.reserve e.1 bufferId e.2 1 = .ok next :=
      (reserve_iff htakes hused (by omega) (by omega)).mpr ⟨hnone, hle, rfl⟩
    have htable : ∀ x ∈ entries, next.cacheTable bufferId x.1 = none := by
      intro x hx
      have hne : x.1 ≠ e.1 := fun heq => hnodup.1 (List.mem_map.mpr ⟨x, hx, heq⟩)
      rw [cacheTable_setEntry, if_neg fun h => hne h.2]
      exact hrest x hx
    have hnext : next.Takes limit := takes_congr htakes rfl
    obtain ⟨t, ht⟩ := ih hnext (currentSize_grow htakes hused hle) hnodup.2 htable (by omega)
    refine ⟨t, ?_⟩
    rw [reserveAll, List.foldlM_cons]
    exact Transition.bind_ok.mpr ⟨next, hreserve, ht⟩

/-- On a buffer that has been flushed. -/
theorem exists_reserveAll_flush {entries : List (AddrType × ℕ)} (htakes : s.Takes limit)
    (hnodup : (entries.map Prod.fst).Nodup) (hsum : (entries.map Prod.snd).sum ≤ limit) :
    ∃ t, (s.flush bufferId).reserveAll bufferId entries = .ok t := by
  have hflush : (s.flush bufferId).Takes limit := takes_congr htakes rfl
  have hzero : (s.flush bufferId).currentSize bufferId = (0 : ℕ) := Function.update_self bufferId _ _
  refine exists_reserveAll hflush hzero hnodup ?_ (by omega)
  intro e _
  rw [cacheTable_flush, if_pos rfl]

end ReserveAll

end NewPims.Sram

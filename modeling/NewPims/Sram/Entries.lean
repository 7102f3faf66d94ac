import NewPims.Lib.Transition
import NewPims.Lib.Budget
import NewPims.Sram.Room

/-! Runs of the scratchpad: the size that a buffer counts is the size of its entries, and an entry
waits for the requests announced since its reservation that have not been answered. -/
namespace NewPims.Sram

open Transition

/-- The operations that change a buffer. -/
inductive Call where
  | reserve (address : AddrType) (bufferId allocatedSize count : ℕ)
  | countUp (address : AddrType) (bufferId : ℕ)
  | fill (address : AddrType) (bufferId : ℕ)
  | flush (bufferId : ℕ)
  deriving DecidableEq

def call (s : Sram) : Call → Except Fault Sram
  | .reserve address bufferId allocatedSize count =>
    s.reserve address bufferId allocatedSize count
  | .countUp address bufferId => s.countUp address bufferId
  | .fill address bufferId => s.fill address bufferId
  | .flush bufferId => .ok (s.flush bufferId)

/-- A reservation announces a request at least, and its size does not wrap around with that of a
buffer. -/
def Call.Counted : Call → Prop
  | .reserve _ _ allocatedSize count => 1 ≤ count ∧ allocatedSize < 2 ^ 64 - 2 ^ 30
  | _ => True

/-- The calls after which an entry is not the one it was. -/
def Call.Ends (address : AddrType) (bufferId : ℕ) : Call → Prop
  | .reserve a b _ _ => a = address ∧ b = bufferId
  | .flush b => b = bufferId
  | _ => False

/-- Since the reservation of the entry, as many requests have been answered as its `count` and the
calls of `count_up` on it are more than what it waits for. -/
def Waits (past : List Call) (address : AddrType) (bufferId : ℕ) (e : SramEntry) : Prop :=
  ∃ before count since, past = before ++ .reserve address bufferId e.size count :: since ∧
    (∀ c ∈ since, ¬ c.Ends address bufferId) ∧
    e.remainReqCount + since.count (.fill address bufferId) =
      count + since.count (.countUp address bufferId)

/-- The requests announced for an entry fit in `size_t`, at every call. -/
def Counts (calls : List Call) : Prop :=
  ∀ before a b size count since later,
    calls = before ++ .reserve a b size count :: since ++ later → (∀ c ∈ since, ¬ c.Ends a b) →
      count + since.count (.countUp a b) < 2 ^ 64

/-- The requests that the calls announce at an address. -/
def announced (calls : List Call) (address : AddrType) (bufferId : ℕ) : ℕ :=
  (calls.map fun
    | .reserve a b _ count => if a = address ∧ b = bufferId then count else 0
    | .countUp a b => if a = address ∧ b = bufferId then 1 else 0
    | _ => 0).sum

/-- A buffer after the calls `past`: its counted size is that of its entries, and at most half the
scratchpad; an entry is valid exactly if it waits for nothing; and it waits for the requests
announced since its reservation, without the answered ones. -/
structure Accounted (past : List Call) (s : Sram) (b : ℕ) : Prop where
  counted : ∃ keys : Finset AddrType, (∀ a, a ∈ keys ↔ (s.cacheTable b a).isSome) ∧
    s.currentSize b = (∑ a ∈ keys, ((s.cacheTable b a).map SramEntry.size).getD 0 : ℕ)
  room : s.currentSize b ≤ s.size.tdiv 2
  valid : ∀ a e, s.cacheTable b a = some e → (e.valid = true ↔ e.remainReqCount = 0)
  waits : ∀ a e, s.cacheTable b a = some e → Waits past a b e

/-- What holds of a buffer after the calls `past`, where half the scratchpad is `half`. -/
structure Entries (half : ℕ) (past : List Call) (s : Sram) (b : ℕ) : Prop where
  takes : s.Takes half
  half_eq : s.size.tdiv 2 = half
  weighs : ∃ used : ℕ, s.currentSize b = used ∧ used ≤ half ∧
    Weighs SramEntry.size (s.cacheTable b) used
  valid : ∀ a e, s.cacheTable b a = some e → (e.valid = true ↔ e.remainReqCount = 0)
  waits : ∀ a e, s.cacheTable b a = some e → Waits past a b e

variable {config : SimulationConfig} {accum : Bool} {s t : Sram} {c : Call} {past calls : List Call}
  {address a : AddrType} {bufferId b size count half : ℕ} {e e' : SramEntry}

theorem waits_new : Waits (past ++ [.reserve a b e.size e.remainReqCount]) a b e :=
  ⟨past, e.remainReqCount, [], rfl, fun _ hc => absurd hc List.not_mem_nil, rfl⟩

/-- A call that announces or answers requests of the entry, as many as its count changes by. -/
theorem waits_append (h : Waits past a b e) (hends : ¬ c.Ends a b) (hsize : e'.size = e.size)
    (hcount : e'.remainReqCount + [c].count (.fill a b) =
      e.remainReqCount + [c].count (.countUp a b)) : Waits (past ++ [c]) a b e' := by
  obtain ⟨before, count, since, rfl, hsince, heq⟩ := h
  refine ⟨before, count, since ++ [c], by rw [hsize, List.append_assoc, List.cons_append], ?_, ?_⟩
  · intro d hd
    rcases List.mem_append.mp hd with hd | hd
    · exact hsince d hd
    · rw [List.mem_singleton.mp hd]
      exact hends
  · rw [List.count_append, List.count_append]
    omega

/-- A call about another entry. -/
theorem waits_other (h : Waits past a b e) (hends : ¬ c.Ends a b) (hfill : c ≠ .fill a b)
    (hup : c ≠ .countUp a b) : Waits (past ++ [c]) a b e := by
  apply waits_append h hends rfl
  rw [List.count_singleton, List.count_singleton, if_neg (by simpa using hfill),
    if_neg (by simpa using hup)]

theorem announced_append (calls calls' : List Call) (a : AddrType) (b : ℕ) :
    announced (calls ++ calls') a b = announced calls a b + announced calls' a b := by
  simp [announced]

theorem count_le_announced (calls : List Call) (a : AddrType) (b : ℕ) :
    calls.count (.countUp a b) ≤ announced calls a b := by
  induction calls with
  | nil => exact Nat.le_refl _
  | cons c calls ih =>
    rw [List.count_cons]
    by_cases hup : c = .countUp a b
    · subst hup
      simp only [announced, List.map_cons, List.sum_cons, and_self, if_true, beq_self_eq_true] at ih ⊢
      omega
    · rw [if_neg (by simpa using hup)]
      simp only [announced, List.map_cons, List.sum_cons] at ih ⊢
      omega

theorem counts_of_announced (h : ∀ a b, announced calls a b < 2 ^ 64) : Counts calls := by
  rintro before a b size count since later rfl -
  have hlt := h a b
  have hups := count_le_announced since a b
  have hreserve : announced (.reserve a b size count :: since) a b = count + announced since a b := by
    simp [announced]
  rw [announced_append, announced_append, hreserve] at hlt
  omega

theorem entries_init (hsize : 0 ≤ (init config accum).size) (b : ℕ) :
    Entries ((init config accum).size.tdiv 2).toNat [] (init config accum) b := by
  have hhalf : (0 : ℤ) ≤ (init config accum).size.tdiv 2 := Int.tdiv_nonneg hsize (by decide)
  have hword : (init config accum).size < 2 ^ 31 := by
    have hlt := Int.bmod_lt (x := bytes config accum) (m := 2 ^ 32) (by decide)
    dsimp only [init]
    omega
  refine ⟨⟨hsize, hword, ?_⟩, ?_, ⟨0, rfl, Nat.zero_le _, weighs_empty⟩, nofun, nofun⟩
  · rw [Int.toNat_of_nonneg hhalf]
  · rw [Int.toNat_of_nonneg hhalf]

/-- The entries of the other buffer. -/
theorem entries_other (h : Entries half past s b) (hcap : t.size = s.size)
    (hsize : t.currentSize b = s.currentSize b) (htable : t.cacheTable b = s.cacheTable b)
    (hends : ∀ a, ¬ c.Ends a b) (hfill : ∀ a, c ≠ .fill a b) (hup : ∀ a, c ≠ .countUp a b) :
    Entries half (past ++ [c]) t b := by
  refine ⟨takes_congr h.takes hcap, hcap ▸ h.half_eq, ?_, ?_, ?_⟩
  · rw [hsize, htable]
    exact h.weighs
  · rw [htable]
    exact h.valid
  · intro a e he
    rw [htable] at he
    exact waits_other (h.waits a e he) (hends a) (hfill a) (hup a)

/-- The buffer in which one entry changes, and keeps its size. -/
theorem entries_setEntry (h : Entries half past s b) (he : s.cacheTable b address = some e)
    (hsize : e'.size = e.size) (hvalid : e'.valid = true ↔ e'.remainReqCount = 0)
    (hcount : e'.remainReqCount + [c].count (.fill address b) =
      e.remainReqCount + [c].count (.countUp address b))
    (hends : ∀ a, ¬ c.Ends a b) (hother : ∀ a ≠ address, c ≠ .fill a b ∧ c ≠ .countUp a b) :
    Entries half (past ++ [c]) (s.setEntry address b e') b := by
  have htable : (s.setEntry address b e').cacheTable b =
      Function.update (s.cacheTable b) address (some e') := Function.update_self b _ _
  obtain ⟨used, hused, hle, hweighs⟩ := h.weighs
  refine ⟨takes_congr h.takes rfl, h.half_eq, ⟨used, hused, hle, ?_⟩, ?_, ?_⟩
  · rw [htable]
    exact weighs_replace hweighs he hsize
  · intro a x hx
    rw [htable] at hx
    by_cases ha : a = address
    · subst ha
      rw [Function.update_self] at hx
      cases hx
      exact hvalid
    · rw [Function.update_of_ne ha] at hx
      exact h.valid a x hx
  · intro a x hx
    rw [htable] at hx
    by_cases ha : a = address
    · subst ha
      rw [Function.update_self] at hx
      cases hx
      exact waits_append (h.waits a e he) (hends a) hsize hcount
    · rw [Function.update_of_ne ha] at hx
      exact waits_other (h.waits a x hx) (hends a) (hother a ha).1 (hother a ha).2

theorem entries_reserve (h : Entries half past s b) (hother : Entries half past s bufferId)
    (hpos : 1 ≤ count) (hsmall : size < 2 ^ 64 - 2 ^ 30)
    (ht : s.reserve address bufferId size count = .ok t) :
    Entries half (past ++ [.reserve address bufferId size count]) t b := by
  obtain ⟨used, hused, hle, hweighs⟩ := hother.weighs
  obtain ⟨hnone, hroom, rfl⟩ := (reserve_iff h.takes hused hle hsmall).mp ht
  by_cases hb : b = bufferId
  · subst hb
    let new : SramEntry := ⟨false, size, count⟩
    have htable : ((s.grow b size).setEntry address b new).cacheTable b =
        Function.update (s.cacheTable b) address (some new) := Function.update_self b _ _
    have hsize := currentSize_grow h.takes hused hroom
    have hfits : used + size ≤ half := Int.ofNat_le.mp (h.half_eq ▸ hroom)
    refine ⟨takes_congr h.takes rfl, h.half_eq, ⟨used + size, hsize, hfits, ?_⟩, ?_, ?_⟩
    · rw [htable]
      exact weighs_insert hweighs hnone
    · intro a x hx
      rw [htable] at hx
      by_cases ha : a = address
      · subst ha
        rw [Function.update_self] at hx
        cases hx
        exact iff_of_false Bool.false_ne_true (Nat.ne_of_gt hpos)
      · rw [Function.update_of_ne ha] at hx
        exact h.valid a x hx
    · intro a x hx
      rw [htable] at hx
      by_cases ha : a = address
      · subst ha
        rw [Function.update_self] at hx
        cases hx
        exact waits_new (e := ⟨false, size, count⟩)
      · rw [Function.update_of_ne ha] at hx
        refine waits_other (h.waits a x hx) ?_ (by simp) (by simp)
        exact fun hends => ha hends.1.symm
  · refine entries_other h rfl (Function.update_of_ne hb _ _) (Function.update_of_ne hb _ _) ?_
      (by simp) (by simp)
    exact fun a hends => hb hends.2.symm

theorem entries_fill (h : Entries half past s b) (ht : s.fill address bufferId = .ok t) :
    Entries half (past ++ [.fill address bufferId]) t b := by
  obtain ⟨e, he, hpos, -, rfl⟩ := fill_ok ht
  by_cases hb : b = bufferId
  · subst hb
    refine entries_setEntry h he rfl ?_ ?_ (fun a => id) ?_
    · simp [countDown]
    · simp [countDown]
      omega
    · intro a ha
      simp [ha.symm]
  · refine entries_other h rfl rfl (Function.update_of_ne hb _ _) (fun a => id) ?_ (by simp)
    intro a heq
    injection heq with _ hbuf
    exact hb hbuf.symm

theorem entries_countUp (h : Entries half past s b) (ht : s.countUp address bufferId = .ok t) :
    Entries half (past ++ [.countUp address bufferId]) t b := by
  obtain ⟨e, he, rfl⟩ := countUp_ok ht
  by_cases hb : b = bufferId
  · subst hb
    refine entries_setEntry h he rfl ?_ ?_ (fun a => id) ?_
    · simp
    · simp
    · intro a ha
      simp [ha.symm]
  · refine entries_other h rfl rfl (Function.update_of_ne hb _ _) (fun a => id) (by simp) ?_
    intro a heq
    injection heq with _ hbuf
    exact hb hbuf.symm

theorem entries_flush (h : Entries half past s b) :
    Entries half (past ++ [.flush bufferId]) (s.flush bufferId) b := by
  by_cases hb : b = bufferId
  · subst hb
    have htable : (s.flush b).cacheTable b = fun _ => none := Function.update_self b _ _
    have hsize : (s.flush b).currentSize b = 0 := Function.update_self b _ _
    refine ⟨takes_congr h.takes rfl, h.half_eq, ⟨0, hsize, Nat.zero_le _, ?_⟩, ?_, ?_⟩
    · rw [htable]
      exact weighs_empty
    · rw [htable]
      exact nofun
    · rw [htable]
      exact nofun
  · refine entries_other h rfl (Function.update_of_ne hb _ _) (Function.update_of_ne hb _ _) ?_
      (by simp) (by simp)
    exact fun a hends => hb hends.symm

/-- A call preserves what holds of all buffers. -/
theorem entries_call (h : ∀ b, Entries half past s b) (hc : c.Counted) (ht : s.call c = .ok t)
    (b : ℕ) : Entries half (past ++ [c]) t b := by
  cases c with
  | reserve address bufferId size count =>
    exact entries_reserve (h b) (h bufferId) hc.1 hc.2 ht
  | countUp address bufferId => exact entries_countUp (h b) ht
  | fill address bufferId => exact entries_fill (h b) ht
  | flush bufferId =>
    cases ht
    exact entries_flush (h b)

theorem entries_run (hsize : 0 ≤ (init config accum).size) (hcounts : ∀ c ∈ calls, c.Counted)
    (hrun : run call (init config accum) calls = .ok s) :
    ∀ b, Entries ((init config accum).size.tdiv 2).toNat calls s b := by
  have hinv := run_history
    (fun past s => ∀ b, Entries ((init config accum).size.tdiv 2).toNat past s b)
    (fun _ c => c.Counted) (fun past s c t h hc ht => entries_call h hc ht) (entries_init hsize)
    (allCalls_of_forall fun c hc _ => hcounts c hc) hrun
  rwa [List.nil_append] at hinv

/-- An entry that is announced one more request after it has become valid. -/
def raisedCalls : List Call :=
  [.reserve 8 0 64 1, .reserve 8 1 32 2, .fill 8 0, .countUp 8 0, .fill 8 1]

/-- The second size takes the sum back to 0. -/
def wrappedCalls : List Call := [.reserve 1 0 1 1, .reserve 2 0 (2 ^ 64 - 1) 1]

end NewPims.Sram

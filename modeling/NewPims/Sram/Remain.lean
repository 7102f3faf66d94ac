import NewPims.Sram

/-! What the operations of a scratchpad do to the requests that its entries wait for: a request
that an entry waits for can be answered. -/
namespace NewPims.Sram

variable {s t : Sram} {address a : AddrType} {bufferId b size count : ℕ} {e : SramEntry}

theorem remain_setEntry : (s.setEntry address bufferId e).remain a b =
    if b = bufferId ∧ a = address then e.remainReqCount else s.remain a b := by
  rw [remain, cacheTable_setEntry]
  by_cases hsame : b = bufferId ∧ a = address
  · rw [if_pos hsame, if_pos hsame]
  · rw [if_neg hsame, if_neg hsame, remain]

theorem remain_some (h : s.cacheTable b a = some e) : s.remain a b = e.remainReqCount := by
  rw [remain, h]

theorem remain_none (h : s.cacheTable b a = none) : s.remain a b = 0 := by
  rw [remain, h]

theorem remain_congr (h : s.cacheTable = t.cacheTable) : s.remain a b = t.remain a b := by
  rw [remain, remain, h]

theorem remain_flush :
    (s.flush bufferId).remain a b = if b = bufferId then 0 else s.remain a b := by
  rw [remain, cacheTable_flush]
  by_cases hb : b = bufferId
  · rw [if_pos hb, if_pos hb]
  · rw [if_neg hb, if_neg hb, remain]

/-- A new entry waits for the requests announced with it. -/
theorem remain_reserve (h : s.reserve address bufferId size count = .ok t) :
    t.remain a b = s.remain a b + if b = bufferId ∧ a = address then count else 0 := by
  obtain ⟨hnone, u, hu, rfl⟩ := reserve_ok h
  rw [remain_setEntry]
  by_cases hsame : b = bufferId ∧ a = address
  · rw [if_pos hsame, if_pos hsame, hsame.1, hsame.2, remain_none hnone, Nat.zero_add]
  · rw [if_neg hsame, if_neg hsame, Nat.add_zero]
    exact remain_congr hu

theorem remain_countUp (h : s.countUp address bufferId = .ok t) :
    t.remain a b = s.remain a b + if b = bufferId ∧ a = address then 1 else 0 := by
  obtain ⟨e, he, rfl⟩ := countUp_ok h
  rw [remain_setEntry]
  by_cases hsame : b = bufferId ∧ a = address
  · rw [if_pos hsame, if_pos hsame, hsame.1, hsame.2, remain_some he]
  · rw [if_neg hsame, if_neg hsame, Nat.add_zero]

theorem remain_fill (h : s.fill address bufferId = .ok t) :
    t.remain a b + (if b = bufferId ∧ a = address then 1 else 0) = s.remain a b := by
  obtain ⟨e, he, hpos, -, rfl⟩ := fill_ok h
  rw [remain_setEntry]
  by_cases hsame : b = bufferId ∧ a = address
  · rw [if_pos hsame, if_pos hsame, hsame.1, hsame.2, remain_some he]
    exact Nat.sub_add_cancel hpos
  · rw [if_neg hsame, if_neg hsame, Nat.add_zero]

theorem settled_init (config : SimulationConfig) (accum : Bool) : (init config accum).Settled :=
  fun _ _ _ h => by cases h

theorem settled_congr (h : s.Settled) (heq : t.cacheTable = s.cacheTable) : t.Settled := by
  intro a b e he
  rw [heq] at he
  exact h a b e he

theorem settled_setEntry (h : s.Settled) (he : e.valid → e.remainReqCount = 0) :
    (s.setEntry address bufferId e).Settled := by
  intro a b e' he'
  rw [cacheTable_setEntry] at he'
  by_cases hsame : b = bufferId ∧ a = address
  · rw [if_pos hsame] at he'
    cases he'
    exact he
  · rw [if_neg hsame] at he'
    exact h a b e' he'

theorem settled_flush (h : s.Settled) : (s.flush bufferId).Settled := by
  intro a b e he
  rw [cacheTable_flush] at he
  by_cases hb : b = bufferId
  · rw [if_pos hb] at he
    cases he
  · rw [if_neg hb] at he
    exact h a b e he

theorem settled_reserve (h : s.Settled) (hok : s.reserve address bufferId size count = .ok t) :
    t.Settled := by
  obtain ⟨-, u, hu, rfl⟩ := reserve_ok hok
  apply settled_setEntry (settled_congr h hu)
  exact fun hvalid => absurd hvalid Bool.false_ne_true

theorem settled_countUp (h : s.Settled) (hok : s.countUp address bufferId = .ok t) :
    t.Settled := by
  obtain ⟨e, -, rfl⟩ := countUp_ok hok
  apply settled_setEntry h
  exact fun hvalid => absurd hvalid Bool.false_ne_true

theorem settled_fill (h : s.Settled) (hok : s.fill address bufferId = .ok t) : t.Settled := by
  obtain ⟨e, -, -, -, rfl⟩ := fill_ok hok
  apply settled_setEntry h
  exact fun hvalid => by simpa [countDown] using hvalid

/-- Where an entry waits for a request, neither assertion of `fill` fails. -/
theorem exists_fill (h : s.Settled) (hremain : 0 < s.remain address bufferId) :
    ∃ t, s.fill address bufferId = .ok t := by
  unfold fill
  cases he : s.cacheTable bufferId address with
  | none =>
    rw [remain_none he] at hremain
    omega
  | some e =>
    rw [remain_some he] at hremain
    have hvalid : e.valid = false := by
      cases hv : e.valid with
      | false => rfl
      | true =>
        have := h address bufferId e he hv
        omega
    simp [hremain, hvalid]

end NewPims.Sram

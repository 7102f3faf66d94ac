import Mathlib.Algebra.Ring.Int.Defs
import Mathlib.Logic.Function.Basic
import Mathlib.Tactic.SplitIfs
import NewPims.Common

/-! `Sram`: a scratchpad of two buffers, each a table of entries that are valid once all
their requests are in. Its sizes are of type `int`, those of the entries of type `size_t`. -/
namespace NewPims

/-- The time stamp of an entry, which nothing reads, is left out. -/
structure SramEntry where
  valid : Bool
  size : ℕ
  remainReqCount : ℕ
  deriving DecidableEq, Repr

structure Sram where
  size : ℤ
  currentSize : ℕ → ℤ
  cacheTable : ℕ → AddrType → Option SramEntry

namespace Sram

/-- The bytes that are configured. -/
def bytes (config : SimulationConfig) (accum : Bool) : ℕ :=
  (if accum then config.accumSpadSize else config.spadSize) * 1024

def init (config : SimulationConfig) (accum : Bool) : Sram where
  size := (bytes config accum : ℤ).bmod (2 ^ 32)
  currentSize _ := 0
  cacheTable _ _ := none

def checkHit (s : Sram) (address : AddrType) (bufferId : ℕ) : Bool :=
  match s.cacheTable bufferId address with
  | some e => e.valid
  | none => false

/-- Both sides are converted to `size_t`. -/
def checkRemain (s : Sram) (size : ℕ) (bufferId : ℕ) : Bool :=
  (s.currentSize bufferId + size) % 2 ^ 64 ≤ s.size.tdiv 2 % 2 ^ 64

def checkAllocated (s : Sram) (address : AddrType) (bufferId : ℕ) : Bool :=
  (s.cacheTable bufferId address).isSome

def flush (s : Sram) (bufferId : ℕ) : Sram :=
  { s with
    currentSize := Function.update s.currentSize bufferId 0
    cacheTable := Function.update s.cacheTable bufferId fun _ => none }

def setEntry (s : Sram) (address : AddrType) (bufferId : ℕ) (e : SramEntry) : Sram :=
  { s with
    cacheTable := Function.update s.cacheTable bufferId
      (Function.update (s.cacheTable bufferId) address (some e)) }

/-- The sum is converted back to `int`. -/
def grow (s : Sram) (bufferId size : ℕ) : Sram :=
  { s with
    currentSize :=
      Function.update s.currentSize bufferId ((s.currentSize bufferId + size).bmod (2 ^ 32)) }

/-- An address that is allocated already fails an assertion in the accumulator and in the
scratchpad alike. -/
def reserve (s : Sram) (address : AddrType) (bufferId allocatedSize count : ℕ) :
    Except Fault Sram :=
  if s.checkAllocated address bufferId then .error .allocation
  else if ¬ s.checkRemain allocatedSize bufferId then .error .allocation
  else
    .ok ((s.grow bufferId allocatedSize).setEntry address bufferId
      { valid := false, size := allocatedSize, remainReqCount := count })

/-- The entry after one of its requests has been answered. -/
def countDown (e : SramEntry) : SramEntry :=
  { e with remainReqCount := e.remainReqCount - 1, valid := e.remainReqCount - 1 == 0 }

def fill (s : Sram) (address : AddrType) (bufferId : ℕ) : Except Fault Sram :=
  match s.cacheTable bufferId address with
  | none => .error .fill
  | some e =>
    if ¬ (e.remainReqCount > 0 ∧ e.valid = false) then .error .fill
    else .ok (s.setEntry address bufferId (countDown e))

def countUp (s : Sram) (address : AddrType) (bufferId : ℕ) : Except Fault Sram :=
  match s.cacheTable bufferId address with
  | none => .error .allocation
  | some e =>
    .ok (s.setEntry address bufferId
      { e with remainReqCount := e.remainReqCount + 1, valid := false })

/-- The requests an entry waits for; none where no entry is allocated. -/
def remain (s : Sram) (address : AddrType) (bufferId : ℕ) : ℕ :=
  match s.cacheTable bufferId address with
  | some e => e.remainReqCount
  | none => 0

/-- The half of a scratchpad that a buffer may take is `limit` at least. -/
structure Takes (s : Sram) (limit : ℕ) : Prop where
  size_nonneg : 0 ≤ s.size
  size_lt : s.size < 2 ^ 31
  limit_le : (limit : ℤ) ≤ s.size.tdiv 2

/-- An entry that is valid waits for nothing. -/
def Settled (s : Sram) : Prop :=
  ∀ address bufferId e, s.cacheTable bufferId address = some e → e.valid → e.remainReqCount = 0

variable {s t : Sram} {address : AddrType} {bufferId : ℕ}

theorem cacheTable_setEntry (e : SramEntry) (a : AddrType) (b : ℕ) :
    (s.setEntry address bufferId e).cacheTable b a =
      if b = bufferId ∧ a = address then some e else s.cacheTable b a := by
  by_cases hb : b = bufferId
  · subst hb
    by_cases ha : a = address
    · subst ha
      simp [setEntry]
    · simp [setEntry, ha]
  · simp [setEntry, hb]

theorem cacheTable_flush (a : AddrType) (b : ℕ) :
    (s.flush bufferId).cacheTable b a = if b = bufferId then none else s.cacheTable b a := by
  by_cases hb : b = bufferId
  · subst hb
    simp [flush]
  · simp [flush, hb]

/-- What a reservation that succeeds does to the entries: one new entry that waits for `count`
requests. -/
theorem reserve_ok {size count : ℕ} (h : s.reserve address bufferId size count = .ok t) :
    s.cacheTable bufferId address = none ∧
      ∃ u : Sram, u.cacheTable = s.cacheTable ∧
        t = u.setEntry address bufferId ⟨false, size, count⟩ := by
  unfold reserve at h
  split_ifs at h with halloc hroom
  cases h
  refine ⟨by simpa [checkAllocated] using halloc, s.grow bufferId size, rfl, rfl⟩

theorem fill_ok (h : s.fill address bufferId = .ok t) :
    ∃ e, s.cacheTable bufferId address = some e ∧ 0 < e.remainReqCount ∧ e.valid = false ∧
      t = s.setEntry address bufferId (countDown e) := by
  unfold fill at h
  cases hentry : s.cacheTable bufferId address with
  | none =>
    rw [hentry] at h
    cases h
  | some e =>
    rw [hentry] at h
    by_cases hcount : e.remainReqCount > 0 ∧ e.valid = false
    · simp only [hcount, and_self, not_true_eq_false, if_false] at h
      cases h
      exact ⟨e, rfl, hcount.1, hcount.2, rfl⟩
    · simp only [hcount, not_false_eq_true, if_true] at h
      cases h

theorem countUp_ok (h : s.countUp address bufferId = .ok t) :
    ∃ e, s.cacheTable bufferId address = some e ∧
      t = s.setEntry address bufferId ⟨false, e.size, e.remainReqCount + 1⟩ := by
  unfold countUp at h
  cases hentry : s.cacheTable bufferId address with
  | none =>
    rw [hentry] at h
    cases h
  | some e =>
    rw [hentry] at h
    cases h
    exact ⟨e, rfl, rfl⟩

end Sram

end NewPims

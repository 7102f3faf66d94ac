import Mathlib.Algebra.GroupWithZero.Basic
import NewPims.KVCacheAlloc
import NewPims.Lib.Paging
import NewPims.Operations.Kernels

/-! The rows of a key or value tensor of the PIM while it grows token by token. -/
namespace NewPims

open Paging Transition

namespace PIMTensor

/-- The tokens that one allocation of rows is for. -/
def period (t : PIMTensor) : ℕ := if t.kvType = .KEY then t.bankPerCh else t.numElePerRow

/-- The tensor holds the rows that the constructor would allocate for its length. -/
def RowsExact (t : PIMTensor) : Prop :=
  t.rows.length = t.numRowsPerAlloc * (t.seqLen ⌈/⌉ t.period)

/-- `add_token`, with the free rows that the allocator has at that time. -/
def grow (t : PIMTensor) (a : KVCacheAlloc) : Except Fault PIMTensor := (t.addToken a).map Prod.fst

variable {config : SimulationConfig} {ch : ℕ} {dims : List ℕ} {kvType : PIMTensorKVType}
  {t t' : PIMTensor} {a a' : KVCacheAlloc} {allocs : List KVCacheAlloc} {n : ℕ}

theorem getAllocatedSeqLen_ok (h : t.getAllocatedSeqLen = .ok n) :
    0 < t.period ∧ n = (t.seqLen ⌈/⌉ t.period) * t.period := by
  obtain ⟨blocks, hblocks, h⟩ := bind_ok.mp h
  change (if blocks * t.period < 2 ^ 32 then Except.ok (blocks * t.period)
    else .error Fault.conversion) = .ok n at h
  split at h
  · cases h
    obtain ⟨hunit, rfl⟩ := divUp_eq hblocks
    exact ⟨Nat.pos_of_ne_zero hunit, rfl⟩
  · cases h

/-- No token is beyond the length that is computed from the number of tokens. -/
theorem addToken_ok (h : t.addToken a = .ok (t', a')) :
    a' = a ∧ t' = t.lengthen := by
  obtain ⟨allocated, hallocated, h⟩ := bind_ok.mp h
  obtain ⟨hpos, rfl⟩ := getAllocatedSeqLen_ok hallocated
  split at h
  · cases h
    exact ⟨rfl, rfl⟩
  · next hbeyond =>
    refine absurd ?_ hbeyond
    rw [Nat.mul_comm]
    exact le_mul_ceilDiv hpos

theorem run_grow (hword : t.seqLen < 2 ^ 32) (h : run grow t allocs = .ok t') :
    t'.rows = t.rows ∧ t'.numRowsPerAlloc = t.numRowsPerAlloc ∧ t'.period = t.period ∧
      t'.seqLen = (t.seqLen + allocs.length) % 2 ^ 32 := by
  induction allocs generalizing t with
  | nil =>
    cases h
    exact ⟨rfl, rfl, rfl, (Nat.mod_eq_of_lt hword).symm⟩
  | cons a allocs ih =>
    obtain ⟨mid, hmid, h⟩ := run_cons_ok.mp h
    obtain ⟨⟨grown, a'⟩, hgrown, rfl⟩ := map_ok hmid
    obtain ⟨-, rfl⟩ := addToken_ok hgrown
    obtain ⟨hrows, hper, hperiod, hlen⟩ := ih (Nat.mod_lt _ (by decide)) h
    refine ⟨hrows, hper, hperiod, ?_⟩
    rw [hlen, List.length_cons]
    dsimp only [lengthen]
    omega

/-- What the constructor allocates. -/
theorem new_exact (h : PIMTensor.new config ch dims kvType a = .ok (t, a')) :
    t.rows.length = t.numRowsPerAlloc * (t.seqLen ⌈/⌉ t.period) % 2 ^ 32 ∧
      (t.numRowsPerAlloc = 0 ↔ config.modelNEmbd = 0) := by
  obtain ⟨seqLen, -, h⟩ := bind_ok.mp h
  obtain ⟨page, -, h⟩ := bind_ok.mp h
  obtain ⟨perAlloc, hper, h⟩ := bind_ok.mp h
  obtain ⟨iter, hiter, h⟩ := bind_ok.mp h
  obtain ⟨⟨rows, c⟩, hrows, h⟩ := bind_ok.mp h
  cases h
  obtain ⟨hunit, rfl⟩ := divUp_eq hper
  obtain ⟨-, rfl⟩ := divUp_eq hiter
  refine ⟨?_, ceilDiv_eq_zero (Nat.pos_of_ne_zero hunit)⟩
  rw [period, KVCacheAlloc.allocateRows_length hrows, Nat.mul_comm]
  rfl

/-- After any number of tokens a tensor holds the rows for its length if and only if its allocations
have no rows, or no new block of tokens has begun since it was constructed. The number of rows that
the constructor allocates is computed modulo 2^32, and so is the length. -/
theorem grown_exact_iff (hnew : PIMTensor.new config ch dims kvType a = .ok (t, a'))
    (hword : t.seqLen < 2 ^ 32) (hrun : run grow t allocs = .ok t') :
    t'.RowsExact ↔ config.modelNEmbd = 0 ∨
      (t.numRowsPerAlloc * (t.seqLen ⌈/⌉ t.period) < 2 ^ 32 ∧
        (t.seqLen + allocs.length) % 2 ^ 32 ⌈/⌉ t.period = t.seqLen ⌈/⌉ t.period) ∨
      (2 ^ 32 ≤ t.numRowsPerAlloc * (t.seqLen ⌈/⌉ t.period) ∧
        t.numRowsPerAlloc * ((t.seqLen + allocs.length) % 2 ^ 32 ⌈/⌉ t.period) =
          t.numRowsPerAlloc * (t.seqLen ⌈/⌉ t.period) % 2 ^ 32) := by
  obtain ⟨hexact, hnone⟩ := new_exact hnew
  obtain ⟨hrows, hper, hperiod, hlen⟩ := run_grow hword hrun
  rw [RowsExact, hrows, hper, hperiod, hlen, hexact, ← hnone, eq_comm]
  rcases Nat.lt_or_ge (t.numRowsPerAlloc * (t.seqLen ⌈/⌉ t.period)) (2 ^ 32) with hlt | hge
  · rw [Nat.mod_eq_of_lt hlt, mul_eq_mul_left_iff, and_iff_right hlt, or_comm,
      or_iff_left (b := 2 ^ 32 ≤ _ ∧ _) fun hand => Nat.not_le_of_lt hlt hand.1]
  · rw [and_iff_right hge, or_iff_right (a := _ < 2 ^ 32 ∧ _) fun hand =>
      Nat.not_le_of_lt hand.1 hge]
    refine (or_iff_right fun hzero => ?_).symm
    rw [hzero, Nat.zero_mul] at hge
    exact absurd hge (by decide)

def freeRows : KVCacheAlloc := ⟨fun _ => [0, 1, 2, 3]⟩

/-- One token more than the 15 of a key for 16 banks needs no other row. -/
theorem grown_exact_iff_sample : ∃ t b t',
    new sampleConfig 0 [2, 64, 15] .KEY freeRows = .ok (t, b) ∧ run grow t [b] = .ok t' ∧
      t'.RowsExact := by
  obtain ⟨⟨t, b⟩, hnew⟩ := exists_ok (x := new sampleConfig 0 [2, 64, 15] .KEY freeRows) rfl
  obtain ⟨t', hrun⟩ : ∃ t', run grow t [b] = .ok t' := by
    cases hnew
    exact ⟨_, rfl⟩
  refine ⟨t, b, t', hnew, hrun, (grown_exact_iff hnew ?_ hrun).mpr (Or.inr (Or.inl ?_))⟩ <;>
    cases hnew <;> decide

/-- The seventeenth token begins a new block, for which no row is allocated. -/
theorem key_short_of_rows : ∃ t b t',
    new sampleConfig 0 [2, 64, 16] .KEY freeRows = .ok (t, b) ∧ run grow t [b] = .ok t' ∧
      t'.seqLen = 17 ∧ t'.rows.length = 1 ∧ t'.numRowsPerAlloc * (t'.seqLen ⌈/⌉ t'.period) = 2 ∧
      ¬ t'.RowsExact := by
  refine ⟨_, _, _, rfl, rfl, rfl, rfl, rfl, ?_⟩
  rw [RowsExact]
  decide

end PIMTensor

end NewPims

import NewPims.GlobalCounts.Steps

/-! The busy cycles of each kind are those of the closed intervals in which its operations are under
way, over every sequence of calls in the order of their cycles. -/
namespace NewPims.GlobalCounts

open Timed Transition GlobalCountsCtx

variable {overflowChecks : Bool} {op : MemOp} {r r' : Recorded} {c : Call} {cycle : ℕ}

namespace Recorded

/-- The call does something, comes no earlier than those before it, and does not overflow the count
of the operations under way. -/
def Admissible (overflowChecks : Bool) (r : Recorded) (c : Call) : Prop :=
  1 ≤ c.amount ∧ (∀ entry ∈ r.trace, entry.1 ≤ c.cycle.toNat) ∧
  match c with
  | .addLoads n _ => overflowChecks = true ∨ r.ctx.currentCounts .load + n.toNat < 2 ^ 64
  | .addStores n _ => overflowChecks = true ∨ r.ctx.currentCounts .store + n.toNat < 2 ^ 64
  | _ => True

def meter (r : Recorded) (op : MemOp) : Meter := Timed.meter (Active op) r.trace

/-- The status and the times of a kind are those of its meter. -/
structure Tracks (r : Recorded) (cycle : ℕ) (op : MemOp) : Prop where
  consistent : Consistent r.ctx cycle op
  since_eq : (r.meter op).since = (r.ctx.currentStatus op).busySince
  busy_eq : r.ctx.busyCycles op = (r.meter op).total

/-- The latest state of the trace is the current one. -/
structure Current (r : Recorded) : Prop where
  ordered : Ordered r.trace
  last : ∃ cycle older, r.trace = (cycle, r.ctx.currentCounts) :: older ∧ ∀ op, r.Tracks cycle op

theorem apply_follows (hcurrent : ∀ op, Consistent r.ctx cycle op)
    (hle : cycle ≤ c.cycle.toNat) (hc : Admissible overflowChecks r c)
    {ctx : GlobalCountsCtx} (h : c.apply overflowChecks r.ctx = .ok ctx) (op : MemOp) :
    Follows r.ctx ctx c.cycle.toNat op := by
  have hcons : ∀ op, Consistent r.ctx c.cycle.toNat op := fun op =>
    ⟨(hcurrent op).busy_iff, (hcurrent op).clock, Nat.le_trans (hcurrent op).cycle_le hle⟩
  have hload : Pair .load .store := Or.inl ⟨rfl, rfl⟩
  have hstore : Pair .store .load := Or.inr ⟨rfl, rfl⟩
  obtain ⟨hamount, -, hfit⟩ := hc
  cases c with
  | addLoads loads at' => exact addOp_follows hload hcons at'.toNat_lt hamount hfit h rfl op
  | addStores stores at' => exact addOp_follows hstore hcons at'.toNat_lt hamount hfit h rfl op
  | reduceLoads loads at' =>
    obtain ⟨⟨reduced, ctx'⟩, hmade, rfl⟩ := map_ok h
    exact reduceOp_follows hload hcons at'.toNat_lt hamount hmade rfl op
  | reduceStores stores at' =>
    obtain ⟨⟨reduced, ctx'⟩, hmade, rfl⟩ := map_ok h
    exact reduceOp_follows hstore hcons at'.toNat_lt hamount hmade rfl op

/-- A kind that follows the call keeps to its meter. -/
theorem tracks_step {ctx : GlobalCountsCtx} {cycle' : ℕ} (ht : r.Tracks cycle op)
    (hle : cycle ≤ cycle') (h : Follows r.ctx ctx cycle' op) :
    Tracks ⟨ctx, (cycle', ctx.currentCounts) :: r.trace⟩ cycle' op := by
  obtain ⟨⟨hiff, hclock, hcycle⟩, hsince, hbusy⟩ := ht
  have hmeter : meter ⟨ctx, (cycle', ctx.currentCounts) :: r.trace⟩ op =
    (r.meter op).observe cycle' (Active op ctx.currentCounts) := rfl
  cases h with
  | same hstatus hidle hbusy' hactive =>
    rw [observe_same (by rw [hsince, hiff, hactive])] at hmeter
    refine ⟨⟨?_, ?_, ?_⟩, ?_, ?_⟩
    · rw [hstatus, hactive]
      exact hiff
    · rw [hidle, hbusy', hstatus]
      exact hclock
    · rw [hstatus]
      exact Nat.le_trans hcycle hle
    · rw [hmeter, hstatus]
      exact hsince
    · rw [hmeter, hbusy']
      exact hbusy
  | opens start hold hstatus hidle hbusy' hactive =>
    rw [hold] at hsince hclock hcycle
    simp only [MemStatus.cycle] at hclock hcycle
    rw [observe_open hsince hactive] at hmeter
    refine ⟨⟨?_, ?_, ?_⟩, ?_, ?_⟩
    · rw [hstatus]
      exact ⟨fun _ => hactive, fun _ => rfl⟩
    · rw [hidle, hbusy', hstatus, MemStatus.cycle]
      omega
    · rw [hstatus]
      exact Nat.le_refl cycle'
    · rw [hmeter, hstatus]
      rfl
    · rw [hmeter, hbusy']
      exact hbusy
  | closes start hold hstatus hidle hbusy' hactive =>
    rw [hold] at hsince hclock hcycle
    simp only [MemStatus.cycle] at hclock hcycle
    rw [observe_close hsince hactive] at hmeter
    refine ⟨⟨?_, ?_, ?_⟩, ?_, ?_⟩
    · rw [hstatus]
      exact ⟨fun h => absurd h Bool.false_ne_true, fun h => absurd h hactive⟩
    · rw [hidle, hbusy', hstatus, MemStatus.cycle]
      omega
    · rw [hstatus]
      exact Nat.le_refl cycle'
    · rw [hmeter, hstatus]
      rfl
    · rw [hmeter, hbusy', hbusy, Nat.add_comm]
      rfl

theorem current_initial : Current {} := by
  refine ⟨List.pairwise_singleton _ _, 0, [], rfl, ?_⟩
  intro op
  cases op with
  | load => exact ⟨⟨by decide, rfl, Nat.le_refl 0⟩, rfl, rfl⟩
  | store => exact ⟨⟨by decide, rfl, Nat.le_refl 0⟩, rfl, rfl⟩
  | compute => exact ⟨⟨by decide, rfl, Nat.le_refl 0⟩, rfl, rfl⟩
  | loadOrStore => exact ⟨⟨by decide, rfl, Nat.le_refl 0⟩, rfl, rfl⟩

theorem current_step (hr : r.Current) (hc : Admissible overflowChecks r c)
    (h : r.step overflowChecks c = .ok r') : r'.Current := by
  obtain ⟨ctx, hctx, h⟩ := bind_ok.mp h
  cases h
  obtain ⟨hordered, cycle, older, htrace, htracks⟩ := hr
  have hle : cycle ≤ c.cycle.toNat := hc.2.1 _ (by rw [htrace]; exact List.mem_cons_self)
  refine ⟨List.pairwise_cons.mpr ⟨hc.2.1, hordered⟩, _, _, rfl, ?_⟩
  intro op
  exact tracks_step (htracks op) hle
    (apply_follows (fun op => (htracks op).consistent) hle hc hctx op)

theorem current_run {calls : List Call}
    (hcalls : AllCalls (step overflowChecks) (Admissible overflowChecks) {} calls)
    (h : run (step overflowChecks) {} calls = .ok r) : r.Current :=
  run_invariant_of Current (Admissible overflowChecks) (fun _ _ _ hr hc h => current_step hr hc h)
    current_initial hcalls h

theorem busy_card (hr : r.Current) (op : MemOp) :
    r.ctx.busyCycles op = (r.meter op).covered.card := by
  obtain ⟨hordered, cycle, older, htrace, htracks⟩ := hr
  rw [(htracks op).busy_eq, meter, htrace]
  rw [htrace] at hordered
  exact (meter_measured hordered).card_eq.symm

theorem covered_subset (hr : r.Current) :
    (r.meter .loadOrStore).covered ⊆ (r.meter .load).covered ∪ (r.meter .store).covered := by
  obtain ⟨hordered, cycle, older, htrace, -⟩ := hr
  rw [htrace] at hordered
  simp only [meter, htrace]
  exact covered_or_subset hordered

theorem covered_eq (hr : r.Current) (hload : r.ctx.currentCounts .load = 0)
    (hstore : r.ctx.currentCounts .store = 0) :
    (r.meter .loadOrStore).covered = (r.meter .load).covered ∪ (r.meter .store).covered := by
  obtain ⟨hordered, cycle, older, htrace, -⟩ := hr
  rw [htrace] at hordered
  simp only [meter, htrace]
  exact covered_or hordered (Nat.not_lt.mpr (Nat.le_of_eq hload))
    (Nat.not_lt.mpr (Nat.le_of_eq hstore))

end Recorded

/-- What the idle and busy times of loads, of stores and of both together are. -/
structure Accounts (r : Recorded) : Prop where
  clock : ∀ op, op ≠ .compute →
    r.ctx.idleCycles op + r.ctx.busyCycles op = (r.ctx.currentStatus op).cycle
  busy : ∀ op, op ≠ .compute → r.ctx.busyCycles op = (r.meter op).total
  union : r.ctx.busyCycles .loadOrStore = (r.meter .loadOrStore).covered.card
  union_subset :
    (r.meter .loadOrStore).covered ⊆ (r.meter .load).covered ∪ (r.meter .store).covered
  le_sum : r.ctx.busyCycles .loadOrStore ≤ r.ctx.busyCycles .load + r.ctx.busyCycles .store
  idle : r.ctx.currentCounts .load = 0 → r.ctx.currentCounts .store = 0 →
    (r.meter .loadOrStore).covered = (r.meter .load).covered ∪ (r.meter .store).covered ∧
    r.ctx.busyCycles .load ≤ r.ctx.busyCycles .loadOrStore ∧
    r.ctx.busyCycles .store ≤ r.ctx.busyCycles .loadOrStore

theorem accounts_of_current (hr : r.Current) : Accounts r := by
  have hcard := Recorded.busy_card hr
  refine ⟨?_, ?_, hcard _, Recorded.covered_subset hr, ?_, ?_⟩
  · obtain ⟨-, cycle, older, -, htracks⟩ := hr
    exact fun op _ => (htracks op).consistent.clock
  · obtain ⟨-, cycle, older, -, htracks⟩ := hr
    exact fun op _ => (htracks op).busy_eq
  · rw [hcard, hcard, hcard]
    exact Nat.le_trans (Finset.card_le_card (Recorded.covered_subset hr))
      (Finset.card_union_le _ _)
  · intro hload hstore
    have heq := Recorded.covered_eq hr hload hstore
    refine ⟨heq, ?_, ?_⟩
    · rw [hcard, hcard, heq]
      exact Finset.card_le_card Finset.subset_union_left
    · rw [hcard, hcard, heq]
      exact Finset.card_le_card Finset.subset_union_right

/-- A call to reduce that returns false changes nothing. -/
def RefusalKeeps (overflowChecks : Bool) : Prop :=
  ∀ (amount cycle : UInt64) (ctx ctx' : GlobalCountsCtx),
    (ctx.reduceLoads overflowChecks amount cycle = .ok (false, ctx') → ctx' = ctx) ∧
    (ctx.reduceStores overflowChecks amount cycle = .ok (false, ctx') → ctx' = ctx)

theorem reduceOp_false {op other : MemOp} {amount cycle : UInt64} {ctx ctx' : GlobalCountsCtx}
    (h : ctx.reduceOp overflowChecks op other amount cycle = .ok (false, ctx')) : ctx' = ctx := by
  unfold GlobalCountsCtx.reduceOp at h
  split at h
  · cases h
    rfl
  · obtain ⟨last, -, heq⟩ := map_ok h
    cases heq

/-- The counts of `neupimrust` are kept right by every sequence of calls in the order of their
cycles, unless a count of operations under way overflows. -/
theorem accounts_run (overflowChecks : Bool) (calls : List Call) (r : Recorded)
    (hcalls : AllCalls (Recorded.step overflowChecks) (Recorded.Admissible overflowChecks) {} calls)
    (h : run (Recorded.step overflowChecks) {} calls = .ok r) :
    Accounts r ∧ RefusalKeeps overflowChecks :=
  ⟨accounts_of_current (Recorded.current_run hcalls h),
    fun _ _ _ _ => ⟨reduceOp_false, reduceOp_false⟩⟩

/-- A store begins while loads are under way, and ends after them. -/
def sampleCalls : List Call :=
  [.addLoads 2 1, .addStores 1 3, .reduceLoads 2 5, .reduceStores 1 9, .reduceStores 1 9]

theorem accounts_run_sample : ∃ r, run (Recorded.step true) {} sampleCalls = .ok r ∧
    r.ctx.busyCycles .loadOrStore = 8 ∧ Accounts r := by
  have hcalls : AllCalls (Recorded.step true) (Recorded.Admissible true) {} sampleCalls := by
    refine allCalls_cons ⟨by decide, by decide, Or.inl rfl⟩ rfl ?_
    refine allCalls_cons ⟨by decide, by decide, Or.inl rfl⟩ rfl ?_
    refine allCalls_cons ⟨by decide, by decide, trivial⟩ rfl ?_
    refine allCalls_cons ⟨by decide, by decide, trivial⟩ rfl ?_
    exact allCalls_cons ⟨by decide, by decide, trivial⟩ rfl trivial
  exact ⟨_, rfl, by decide, (accounts_run true sampleCalls _ hcalls rfl).1⟩

/-- Without overflow checks the count of loads comes back to zero while their status stays busy. -/
theorem loads_overflow : ∃ r, run (Recorded.step false) {}
      [.addLoads 0xFFFFFFFFFFFFFFFF 0, .addLoads 1 1, .addLoads 5 3, .reduceLoads 5 4] = .ok r ∧
    ¬ Accounts r := by
  refine ⟨_, rfl, ?_⟩
  intro h
  have hbusy := h.busy .load (by decide)
  revert hbusy
  decide

end NewPims.GlobalCounts

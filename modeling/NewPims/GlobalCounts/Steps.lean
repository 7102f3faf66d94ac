import NewPims.GlobalCounts

/-! What each call does to the busy and idle times of every kind. -/
namespace NewPims.GlobalCounts

open Timed Transition

/-- Operations of the kind are under way. -/
def Active : MemOp → (MemOp → ℕ) → Prop
  | .load, counts => 0 < counts .load
  | .store, counts => 0 < counts .store
  | .compute, _ => False
  | .loadOrStore, counts => 0 < counts .load ∨ 0 < counts .store

instance (op : MemOp) : DecidablePred (Active op) := fun counts => by
  cases op <;> unfold Active <;> infer_instance

namespace MemStatus

/-- The cycle recorded in the status. -/
def cycle : MemStatus → ℕ
  | idle c | busy c => c

def busySince : MemStatus → Option ℕ
  | idle _ => none
  | busy c => some c

end MemStatus

variable {overflowChecks : Bool} {ctx ctx' : GlobalCountsCtx} {op other : MemOp} {r r' : Recorded}
  {start cycle x y z : ℕ}

theorem addU64_cases (h : addU64 overflowChecks x y = .ok z) :
    z = x + y ∧ x + y < 2 ^ 64 ∨
      overflowChecks = false ∧ 2 ^ 64 ≤ x + y ∧ z = (x + y) % 2 ^ 64 := by
  unfold addU64 at h
  split at h
  · next hlt =>
    cases h
    exact Or.inl ⟨rfl, hlt⟩
  · next hge =>
    split at h
    · cases h
    · next hchecks =>
      cases h
      exact Or.inr ⟨Bool.not_eq_true _ ▸ hchecks, Nat.not_lt.mp hge, rfl⟩

theorem addU64_ok (h : addU64 overflowChecks x y = .ok z)
    (hfit : overflowChecks = true ∨ x + y < 2 ^ 64) : z = x + y := by
  rcases addU64_cases h with ⟨hz, -⟩ | ⟨hchecks, hge, -⟩
  · exact hz
  · rcases hfit with htrue | hlt
    · rw [htrue] at hchecks
      cases hchecks
    · exact absurd hlt (Nat.not_lt.mpr hge)

theorem subU64_of_le (h : y ≤ x) : subU64 overflowChecks x y = .ok (x - y) := if_pos h

namespace GlobalCountsCtx

/-- What the kinds are compared with the trace by. -/
structure Clocked (ctx ctx' : GlobalCountsCtx) (status : MemOp → MemStatus) (idle busy : MemOp → ℕ) :
    Prop where
  currentCounts : ctx'.currentCounts = ctx.currentCounts
  currentStatus : ctx'.currentStatus = status
  idleCycles : ctx'.idleCycles = idle
  busyCycles : ctx'.busyCycles = busy

theorem startOp_ok (h : startOp overflowChecks op start cycle ctx = .ok ctx') (hle : start ≤ cycle)
    (hfit : ctx.idleCycles op + (cycle - start) < 2 ^ 64) :
    Clocked ctx ctx' (Function.update ctx.currentStatus op (.busy cycle))
      (Function.update ctx.idleCycles op (ctx.idleCycles op + (cycle - start))) ctx.busyCycles := by
  rw [startOp, subU64_of_le hle] at h
  obtain ⟨duration, hduration, h⟩ := bind_ok.mp h
  cases hduration
  obtain ⟨mid, hmid, h⟩ := bind_ok.mp h
  cases h
  unfold recordIdle at hmid
  split at hmid
  · next hzero =>
    cases hmid
    rw [hzero, Nat.add_zero, Function.update_eq_self]
    exact ⟨rfl, rfl, rfl, rfl⟩
  · obtain ⟨histo, -, hmid⟩ := bind_ok.mp hmid
    obtain ⟨idle, hidle, hmid⟩ := bind_ok.mp hmid
    cases hmid
    rw [← addU64_ok hidle (Or.inr hfit)]
    exact ⟨rfl, rfl, rfl, rfl⟩

theorem endOp_ok (h : endOp overflowChecks op start cycle ctx = .ok ctx') (hle : start ≤ cycle)
    (hfit : ctx.busyCycles op + (cycle - start) < 2 ^ 64) :
    Clocked ctx ctx' (Function.update ctx.currentStatus op (.idle cycle)) ctx.idleCycles
      (Function.update ctx.busyCycles op (ctx.busyCycles op + (cycle - start))) := by
  rw [endOp, subU64_of_le hle] at h
  obtain ⟨duration, hduration, h⟩ := bind_ok.mp h
  cases hduration
  obtain ⟨mid, hmid, h⟩ := bind_ok.mp h
  cases h
  obtain ⟨histo, -, hmid⟩ := bind_ok.mp hmid
  obtain ⟨busy, hbusy, hmid⟩ := bind_ok.mp hmid
  cases hmid
  rw [← addU64_ok hbusy (Or.inr hfit)]
  exact ⟨rfl, rfl, rfl, rfl⟩

/-- The status of a kind says whether its operations are under way, and since when; before that
its idle and busy times add up. -/
structure Consistent (ctx : GlobalCountsCtx) (cycle : ℕ) (op : MemOp) : Prop where
  busy_iff : (ctx.currentStatus op).busySince.isSome ↔ Active op ctx.currentCounts
  clock : ctx.idleCycles op + ctx.busyCycles op = (ctx.currentStatus op).cycle
  cycle_le : (ctx.currentStatus op).cycle ≤ cycle

/-- What a call in `cycle` does to the times of one kind. -/
inductive Follows (ctx ctx' : GlobalCountsCtx) (cycle : ℕ) (op : MemOp) : Prop
  | same (hstatus : ctx'.currentStatus op = ctx.currentStatus op)
      (hidle : ctx'.idleCycles op = ctx.idleCycles op)
      (hbusy : ctx'.busyCycles op = ctx.busyCycles op)
      (hactive : Active op ctx'.currentCounts ↔ Active op ctx.currentCounts)
  | opens (start : ℕ) (hold : ctx.currentStatus op = .idle start)
      (hstatus : ctx'.currentStatus op = .busy cycle)
      (hidle : ctx'.idleCycles op = ctx.idleCycles op + (cycle - start))
      (hbusy : ctx'.busyCycles op = ctx.busyCycles op)
      (hactive : Active op ctx'.currentCounts)
  | closes (start : ℕ) (hold : ctx.currentStatus op = .busy start)
      (hstatus : ctx'.currentStatus op = .idle cycle)
      (hidle : ctx'.idleCycles op = ctx.idleCycles op)
      (hbusy : ctx'.busyCycles op = ctx.busyCycles op + (cycle - start))
      (hactive : ¬ Active op ctx'.currentCounts)

/-- A kind and the other one. -/
def Pair (op other : MemOp) : Prop := op = .load ∧ other = .store ∨ op = .store ∧ other = .load

theorem active_iff (hpair : Pair op other) (counts : MemOp → ℕ) :
    Active op counts ↔ 0 < counts op := by
  rcases hpair with ⟨rfl, -⟩ | ⟨rfl, -⟩ <;> exact Iff.rfl

theorem Pair.symm (hpair : Pair op other) : Pair other op :=
  hpair.elim (fun h => Or.inr ⟨h.2, h.1⟩) fun h => Or.inl ⟨h.2, h.1⟩

theorem active_loadOrStore_iff (hpair : Pair op other) (counts : MemOp → ℕ) :
    Active .loadOrStore counts ↔ 0 < counts op ∨ 0 < counts other := by
  rcases hpair with ⟨rfl, rfl⟩ | ⟨rfl, rfl⟩
  · exact Iff.rfl
  · exact or_comm

theorem active_congr {op' : MemOp} {counts counts' : MemOp → ℕ} (hne : op' ≠ .loadOrStore)
    (h : counts' op' = counts op') : Active op' counts' ↔ Active op' counts := by
  cases op' with
  | load => rw [Active, Active, h]
  | store => rw [Active, Active, h]
  | compute => exact Iff.rfl
  | loadOrStore => exact absurd rfl hne

theorem Pair.ne (hpair : Pair op other) : op ≠ .loadOrStore ∧ other ≠ .loadOrStore ∧ other ≠ op := by
  rcases hpair with ⟨rfl, rfl⟩ | ⟨rfl, rfl⟩ <;> decide

/-- The kind that a call is about, both kinds together, and the rest. -/
theorem follows_all (hop : Follows ctx ctx' cycle op)
    (hboth : Follows ctx ctx' cycle .loadOrStore)
    (hrest : ∀ op', op' ≠ .loadOrStore → op' ≠ op →
      ctx'.currentCounts op' = ctx.currentCounts op' ∧
      ctx'.currentStatus op' = ctx.currentStatus op' ∧
      ctx'.idleCycles op' = ctx.idleCycles op' ∧ ctx'.busyCycles op' = ctx.busyCycles op')
    (op' : MemOp) : Follows ctx ctx' cycle op' := by
  by_cases hne : op' = .loadOrStore
  · rw [hne]
    exact hboth
  · by_cases hne' : op' = op
    · rw [hne']
      exact hop
    · obtain ⟨hcounts, hstatus, hidle, hbusy⟩ := hrest op' hne hne'
      exact .same hstatus hidle hbusy (active_congr hne hcounts)

theorem Consistent.idle (hc : Consistent ctx cycle op)
    (hstatus : ctx.currentStatus op = .idle start) :
    start ≤ cycle ∧ ctx.idleCycles op + (cycle - start) ≤ cycle ∧ ¬ Active op ctx.currentCounts := by
  obtain ⟨hiff, hclock, hle⟩ := hc
  rw [hstatus] at hiff hclock hle
  simp only [MemStatus.cycle] at hclock hle
  refine ⟨hle, by omega, fun hactive => ?_⟩
  exact Bool.false_ne_true (hiff.mpr hactive)

theorem Consistent.busy (hc : Consistent ctx cycle op)
    (hstatus : ctx.currentStatus op = .busy start) :
    start ≤ cycle ∧ ctx.busyCycles op + (cycle - start) ≤ cycle ∧ Active op ctx.currentCounts := by
  obtain ⟨hiff, hclock, hle⟩ := hc
  rw [hstatus] at hiff hclock hle
  simp only [MemStatus.cycle] at hclock hle
  exact ⟨hle, by omega, hiff.mp rfl⟩

/-- The counts have changed, and nothing else that the times depend on. -/
structure Counted (ctx mid : GlobalCountsCtx) (op : MemOp) (count : ℕ) : Prop where
  currentCounts : mid.currentCounts = Function.update ctx.currentCounts op count
  currentStatus : mid.currentStatus = ctx.currentStatus
  idleCycles : mid.idleCycles = ctx.idleCycles
  busyCycles : mid.busyCycles = ctx.busyCycles

theorem counted (ctx : GlobalCountsCtx) (op : MemOp) (count : ℕ) (all : MemOp → ℕ) : Counted ctx
    { ctx with currentCounts := Function.update ctx.currentCounts op count, allCounts := all }
    op count :=
  ⟨rfl, rfl, rfl, rfl⟩

section Step

variable {mid : GlobalCountsCtx} {count : ℕ} (hpair : Pair op other)
  (hc : ∀ op', Consistent ctx cycle op') (hcycle : cycle < 2 ^ 64)
  (hmid : Counted ctx mid op count)

include hpair hmid

/-- As many operations as before are under way, or other ones, but not none or the first. -/
theorem counted_follows (hactive : 0 < count ↔ 0 < ctx.currentCounts op) (op' : MemOp) :
    Follows ctx mid cycle op' := by
  obtain ⟨hcounts, hstatus, hidle, hbusy⟩ := hmid
  have hother : mid.currentCounts other = ctx.currentCounts other := by
    rw [hcounts, Function.update_of_ne hpair.ne.2.2]
  have hop : 0 < mid.currentCounts op ↔ 0 < ctx.currentCounts op := by
    rw [hcounts, Function.update_self]
    exact hactive
  refine .same (by rw [hstatus]) (by rw [hidle]) (by rw [hbusy]) ?_
  by_cases hlos : op' = .loadOrStore
  · rw [hlos, active_loadOrStore_iff hpair, active_loadOrStore_iff hpair, hop, hother]
  · by_cases heq : op' = op
    · rw [heq, active_iff hpair, active_iff hpair, hop]
    · exact active_congr hlos (by rw [hcounts, Function.update_of_ne heq])

include hc hcycle

theorem startBusy_follows (hcount : 0 < count) (hnone : ctx.currentCounts op = 0)
    (h : startBusy overflowChecks op cycle mid = .ok ctx') (op' : MemOp) :
    Follows ctx ctx' cycle op' := by
  obtain ⟨hcounts, hstatus, hidle, hbusy⟩ := hmid
  obtain ⟨hlos, -, -⟩ := hpair.ne
  cases hold : ctx.currentStatus op with
  | busy start =>
    have hactive := (hc op).busy hold |>.2.2
    rw [active_iff hpair, hnone] at hactive
    exact absurd hactive (Nat.lt_irrefl 0)
  | idle start =>
    obtain ⟨hle, hfit, -⟩ := (hc op).idle hold
    unfold startBusy at h
    rw [hstatus, hold] at h
    obtain ⟨first, hfirst, h⟩ := bind_ok.mp h
    obtain ⟨hcounts₁, hstatus₁, hidle₁, hbusy₁⟩ :=
      startOp_ok hfirst hle (by rw [hidle]; omega)
    rw [hcounts] at hcounts₁
    rw [hstatus] at hstatus₁
    rw [hidle] at hidle₁
    rw [hbusy] at hbusy₁
    rw [hstatus₁, Function.update_of_ne hlos.symm] at h
    have hactive : Active .loadOrStore first.currentCounts := by
      rw [active_loadOrStore_iff hpair, hcounts₁, Function.update_self]
      exact Or.inl hcount
    have hactive' : Active op first.currentCounts := by
      rw [active_iff hpair, hcounts₁, Function.update_self]
      exact hcount
    cases hold' : ctx.currentStatus .loadOrStore with
    | busy start' =>
      rw [hold'] at h
      cases h
      apply follows_all
      · exact .opens start hold (by rw [hstatus₁, Function.update_self])
          (by rw [hidle₁, Function.update_self]) (by rw [hbusy₁]) hactive'
      · exact .same (by rw [hstatus₁, Function.update_of_ne hlos.symm])
          (by rw [hidle₁, Function.update_of_ne hlos.symm]) (by rw [hbusy₁])
          ⟨fun _ => ((hc .loadOrStore).busy hold').2.2, fun _ => hactive⟩
      · intro op' _ hne
        rw [hcounts₁, hstatus₁, hidle₁, hbusy₁]
        simp only [Function.update_of_ne hne, and_self]
    | idle start' =>
      obtain ⟨hle', hfit', -⟩ := (hc .loadOrStore).idle hold'
      rw [hold'] at h
      obtain ⟨hcounts₂, hstatus₂, hidle₂, hbusy₂⟩ :=
        startOp_ok h hle' (by rw [hidle₁, Function.update_of_ne hlos.symm]; omega)
      rw [hidle₁, Function.update_of_ne hlos.symm] at hidle₂
      rw [← hcounts₂] at hactive hactive'
      apply follows_all
      · exact .opens start hold
          (by rw [hstatus₂, hstatus₁, Function.update_of_ne hlos, Function.update_self])
          (by rw [hidle₂, Function.update_of_ne hlos, Function.update_self])
          (by rw [hbusy₂, hbusy₁]) hactive'
      · exact .opens start' hold' (by rw [hstatus₂, Function.update_self])
          (by rw [hidle₂, Function.update_self]) (by rw [hbusy₂, hbusy₁]) hactive
      · intro op' hne hne'
        rw [hcounts₂, hcounts₁, hstatus₂, hstatus₁, hidle₂, hbusy₂, hbusy₁]
        simp only [Function.update_of_ne hne, Function.update_of_ne hne', and_self]

theorem endBusy_follows (hsome : 0 < ctx.currentCounts op) (hcount : count = 0)
    (h : endBusy overflowChecks op other cycle mid = .ok ctx') (op' : MemOp) :
    Follows ctx ctx' cycle op' := by
  obtain ⟨hcounts, hstatus, hidle, hbusy⟩ := hmid
  obtain ⟨hlos, hlos', hother⟩ := hpair.ne
  have hcountsOther : mid.currentCounts other = ctx.currentCounts other := by
    rw [hcounts, Function.update_of_ne hother]
  cases hold : ctx.currentStatus op with
  | idle start =>
    have hactive := (hc op).idle hold |>.2.2
    rw [active_iff hpair] at hactive
    exact absurd hsome hactive
  | busy start =>
    obtain ⟨hle, hfit, -⟩ := (hc op).busy hold
    unfold endBusy at h
    rw [hstatus, hold] at h
    obtain ⟨first, hfirst, h⟩ := bind_ok.mp h
    obtain ⟨hcounts₁, hstatus₁, hidle₁, hbusy₁⟩ :=
      endOp_ok hfirst hle (by rw [hbusy]; omega)
    rw [hcounts] at hcounts₁
    rw [hstatus] at hstatus₁
    rw [hidle] at hidle₁
    rw [hbusy] at hbusy₁
    rw [hstatus₁, Function.update_of_ne hlos.symm, Function.update_of_ne hother] at h
    have hnot : ¬ Active op first.currentCounts := by
      rw [active_iff hpair, hcounts₁, Function.update_self, hcount]
      exact Nat.lt_irrefl 0
    -- only the other kind can keep both busy
    have hboth : Active .loadOrStore first.currentCounts ↔ Active other ctx.currentCounts := by
      rw [active_loadOrStore_iff hpair, active_iff hpair.symm, hcounts₁, Function.update_self,
        hcount, Function.update_of_ne hother]
      exact or_iff_right (Nat.lt_irrefl 0)
    have hbefore : Active .loadOrStore ctx.currentCounts :=
      (active_loadOrStore_iff hpair _).mpr (Or.inl hsome)
    cases hold' : ctx.currentStatus .loadOrStore with
    | idle start' => exact absurd hbefore ((hc .loadOrStore).idle hold').2.2
    | busy start' =>
      cases holdOther : ctx.currentStatus other with
      | busy start'' =>
        rw [hold', holdOther] at h
        cases h
        apply follows_all
        · exact .closes start hold (by rw [hstatus₁, Function.update_self]) (by rw [hidle₁])
            (by rw [hbusy₁, Function.update_self]) hnot
        · exact .same (by rw [hstatus₁, Function.update_of_ne hlos.symm]) (by rw [hidle₁])
            (by rw [hbusy₁, Function.update_of_ne hlos.symm])
            ⟨fun _ => hbefore, fun _ => hboth.mpr ((hc other).busy holdOther).2.2⟩
        · intro op' _ hne
          rw [hcounts₁, hstatus₁, hidle₁, hbusy₁]
          simp only [Function.update_of_ne hne, and_self]
      | idle start'' =>
        obtain ⟨hle', hfit', -⟩ := (hc .loadOrStore).busy hold'
        rw [hold', holdOther] at h
        obtain ⟨hcounts₂, hstatus₂, hidle₂, hbusy₂⟩ :=
          endOp_ok h hle' (by rw [hbusy₁, Function.update_of_ne hlos.symm]; omega)
        rw [hbusy₁, Function.update_of_ne hlos.symm] at hbusy₂
        rw [← hcounts₂] at hnot hboth
        apply follows_all
        · exact .closes start hold
            (by rw [hstatus₂, hstatus₁, Function.update_of_ne hlos, Function.update_self])
            (by rw [hidle₂, hidle₁])
            (by rw [hbusy₂, Function.update_of_ne hlos, Function.update_self]) hnot
        · exact .closes start' hold' (by rw [hstatus₂, Function.update_self])
            (by rw [hidle₂, hidle₁]) (by rw [hbusy₂, Function.update_self])
            fun hactive => ((hc other).idle holdOther).2.2 (hboth.mp hactive)
        · intro op' hne hne'
          rw [hcounts₂, hcounts₁, hstatus₂, hstatus₁, hidle₂, hidle₁, hbusy₂]
          simp only [Function.update_of_ne hne, Function.update_of_ne hne', and_self]

omit hmid in
theorem addOp_follows {amount at' : UInt64} (hamount : 1 ≤ amount)
    (hfit : overflowChecks = true ∨ ctx.currentCounts op + amount.toNat < 2 ^ 64)
    (h : addOp overflowChecks op amount at' ctx = .ok ctx') (hat : at'.toNat = cycle)
    (op' : MemOp) : Follows ctx ctx' cycle op' := by
  obtain ⟨mid, hmid, h⟩ := bind_ok.mp h
  obtain ⟨current, hcurrent, hmid⟩ := bind_ok.mp hmid
  obtain ⟨all, -, hmid⟩ := bind_ok.mp hmid
  cases hmid
  have hsum := addU64_ok hcurrent hfit
  have hpos : 0 < amount.toNat := hamount
  have hmid := counted ctx op current (Function.update ctx.allCounts op all)
  split at h
  · next hfirst =>
    dsimp only at hfirst
    rw [Function.update_self] at hfirst
    rw [hat] at h
    exact startBusy_follows hpair hc hcycle hmid (by omega) (by omega) h op'
  · next hmore =>
    dsimp only at hmore
    rw [Function.update_self] at hmore
    cases h
    exact counted_follows hpair hmid (by omega) op'

omit hmid in
theorem reduceOp_follows {amount at' : UInt64} (hamount : 1 ≤ amount) {reduced : Bool}
    (h : reduceOp overflowChecks op other amount at' ctx = .ok (reduced, ctx'))
    (hat : at'.toNat = cycle) (op' : MemOp) : Follows ctx ctx' cycle op' := by
  have hpos : 0 < amount.toNat := hamount
  unfold reduceOp at h
  split at h
  · cases h
    exact .same rfl rfl rfl Iff.rfl
  · next hge =>
    obtain ⟨last, hlast, heq⟩ := map_ok h
    cases heq
    rw [hat] at hlast
    have hmid := counted ctx op (ctx.currentCounts op - amount.toNat) ctx.allCounts
    split at hlast
    · next hzero => exact endBusy_follows hpair hc hcycle hmid (by omega) hzero hlast op'
    · next hmore =>
      cases hlast
      exact counted_follows hpair hmid (by omega) op'

end Step

end GlobalCountsCtx

end NewPims.GlobalCounts

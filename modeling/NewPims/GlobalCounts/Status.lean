import NewPims.GlobalCounts.Steps

/-! When the status of the loads, of the stores and of both together says what their counts say. -/
namespace NewPims.GlobalCounts

open Transition GlobalCountsCtx

def MemStatus.isBusy : MemStatus → Bool
  | idle _ => false
  | busy _ => true

/-- A status is busy exactly while operations of its kind are under way. -/
structure StatusExact (ctx : GlobalCountsCtx) : Prop where
  loads : (ctx.currentStatus .load).isBusy ↔ 0 < ctx.currentCounts .load
  stores : (ctx.currentStatus .store).isBusy ↔ 0 < ctx.currentCounts .store
  loadOrStores : (ctx.currentStatus .loadOrStore).isBusy ↔
    0 < ctx.currentCounts .load ∨ 0 < ctx.currentCounts .store

/-- Some operations of the kind are under way after adding to them: not none to none, and not as
many as make the count wrap around to zero. -/
def AddKeeps (overflowChecks : Bool) (ctx : GlobalCountsCtx) (op : MemOp) (amount : ℕ) : Prop :=
  (amount ≠ 0 ∨ ctx.currentCounts op ≠ 0) ∧
    (overflowChecks = true ∨ ctx.currentCounts op + amount ≠ 2 ^ 64)

def Call.Keeps (overflowChecks : Bool) (ctx : GlobalCountsCtx) : Call → Prop
  | addLoads loads _ => AddKeeps overflowChecks ctx .load loads.toNat
  | addStores stores _ => AddKeeps overflowChecks ctx .store stores.toNat
  | reduceLoads _ _ | reduceStores _ _ => True

def CountsFit (ctx : GlobalCountsCtx) : Prop := ∀ op, ctx.currentCounts op < 2 ^ 64

variable {overflowChecks : Bool} {ctx ctx' : GlobalCountsCtx} {op other : MemOp}
  {start cycle : ℕ}

theorem statusExact_iff (hpair : Pair op other) : StatusExact ctx ↔
    ((ctx.currentStatus op).isBusy ↔ 0 < ctx.currentCounts op) ∧
    ((ctx.currentStatus other).isBusy ↔ 0 < ctx.currentCounts other) ∧
    ((ctx.currentStatus .loadOrStore).isBusy ↔
      0 < ctx.currentCounts op ∨ 0 < ctx.currentCounts other) := by
  rcases hpair with ⟨rfl, rfl⟩ | ⟨rfl, rfl⟩
  · exact ⟨fun ⟨hload, hstore, hboth⟩ => ⟨hload, hstore, hboth⟩,
      fun ⟨hload, hstore, hboth⟩ => ⟨hload, hstore, hboth⟩⟩
  · exact ⟨fun ⟨hload, hstore, hboth⟩ => ⟨hstore, hload, hboth.trans or_comm⟩,
      fun ⟨hstore, hload, hboth⟩ => ⟨hload, hstore, hboth.trans or_comm⟩⟩

namespace GlobalCountsCtx

theorem startOp_status (h : startOp overflowChecks op start cycle ctx = .ok ctx') :
    ctx'.currentCounts = ctx.currentCounts ∧
    ctx'.currentStatus = Function.update ctx.currentStatus op (.busy cycle) := by
  obtain ⟨duration, -, h⟩ := bind_ok.mp h
  obtain ⟨mid, hmid, h⟩ := bind_ok.mp h
  cases h
  unfold recordIdle at hmid
  split at hmid
  · cases hmid
    exact ⟨rfl, rfl⟩
  · obtain ⟨histo, -, hmid⟩ := bind_ok.mp hmid
    obtain ⟨idle, -, hmid⟩ := bind_ok.mp hmid
    cases hmid
    exact ⟨rfl, rfl⟩

theorem endOp_status (h : endOp overflowChecks op start cycle ctx = .ok ctx') :
    ctx'.currentCounts = ctx.currentCounts ∧
    ctx'.currentStatus = Function.update ctx.currentStatus op (.idle cycle) := by
  obtain ⟨duration, -, h⟩ := bind_ok.mp h
  obtain ⟨mid, hmid, h⟩ := bind_ok.mp h
  cases h
  obtain ⟨histo, -, hmid⟩ := bind_ok.mp hmid
  obtain ⟨busy, -, hmid⟩ := bind_ok.mp hmid
  cases hmid
  exact ⟨rfl, rfl⟩

/-- A kind that was idle is busy, and both kinds together are. -/
theorem startBusy_status (hpair : Pair op other) (hidle : (ctx.currentStatus op).isBusy = false)
    (h : startBusy overflowChecks op cycle ctx = .ok ctx') :
    ctx'.currentCounts = ctx.currentCounts ∧ (ctx'.currentStatus op).isBusy = true ∧
    (ctx'.currentStatus .loadOrStore).isBusy = true ∧
    ctx'.currentStatus other = ctx.currentStatus other := by
  obtain ⟨hlos, hlos', hother⟩ := hpair.ne
  cases hold : ctx.currentStatus op with
  | busy start =>
    rw [hold] at hidle
    cases hidle
  | idle start =>
    unfold startBusy at h
    rw [hold] at h
    obtain ⟨first, hfirst, h⟩ := bind_ok.mp h
    obtain ⟨hcounts, hstatus⟩ := startOp_status hfirst
    rw [hstatus, Function.update_of_ne hlos.symm] at h
    cases hboth : ctx.currentStatus .loadOrStore with
    | busy start' =>
      rw [hboth] at h
      cases h
      rw [hstatus, Function.update_self, Function.update_of_ne hlos.symm,
        Function.update_of_ne hother, hboth]
      exact ⟨hcounts, rfl, rfl, rfl⟩
    | idle start' =>
      rw [hboth] at h
      obtain ⟨hcounts', hstatus'⟩ := startOp_status h
      rw [hstatus', hstatus, Function.update_of_ne hlos, Function.update_self,
        Function.update_self, Function.update_of_ne hlos', Function.update_of_ne hother]
      exact ⟨hcounts'.trans hcounts, rfl, rfl, rfl⟩

theorem endBusy_idle (hidle : (ctx.currentStatus op).isBusy = false)
    (h : endBusy overflowChecks op other cycle ctx = .ok ctx') : ctx' = ctx := by
  cases hold : ctx.currentStatus op with
  | busy start =>
    rw [hold] at hidle
    cases hidle
  | idle start =>
    unfold endBusy at h
    rw [hold] at h
    cases h
    rfl

/-- A kind that was busy is idle, and both kinds together are busy only if the other one is. -/
theorem endBusy_busy (hpair : Pair op other) (hbusy : (ctx.currentStatus op).isBusy = true)
    (h : endBusy overflowChecks op other cycle ctx = .ok ctx') :
    ctx'.currentCounts = ctx.currentCounts ∧ (ctx'.currentStatus op).isBusy = false ∧
    (ctx'.currentStatus .loadOrStore).isBusy =
      ((ctx.currentStatus .loadOrStore).isBusy && (ctx.currentStatus other).isBusy) ∧
    ctx'.currentStatus other = ctx.currentStatus other := by
  obtain ⟨hlos, hlos', hother⟩ := hpair.ne
  cases hold : ctx.currentStatus op with
  | idle start =>
    rw [hold] at hbusy
    cases hbusy
  | busy start =>
    unfold endBusy at h
    rw [hold] at h
    obtain ⟨first, hfirst, h⟩ := bind_ok.mp h
    obtain ⟨hcounts, hstatus⟩ := endOp_status hfirst
    rw [hstatus, Function.update_of_ne hlos.symm, Function.update_of_ne hother] at h
    have hfirstOnly : (first.currentStatus op).isBusy = false ∧
        first.currentStatus .loadOrStore = ctx.currentStatus .loadOrStore ∧
        first.currentStatus other = ctx.currentStatus other := by
      rw [hstatus, Function.update_self, Function.update_of_ne hlos.symm,
        Function.update_of_ne hother]
      exact ⟨rfl, rfl, rfl⟩
    obtain ⟨hop, hboth, hsame⟩ := hfirstOnly
    cases holdBoth : ctx.currentStatus .loadOrStore with
    | idle start' =>
      rw [holdBoth] at h hboth
      cases h
      rw [hboth]
      exact ⟨hcounts, hop, rfl, hsame⟩
    | busy start' =>
      cases holdOther : ctx.currentStatus other with
      | busy start'' =>
        rw [holdBoth, holdOther] at h
        cases h
        rw [hboth, holdBoth]
        exact ⟨hcounts, hop, rfl, hsame.trans holdOther⟩
      | idle start'' =>
        rw [holdBoth, holdOther] at h
        obtain ⟨hcounts', hstatus'⟩ := endOp_status h
        rw [hstatus', Function.update_of_ne hlos, Function.update_self,
          Function.update_of_ne hlos', hsame, holdOther]
        exact ⟨hcounts'.trans hcounts, hop, rfl, rfl⟩

theorem startBusy_counts (hpair : Pair op other)
    (h : startBusy overflowChecks op cycle ctx = .ok ctx') :
    ctx'.currentCounts = ctx.currentCounts := by
  cases hbusy : (ctx.currentStatus op).isBusy with
  | false => exact (startBusy_status hpair hbusy h).1
  | true =>
    cases hold : ctx.currentStatus op with
    | idle start =>
      rw [hold] at hbusy
      cases hbusy
    | busy start =>
      unfold startBusy at h
      rw [hold] at h
      cases h
      rfl

theorem endBusy_counts (hpair : Pair op other)
    (h : endBusy overflowChecks op other cycle ctx = .ok ctx') :
    ctx'.currentCounts = ctx.currentCounts := by
  cases hbusy : (ctx.currentStatus op).isBusy with
  | false => rw [endBusy_idle hbusy h]
  | true => exact (endBusy_busy hpair hbusy h).1

theorem update_fit {counts : MemOp → ℕ} {count : ℕ} (hfit : ∀ op', counts op' < 2 ^ 64)
    (hcount : count < 2 ^ 64) (op' : MemOp) : Function.update counts op count op' < 2 ^ 64 := by
  by_cases heq : op' = op
  · rw [heq, Function.update_self]
    exact hcount
  · rw [Function.update_of_ne heq]
    exact hfit op'

theorem addOp_fit (hpair : Pair op other) (hfit : CountsFit ctx) {amount at' : UInt64}
    (h : addOp overflowChecks op amount at' ctx = .ok ctx') : CountsFit ctx' := by
  obtain ⟨mid, hmid, h⟩ := bind_ok.mp h
  obtain ⟨current, hcurrent, hmid⟩ := bind_ok.mp hmid
  obtain ⟨all, -, hmid⟩ := bind_ok.mp hmid
  cases hmid
  have hsmall : current < 2 ^ 64 := by
    rcases addU64_cases hcurrent with ⟨rfl, hlt⟩ | ⟨-, -, rfl⟩
    · exact hlt
    · exact Nat.mod_lt _ (Nat.two_pow_pos 64)
  intro op'
  split at h
  · rw [startBusy_counts hpair h]
    exact update_fit hfit hsmall op'
  · cases h
    exact update_fit hfit hsmall op'

theorem reduceOp_fit (hpair : Pair op other) (hfit : CountsFit ctx) {amount at' : UInt64}
    {reduced : Bool}
    (h : reduceOp overflowChecks op other amount at' ctx = .ok (reduced, ctx')) :
    CountsFit ctx' := by
  unfold reduceOp at h
  split at h
  · cases h
    exact hfit
  · obtain ⟨last, hlast, heq⟩ := map_ok h
    cases heq
    have hsmall : ctx.currentCounts op - amount.toNat < 2 ^ 64 :=
      Nat.lt_of_le_of_lt (Nat.sub_le _ _) (hfit op)
    intro op'
    split at hlast
    · rw [endBusy_counts hpair hlast]
      exact update_fit hfit hsmall op'
    · cases hlast
      exact update_fit hfit hsmall op'

section Step

variable {mid : GlobalCountsCtx} {count : ℕ} (hpair : Pair op other) (hexact : StatusExact ctx)
  (hmid : Counted ctx mid op count)

include hpair hexact hmid

theorem counted_exact (hsome : 0 < ctx.currentCounts op) : StatusExact mid ↔ 0 < count := by
  obtain ⟨hop, hother, hboth⟩ := (statusExact_iff hpair).mp hexact
  rw [statusExact_iff hpair, hmid.currentStatus, hmid.currentCounts, Function.update_self,
    Function.update_of_ne hpair.ne.2.2]
  constructor
  · rintro ⟨hcount, -, -⟩
    exact hcount.mp (hop.mpr hsome)
  · intro hcount
    exact ⟨iff_of_true (hop.mpr hsome) hcount, hother,
      iff_of_true (hboth.mpr (Or.inl hsome)) (Or.inl hcount)⟩

theorem startBusy_exact (hnone : ctx.currentCounts op = 0)
    (h : startBusy overflowChecks op cycle mid = .ok ctx') : StatusExact ctx' ↔ 0 < count := by
  obtain ⟨hop, hother, -⟩ := (statusExact_iff hpair).mp hexact
  have hidle : (mid.currentStatus op).isBusy = false := by
    rw [hmid.currentStatus, ← Bool.not_eq_true, hop, hnone]
    exact Nat.lt_irrefl 0
  obtain ⟨hcounts, hbusy, hbusyBoth, hsame⟩ := startBusy_status hpair hidle h
  rw [statusExact_iff hpair, hbusy, hbusyBoth, hsame, hcounts, hmid.currentStatus,
    hmid.currentCounts, Function.update_self, Function.update_of_ne hpair.ne.2.2]
  constructor
  · rintro ⟨hcount, -, -⟩
    exact hcount.mp rfl
  · intro hcount
    exact ⟨iff_of_true rfl hcount, hother, iff_of_true rfl (Or.inl hcount)⟩

theorem endBusy_exact (hcount : count = 0)
    (h : endBusy overflowChecks op other cycle mid = .ok ctx') : StatusExact ctx' := by
  obtain ⟨hop, hother, hboth⟩ := (statusExact_iff hpair).mp hexact
  have hcounts : ctx'.currentCounts = Function.update ctx.currentCounts op 0 := by
    rw [endBusy_counts hpair h, hmid.currentCounts, hcount]
  rw [statusExact_iff hpair, hcounts, Function.update_self, Function.update_of_ne hpair.ne.2.2]
  cases hbusy : (mid.currentStatus op).isBusy with
  | false =>
    have hnone : ¬ 0 < ctx.currentCounts op := by
      rw [← hop, ← hmid.currentStatus, hbusy]
      exact Bool.false_ne_true
    rw [endBusy_idle hbusy h, hmid.currentStatus]
    rw [hmid.currentStatus] at hbusy
    exact ⟨iff_of_false (by simp [hbusy]) (Nat.lt_irrefl 0), hother,
      hboth.trans (by rw [or_iff_right hnone, or_iff_right (Nat.lt_irrefl 0)])⟩
  | true =>
    obtain ⟨-, hidle, hbusyBoth, hsame⟩ := endBusy_busy hpair hbusy h
    rw [hmid.currentStatus] at hbusy hbusyBoth hsame
    have hbefore : (ctx.currentStatus .loadOrStore).isBusy = true :=
      hboth.mpr (Or.inl (hop.mp hbusy))
    rw [hidle, hbusyBoth, hsame, hbefore, Bool.true_and, hother]
    exact ⟨iff_of_false Bool.false_ne_true (Nat.lt_irrefl 0), Iff.rfl,
      (or_iff_right (Nat.lt_irrefl 0)).symm⟩

end Step

/-- The operations that are added start a busy time only if there were none before. -/
theorem addOp_exact (hpair : Pair op other) (hfit : CountsFit ctx) (hexact : StatusExact ctx)
    {amount at' : UInt64} (h : addOp overflowChecks op amount at' ctx = .ok ctx') :
    StatusExact ctx' ↔ AddKeeps overflowChecks ctx op amount.toNat := by
  obtain ⟨mid, hmid, h⟩ := bind_ok.mp h
  obtain ⟨current, hcurrent, hmid⟩ := bind_ok.mp hmid
  obtain ⟨all, -, hmid⟩ := bind_ok.mp hmid
  cases hmid
  have hlt := hfit op
  have hamount := amount.toNat_lt
  have hsum := addU64_cases hcurrent
  have hcounted := counted ctx op current (Function.update ctx.allCounts op all)
  split at h
  · next hfirst =>
    dsimp only at hfirst
    rw [Function.update_self] at hfirst
    have hnone : ctx.currentCounts op = 0 := by omega
    rw [startBusy_exact hpair hexact hcounted hnone h, hfirst, AddKeeps, hnone, Nat.zero_add,
      Nat.pos_iff_ne_zero, or_iff_left (not_not_intro rfl)]
    exact (and_iff_left (Or.inr (Nat.ne_of_lt hamount))).symm
  · next hmore =>
    dsimp only at hmore
    rw [Function.update_self] at hmore
    cases h
    have hsome : ctx.currentCounts op ≠ 0 := by omega
    rw [counted_exact hpair hexact hcounted (Nat.pos_of_ne_zero hsome), AddKeeps,
      and_iff_right (Or.inr hsome)]
    rcases hsum with ⟨rfl, hsmall⟩ | ⟨hchecks, hlarge, rfl⟩
    · exact iff_of_true (by omega) (Or.inr (Nat.ne_of_lt hsmall))
    · rw [or_iff_right (by simp [hchecks])]
      omega

/-- Taking operations away keeps the status exact, however many they are. -/
theorem reduceOp_exact (hpair : Pair op other) (hexact : StatusExact ctx) {amount at' : UInt64}
    {reduced : Bool}
    (h : reduceOp overflowChecks op other amount at' ctx = .ok (reduced, ctx')) :
    StatusExact ctx' := by
  unfold reduceOp at h
  split at h
  · cases h
    exact hexact
  · next hge =>
    obtain ⟨last, hlast, heq⟩ := map_ok h
    cases heq
    have hcounted := counted ctx op (ctx.currentCounts op - amount.toNat) ctx.allCounts
    split at hlast
    · next hzero => exact endBusy_exact hpair hexact hcounted hzero hlast
    · next hmore =>
      cases hlast
      exact (counted_exact hpair hexact hcounted (by omega)).mpr (Nat.pos_of_ne_zero hmore)

end GlobalCountsCtx

theorem apply_exact (hfit : CountsFit ctx) (hexact : StatusExact ctx) {c : Call}
    (h : c.apply overflowChecks ctx = .ok ctx') :
    StatusExact ctx' ↔ c.Keeps overflowChecks ctx := by
  have hload : Pair .load .store := Or.inl ⟨rfl, rfl⟩
  have hstore : Pair .store .load := Or.inr ⟨rfl, rfl⟩
  cases c with
  | addLoads loads at' => exact addOp_exact hload hfit hexact h
  | addStores stores at' => exact addOp_exact hstore hfit hexact h
  | reduceLoads loads at' =>
    obtain ⟨⟨reduced, ctx'⟩, hmade, rfl⟩ := map_ok h
    exact iff_of_true (reduceOp_exact hload hexact hmade) trivial
  | reduceStores stores at' =>
    obtain ⟨⟨reduced, ctx'⟩, hmade, rfl⟩ := map_ok h
    exact iff_of_true (reduceOp_exact hstore hexact hmade) trivial

theorem apply_fit (hfit : CountsFit ctx) {c : Call} (h : c.apply overflowChecks ctx = .ok ctx') :
    CountsFit ctx' := by
  cases c with
  | addLoads loads at' => exact addOp_fit (Or.inl ⟨rfl, rfl⟩) hfit h
  | addStores stores at' => exact addOp_fit (Or.inr ⟨rfl, rfl⟩) hfit h
  | reduceLoads loads at' =>
    obtain ⟨⟨reduced, ctx'⟩, hmade, rfl⟩ := map_ok h
    exact reduceOp_fit (Or.inl ⟨rfl, rfl⟩) hfit hmade
  | reduceStores stores at' =>
    obtain ⟨⟨reduced, ctx'⟩, hmade, rfl⟩ := map_ok h
    exact reduceOp_fit (Or.inr ⟨rfl, rfl⟩) hfit hmade

theorem statusExact_initial : StatusExact {} := by
  constructor <;> decide

/-- Over every sequence of calls on a fresh context the status is exact after each of them if and
only if no call adds nothing to nothing or makes a count wrap around to zero. -/
theorem statusExact_run {calls : List Call}
    (hrun : run (Call.apply overflowChecks) {} calls = .ok ctx) :
    AllStates (Call.apply overflowChecks) StatusExact {} calls ↔
      AllCalls (Call.apply overflowChecks) (Call.Keeps overflowChecks) {} calls :=
  allStates_iff (fun _ _ _ hfit h => apply_fit hfit h)
    (fun _ _ _ hfit hexact h => apply_exact hfit hexact h) (fun _ => Nat.two_pow_pos 64)
    statusExact_initial hrun

theorem statusExact_run_sample :
    ∃ ctx, run (Call.apply true) {} [.addLoads 3 0, .addStores 1 2, .reduceLoads 3 5] = .ok ctx ∧
      AllStates (Call.apply true) StatusExact {}
        [.addLoads 3 0, .addStores 1 2, .reduceLoads 3 5] := by
  obtain ⟨ctx, hctx⟩ : ∃ ctx, run (Call.apply true) {}
      [.addLoads 3 0, .addStores 1 2, .reduceLoads 3 5] = .ok ctx := exists_ok rfl
  refine ⟨ctx, hctx, (statusExact_run hctx).mpr ?_⟩
  refine ⟨⟨Or.inl (by decide), Or.inl rfl⟩, fun _ _ => ⟨⟨Or.inl (by decide), Or.inl rfl⟩, ?_⟩⟩
  exact fun _ _ => ⟨trivial, fun _ _ => trivial⟩

/-- No loads are added to none, and the loads are busy. -/
theorem noLoads_busy : ∃ ctx, run (Call.apply true) {} [.addLoads 0 0] = .ok ctx ∧
    ctx.currentStatus .load = .busy 0 ∧ ctx.currentCounts .load = 0 ∧ ¬ StatusExact ctx := by
  refine ⟨_, rfl, rfl, rfl, ?_⟩
  exact fun hexact => absurd (hexact.loads.mp rfl) (Nat.lt_irrefl 0)

end NewPims.GlobalCounts

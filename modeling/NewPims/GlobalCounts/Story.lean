import NewPims.GlobalCounts.Steps

/-! The events, the histograms and the totals of every kind, which are kept apart and say the
same. -/
namespace NewPims.GlobalCounts

open Spans Transition GlobalCountsCtx

/-- The mark that an event sets for a kind. -/
def Event.mark (op : MemOp) (e : Event) : Option (Bool × ℕ) :=
  match e.event with
  | .memEventStart op' => if op' = op then some (true, e.cycle) else none
  | .memEventEnd op' => if op' = op then some (false, e.cycle) else none

namespace Histo

/-- How often a duration is recorded. -/
def recorded (histo : Histo) (duration : ℕ) : ℕ := ((histo duration).map (·.count)).getD 0

/-- The recorded durations add up to the total. -/
def Totals (histo : Histo) (total : ℕ) : Prop :=
  ∃ keys : Finset ℕ, (∀ d, d ∈ keys ↔ (histo d).isSome) ∧
    ∑ d ∈ keys, d * histo.recorded d = total

/-- The histogram of a list of durations. -/
structure Records (histo : Histo) (durations : List ℕ) : Prop where
  counted : ∀ d e, histo d = some e →
    e.count = durations.count d ∧ e.stages.length = durations.count d
  isSome : ∀ d, (histo d).isSome ↔ d ∈ durations

end Histo

namespace GlobalCountsCtx

/-- The marks of the events of a kind. -/
def log (op : MemOp) (ctx : GlobalCountsCtx) : List (Bool × ℕ) :=
  ctx.eventVec.filterMap (Event.mark op)

/-- What the events of a kind, its histograms and its totals have in common. -/
structure Story (ctx : GlobalCountsCtx) (op : MemOp) : Prop where
  alternates : Alternates (ctx.log op)
  ordered : ((ctx.log op).map Prod.snd).Pairwise (· ≤ ·)
  durations : ∀ d, (durations (ctx.log op)).count d = (ctx.busyHisto op).recorded d
  busy : (ctx.busyHisto op).Totals (ctx.busyCycles op)
  idle : (ctx.idleHisto op).Totals (ctx.idleCycles op)
  stages : ∀ d e, ctx.busyHisto op d = some e ∨ ctx.idleHisto op d = some e →
    e.stages.length = e.count

/-- The intervals of a kind up to the cycle `now`: the closed ones and the idle times between them,
and an open one while the kind is busy. -/
structure Told (ctx : GlobalCountsCtx) (now : ℕ) (op : MemOp) (closed : List (ℕ × ℕ))
    (idles : List ℕ) : Prop where
  log_eq : ctx.log op = marks closed (ctx.currentStatus op).busySince
  busy : (ctx.busyHisto op).Records (closed.map fun i => i.2 - i.1)
  busy_sum : ctx.busyCycles op = (closed.map fun i => i.2 - i.1).sum
  idle : (ctx.idleHisto op).Records idles
  idle_sum : ctx.idleCycles op = idles.sum
  clock : ctx.idleCycles op + ctx.busyCycles op = (ctx.currentStatus op).cycle
  cycle_le : (ctx.currentStatus op).cycle ≤ now
  ordered : ((ctx.log op).map Prod.snd).Pairwise (· ≤ ·)
  past : ∀ m ∈ ctx.log op, m.2 ≤ now

def Tells (ctx : GlobalCountsCtx) (now : ℕ) (op : MemOp) : Prop :=
  ∃ closed idles, Told ctx now op closed idles

end GlobalCountsCtx

variable {overflowChecks : Bool} {ctx ctx' : GlobalCountsCtx} {op other : MemOp}
  {start cycle now duration : ℕ} {stage : RunStage} {histo histo' : Histo} {ds : List ℕ}

section Histograms

open Histo

theorem records_nil : Records (fun _ => none) [] :=
  ⟨fun _ _ h => (by cases h), fun _ => iff_of_false Bool.false_ne_true List.not_mem_nil⟩

theorem pushStage_ok {stages stages' : List RunStage} (h : pushStage stages stage = .ok stages') :
    stages' = stages ++ [stage] ∧ stages.length < 2 ^ 61 := by
  unfold pushStage at h
  split at h
  · next hlt =>
    cases h
    exact ⟨rfl, Nat.lt_of_lt_of_le hlt (by decide)⟩
  · cases h

/-- One more duration is recorded; the stages would outgrow their `Vec` before the count
overflows. -/
theorem recordHisto_ok (h : recordHisto overflowChecks histo duration stage = .ok histo')
    (hrecords : histo.Records ds) : histo'.Records (ds ++ [duration]) := by
  obtain ⟨hcounted, hsome⟩ := hrecords
  have hnew : ∃ e, histo' = Function.update histo duration (some e) ∧
      e.count = ds.count duration + 1 ∧ e.stages.length = ds.count duration + 1 := by
    unfold recordHisto at h
    cases hentry : histo duration with
    | none =>
      rw [hentry] at h
      cases h
      have habsent : duration ∉ ds := by
        rw [← hsome duration, hentry]
        exact Bool.false_ne_true
      exact ⟨_, rfl, by rw [List.count_eq_zero.mpr habsent], by
        rw [List.count_eq_zero.mpr habsent]
        rfl⟩
    | some entry =>
      rw [hentry] at h
      obtain ⟨count, hcount, h⟩ := bind_ok.mp h
      obtain ⟨stages, hstages, h⟩ := bind_ok.mp h
      cases h
      obtain ⟨hentryCount, hentryStages⟩ := hcounted duration entry hentry
      obtain ⟨rfl, hlt⟩ := pushStage_ok hstages
      have hfit : entry.count + 1 < 2 ^ 64 := by omega
      refine ⟨_, rfl, ?_, ?_⟩
      · rw [← hentryCount]
        exact addU64_ok hcount (Or.inr hfit)
      · rw [← hentryStages]
        exact List.length_append
  obtain ⟨e, rfl, hcount, hstages⟩ := hnew
  constructor
  · intro d e' he'
    by_cases hd : d = duration
    · subst hd
      rw [Function.update_self] at he'
      cases he'
      rw [List.count_append, List.count_singleton_self]
      exact ⟨hcount, hstages⟩
    · rw [Function.update_of_ne hd] at he'
      rw [List.count_append, List.count_singleton, beq_eq_false_iff_ne.mpr (Ne.symm hd)]
      exact hcounted d e' he'
  · intro d
    rw [List.mem_append, List.mem_singleton]
    by_cases hd : d = duration
    · subst hd
      rw [Function.update_self]
      exact iff_of_true rfl (Or.inr rfl)
    · rw [Function.update_of_ne hd, hsome d]
      exact (or_iff_left hd).symm

theorem records_recorded (h : histo.Records ds) (d : ℕ) : histo.recorded d = ds.count d := by
  unfold recorded
  cases hd : histo d with
  | none =>
    have habsent : d ∉ ds := by
      rw [← h.isSome d, hd]
      exact Bool.false_ne_true
    exact (List.count_eq_zero.mpr habsent).symm
  | some e => exact (h.counted d e hd).1

theorem records_totals (h : histo.Records ds) : histo.Totals ds.sum := by
  refine ⟨ds.toFinset, fun d => ?_, ?_⟩
  · rw [List.mem_toFinset, h.isSome d]
  · rw [Finset.sum_list_count]
    refine Finset.sum_congr rfl fun d _ => ?_
    rw [records_recorded h, Nat.nsmul_eq_mul, Nat.mul_comm]

end Histograms

section Steps

theorem tells_mono (h : Tells ctx now op) {later : ℕ} (hle : now ≤ later) : Tells ctx later op := by
  obtain ⟨closed, idles, ht⟩ := h
  exact ⟨closed, idles, { ht with
    cycle_le := Nat.le_trans ht.cycle_le hle
    past := fun m hm => Nat.le_trans (ht.past m hm) hle }⟩

/-- The records of the other kinds. -/
structure Keeps (ctx ctx' : GlobalCountsCtx) (op : MemOp) : Prop where
  log : ctx'.log op = ctx.log op
  status : ctx'.currentStatus op = ctx.currentStatus op
  busyHisto : ctx'.busyHisto op = ctx.busyHisto op
  busyCycles : ctx'.busyCycles op = ctx.busyCycles op
  idleHisto : ctx'.idleHisto op = ctx.idleHisto op
  idleCycles : ctx'.idleCycles op = ctx.idleCycles op

theorem tells_keep (h : Tells ctx now op) (hkeeps : Keeps ctx ctx' op) : Tells ctx' now op := by
  obtain ⟨hlog, hstatus, hbusyHisto, hbusyCycles, hidleHisto, hidleCycles⟩ := hkeeps
  obtain ⟨closed, idles, ht⟩ := h
  refine ⟨closed, idles, ?_⟩
  constructor
  · rw [hlog, hstatus]
    exact ht.log_eq
  · rw [hbusyHisto]
    exact ht.busy
  · rw [hbusyCycles]
    exact ht.busy_sum
  · rw [hidleHisto]
    exact ht.idle
  · rw [hidleCycles]
    exact ht.idle_sum
  · rw [hidleCycles, hbusyCycles, hstatus]
    exact ht.clock
  · rw [hstatus]
    exact ht.cycle_le
  · rw [hlog]
    exact ht.ordered
  · rw [hlog]
    exact ht.past

theorem mark_start (op op' : MemOp) (cycle : ℕ) (stage : RunStage) :
    Event.mark op' ⟨cycle, stage, .memEventStart op⟩ =
      if op = op' then some (true, cycle) else none := rfl

theorem mark_end (op op' : MemOp) (cycle : ℕ) (stage : RunStage) :
    Event.mark op' ⟨cycle, stage, .memEventEnd op⟩ =
      if op = op' then some (false, cycle) else none := rfl

/-- The event of `setStatus` is a mark of its own kind. -/
theorem log_setStatus {status : MemStatus} {event : EventType} {m : Bool × ℕ}
    (hmark : Event.mark op ⟨cycle, ctx.currentStage, event⟩ = some m) :
    (ctx.setStatus op status cycle event).log op = ctx.log op ++ [m] := by
  simp only [log, setStatus, List.filterMap_append, List.filterMap_cons, hmark,
    List.filterMap_nil]

theorem log_setStatus_other {status : MemStatus} {event : EventType}
    (hmark : Event.mark other ⟨cycle, ctx.currentStage, event⟩ = none) :
    (ctx.setStatus op status cycle event).log other = ctx.log other := by
  simp only [log, setStatus, List.filterMap_append, List.filterMap_cons, hmark,
    List.filterMap_nil, List.append_nil]

/-- A mark with the latest cycle keeps the log in order. -/
theorem ordered_snoc {log : List (Bool × ℕ)} (mark : Bool)
    (hordered : (log.map Prod.snd).Pairwise (· ≤ ·)) (hpast : ∀ m ∈ log, m.2 ≤ cycle) :
    ((log ++ [(mark, cycle)]).map Prod.snd).Pairwise (· ≤ ·) ∧
      ∀ m ∈ log ++ [(mark, cycle)], m.2 ≤ cycle := by
  constructor
  · rw [List.map_append, List.pairwise_append]
    refine ⟨hordered, List.pairwise_singleton _ _, ?_⟩
    intro x hx y hy
    obtain ⟨m, hm, rfl⟩ := List.mem_map.mp hx
    rw [List.mem_singleton.mp hy]
    exact hpast m hm
  · intro m hm
    rcases List.mem_append.mp hm with hm | hm
    · exact hpast m hm
    · rw [List.mem_singleton.mp hm]

/-- What is recorded at the end of an idle time. -/
theorem recordIdle_ok (h : recordIdle overflowChecks op duration ctx = .ok ctx')
    (hrecords : (ctx.idleHisto op).Records ds) (hsum : ctx.idleCycles op = ds.sum)
    (hfit : ctx.idleCycles op + duration < 2 ^ 64) :
    ∃ ds', (ctx'.idleHisto op).Records ds' ∧ ctx'.idleCycles op = ds'.sum ∧
      ctx'.idleCycles op = ctx.idleCycles op + duration ∧
      ctx' = { ctx with
        idleHisto := Function.update ctx.idleHisto op (ctx'.idleHisto op)
        idleCycles := Function.update ctx.idleCycles op (ctx'.idleCycles op) } := by
  unfold recordIdle at h
  split at h
  · next hzero =>
    cases h
    refine ⟨ds, hrecords, hsum, by rw [hzero, Nat.add_zero], ?_⟩
    rw [Function.update_eq_self, Function.update_eq_self]
  · obtain ⟨histo, hhisto, h⟩ := bind_ok.mp h
    obtain ⟨idle, hidle, h⟩ := bind_ok.mp h
    cases h
    have hidle := addU64_ok hidle (Or.inr hfit)
    refine ⟨ds ++ [duration], ?_, ?_, ?_, ?_⟩
    · dsimp only
      rw [Function.update_self]
      exact recordHisto_ok hhisto hrecords
    · dsimp only
      rw [Function.update_self, hidle, hsum, List.sum_append, List.sum_singleton]
    · dsimp only
      rw [Function.update_self, hidle]
    · dsimp only
      rw [Function.update_self, Function.update_self]

theorem recordBusy_ok (h : recordBusy overflowChecks op duration ctx = .ok ctx')
    (hrecords : (ctx.busyHisto op).Records ds) (hsum : ctx.busyCycles op = ds.sum)
    (hfit : ctx.busyCycles op + duration < 2 ^ 64) :
    (ctx'.busyHisto op).Records (ds ++ [duration]) ∧
      ctx'.busyCycles op = (ds ++ [duration]).sum ∧
      ctx'.busyCycles op = ctx.busyCycles op + duration ∧
      ctx' = { ctx with
        busyHisto := Function.update ctx.busyHisto op (ctx'.busyHisto op)
        busyCycles := Function.update ctx.busyCycles op (ctx'.busyCycles op) } := by
  obtain ⟨histo, hhisto, h⟩ := bind_ok.mp h
  obtain ⟨busy, hbusy, h⟩ := bind_ok.mp h
  cases h
  have hbusy := addU64_ok hbusy (Or.inr hfit)
  refine ⟨?_, ?_, ?_, ?_⟩
  · dsimp only
    rw [Function.update_self]
    exact recordHisto_ok hhisto hrecords
  · dsimp only
    rw [Function.update_self, hbusy, hsum, List.sum_append, List.sum_singleton]
  · dsimp only
    rw [Function.update_self, hbusy]
  · dsimp only
    rw [Function.update_self, Function.update_self]

/-- A new start follows the ends of the closed intervals. -/
theorem startOp_tells (h : startOp overflowChecks op start cycle ctx = .ok ctx')
    (hstatus : ctx.currentStatus op = .idle start) (hcycle : cycle < 2 ^ 64)
    (htells : ∀ op', Tells ctx cycle op') (op' : MemOp) : Tells ctx' cycle op' := by
  obtain ⟨closed, idles, ht⟩ := htells op
  have hclock := ht.clock
  have hle := ht.cycle_le
  rw [hstatus, MemStatus.cycle] at hclock hle
  rw [startOp, subU64_of_le hle] at h
  obtain ⟨duration, hduration, h⟩ := bind_ok.mp h
  cases hduration
  obtain ⟨mid, hmid, h⟩ := bind_ok.mp h
  cases h
  obtain ⟨ds, hds, hsum, hidle, hmid⟩ := recordIdle_ok hmid ht.idle ht.idle_sum (by omega)
  have hevents : mid.eventVec = ctx.eventVec := by rw [hmid]
  have hstatuses : mid.currentStatus = ctx.currentStatus := by rw [hmid]
  have hlog : ∀ o, mid.log o = ctx.log o := fun o => by rw [log, log, hevents]
  have hbusyHisto : mid.busyHisto = ctx.busyHisto := by rw [hmid]
  have hbusyCycles : mid.busyCycles = ctx.busyCycles := by rw [hmid]
  by_cases heq : op' = op
  · subst heq
    have hmark : (mid.setStatus op' (.busy cycle) cycle (.memEventStart op')).log op' =
        ctx.log op' ++ [(true, cycle)] := by
      rw [log_setStatus ((mark_start op' op' cycle _).trans (if_pos rfl)), hlog]
    have hnow : (mid.setStatus op' (.busy cycle) cycle (.memEventStart op')).currentStatus op' =
        .busy cycle := Function.update_self _ _ _
    obtain ⟨hordered, hpast⟩ := ordered_snoc true ht.ordered ht.past
    refine ⟨closed, ds, ?_⟩
    constructor
    · have hold := ht.log_eq
      rw [hstatus] at hold
      rw [hmark, hnow, hold]
      exact marks_open.symm
    · change (mid.busyHisto op').Records _
      rw [hbusyHisto]
      exact ht.busy
    · change mid.busyCycles op' = _
      rw [hbusyCycles]
      exact ht.busy_sum
    · exact hds
    · exact hsum
    · change mid.idleCycles op' + mid.busyCycles op' = _
      rw [hnow, hidle, hbusyCycles, MemStatus.cycle]
      omega
    · rw [hnow]
      exact Nat.le_refl cycle
    · rw [hmark]
      exact hordered
    · rw [hmark]
      exact hpast
  · refine tells_keep (htells op') ⟨?_, ?_, ?_, ?_, ?_, ?_⟩
    · rw [log_setStatus_other ((mark_start op op' cycle _).trans (if_neg (Ne.symm heq))), hlog]
    · change Function.update mid.currentStatus op (.busy cycle) op' = _
      rw [Function.update_of_ne heq, hstatuses]
    · change mid.busyHisto op' = _
      rw [hbusyHisto]
    · change mid.busyCycles op' = _
      rw [hbusyCycles]
    · change mid.idleHisto op' = _
      rw [hmid]
      exact Function.update_of_ne heq _ _
    · change mid.idleCycles op' = _
      rw [hmid]
      exact Function.update_of_ne heq _ _

/-- A new end closes the open interval. -/
theorem endOp_tells (h : endOp overflowChecks op start cycle ctx = .ok ctx')
    (hstatus : ctx.currentStatus op = .busy start) (hcycle : cycle < 2 ^ 64)
    (htells : ∀ op', Tells ctx cycle op') (op' : MemOp) : Tells ctx' cycle op' := by
  obtain ⟨closed, idles, ht⟩ := htells op
  have hclock := ht.clock
  have hle := ht.cycle_le
  rw [hstatus, MemStatus.cycle] at hclock hle
  rw [endOp, subU64_of_le hle] at h
  obtain ⟨duration, hduration, h⟩ := bind_ok.mp h
  cases hduration
  obtain ⟨mid, hmid, h⟩ := bind_ok.mp h
  cases h
  obtain ⟨hds, hsum, hbusy, hmid⟩ := recordBusy_ok hmid ht.busy ht.busy_sum (by omega)
  have hevents : mid.eventVec = ctx.eventVec := by rw [hmid]
  have hstatuses : mid.currentStatus = ctx.currentStatus := by rw [hmid]
  have hlog : ∀ o, mid.log o = ctx.log o := fun o => by rw [log, log, hevents]
  have hidleHisto : mid.idleHisto = ctx.idleHisto := by rw [hmid]
  have hidleCycles : mid.idleCycles = ctx.idleCycles := by rw [hmid]
  by_cases heq : op' = op
  · subst heq
    have hmark : (mid.setStatus op' (.idle cycle) cycle (.memEventEnd op')).log op' =
        ctx.log op' ++ [(false, cycle)] := by
      rw [log_setStatus ((mark_end op' op' cycle _).trans (if_pos rfl)), hlog]
    have hnow : (mid.setStatus op' (.idle cycle) cycle (.memEventEnd op')).currentStatus op' =
        .idle cycle := Function.update_self _ _ _
    have hlengths : (closed ++ [(start, cycle)]).map (fun i => i.2 - i.1) =
        closed.map (fun i => i.2 - i.1) ++ [cycle - start] := List.map_append
    obtain ⟨hordered, hpast⟩ := ordered_snoc false ht.ordered ht.past
    refine ⟨closed ++ [(start, cycle)], idles, ?_⟩
    constructor
    · have hold := ht.log_eq
      rw [hstatus] at hold
      rw [hmark, hnow, hold]
      exact marks_close.symm
    · rw [hlengths]
      exact hds
    · rw [hlengths]
      exact hsum
    · change (mid.idleHisto op').Records _
      rw [hidleHisto]
      exact ht.idle
    · change mid.idleCycles op' = _
      rw [hidleCycles]
      exact ht.idle_sum
    · change mid.idleCycles op' + mid.busyCycles op' = _
      rw [hnow, hbusy, hidleCycles, MemStatus.cycle]
      omega
    · rw [hnow]
      exact Nat.le_refl cycle
    · rw [hmark]
      exact hordered
    · rw [hmark]
      exact hpast
  · refine tells_keep (htells op') ⟨?_, ?_, ?_, ?_, ?_, ?_⟩
    · rw [log_setStatus_other ((mark_end op op' cycle _).trans (if_neg (Ne.symm heq))), hlog]
    · change Function.update mid.currentStatus op (.idle cycle) op' = _
      rw [Function.update_of_ne heq, hstatuses]
    · change mid.busyHisto op' = _
      rw [hmid]
      exact Function.update_of_ne heq _ _
    · change mid.busyCycles op' = _
      rw [hmid]
      exact Function.update_of_ne heq _ _
    · change mid.idleHisto op' = _
      rw [hidleHisto]
    · change mid.idleCycles op' = _
      rw [hidleCycles]

theorem startBusy_tells (h : startBusy overflowChecks op cycle ctx = .ok ctx')
    (hcycle : cycle < 2 ^ 64) (htells : ∀ op', Tells ctx cycle op') (op' : MemOp) :
    Tells ctx' cycle op' := by
  unfold startBusy at h
  cases hstatus : ctx.currentStatus op with
  | busy start =>
    rw [hstatus] at h
    cases h
    exact htells op'
  | idle start =>
    rw [hstatus] at h
    obtain ⟨mid, hmid, h⟩ := bind_ok.mp h
    have hfirst := startOp_tells hmid hstatus hcycle htells
    cases hboth : mid.currentStatus .loadOrStore with
    | busy start' =>
      rw [hboth] at h
      cases h
      exact hfirst op'
    | idle start' =>
      rw [hboth] at h
      exact startOp_tells h hboth hcycle hfirst op'

theorem endBusy_tells (h : endBusy overflowChecks op other cycle ctx = .ok ctx')
    (hcycle : cycle < 2 ^ 64) (htells : ∀ op', Tells ctx cycle op') (op' : MemOp) :
    Tells ctx' cycle op' := by
  unfold endBusy at h
  cases hstatus : ctx.currentStatus op with
  | idle start =>
    rw [hstatus] at h
    cases h
    exact htells op'
  | busy start =>
    rw [hstatus] at h
    obtain ⟨mid, hmid, h⟩ := bind_ok.mp h
    have hfirst := endOp_tells hmid hstatus hcycle htells
    cases hboth : mid.currentStatus .loadOrStore with
    | idle start' =>
      rw [hboth] at h
      cases h
      exact hfirst op'
    | busy start' =>
      cases hother : mid.currentStatus other with
      | busy start'' =>
        rw [hboth, hother] at h
        cases h
        exact hfirst op'
      | idle start'' =>
        rw [hboth, hother] at h
        exact endOp_tells h hboth hcycle hfirst op'

/-- The counts are no part of the records. -/
theorem addOp_tells {amount at' : UInt64} (h : addOp overflowChecks op amount at' ctx = .ok ctx')
    (htells : ∀ op', Tells ctx at'.toNat op') (op' : MemOp) : Tells ctx' at'.toNat op' := by
  obtain ⟨mid, hmid, h⟩ := bind_ok.mp h
  obtain ⟨current, -, hmid⟩ := bind_ok.mp hmid
  obtain ⟨all, -, hmid⟩ := bind_ok.mp hmid
  cases hmid
  have hcounted : ∀ o, Tells { ctx with
      currentCounts := Function.update ctx.currentCounts op current
      allCounts := Function.update ctx.allCounts op all } at'.toNat o :=
    fun o => tells_keep (htells o) ⟨rfl, rfl, rfl, rfl, rfl, rfl⟩
  split at h
  · exact startBusy_tells h at'.toNat_lt hcounted op'
  · cases h
    exact hcounted op'

theorem reduceOp_tells {amount at' : UInt64} {reduced : Bool}
    (h : reduceOp overflowChecks op other amount at' ctx = .ok (reduced, ctx'))
    (htells : ∀ op', Tells ctx at'.toNat op') (op' : MemOp) : Tells ctx' at'.toNat op' := by
  unfold reduceOp at h
  split at h
  · cases h
    exact htells op'
  · obtain ⟨last, hlast, heq⟩ := map_ok h
    cases heq
    have hcounted : ∀ o, Tells { ctx with
        currentCounts := Function.update ctx.currentCounts op
          (ctx.currentCounts op - amount.toNat) } at'.toNat o :=
      fun o => tells_keep (htells o) ⟨rfl, rfl, rfl, rfl, rfl, rfl⟩
    split at hlast
    · exact endBusy_tells hlast at'.toNat_lt hcounted op'
    · cases hlast
      exact hcounted op'

theorem apply_tells {c : Call} (h : c.apply overflowChecks ctx = .ok ctx')
    (htells : ∀ op', Tells ctx c.cycle.toNat op') (op' : MemOp) : Tells ctx' c.cycle.toNat op' := by
  cases c with
  | addLoads loads at' => exact addOp_tells h htells op'
  | addStores stores at' => exact addOp_tells h htells op'
  | reduceLoads loads at' =>
    obtain ⟨⟨reduced, ctx'⟩, hmade, rfl⟩ := map_ok h
    exact reduceOp_tells hmade htells op'
  | reduceStores stores at' =>
    obtain ⟨⟨reduced, ctx'⟩, hmade, rfl⟩ := map_ok h
    exact reduceOp_tells hmade htells op'

end Steps

section Runs

theorem tells_initial (op : MemOp) : Tells {} 0 op := by
  refine ⟨[], [], ?_⟩
  constructor
  · rfl
  · exact records_nil
  · rfl
  · exact records_nil
  · rfl
  · rfl
  · exact Nat.le_refl 0
  · exact List.Pairwise.nil
  · exact fun m hm => absurd hm List.not_mem_nil

theorem run_tells {calls : List Call} (hle : ∀ c ∈ calls, now ≤ c.cycle.toNat)
    (hordered : calls.Pairwise fun c d => c.cycle ≤ d.cycle)
    (hrun : run (Call.apply overflowChecks) ctx calls = .ok ctx')
    (htells : ∀ op', Tells ctx now op') (op' : MemOp) : ∃ later, Tells ctx' later op' := by
  induction calls generalizing ctx now with
  | nil =>
    cases hrun
    exact ⟨now, htells op'⟩
  | cons c calls ih =>
    obtain ⟨mid, hmid, hrun⟩ := run_cons_ok.mp hrun
    obtain ⟨hlater, hordered⟩ := List.pairwise_cons.mp hordered
    have hnow := hle c List.mem_cons_self
    exact ih (fun d hd => hlater d hd) hordered hrun
      (apply_tells hmid fun o => tells_mono (htells o) hnow)

theorem story_of_tells (h : Tells ctx now op) : Story ctx op := by
  obtain ⟨closed, idles, ht⟩ := h
  constructor
  · rw [ht.log_eq]
    exact marks_alternates
  · exact ht.ordered
  · intro d
    rw [ht.log_eq, durations_marks, records_recorded ht.busy]
  · rw [ht.busy_sum]
    exact records_totals ht.busy
  · rw [ht.idle_sum]
    exact records_totals ht.idle
  · rintro d e (he | he)
    · obtain ⟨hcount, hstages⟩ := ht.busy.counted d e he
      rw [hstages, hcount]
    · obtain ⟨hcount, hstages⟩ := ht.idle.counted d e he
      rw [hstages, hcount]

end Runs

/-- After every sequence of calls in the order of their cycles, the events, the histograms and the
totals of the loads, of the stores and of both together tell one story. -/
theorem story_run {calls : List Call} (hordered : calls.Pairwise fun c d => c.cycle ≤ d.cycle)
    (hrun : run (Call.apply overflowChecks) {} calls = .ok ctx) :
    Story ctx .load ∧ Story ctx .store ∧ Story ctx .loadOrStore := by
  have hstory : ∀ op, Story ctx op := by
    intro op
    obtain ⟨later, htells⟩ := run_tells (fun c _ => Nat.zero_le c.cycle.toNat) hordered hrun
      tells_initial op
    exact story_of_tells htells
  exact ⟨hstory .load, hstory .store, hstory .loadOrStore⟩

/-- A store of no length while loads are under way, and loads that begin after a pause. -/
def pausedCalls : List Call :=
  [.addLoads 2 1, .addStores 1 3, .reduceStores 1 3, .reduceLoads 2 5, .addLoads 1 9,
    .reduceLoads 1 13]

theorem story_run_sample : ∃ ctx, run (Call.apply true) {} pausedCalls = .ok ctx ∧
    Story ctx .load ∧ Story ctx .store ∧ Story ctx .loadOrStore := by
  obtain ⟨ctx, hctx⟩ : ∃ ctx, run (Call.apply true) {} pausedCalls = .ok ctx := exists_ok rfl
  exact ⟨ctx, hctx, story_run (by decide) hctx⟩

end NewPims.GlobalCounts

import NewPims.Scheduler
import NewPims.StageProgram.Live

/-! The tile accounting of the scheduler. On each platform that has a program exactly one
operation is active, the one at the front of the program's executable list; its tiles are
queued, in flight or reported, and its counters say how many of each there are. -/
namespace NewPims.Scheduler

/-- An issued tile: its operation and its platform. -/
abbrev Ticket := ℕ × StagePlatform

/-- `op` is the active operation of the platform and `stat` its entry. -/
structure Busy (s : Scheduler) (flight : List Ticket) (reported : List ℕ)
    (platform : StagePlatform) (p : StageProgram) (op : Operation)
    (stat : RunningOperationStat) : Prop where
  front : p.executableOperations.head? = some op.id
  lookup : p.operation op.id = some op
  active : s.activeOperationStats.lookup op.id = some stat
  total : stat.totalTiles = op.tiles.length
  launched : stat.launchedTiles + (s.executableTileQueue platform).length = stat.totalTiles
  remain : stat.remainTiles =
    (s.executableTileQueue platform).length + flight.count (op.id, platform)
  remains : 0 < stat.remainTiles
  reports : reported.count op.id + stat.remainTiles = stat.totalTiles
  queue : ∀ tile ∈ s.executableTileQueue platform,
    tile.operationId = op.id ∧ tile.status = .INITIALIZED
  inFlight : ∀ x ∈ flight, x.2 = platform → x.1 = op.id

/-- Nothing of the platform is queued or in flight. -/
structure Idle (s : Scheduler) (flight : List Ticket) (platform : StagePlatform) : Prop where
  queue : s.executableTileQueue platform = []
  inFlight : ∀ x ∈ flight, x.2 ≠ platform

structure ProgramSound (s : Scheduler) (p : StageProgram) : Prop where
  live : p.Live
  flags : ∀ op ∈ p.opMap, op.finish = true ↔ op.id ∈ s.finishedOperationStats
  fresh : ∀ op ∈ p.opMap, op.id < s.nextId
  stamped : ∀ op ∈ p.opMap, ∀ tile ∈ op.tiles,
    tile.operationId = op.id ∧ tile.status = .INITIALIZED

/-- The invariant. On the platforms of `vacant`, which is empty between calls, the active
operation has just finished or the program is new, and the next operation is still to be
started. -/
structure Sound (s : Scheduler) (flight : List Ticket) (reported : List ℕ)
    (vacant : List StagePlatform) : Prop where
  programs : ∀ platform p, s.modelProgram platform = some p → ProgramSound s p
  disjoint : ∀ platform platform' p q, platform ≠ platform' →
    s.modelProgram platform = some p → s.modelProgram platform' = some q →
    ∀ a ∈ p.opMap, ∀ b ∈ q.opMap, a.id ≠ b.id
  idle : ∀ platform, s.modelProgram platform = none → Idle s flight platform
  vacated : ∀ platform ∈ vacant, Idle s flight platform ∧
    ∃ p, s.modelProgram platform = some p ∧ ∀ op ∈ p.opMap, op.id ∉ s.activeOperationStats
  busy : ∀ platform ∉ vacant, ∀ p, s.modelProgram platform = some p →
    ∃ op stat, Busy s flight reported platform p op stat
  owned : ∀ id ∈ s.activeOperationStats, ∃ platform p, platform ∉ vacant ∧
    s.modelProgram platform = some p ∧ p.executableOperations.head? = some id
  finishedFresh : ∀ id ∈ s.finishedOperationStats, id < s.nextId
  known : ∀ id ∈ reported, id ∈ s.activeOperationStats ∨ id ∈ s.finishedOperationStats
  done : ∀ id stat, s.finishedOperationStats.lookup id = some stat →
    stat.remainTiles = 0 ∧ reported.count id = stat.totalTiles

/-- `t` differs from `s` only in its tile queues, its active operations and its requests. -/
structure SameStage (s t : Scheduler) : Prop where
  program : t.modelProgram = s.modelProgram
  stage : t.stage = s.stage
  prevStage : t.prevStage = s.prevStage
  changed : t.hasStageChanged = s.hasStageChanged
  stats : t.stageStats = s.stageStats
  finished : t.finishedOperationStats = s.finishedOperationStats
  nextId : t.nextId = s.nextId

variable {cfg : SchedulerConfig} {now : CycleType} {s t : Scheduler} {flight : List Ticket}
  {reported : List ℕ} {vacant : List StagePlatform} {platform : StagePlatform}

/-- The invariant only reads these fields. -/
theorem sound_congr (h : Sound s flight reported vacant)
    (hprogram : t.modelProgram = s.modelProgram)
    (hqueue : t.executableTileQueue = s.executableTileQueue)
    (hfinished : t.finishedOperationStats = s.finishedOperationStats)
    (hactive : t.activeOperationStats = s.activeOperationStats) (hnext : t.nextId = s.nextId) :
    Sound t flight reported vacant := by
  cases s
  cases t
  dsimp only at hprogram hqueue hfinished hactive hnext
  subst hprogram hqueue hfinished hactive hnext
  constructor
  · intro platform p hp
    obtain ⟨hlive, hflags, hfresh, hstamped⟩ := h.programs platform p hp
    exact ⟨hlive, hflags, hfresh, hstamped⟩
  · exact h.disjoint
  · intro platform hp
    obtain ⟨hqueue, hflight⟩ := h.idle platform hp
    exact ⟨hqueue, hflight⟩
  · intro platform hmem
    obtain ⟨⟨hqueue, hflight⟩, hp⟩ := h.vacated platform hmem
    exact ⟨⟨hqueue, hflight⟩, hp⟩
  · intro platform hmem p hp
    obtain ⟨op, stat, hbusy⟩ := h.busy platform hmem p hp
    exact ⟨op, stat, hbusy.front, hbusy.lookup, hbusy.active, hbusy.total, hbusy.launched,
      hbusy.remain, hbusy.remains, hbusy.reports, hbusy.queue, hbusy.inFlight⟩
  · exact h.owned
  · exact h.finishedFresh
  · exact h.known
  · exact h.done

section Front

variable {p : StageProgram} {op : Operation} {stat : RunningOperationStat}

theorem busy_mem (h : Busy s flight reported platform p op stat) : op ∈ p.opMap :=
  (StageProgram.operation_some h.lookup).1

/-- The operation at the front of the executable list has not finished. -/
theorem front_unfinished (hp : ProgramSound s p)
    (hfront : p.executableOperations.head? = some op.id)
    (hlookup : p.operation op.id = some op) :
    op.finish = false ∧ op.id ∉ s.finishedOperationStats := by
  have hmem : op.id ∈ p.executableOperations := List.mem_of_head? hfront
  obtain ⟨a, ha, haid, hfinish⟩ := StageProgram.live_executable_unfinished hp.live hmem
  have hsame := StageProgram.operation_of_mem (StageProgram.live_ids hp.live) ha
  rw [haid, hlookup] at hsame
  cases hsame
  refine ⟨hfinish, ?_⟩
  intro hfinished
  rw [(hp.flags op ha).mpr hfinished] at hfinish
  cases hfinish

theorem checkFinish_of_front (hp : ProgramSound s p)
    (hfront : p.executableOperations.head? = some op.id)
    (hlookup : p.operation op.id = some op) : p.checkFinish = false := by
  obtain ⟨hfinish, -⟩ := front_unfinished hp hfront hlookup
  refine List.all_eq_false.mpr ⟨op, (StageProgram.operation_some hlookup).1, ?_⟩
  simp [hfinish]

theorem mem_of_lookup {stats : OperationStats} {id : ℕ} (h : stats.lookup id = some stat) :
    id ∈ stats := by
  rw [← AList.lookup_isSome, h]
  rfl

end Front

section Refresh

/-- On a platform whose operation is active, or that has no program, nothing changes. -/
theorem refreshStatus_settled (cfg : SchedulerConfig) (now : CycleType)
    (platform : StagePlatform) (h : Sound s flight reported vacant) (hpl : platform ∉ vacant) :
    s.refreshStatus cfg now platform = .ok s := by
  unfold refreshStatus dropFinished
  cases hprogram : s.modelProgram platform with
  | none => simp only [initiateOperation, hprogram]
  | some p =>
    obtain ⟨op, stat, hbusy⟩ := h.busy platform hpl p hprogram
    have hcheck := checkFinish_of_front (h.programs platform p hprogram) hbusy.front hbusy.lookup
    have hactive : op.id ∈ s.activeOperationStats := mem_of_lookup hbusy.active
    simp only [hcheck, Bool.false_eq_true, ↓reduceIte, initiateOperation, hprogram,
      hbusy.front, Option.bind_some, hbusy.lookup, startOperation, hactive]
    split <;> rfl

/-- A finished program leaves the platform without one. -/
theorem sound_finishProgram (h : Sound s flight reported (platform :: vacant))
    (hpl : platform ∉ vacant) : Sound (s.finishProgram cfg platform) flight reported vacant := by
  obtain ⟨hidle, p, hprogram, hvacant⟩ := h.vacated platform List.mem_cons_self
  have hsound : Sound
      { s with modelProgram := Function.update s.modelProgram platform none }
      flight reported vacant := by
    have hother : ∀ pl q, Function.update s.modelProgram platform none pl = some q →
        pl ≠ platform ∧ s.modelProgram pl = some q := by
      intro pl q hq
      by_cases hpl : pl = platform
      · subst hpl
        rw [Function.update_self] at hq
        cases hq
      · rw [Function.update_of_ne hpl] at hq
        exact ⟨hpl, hq⟩
    constructor
    · intro pl q hq
      obtain ⟨hlive, hflags, hfresh, hstamped⟩ := h.programs pl q (hother pl q hq).2
      exact ⟨hlive, hflags, hfresh, hstamped⟩
    · intro pl pl' q q' hne hq hq'
      exact h.disjoint pl pl' q q' hne (hother pl q hq).2 (hother pl' q' hq').2
    · intro pl hnone
      by_cases hpl : pl = platform
      · subst hpl
        exact ⟨hidle.queue, hidle.inFlight⟩
      · dsimp only at hnone
        rw [Function.update_of_ne hpl] at hnone
        obtain ⟨hqueue, hflight⟩ := h.idle pl hnone
        exact ⟨hqueue, hflight⟩
    · intro pl hmem
      have hne : pl ≠ platform := fun heq => hpl (heq ▸ hmem)
      obtain ⟨⟨hqueue, hflight⟩, q, hq, hq'⟩ := h.vacated pl (List.mem_cons_of_mem _ hmem)
      refine ⟨⟨hqueue, hflight⟩, q, ?_, hq'⟩
      rw [← hq]
      exact Function.update_of_ne hne _ _
    · intro pl hmem q hq
      obtain ⟨hne, hq'⟩ := hother pl q hq
      have hmem' : pl ∉ platform :: vacant := by
        rw [List.mem_cons, not_or]
        exact ⟨hne, hmem⟩
      obtain ⟨op, stat, hbusy⟩ := h.busy pl hmem' q hq'
      exact ⟨op, stat, hbusy.front, hbusy.lookup, hbusy.active, hbusy.total, hbusy.launched,
        hbusy.remain, hbusy.remains, hbusy.reports, hbusy.queue, hbusy.inFlight⟩
    · intro id hid
      obtain ⟨pl, q, hmem, hq, hfront⟩ := h.owned id hid
      rw [List.mem_cons, not_or] at hmem
      refine ⟨pl, q, hmem.2, ?_, hfront⟩
      rw [← hq]
      exact Function.update_of_ne hmem.1 _ _
    · exact h.finishedFresh
    · exact h.known
    · exact h.done
  unfold finishProgram refreshStage
  split
  · exact sound_congr hsound rfl rfl rfl rfl rfl
  · exact hsound

/-- A tile report of an operation that is neither active nor finished has not been made. -/
theorem not_reported (h : Sound s flight reported vacant) {id : ℕ}
    (hactive : id ∉ s.activeOperationStats) (hfinished : id ∉ s.finishedOperationStats) :
    reported.count id = 0 := by
  apply List.count_eq_zero.mpr
  intro hid
  rcases h.known id hid with hid | hid
  · exact hactive hid
  · exact hfinished hid

/-- Starting the front operation of a vacant platform makes it the active one. -/
theorem sound_startOperation (h : Sound s flight reported (platform :: vacant))
    (hpl : platform ∉ vacant) {p : StageProgram} {op : Operation}
    (hprogram : s.modelProgram platform = some p)
    (hfront : p.executableOperations.head? = some op.id)
    (hlookup : p.operation op.id = some op)
    (hok : s.startOperation now platform op = .ok t) :
    Sound t flight reported vacant ∧ SameStage s t := by
  obtain ⟨hidle, p', hprogram', hvacant⟩ := h.vacated platform List.mem_cons_self
  rw [hprogram] at hprogram'
  cases hprogram'
  have hmem := (StageProgram.operation_some hlookup).1
  have hps := h.programs platform p hprogram
  have hinactive : op.id ∉ s.activeOperationStats := hvacant op hmem
  have hunfinished := (front_unfinished hps hfront hlookup).2
  unfold startOperation at hok
  rw [if_neg hinactive] at hok
  split_ifs at hok with htiles
  cases hok
  refine ⟨?_, rfl, rfl, rfl, rfl, rfl, rfl, rfl⟩
  constructor
  · intro pl q hq
    obtain ⟨hlive, hflags, hfresh, hstamped⟩ := h.programs pl q hq
    exact ⟨hlive, hflags, hfresh, hstamped⟩
  · exact h.disjoint
  · intro pl hnone
    have hne : pl ≠ platform := by
      rintro rfl
      exact absurd (hprogram.symm.trans hnone) (by simp)
    obtain ⟨hqueue, hflight⟩ := h.idle pl hnone
    exact ⟨(Function.update_of_ne hne _ _).trans hqueue, hflight⟩
  · intro pl hpl'
    have hne : pl ≠ platform := fun heq => hpl (heq ▸ hpl')
    obtain ⟨⟨hqueue, hflight⟩, q, hq, hq'⟩ := h.vacated pl (List.mem_cons_of_mem _ hpl')
    refine ⟨⟨(Function.update_of_ne hne _ _).trans hqueue, hflight⟩, q, hq, ?_⟩
    intro b hb hbactive
    rcases (AList.mem_insert _).mp hbactive with heq | hbactive
    · exact h.disjoint pl platform q p hne hq hprogram b hb op hmem heq
    · exact hq' b hb hbactive
  · intro pl hpl' q hq
    by_cases hne : pl = platform
    · subst hne
      rw [hprogram] at hq
      cases hq
      have hcount : flight.count (op.id, pl) = 0 :=
        List.count_eq_zero.mpr fun hx => hidle.inFlight _ hx rfl
      have hreports := not_reported h hinactive hunfinished
      have hpos : 0 < op.tiles.length := List.length_pos_of_ne_nil htiles
      refine ⟨op, _, hfront, hlookup, AList.lookup_insert _, rfl, ?_, ?_, hpos, ?_, ?_, ?_⟩
      · simp
      · simp [hcount]
      · simp [hreports]
      · intro tile htile
        dsimp only at htile
        rw [Function.update_self] at htile
        exact hps.stamped op hmem tile htile
      · exact fun x hx hxp => absurd hxp (hidle.inFlight x hx)
    · have hnew : pl ∉ platform :: vacant := by
        rw [List.mem_cons, not_or]
        exact ⟨hne, hpl'⟩
      obtain ⟨b, stat, hbusy⟩ := h.busy pl hnew q hq
      have hid : b.id ≠ op.id := h.disjoint pl platform q p hne hq hprogram b (busy_mem hbusy) op hmem
      have hqueue : Function.update s.executableTileQueue platform op.tiles pl =
          s.executableTileQueue pl := Function.update_of_ne hne _ _
      refine ⟨b, stat, hbusy.front, hbusy.lookup, ?_, hbusy.total, ?_, ?_, hbusy.remains,
        hbusy.reports, ?_, hbusy.inFlight⟩
      · exact (AList.lookup_insert_ne hid).trans hbusy.active
      · exact (congrArg (stat.launchedTiles + List.length ·) hqueue).trans hbusy.launched
      · exact hbusy.remain.trans (congrArg (List.length · + _) hqueue).symm
      · exact fun tile htile => hbusy.queue tile (hqueue ▸ htile)
  · intro id hid
    rcases (AList.mem_insert _).mp hid with rfl | hid
    · exact ⟨platform, p, hpl, hprogram, hfront⟩
    · obtain ⟨pl, q, hmem', hq, hq'⟩ := h.owned id hid
      rw [List.mem_cons, not_or] at hmem'
      exact ⟨pl, q, hmem'.2, hq, hq'⟩
  · exact h.finishedFresh
  · intro id hid
    rcases h.known id hid with hactive | hfinished
    · exact Or.inl ((AList.mem_insert _).mpr (Or.inr hactive))
    · exact Or.inr hfinished
  · exact h.done

/-- A vacant platform either drops its finished program or starts its next operation. -/
theorem refreshStatus_vacant (h : Sound s flight reported (platform :: vacant))
    (hpl : platform ∉ vacant) (hok : s.refreshStatus cfg now platform = .ok t) :
    Sound t flight reported vacant ∧
      ((∃ p, s.modelProgram platform = some p ∧ p.checkFinish = true ∧
          t = s.finishProgram cfg platform) ∨
        SameStage s t) := by
  obtain ⟨-, p, hprogram, -⟩ := h.vacated platform List.mem_cons_self
  unfold refreshStatus dropFinished at hok
  simp only [hprogram] at hok
  cases hcheck : p.checkFinish with
  | true =>
    have hsound : Sound (s.finishProgram cfg platform) flight reported vacant :=
      sound_finishProgram h hpl
    have hnone : (s.finishProgram cfg platform).modelProgram platform = none := by
      unfold finishProgram refreshStage
      split <;> exact Function.update_self _ _ _
    simp only [hcheck, ↓reduceIte, initiateOperation, hnone] at hok
    cases hok
    exact ⟨hsound, Or.inl ⟨p, hprogram, hcheck, rfl⟩⟩
  | false =>
    obtain ⟨op, hfront, hlookup⟩ :=
      StageProgram.live_front (h.programs platform p hprogram).live hcheck
    have hqueue := (h.vacated platform List.mem_cons_self).1.queue
    simp only [hcheck, Bool.false_eq_true, ↓reduceIte, initiateOperation, hprogram, hqueue,
      hfront, Option.bind_some, hlookup] at hok
    obtain ⟨hsound, hsame⟩ := sound_startOperation h hpl hprogram hfront hlookup hok
    exact ⟨hsound, Or.inr hsame⟩

end Refresh

end NewPims.Scheduler

import NewPims.Scheduler.Sound

/-! Taking a tile from a queue, reporting it, and making the programs of a stage keep the tile
accounting. -/
namespace NewPims.Scheduler

variable {cfg : SchedulerConfig} {now : CycleType} {s t : Scheduler} {flight : List Ticket}
  {reported : List ℕ} {platform : StagePlatform}

section Issue

/-- What `get_tile` does on a platform whose queue is not empty. -/
theorem getTile_busy (h : Sound s flight reported []) {tile : Tile} {rest : List Tile}
    (hqueue : s.executableTileQueue platform = tile :: rest) :
    ∃ p op stat, s.modelProgram platform = some p ∧
      Busy s flight reported platform p op stat ∧ tile.operationId = op.id ∧
      tile.status = .INITIALIZED ∧
      s.getTile platform =
        { s with
          executableTileQueue := Function.update s.executableTileQueue platform rest
          activeOperationStats :=
            s.activeOperationStats.insert op.id
              { stat with launchedTiles := stat.launchedTiles + 1 } } := by
  cases hprogram : s.modelProgram platform with
  | none =>
    rw [(h.idle platform hprogram).queue] at hqueue
    cases hqueue
  | some p =>
    obtain ⟨op, stat, hbusy⟩ := h.busy platform List.not_mem_nil p hprogram
    have htile : tile ∈ s.executableTileQueue platform := by
      rw [hqueue]
      exact List.mem_cons_self
    obtain ⟨hid, hstatus⟩ := hbusy.queue tile htile
    have hlookup : s.activeOperationStats.lookup tile.operationId = some stat :=
      hid ▸ hbusy.active
    refine ⟨p, op, stat, rfl, hbusy, hid, hstatus, ?_⟩
    simp only [getTile, hqueue, hstatus, reduceCtorEq, ↓reduceIte, statOf, hlookup,
      Option.getD_some, hid]

/-- Taking a tile moves it from the queue into flight. -/
theorem sound_getTile (h : Sound s flight reported []) {tile : Tile} {rest : List Tile}
    (hqueue : s.executableTileQueue platform = tile :: rest) :
    Sound (s.getTile platform) (flight ++ [(tile.operationId, platform)]) reported [] ∧
      SameStage s (s.getTile platform) := by
  obtain ⟨p, op, stat, hprogram, hbusy, hid, -, hget⟩ := getTile_busy h hqueue
  have hmem := busy_mem hbusy
  have hactive : op.id ∈ s.activeOperationStats := mem_of_lookup hbusy.active
  rw [hget, hid]
  refine ⟨?_, rfl, rfl, rfl, rfl, rfl, rfl, rfl⟩
  have hflight : ∀ x ∈ flight ++ [(op.id, platform)], x ∈ flight ∨ x = (op.id, platform) := by
    intro x hx
    simpa using hx
  constructor
  · intro pl q hq
    obtain ⟨hlive, hflags, hfresh, hstamped⟩ := h.programs pl q hq
    exact ⟨hlive, hflags, hfresh, hstamped⟩
  · exact h.disjoint
  · intro pl hnone
    have hne : pl ≠ platform := by
      rintro rfl
      exact absurd (hprogram.symm.trans hnone) (by simp)
    obtain ⟨hq, hf⟩ := h.idle pl hnone
    refine ⟨(Function.update_of_ne hne _ _).trans hq, ?_⟩
    intro x hx
    rcases hflight x hx with hx | rfl
    · exact hf x hx
    · exact Ne.symm hne
  · exact fun pl hpl => absurd hpl List.not_mem_nil
  · intro pl _ q hq
    by_cases hne : pl = platform
    · subst hne
      rw [hprogram] at hq
      cases hq
      have hlaunched := hbusy.launched
      have hremain := hbusy.remain
      rw [hqueue, List.length_cons] at hlaunched hremain
      have hrest : Function.update s.executableTileQueue pl rest pl = rest :=
        Function.update_self _ _ _
      refine ⟨op, _, hbusy.front, hbusy.lookup, AList.lookup_insert _, hbusy.total, ?_, ?_,
        hbusy.remains, hbusy.reports, ?_, ?_⟩
      · dsimp only
        rw [hrest]
        omega
      · dsimp only
        rw [hrest, List.count_append]
        simp only [List.count_singleton, BEq.rfl, ↓reduceIte]
        omega
      · intro a ha
        dsimp only at ha
        rw [hrest] at ha
        apply hbusy.queue a
        rw [hqueue]
        exact List.mem_cons_of_mem _ ha
      · intro x hx hxp
        rcases hflight x hx with hx | rfl
        · exact hbusy.inFlight x hx hxp
        · rfl
    · obtain ⟨b, st, hb⟩ := h.busy pl List.not_mem_nil q hq
      have hne' : b.id ≠ op.id :=
        h.disjoint pl platform q p hne hq hprogram b (busy_mem hb) op hmem
      have hsame : Function.update s.executableTileQueue platform rest pl =
          s.executableTileQueue pl := Function.update_of_ne hne _ _
      have hcount : (flight ++ [(op.id, platform)]).count (b.id, pl) =
          flight.count (b.id, pl) := by
        rw [List.count_append]
        simp [Ne.symm hne']
      refine ⟨b, st, hb.front, hb.lookup, (AList.lookup_insert_ne hne').trans hb.active,
        hb.total, ?_, ?_, hb.remains, hb.reports, ?_, ?_⟩
      · dsimp only
        rw [hsame]
        exact hb.launched
      · dsimp only
        rw [hsame, hcount]
        exact hb.remain
      · exact fun a ha => hb.queue a (hsame ▸ ha)
      · intro x hx hxp
        rcases hflight x hx with hx | rfl
        · exact hb.inFlight x hx hxp
        · exact absurd hxp.symm hne
  · intro id hid'
    rcases (AList.mem_insert _).mp hid' with rfl | hid'
    · exact ⟨platform, p, List.not_mem_nil, hprogram, hbusy.front⟩
    · exact h.owned id hid'
  · exact h.finishedFresh
  · intro id hid'
    rcases h.known id hid' with hid' | hid'
    · exact Or.inl ((AList.mem_insert _).mpr (Or.inr hid'))
    · exact Or.inr hid'
  · exact h.done

end Issue

section Report

/-- A tile in flight belongs to the active operation of its platform. -/
theorem ticket_busy (h : Sound s flight reported []) {id : ℕ}
    (hticket : (id, platform) ∈ flight) :
    ∃ p op stat, s.modelProgram platform = some p ∧
      Busy s flight reported platform p op stat ∧ op.id = id := by
  cases hprogram : s.modelProgram platform with
  | none => exact absurd rfl ((h.idle platform hprogram).inFlight _ hticket)
  | some p =>
    obtain ⟨op, stat, hbusy⟩ := h.busy platform List.not_mem_nil p hprogram
    exact ⟨p, op, stat, rfl, hbusy, (hbusy.inFlight _ hticket rfl).symm⟩

theorem count_erase_other {x y : Ticket} (hne : x ≠ y) :
    (flight.erase y).count x = flight.count x := List.count_erase_of_ne hne

/-- The state after the report of a tile that is not the last of its operation. -/
def countTile (s : Scheduler) (id : ℕ) (stat : RunningOperationStat) : Scheduler :=
  { s with
    activeOperationStats :=
      s.activeOperationStats.insert id { stat with remainTiles := stat.remainTiles - 1 } }

/-- The state after the report of the last tile, before the next operation is started. -/
def closeOperation (s : Scheduler) (platform : StagePlatform) (q : StageProgram) (id : ℕ)
    (stat : RunningOperationStat) : Scheduler :=
  let stat := { stat with remainTiles := stat.remainTiles - 1 }
  { s with
    modelProgram := Function.update s.modelProgram platform (some q)
    finishedOperationStats := s.finishedOperationStats.insert id stat
    activeOperationStats := (s.activeOperationStats.insert id stat).erase id }

/-- What a legal report does: the three assertions hold, and the operation is finished
exactly when this was its last tile. -/
theorem reportTile_eq (h : Sound s flight reported []) {tile : Tile} {p : StageProgram}
    {op : Operation} {stat : RunningOperationStat}
    (hprogram : s.modelProgram tile.stagePlatform = some p)
    (hbusy : Busy s flight reported tile.stagePlatform p op stat)
    (hid : op.id = tile.operationId) :
    (1 < stat.remainTiles ∧ s.reportTile tile = .ok (false, s.countTile op.id stat)) ∨
      (stat.remainTiles = 1 ∧ ∃ q, p.finishOperation op.id = .ok q ∧ q.Live ∧
        q.opMap = (p.opMap.map fun o => if o.id = op.id then { o with finish := true } else o) ∧
        s.reportTile tile = .ok (true, s.closeOperation tile.stagePlatform q op.id stat)) := by
  have hps := h.programs _ p hprogram
  have hlookup : s.activeOperationStats.lookup tile.operationId = some stat :=
    hid ▸ hbusy.active
  have hunfinished : tile.operationId ∉ s.finishedOperationStats :=
    hid ▸ (front_unfinished hps hbusy.front hbusy.lookup).2
  have hop : p.operation tile.operationId = some op := hid ▸ hbusy.lookup
  have hpos := hbusy.remains
  have hne : stat.remainTiles ≠ 0 := hpos.ne'
  unfold reportTile
  simp only [hlookup, hunfinished, hne, ↓reduceIte, hprogram, hop, reduceCtorEq]
  by_cases hlast : stat.remainTiles = 1
  · right
    obtain ⟨q, hq, hlive, hops⟩ :=
      StageProgram.live_finishOperation hps.live (List.mem_of_head? hbusy.front)
    refine ⟨hlast, q, hq, hlive, hops, ?_⟩
    simp only [hlast, Nat.sub_self, ↓reduceIte, finishActive, ← hid, hq, closeOperation]
  · left
    have hrest : stat.remainTiles - 1 ≠ 0 := by omega
    refine ⟨by omega, ?_⟩
    simp only [hrest, ↓reduceIte, countTile, hid]

theorem mem_erase_flight {x y : Ticket} (hx : x ∈ flight.erase y) : x ∈ flight :=
  List.mem_of_mem_erase hx

theorem sound_countTile (h : Sound s flight reported []) {p : StageProgram} {op : Operation}
    {stat : RunningOperationStat} (hprogram : s.modelProgram platform = some p)
    (hbusy : Busy s flight reported platform p op stat) (hmore : 1 < stat.remainTiles)
    (hticket : (op.id, platform) ∈ flight) :
    Sound (s.countTile op.id stat) (flight.erase (op.id, platform)) (reported ++ [op.id]) [] := by
  have hmem := busy_mem hbusy
  have hactive : op.id ∈ s.activeOperationStats := mem_of_lookup hbusy.active
  have hunfinished :=
    (front_unfinished (h.programs platform p hprogram) hbusy.front hbusy.lookup).2
  have hcount : 0 < flight.count (op.id, platform) := List.count_pos_iff.mpr hticket
  constructor
  · intro pl q hq
    obtain ⟨hlive, hflags, hfresh, hstamped⟩ := h.programs pl q hq
    exact ⟨hlive, hflags, hfresh, hstamped⟩
  · exact h.disjoint
  · intro pl hnone
    obtain ⟨hq, hf⟩ := h.idle pl hnone
    exact ⟨hq, fun x hx => hf x (mem_erase_flight hx)⟩
  · exact fun pl hpl => absurd hpl List.not_mem_nil
  · intro pl _ q hq
    by_cases hne : pl = platform
    · subst hne
      obtain rfl : p = q := Option.some.inj (hprogram.symm.trans hq)
      have hremain := hbusy.remain
      have hreports := hbusy.reports
      refine ⟨op, _, hbusy.front, hbusy.lookup, AList.lookup_insert _, hbusy.total,
        hbusy.launched, ?_, ?_, ?_, hbusy.queue, ?_⟩
      · rw [List.count_erase_self]
        dsimp only [countTile]
        omega
      · dsimp only
        omega
      · rw [List.count_append, List.count_singleton_self]
        dsimp only
        omega
      · exact fun x hx hxp => hbusy.inFlight x (mem_erase_flight hx) hxp
    · obtain ⟨b, st, hb⟩ := h.busy pl List.not_mem_nil q hq
      have hne' : b.id ≠ op.id :=
        h.disjoint pl platform q p hne hq hprogram b (busy_mem hb) op hmem
      have hticket' : (b.id, pl) ≠ (op.id, platform) := fun heq => hne' (congrArg Prod.fst heq)
      refine ⟨b, st, hb.front, hb.lookup, (AList.lookup_insert_ne hne').trans hb.active,
        hb.total, hb.launched, ?_, hb.remains, ?_, hb.queue, ?_⟩
      · rw [count_erase_other hticket']
        exact hb.remain
      · rw [List.count_append, List.count_singleton, beq_eq_false_iff_ne.mpr (Ne.symm hne')]
        exact hb.reports
      · exact fun x hx hxp => hb.inFlight x (mem_erase_flight hx) hxp
  · intro id hid
    rcases (AList.mem_insert _).mp hid with rfl | hid
    · exact h.owned _ hactive
    · exact h.owned id hid
  · exact h.finishedFresh
  · intro id hid
    rcases List.mem_append.mp hid with hid | hid
    · rcases h.known id hid with hid | hid
      · exact Or.inl ((AList.mem_insert _).mpr (Or.inr hid))
      · exact Or.inr hid
    · exact Or.inl ((AList.mem_insert _).mpr (Or.inl (List.mem_singleton.mp hid)))
  · intro id st hst
    obtain ⟨hzero, hreports⟩ := h.done id st hst
    have hne : id ≠ op.id := by
      rintro rfl
      exact hunfinished (mem_of_lookup hst)
    refine ⟨hzero, ?_⟩
    rw [List.count_append, List.count_singleton, beq_eq_false_iff_ne.mpr (Ne.symm hne)]
    exact hreports

/-- Each active operation is at the front of the program that owns it. -/
theorem active_of_program (h : Sound s flight reported []) {p : StageProgram} {op : Operation}
    (hprogram : s.modelProgram platform = some p)
    (hfront : p.executableOperations.head? = some op.id) {a : Operation} (ha : a ∈ p.opMap)
    (hactive : a.id ∈ s.activeOperationStats) : a.id = op.id := by
  obtain ⟨pl, p', -, hp', hfront'⟩ := h.owned a.id hactive
  by_cases hpl : pl = platform
  · subst hpl
    obtain rfl : p = p' := Option.some.inj (hprogram.symm.trans hp')
    exact Option.some.inj (hfront'.symm.trans hfront)
  · obtain ⟨b, hb, hbid, -⟩ := StageProgram.live_executable_unfinished
      (h.programs pl p' hp').live (List.mem_of_head? hfront')
    exact absurd hbid (h.disjoint pl platform p' p hpl hp' hprogram b hb a ha)

/-- The last report leaves the platform vacant. -/
theorem idle_after_last {p : StageProgram} {op : Operation} {stat : RunningOperationStat}
    (hbusy : Busy s flight reported platform p op stat) (hlast : stat.remainTiles = 1)
    (hticket : (op.id, platform) ∈ flight) :
    Idle s (flight.erase (op.id, platform)) platform := by
  have hcount : 0 < flight.count (op.id, platform) := List.count_pos_iff.mpr hticket
  have hremain := hbusy.remain
  constructor
  · apply List.length_eq_zero_iff.mp
    omega
  · rintro ⟨id, pl⟩ hx hpl
    have hid : id = op.id := hbusy.inFlight _ (mem_erase_flight hx) hpl
    dsimp only at hpl
    subst hid hpl
    have hleft : 0 < (flight.erase (op.id, pl)).count (op.id, pl) := List.count_pos_iff.mpr hx
    rw [List.count_erase_self] at hleft
    omega

theorem sound_closeOperation (h : Sound s flight reported []) {p q : StageProgram}
    {op : Operation} {stat : RunningOperationStat}
    (hprogram : s.modelProgram platform = some p)
    (hbusy : Busy s flight reported platform p op stat) (hlast : stat.remainTiles = 1)
    (hticket : (op.id, platform) ∈ flight) (hlive : q.Live)
    (hops : q.opMap =
      p.opMap.map fun o => if o.id = op.id then { o with finish := true } else o) :
    Sound (s.closeOperation platform q op.id stat) (flight.erase (op.id, platform))
      (reported ++ [op.id]) [platform] := by
  have hmem := busy_mem hbusy
  have hps := h.programs platform p hprogram
  have hidle := idle_after_last hbusy hlast hticket
  have hreports := hbusy.reports
  have hunfinished := (front_unfinished hps hbusy.front hbusy.lookup).2
  -- the programs of the new state and where their operations come from
  have hself : (s.closeOperation platform q op.id stat).modelProgram platform = some q :=
    Function.update_self _ _ _
  have hother : ∀ pl, pl ≠ platform →
      (s.closeOperation platform q op.id stat).modelProgram pl = s.modelProgram pl :=
    fun pl hne => Function.update_of_ne hne _ _
  have horigin : ∀ o ∈ q.opMap, ∃ a ∈ p.opMap, o.id = a.id ∧ o.tiles = a.tiles ∧
      (o.finish = true ↔ a.id = op.id ∨ a.finish = true) := by
    intro o ho
    rw [hops] at ho
    obtain ⟨a, ha, rfl⟩ := List.mem_map.mp ho
    refine ⟨a, ha, ?_⟩
    by_cases haid : a.id = op.id <;> simp [haid]
  have hfinished : ∀ id, id ∈ (s.closeOperation platform q op.id stat).finishedOperationStats ↔
      id = op.id ∨ id ∈ s.finishedOperationStats := fun id => AList.mem_insert _
  have hactive : ∀ id, id ∈ (s.closeOperation platform q op.id stat).activeOperationStats ↔
      id ≠ op.id ∧ id ∈ s.activeOperationStats := by
    intro id
    refine AList.mem_erase.trans ?_
    rw [AList.mem_insert]
    tauto
  have hids : ∀ pl r, (s.closeOperation platform q op.id stat).modelProgram pl = some r →
      ∃ r', s.modelProgram pl = some r' ∧ ∀ o ∈ r.opMap, ∃ a ∈ r'.opMap, o.id = a.id := by
    intro pl r hr
    by_cases hne : pl = platform
    · subst hne
      obtain rfl : q = r := Option.some.inj (hself.symm.trans hr)
      refine ⟨p, hprogram, fun o ho => ?_⟩
      obtain ⟨a, ha, haid, -⟩ := horigin o ho
      exact ⟨a, ha, haid⟩
    · rw [hother pl hne] at hr
      exact ⟨r, hr, fun o ho => ⟨o, ho, rfl⟩⟩
  constructor
  · intro pl r hr
    by_cases hne : pl = platform
    · subst hne
      obtain rfl : q = r := Option.some.inj (hself.symm.trans hr)
      refine ⟨hlive, ?_, ?_, ?_⟩
      · intro o ho
        obtain ⟨a, ha, haid, -, hflag⟩ := horigin o ho
        rw [hfinished, haid, hflag, hps.flags a ha]
      · intro o ho
        obtain ⟨a, ha, haid, -⟩ := horigin o ho
        exact haid ▸ hps.fresh a ha
      · intro o ho
        obtain ⟨a, ha, haid, htiles, -⟩ := horigin o ho
        rw [haid, htiles]
        exact hps.stamped a ha
    · rw [hother pl hne] at hr
      obtain ⟨hlive', hflags, hfresh, hstamped⟩ := h.programs pl r hr
      refine ⟨hlive', ?_, hfresh, hstamped⟩
      intro o ho
      have hne' := h.disjoint pl platform r p hne hr hprogram o ho op hmem
      rw [hfinished, hflags o ho]
      exact ⟨Or.inr, fun h => h.resolve_left hne'⟩
  · intro pl pl' r r' hne hr hr' a ha b hb
    obtain ⟨r₀, hr₀, horigin₀⟩ := hids pl r hr
    obtain ⟨r₁, hr₁, horigin₁⟩ := hids pl' r' hr'
    obtain ⟨a', ha', haid⟩ := horigin₀ a ha
    obtain ⟨b', hb', hbid⟩ := horigin₁ b hb
    rw [haid, hbid]
    exact h.disjoint pl pl' r₀ r₁ hne hr₀ hr₁ a' ha' b' hb'
  · intro pl hnone
    have hne : pl ≠ platform := by
      rintro rfl
      rw [hself] at hnone
      cases hnone
    rw [hother pl hne] at hnone
    obtain ⟨hq, hf⟩ := h.idle pl hnone
    exact ⟨hq, fun x hx => hf x (mem_erase_flight hx)⟩
  · intro pl hpl
    obtain rfl := List.mem_singleton.mp hpl
    refine ⟨⟨hidle.queue, hidle.inFlight⟩, q, hself, ?_⟩
    intro o ho hoactive
    obtain ⟨hne, hoactive⟩ := (hactive o.id).mp hoactive
    obtain ⟨a, ha, haid, -⟩ := horigin o ho
    rw [haid] at hne hoactive
    exact hne (active_of_program h hprogram hbusy.front ha hoactive)
  · intro pl hpl r hr
    have hne : pl ≠ platform := fun heq => hpl (List.mem_singleton.mpr heq)
    rw [hother pl hne] at hr
    obtain ⟨b, st, hb⟩ := h.busy pl List.not_mem_nil r hr
    have hne' : b.id ≠ op.id := h.disjoint pl platform r p hne hr hprogram b (busy_mem hb) op hmem
    have hticket' : (b.id, pl) ≠ (op.id, platform) := fun heq => hne' (congrArg Prod.fst heq)
    refine ⟨b, st, hb.front, hb.lookup, ?_, hb.total, hb.launched, ?_, hb.remains, ?_,
      hb.queue, ?_⟩
    · refine (AList.lookup_erase_ne hne').trans ?_
      exact (AList.lookup_insert_ne hne').trans hb.active
    · rw [count_erase_other hticket']
      exact hb.remain
    · rw [List.count_append, List.count_singleton, beq_eq_false_iff_ne.mpr (Ne.symm hne')]
      exact hb.reports
    · exact fun x hx hxp => hb.inFlight x (mem_erase_flight hx) hxp
  · intro id hid
    obtain ⟨hne, hid⟩ := (hactive id).mp hid
    obtain ⟨pl, r, -, hr, hfront⟩ := h.owned id hid
    have hpl : pl ≠ platform := by
      rintro rfl
      obtain rfl : p = r := Option.some.inj (hprogram.symm.trans hr)
      exact hne (Option.some.inj (hfront.symm.trans hbusy.front))
    exact ⟨pl, r, fun hpl' => hpl (List.mem_singleton.mp hpl'), (hother pl hpl).trans hr, hfront⟩
  · intro id hid
    rcases (hfinished id).mp hid with rfl | hid
    · exact hps.fresh op hmem
    · exact h.finishedFresh id hid
  · intro id hid
    rw [hfinished, hactive]
    rcases List.mem_append.mp hid with hid | hid
    · rcases h.known id hid with hid | hid
      · by_cases hne : id = op.id
        · exact Or.inr (Or.inl hne)
        · exact Or.inl ⟨hne, hid⟩
      · exact Or.inr (Or.inr hid)
    · exact Or.inr (Or.inl (List.mem_singleton.mp hid))
  · intro id st hst
    by_cases hne : id = op.id
    · subst hne
      have hst' := (AList.lookup_insert _).symm.trans hst
      obtain rfl := Option.some.inj hst'
      rw [List.count_append, List.count_singleton_self]
      dsimp only
      omega
    · have hst' := (AList.lookup_insert_ne hne).symm.trans hst
      obtain ⟨hzero, hcount⟩ := h.done id st hst'
      refine ⟨hzero, ?_⟩
      rw [List.count_append, List.count_singleton, beq_eq_false_iff_ne.mpr (Ne.symm hne)]
      exact hcount

end Report

section Programs

theorem noProgram_true : s.noProgram = true ↔
    s.modelProgram .SA = none ∧ s.modelProgram .PIM = none := by
  rw [noProgram, Bool.and_eq_true, Option.isNone_iff_eq_none, Option.isNone_iff_eq_none]

theorem noProgram_iff : s.noProgram = true ↔ ∀ platform, s.modelProgram platform = none := by
  rw [noProgram_true]
  constructor
  · rintro ⟨hsa, hpim⟩ platform
    cases platform with
    | SA => exact hsa
    | PIM => exact hpim
  · exact fun h => ⟨h .SA, h .PIM⟩

/-- The programs of a new stage and what the constructor says about them. -/
theorem newPrograms_ok {p1 p2 : StageProgram} (h : s.newPrograms cfg = .ok (p1, p2)) :
    p1.Live ∧ p2.Live ∧ StageProgram.Fresh s.nextId .SA s.stage p1 ∧
      StageProgram.Fresh p1.nextId .PIM s.stage p2 := by
  unfold newPrograms at h
  obtain ⟨a, ha, h⟩ := Transition.bind_ok.mp h
  obtain ⟨b, hb, h⟩ := Transition.bind_ok.mp h
  cases h
  exact ⟨StageProgram.live_init ha, StageProgram.live_init hb, StageProgram.fresh_init ha,
    StageProgram.fresh_init hb⟩

theorem programSound_new {p : StageProgram} {lo : ℕ} {stage : Stage} (hlive : p.Live)
    (hfresh : StageProgram.Fresh lo platform stage p) (hlo : s.nextId ≤ lo)
    (hfinished : ∀ id ∈ s.finishedOperationStats, id < s.nextId)
    (ht : t.finishedOperationStats = s.finishedOperationStats) (hnext : p.nextId ≤ t.nextId) :
    ProgramSound t p := by
  refine ⟨hlive, ?_, ?_, hfresh.stamped⟩
  · intro op hop
    rw [hfresh.unfinished op hop, ht]
    constructor
    · intro h
      cases h
    · intro hmem
      have hlt := hfinished op.id hmem
      have hge := (hfresh.ids op hop).1
      omega
  · intro op hop
    have hlt := (hfresh.ids op hop).2
    omega

/-- New programs leave both platforms vacant. -/
theorem sound_withPrograms (h : Sound s flight reported []) (hnone : s.noProgram = true)
    {p1 p2 : StageProgram} (hnew : s.newPrograms cfg = .ok (p1, p2)) :
    Sound (s.withPrograms p1 p2) flight reported [.SA, .PIM] := by
  obtain ⟨hlive1, hlive2, hfresh1, hfresh2⟩ := newPrograms_ok hnew
  have hnone' := noProgram_iff.mp hnone
  have hinactive : ∀ id, id ∉ s.activeOperationStats := by
    intro id hid
    obtain ⟨pl, p, -, hp, -⟩ := h.owned id hid
    rw [hnone' pl] at hp
    cases hp
  have hnext1 := hfresh1.next
  have hnext2 := hfresh2.next
  have hsound1 : ProgramSound (s.withPrograms p1 p2) p1 :=
    programSound_new hlive1 hfresh1 le_rfl h.finishedFresh rfl hnext2
  have hsound2 : ProgramSound (s.withPrograms p1 p2) p2 :=
    programSound_new hlive2 hfresh2 hnext1 h.finishedFresh rfl le_rfl
  have hids : ∀ a ∈ p1.opMap, ∀ b ∈ p2.opMap, a.id ≠ b.id := by
    intro a ha b hb
    have hlt := (hfresh1.ids a ha).2
    have hge := (hfresh2.ids b hb).1
    omega
  have hall : ∀ pl : StagePlatform, pl ∈ [StagePlatform.SA, StagePlatform.PIM] := by
    intro pl
    cases pl <;> decide
  constructor
  · intro pl p hp
    cases pl with
    | SA =>
      obtain rfl : p1 = p := Option.some.inj hp
      exact hsound1
    | PIM =>
      obtain rfl : p2 = p := Option.some.inj hp
      exact hsound2
  · intro pl pl' p q hne hp hq a ha b hb
    cases pl with
    | SA =>
      cases pl' with
      | SA => exact absurd rfl hne
      | PIM =>
        obtain rfl : p1 = p := Option.some.inj hp
        obtain rfl : p2 = q := Option.some.inj hq
        exact hids a ha b hb
    | PIM =>
      cases pl' with
      | SA =>
        obtain rfl : p2 = p := Option.some.inj hp
        obtain rfl : p1 = q := Option.some.inj hq
        exact (hids b hb a ha).symm
      | PIM => exact absurd rfl hne
  · intro pl hp
    cases pl <;> cases hp
  · intro pl _
    obtain ⟨hqueue, hflight⟩ := h.idle pl (hnone' pl)
    refine ⟨⟨hqueue, hflight⟩, ?_⟩
    cases pl with
    | SA => exact ⟨p1, rfl, fun op _ => hinactive op.id⟩
    | PIM => exact ⟨p2, rfl, fun op _ => hinactive op.id⟩
  · exact fun pl hpl => absurd (hall pl) hpl
  · exact fun id hid => absurd hid (hinactive id)
  · intro id hid
    have hlt := h.finishedFresh id hid
    change id < p2.nextId
    omega
  · exact h.known
  · exact h.done

end Programs

end NewPims.Scheduler

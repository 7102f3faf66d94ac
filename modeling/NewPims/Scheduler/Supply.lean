import NewPims.Scheduler.Control

/-! Where the tiles of a queue come from: an empty queue gets the tiles of an operation, and only
`getTile` takes any. -/
namespace NewPims.Scheduler

variable (P : List Tile → Prop) (platform : StagePlatform)

/-- The operations of the program have tiles with the property. -/
def Supplied (s : Scheduler) : Prop :=
  ∀ p, s.modelProgram platform = some p → ∀ op ∈ p.opMap, P op.tiles

/-- The queue is as before, or it was empty and has got new tiles. -/
def Refilled (s t : Scheduler) : Prop :=
  t.executableTileQueue platform = s.executableTileQueue platform ∨
    s.executableTileQueue platform = [] ∧ P (t.executableTileQueue platform)

def Supplies (s t : Scheduler) : Prop :=
  Supplied P platform s → Supplied P platform t ∧ Refilled P platform s t

variable {P platform} {cfg : SchedulerConfig} {now : CycleType} {s t u : Scheduler}
  {other : StagePlatform}

theorem supplies_same (hprograms : t.modelProgram = s.modelProgram)
    (hqueue : t.executableTileQueue = s.executableTileQueue) : Supplies P platform s t := by
  refine fun h => ⟨?_, Or.inl (congrFun hqueue platform)⟩
  unfold Supplied
  rw [hprograms]
  exact h

theorem supplies_trans (hst : Supplies P platform s t) (htu : Supplies P platform t u) :
    Supplies P platform s u := by
  intro h
  obtain ⟨ht, hrefill⟩ := hst h
  obtain ⟨hu, hrefill'⟩ := htu ht
  refine ⟨hu, ?_⟩
  rcases hrefill with hsame | ⟨hnil, hP⟩
  · unfold Refilled at hrefill' ⊢
    rw [← hsame]
    exact hrefill'
  · rcases hrefill' with hsame' | ⟨-, hP'⟩
    · exact Or.inr ⟨hnil, hsame' ▸ hP⟩
    · exact Or.inr ⟨hnil, hP'⟩

section Refresh

theorem finishProgram_frame (cfg : SchedulerConfig) (s : Scheduler) (other : StagePlatform) :
    (s.finishProgram cfg other).modelProgram = Function.update s.modelProgram other none ∧
      (s.finishProgram cfg other).executableTileQueue = s.executableTileQueue := by
  rw [finishProgram, refreshStage]
  split <;> exact ⟨rfl, rfl⟩

theorem supplies_dropFinished : Supplies P platform s (s.dropFinished cfg other) := by
  unfold dropFinished
  split
  · split
    · obtain ⟨hprograms, hqueue⟩ := finishProgram_frame cfg s other
      refine fun h => ⟨fun p hp => ?_, Or.inl (congrFun hqueue platform)⟩
      rw [hprograms] at hp
      by_cases heq : platform = other
      · rw [heq, Function.update_self] at hp
        cases hp
      · rw [Function.update_of_ne heq] at hp
        exact h p hp
    · exact supplies_same rfl rfl
  · exact supplies_same rfl rfl

theorem supplies_initiateOperation (h : s.initiateOperation now other = .ok t) :
    Supplies P platform s t := by
  unfold initiateOperation at h
  cases hp : s.modelProgram other with
  | none =>
    simp only [hp] at h
    cases h
    exact supplies_same rfl rfl
  | some p =>
    simp only [hp] at h
    by_cases hempty : s.executableTileQueue other = []
    · rw [if_pos hempty] at h
      cases hop : p.executableOperations.head?.bind p.operation with
      | none =>
        simp only [hop] at h
        cases h
      | some op =>
        simp only [hop] at h
        unfold startOperation at h
        split_ifs at h
        · cases h
          exact supplies_same rfl rfl
        · cases h
          refine fun hs => ⟨hs, ?_⟩
          by_cases heq : platform = other
          · subst heq
            obtain ⟨id, -, hid⟩ := Option.bind_eq_some_iff.mp hop
            have hmem := (StageProgram.operation_some hid).1
            refine Or.inr ⟨hempty, ?_⟩
            simp only [Function.update_self]
            exact hs p hp op hmem
          · exact Or.inl (Function.update_of_ne heq _ _)
    · rw [if_neg hempty] at h
      cases h
      exact supplies_same rfl rfl

theorem supplies_refreshStatus (h : s.refreshStatus cfg now other = .ok t) :
    Supplies P platform s t :=
  supplies_trans supplies_dropFinished (supplies_initiateOperation h)

end Refresh

section Tiles

theorem supplies_finishActive {p : StageProgram} {id : ℕ} {stat : RunningOperationStat}
    (hp : s.modelProgram other = some p) (h : s.finishActive other p id stat = .ok t) :
    Supplies P platform s t := by
  unfold finishActive at h
  split at h
  · cases h
  next q hq =>
    cases h
    refine fun hs => ⟨fun p' hp' op hop => ?_, Or.inl rfl⟩
    dsimp only at hp'
    by_cases heq : platform = other
    · subst heq
      rw [Function.update_self] at hp'
      cases hp'
      -- finishing an operation only marks it
      rw [StageProgram.finishOperation_ops hq] at hop
      obtain ⟨op', hop', rfl⟩ := List.mem_map.mp hop
      have htiles := hs p hp op' hop'
      split_ifs <;> exact htiles
    · rw [Function.update_of_ne heq] at hp'
      exact hs p' hp' op hop

theorem supplies_reportTile {tile : Tile} {result : Bool}
    (h : s.reportTile tile = .ok (result, t)) : Supplies P platform s t := by
  unfold reportTile at h
  dsimp only at h
  split at h
  · cases h
  split at h
  · cases h
  split at h
  · cases h
  split at h
  · cases h
  next p hp =>
    split_ifs at h
    · split at h
      · next u hu =>
        cases h
        refine supplies_trans ?_ (supplies_finishActive ?_ hu)
        · exact supplies_same rfl rfl
        · exact hp
      · cases h
    · cases h
      exact supplies_same rfl rfl

theorem supplies_finishTile {tile : Tile} {result : Bool}
    (h : s.finishTile cfg now tile = .ok (result, t)) : Supplies P platform s t := by
  unfold finishTile at h
  split at h
  · cases h
  next result' u hu =>
    split at h
    · cases h
    next v hv =>
      cases h
      exact supplies_trans (supplies_reportTile hu) (supplies_refreshStatus hv)

end Tiles

section Programs

variable (hgen : ∀ stage reqs id name,
  P (StageProgram.stampTiles id (cfg.tiles platform stage reqs name)))

include hgen

theorem supplied_newProgram {p : StageProgram} {nextId : ℕ}
    (h : s.newProgram cfg platform nextId = .ok p) : ∀ op ∈ p.opMap, P op.tiles := by
  intro op hop
  rw [StageProgram.init_tiles h op hop]
  exact hgen _ _ _ _

theorem supplies_makeProgram (h : s.makeProgram cfg now = .ok t) : Supplies P platform s t := by
  obtain ⟨⟨p1, p2⟩, hps, h⟩ := Transition.bind_ok.mp h
  obtain ⟨u, hu, h⟩ := Transition.bind_ok.mp h
  obtain ⟨q1, hq1, hps⟩ := Transition.bind_ok.mp hps
  obtain ⟨q2, hq2, hps⟩ := Transition.bind_ok.mp hps
  cases hps
  have hnew : Supplies P platform s (s.withPrograms p1 p2) := by
    refine fun _ => ⟨fun p hp => ?_, Or.inl rfl⟩
    cases platform with
    | SA =>
      cases hp
      exact supplied_newProgram hgen hq1
    | PIM =>
      cases hp
      exact supplied_newProgram hgen hq2
  exact supplies_trans hnew (supplies_trans (supplies_refreshStatus hu) (supplies_refreshStatus h))

theorem supplies_cycle (h : s.cycle cfg now = .ok t) : Supplies P platform s t := by
  obtain ⟨u, hu, h⟩ := Transition.bind_ok.mp h
  obtain ⟨hsame, hqueue, -⟩ := admitRequests_same hu
  refine supplies_trans (supplies_same hsame.program hqueue) ?_
  split_ifs at h
  · cases h
    exact supplies_same rfl rfl
  · exact supplies_makeProgram hgen h
  · cases h
    exact supplies_same rfl rfl

/-- Only `getTile` takes tiles from a queue, and what an operation puts there has the property. -/
theorem supplies_step {S T : Session} {c : Call} (hc : ∀ other, c ≠ .getTile other)
    (h : S.step cfg c = .ok T) : Supplies P platform S.sched T.sched := by
  cases c with
  | addRequest x =>
    cases h
    exact supplies_same rfl rfl
  | popCompletedRequest =>
    simp only [Session.step] at h
    split at h
    · cases h
      exact supplies_same rfl rfl
    · cases h
  | cycle now =>
    simp only [Session.step] at h
    split at h
    · next t ht =>
      cases h
      have hpoll : Supplies P platform S.sched S.poll.sched := by
        unfold Session.poll
        split <;> exact supplies_same rfl rfl
      exact supplies_trans hpoll (supplies_cycle hgen ht)
    · cases h
  | getTile other => exact absurd rfl (hc other)
  | finishTile now tile =>
    simp only [Session.step] at h
    split_ifs at h
    split at h
    · next result t ht =>
      cases h
      exact supplies_finishTile ht
    · cases h

end Programs

end NewPims.Scheduler

import NewPims.NeuPIMSystolicWS.Tags

/-! The counters of a tile are its outstanding work, in every state of every run. -/
namespace NewPims.NeuPIMSystolicWS

open Bank Transition NeuPIMSCore Session

section Accounted

variable {config : SimulationConfig} {set : RobinHood} {s t : Session}

/-- The counters of the core's tiles, each equal to the work it stands for. -/
structure Accounted (config : SimulationConfig) (s : Session) : Prop where
  tiles : ∀ p, ∀ ptr ∈ (s.core.lane p).tiles, ∃ tile, s.core.heap ptr = some tile ∧
    tile.remainingComputes = s.computesOf config ptr + s.droppedOf ptr ∧
    tile.remainingLoads = s.loadsOf ptr + s.readsOf config ptr ∧
    tile.remainingAccumIo =
      tile.remainingComputes + s.storesOf ptr + s.writesOf config ptr ∧
    0 ≤ tile.remainingComputes ∧ 0 ≤ tile.remainingLoads ∧ 0 ≤ tile.remainingAccumIo
  waiting : s.core.waitingWriteReqs = s.writes config

theorem accounted_of_counted (h : s.Counted config) : Accounted config s where
  tiles := by
    intro p ptr hptr
    obtain ⟨tile, htile, -, hc, hl, hio⟩ := h.live p ptr hptr
    unfold pendingOf at hc hio
    refine ⟨tile, htile, ?_, hl, ?_, ?_, ?_, ?_⟩ <;> omega
  waiting := h.waiting

theorem rejected_opcode {p : StagePlatform} {i : Instruction} (htakes : takes p .compute i)
    (h : Rejected i) : i.opcode = .BAR ∨ i.opcode = .GEMM_WRITE ∨ i.valid = false := by
  rcases h with ⟨hgemm, hvector⟩ | hvalid
  · unfold takes at htakes
    cases hop : i.opcode <;> rw [hop] at htakes hgemm hvector <;>
      first
      | exact Or.inl rfl
      | exact Or.inr (Or.inl rfl)
      | (cases hgemm; done)
      | (cases hvector; done)
      | (cases p <;> cases htakes)
  · exact Or.inr (Or.inr hvalid)

theorem cycle_eq {c c' : NeuPIMSCore} (h : cycle config set c = .ok c') :
    ∃ d : NeuPIMSCore, c' = d.cycle := by
  obtain ⟨_, -, h⟩ := bind_ok.mp h
  obtain ⟨_, -, h⟩ := bind_ok.mp h
  obtain ⟨_, -, h⟩ := bind_ok.mp h
  obtain ⟨_, -, h⟩ := bind_ok.mp h
  obtain ⟨_, -, h⟩ := bind_ok.mp h
  obtain ⟨_, -, h⟩ := bind_ok.mp h
  obtain ⟨_, -, h⟩ := bind_ok.mp h
  obtain ⟨_, -, h⟩ := bind_ok.mp h
  obtain ⟨d, -, h⟩ := bind_ok.mp h
  cases h
  exact ⟨d, rfl⟩

/-- A cycle finishes the tiles that have nothing outstanding after it, and no others. -/
theorem cycle_finishes (h : s.Counted config) (hcycle : call config set s .cycle = .ok t)
    {p : StagePlatform} {ptr : TilePtr} (hptr : ptr ∈ (s.core.lane p).tiles) :
    (ptr ∈ t.core.finishedTiles ∧
        ∃ tile, t.core.heap ptr = some tile ∧ tile.status = .FINISH) ↔ t.Idle config ptr := by
  have ht : t.Counted config := preserved_call counted_preserved h (meets_true s .cycle) hcycle
  obtain ⟨c', hc', rfl⟩ := map_ok hcycle
  obtain ⟨units, hunits⟩ := cycle_runs config set s.core
  have hheld : Held c' p ptr :=
    run_invariant (fun c => Held c p ptr) (fun _ _ _ hh hstep => held_unitStep hh hstep)
      (Or.inl hptr) (hunits.trans hc')
  constructor
  · rintro ⟨hfinished, -⟩
    exact ht.idle ptr (ht.finished ptr hfinished)
  · intro hidle
    rcases hheld with hmem | hfinished
    · obtain ⟨d, rfl⟩ := cycle_eq hc'
      have hdrained := (drained_iff_idle ht hmem).mpr hidle
      rw [cycle_undrained hmem] at hdrained
      cases hdrained
    · exact hfinished

/-- In every state of every run, those inside a cycle included, the counters of an unfinished
tile are the work it has outstanding, where an instruction that no pipeline takes stays a
computation to come; and a cycle finishes exactly the tiles with nothing outstanding. -/
theorem counters_accounted {id : ℕ} {calls : List Call}
    (hrun : run (call config set) (init config id) calls = .ok s) :
    (∀ units c, run (unitStep config set) s.core units = .ok c →
      Accounted config ⟨c, s.unanswered⟩) ∧
    (∀ i ∈ s.core.dropped, i.opcode = .BAR ∨ i.opcode = .GEMM_WRITE ∨ i.valid = false) ∧
    ∀ t, call config set s .cycle = .ok t → loading t.core = [] ∧
      ∀ p, ∀ ptr ∈ (s.core.lane p).tiles,
        (ptr ∈ t.core.finishedTiles ∧
          ∃ tile, t.core.heap ptr = some tile ∧ tile.status = .FINISH) ↔ t.Idle config ptr := by
  have hcounted := preserved_run counted_preserved (counted_init id) hrun
  have htagged := preserved_run tagged_preserved (tagged_init id) hrun
  refine ⟨?_, ?_, ?_⟩
  · intro units c hunits
    exact accounted_of_counted (preserved_units counted_preserved hcounted hunits)
  · intro i hi
    obtain ⟨p, -, htakes, hrejected⟩ := htagged.dropped i hi
    exact rejected_opcode htakes hrejected
  · intro t hcycle
    refine ⟨?_, fun p ptr hptr => cycle_finishes hcounted hcycle hptr⟩
    obtain ⟨c', hc', rfl⟩ := map_ok hcycle
    exact cycle_loading hc'

end Accounted

section Samples

/-- A tile that loads one operand, adds and stores the sum. -/
def addTile : Tile where
  operationId := 1
  instructions := [
    { opcode := .MOVIN, destAddr := SPAD_BASE, size := 32, srcAddrs := [0] },
    { opcode := .ADD, destAddr := ACCUM_SPAD_BASE, size := 4, srcAddrs := [SPAD_BASE] },
    { opcode := .MOVOUT, destAddr := ACCUM_SPAD_BASE, size := 32, srcAddrs := [64] }]

theorem counters_accounted_sample :
    ∃ s, run (call sampleConfig .byInsertion) (init sampleConfig 0) [.issue addTile, .cycle] =
        .ok s ∧
      (∀ units c, run (unitStep sampleConfig .byInsertion) s.core units = .ok c →
        Accounted sampleConfig ⟨c, s.unanswered⟩) := by
  obtain ⟨s, hs⟩ := exists_ok (x := run (call sampleConfig .byInsertion)
    (init sampleConfig 0) [.issue addTile, .cycle]) (by decide +kernel)
  exact ⟨s, hs, (counters_accounted hs).1⟩

/-- A barrier, which no pipeline takes. -/
def barTile : Tile where
  operationId := 1
  instructions := [{ opcode := .BAR, destAddr := ACCUM_SPAD_BASE }]

/-- The barrier has left its queue and is in no pipeline, but its tile still waits for it. -/
theorem counters_barrier :
    ∃ s tile, run (call sampleConfig .byInsertion) (init sampleConfig 0)
        [.issue barTile, .cycle] = .ok s ∧
      0 ∈ (s.core.lane .SA).tiles ∧ s.core.heap 0 = some tile ∧
      tile.remainingComputes ≠ s.computesOf sampleConfig 0 := by
  refine ⟨_, _, rfl, by decide, rfl, by decide⟩

end Samples

end NewPims.NeuPIMSystolicWS

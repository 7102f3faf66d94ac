import NewPims.NeuPIMSystolicWS.Session

/-! The three counters of a tile against the work it has outstanding: the invariant, and the
form of every step that moves work of one tile from one place to another. -/
namespace NewPims.NeuPIMSystolicWS

open Bank Transition

namespace Session

/-- The tile's instructions that count as computations to come. -/
def pendingOf (config : SimulationConfig) (s : Session) (ptr : TilePtr) : ℕ :=
  s.computesOf config ptr + s.droppedOf ptr

/-- The counters are the work outstanding. -/
def Balanced (config : SimulationConfig) (s : Session) (ptr : TilePtr) (tile : Tile) : Prop :=
  tile.remainingComputes = s.pendingOf config ptr ∧
    tile.remainingLoads = s.loadsOf ptr + s.readsOf config ptr ∧
    tile.remainingAccumIo = s.pendingOf config ptr + s.storesOf ptr + s.writesOf config ptr

structure Counted (config : SimulationConfig) (s : Session) : Prop where
  live : ∀ p, ∀ ptr ∈ (s.core.lane p).tiles, ∃ tile, s.core.heap ptr = some tile ∧
    tile.status = .RUNNING ∧ s.Balanced config ptr tile
  idle : ∀ ptr, (∀ p, ptr ∉ (s.core.lane p).tiles) → s.Idle config ptr
  fresh : ∀ ptr, s.core.nextTile ≤ ptr →
    (∀ p, ptr ∉ (s.core.lane p).tiles) ∧ ptr ∉ s.core.finishedTiles
  finished : ∀ ptr ∈ s.core.finishedTiles, ∀ p, ptr ∉ (s.core.lane p).tiles
  apart : ∀ ptr ∈ (s.core.lane .SA).tiles, ptr ∉ (s.core.lane .PIM).tiles
  waiting : s.core.waitingWriteReqs = s.writes config

/-- The tile but for its statistics and its counters. -/
def SameTask (tile tile' : Tile) : Prop :=
  tile' = { tile with
    stat := tile'.stat
    remainingComputes := tile'.remainingComputes
    remainingLoads := tile'.remainingLoads
    remainingAccumIo := tile'.remainingAccumIo }

/-- The counters of a tile after a change of its pending computations by `dc`, its loads by
`dl`, its stores by `ds`, its reads by `dr` and its writes by `dw`. -/
structure Shifted (tile tile' : Tile) (dc dl ds dr dw : ℤ) : Prop where
  task : SameTask tile tile'
  computes : tile'.remainingComputes = tile.remainingComputes + dc
  loads : tile'.remainingLoads = tile.remainingLoads + (dl + dr)
  accumIo : tile'.remainingAccumIo = tile.remainingAccumIo + (dc + ds + dw)

theorem sameTask_status {tile tile' : Tile} (h : SameTask tile tile') :
    tile'.status = tile.status := by
  rw [h]

/-- Work of the tile `ptr` and of no other moves on. -/
structure Moves (config : SimulationConfig) (s t : Session) (ptr : TilePtr)
    (dc dl ds dr dw : ℤ) : Prop where
  tiles : ∀ p, (t.core.lane p).tiles = (s.core.lane p).tiles
  next : t.core.nextTile = s.core.nextTile
  finished : t.core.finishedTiles = s.core.finishedTiles
  pending : ∀ q, (t.pendingOf config q : ℤ) = s.pendingOf config q + if q = ptr then dc else 0
  loads : ∀ q, (t.loadsOf q : ℤ) = s.loadsOf q + if q = ptr then dl else 0
  stores : ∀ q, (t.storesOf q : ℤ) = s.storesOf q + if q = ptr then ds else 0
  reads : ∀ q, (t.readsOf config q : ℤ) = s.readsOf config q + if q = ptr then dr else 0
  writes : ∀ q, (t.writesOf config q : ℤ) = s.writesOf config q + if q = ptr then dw else 0
  allWrites : (t.writes config : ℤ) = s.writes config + dw
  waiting : t.core.waitingWriteReqs = s.core.waitingWriteReqs + dw
  heap : ∀ q, q ≠ ptr → t.core.heap q = s.core.heap q
  tile : ∀ tile, s.core.heap ptr = some tile →
    ∃ tile', t.core.heap ptr = some tile' ∧ Shifted tile tile' dc dl ds dr dw
  gone : s.core.heap ptr = none → t.core.heap ptr = none
  busy : (s.pendingOf config ptr = 0 → dc = 0) ∧
    (s.loadsOf ptr = 0 ∧ s.readsOf config ptr = 0 → dl = 0 ∧ dr = 0) ∧
    (s.storesOf ptr = 0 ∧ s.writesOf config ptr = 0 → ds = 0 ∧ dw = 0)

variable {config : SimulationConfig} {set : RobinHood} {s t : Session} {ptr : TilePtr}

theorem idle_iff : s.Idle config ptr ↔
    s.pendingOf config ptr = 0 ∧ s.loadsOf ptr = 0 ∧ s.storesOf ptr = 0 ∧
      s.readsOf config ptr = 0 ∧ s.writesOf config ptr = 0 := by
  unfold Idle pendingOf
  omega

/-- The counters of a tile are all at zero exactly if nothing of it is outstanding. -/
theorem balanced_zero {tile : Tile} (h : s.Balanced config ptr tile) :
    (tile.remainingAccumIo = 0 ∧ tile.remainingComputes = 0 ∧ tile.remainingLoads = 0) ↔
      s.Idle config ptr := by
  obtain ⟨hc, hl, hio⟩ := h
  rw [idle_iff]
  omega

theorem counted_of_moves {dc dl ds dr dw : ℤ} (h : s.Counted config)
    (hmoves : Moves config s t ptr dc dl ds dr dw) : t.Counted config where
  live := by
    intro p q hq
    rw [hmoves.tiles] at hq
    obtain ⟨tile, htile, hstatus, hc, hl, hio⟩ := h.live p q hq
    have h1 := hmoves.pending q
    have h2 := hmoves.loads q
    have h3 := hmoves.stores q
    have h4 := hmoves.reads q
    have h5 := hmoves.writes q
    by_cases hqp : q = ptr
    · subst hqp
      obtain ⟨tile', htile', htask, h6, h7, h8⟩ := hmoves.tile tile htile
      refine ⟨tile', htile', (sameTask_status htask).trans hstatus, ?_⟩
      simp only [if_true] at h1 h2 h3 h4 h5
      refine ⟨?_, ?_, ?_⟩ <;> omega
    · refine ⟨tile, (hmoves.heap q hqp).trans htile, hstatus, ?_⟩
      simp only [hqp, if_false] at h1 h2 h3 h4 h5
      refine ⟨?_, ?_, ?_⟩ <;> omega
  idle := by
    intro q hq
    simp only [hmoves.tiles] at hq
    have hidle := h.idle q hq
    have h1 := hmoves.pending q
    have h2 := hmoves.loads q
    have h3 := hmoves.stores q
    have h4 := hmoves.reads q
    have h5 := hmoves.writes q
    by_cases hqp : q = ptr
    · subst hqp
      obtain ⟨hcompute, hread, hwrite⟩ := hmoves.busy
      rw [idle_iff] at hidle ⊢
      obtain ⟨hpending, hloads, hstores, hreads, hwrites⟩ := hidle
      obtain rfl := hcompute hpending
      obtain ⟨rfl, rfl⟩ := hread ⟨hloads, hreads⟩
      obtain ⟨rfl, rfl⟩ := hwrite ⟨hstores, hwrites⟩
      simp only [if_true] at h1 h2 h3 h4 h5
      omega
    · rw [idle_iff] at hidle ⊢
      simp only [hqp, if_false] at h1 h2 h3 h4 h5
      omega
  fresh := by
    intro q hq
    rw [hmoves.next] at hq
    simp only [hmoves.tiles, hmoves.finished]
    exact h.fresh q hq
  finished := by
    simp only [hmoves.tiles, hmoves.finished]
    exact h.finished
  apart := by
    simp only [hmoves.tiles]
    exact h.apart
  waiting := by
    rw [hmoves.waiting, h.waiting, hmoves.allWrites]

/-- A busy tile is one of the core's tiles. -/
theorem Counted.mem_tiles (h : s.Counted config) (hbusy : ¬ s.Idle config ptr) :
    ∃ p, ptr ∈ (s.core.lane p).tiles := by
  by_contra hnot
  exact hbusy (h.idle ptr (not_exists.mp hnot))

section Lists

variable {c c' : NeuPIMSCore} {u : List MemoryAccess} {inst : Instruction}

theorem instOf_count (q : TilePtr) :
    ((if instOf q inst = true then 1 else 0 : ℕ) : ℤ) = if q = inst.parentTile then 1 else 0 := by
  by_cases h : q = inst.parentTile
  · simp [instOf, h]
  · simp [instOf, h, Ne.symm h]

theorem pendingOf_eq (q : TilePtr) : pendingOf config ⟨c, u⟩ q =
    (executing c).countP (instOf q) + (piped config c ++ c.dropped).countP (instOf q) := by
  simp only [pendingOf, computesOf, droppedOf, List.countP_append]
  omega

/-- The queues of both lanes hold the same. -/
theorem sameQueues_contents (config : SimulationConfig)
    (h : ∀ p, (c.lane p).SameQueues (c'.lane p)) :
    loading c' = loading c ∧ storing c' = storing c ∧ executing c' = executing c ∧
      queuedRequests config c' = queuedRequests config c := by
  refine ⟨?_, ?_, ?_, ?_⟩
  · exact contents_congr fun p _ => (h p).2.1
  · exact contents_congr fun p _ => (h p).2.2.1
  · exact contents_congr fun p _ => (h p).2.2.2.1
  · exact contents_congr fun p _ => congrArg (contents _) (h p).2.2.2.2

theorem sameQueues_update {p : StagePlatform} {l : Lane}
    (hlane : c'.lane = Function.update c.lane p l) (h : (c.lane p).SameQueues l) :
    ∀ q, (c.lane q).SameQueues (c'.lane q) := by
  intro q
  rw [hlane]
  by_cases hq : q = p
  · subst hq
    rwa [Function.update_self]
  · rw [Function.update_of_ne hq]
    exact ⟨rfl, rfl, rfl, rfl, rfl⟩

end Lists

end Session

end NewPims.NeuPIMSystolicWS

import NewPims.NeuPIMSystolicWS.Flows

/-! What every instruction and every request in a core carries: the platform and the buffers
that its tile was given. -/
namespace NewPims.NeuPIMSystolicWS

open Bank Transition NeuPIMSCore Session

structure TaggedInst (c : NeuPIMSCore) (p : StagePlatform) (i : Instruction) : Prop where
  old : i.parentTile < c.nextTile
  platform : instPlatform i = p
  tile : ∀ tile, c.heap i.parentTile = some tile →
    tile.stagePlatform = p ∧ i.spadId = tile.spadId ∧ i.accumSpadId = tile.accumSpadId

/-- The buffer of the tile that holds the key `address`. -/
def tileBuffer (tile : Tile) (address : AddrType) : ℕ :=
  if ACCUM_SPAD_BASE ≤ address then tile.accumSpadId else tile.spadId

structure TaggedReq (c : NeuPIMSCore) (r : MemoryAccess) : Prop where
  old : r.parentTile < c.nextTile
  tile : ∀ tile, c.heap r.parentTile = some tile →
    tile.stagePlatform = r.stagePlatform ∧ r.bufferId = tileBuffer tile r.spadAddress

structure Tagged (config : SimulationConfig) (s : Session) : Prop where
  load : ∀ p, ∀ i ∈ (s.core.lane p).ldInstQueue, TaggedInst s.core p i ∧ takesLoad p i
  store : ∀ p, ∀ i ∈ (s.core.lane p).stInstQueue, TaggedInst s.core p i ∧ takes p .store i
  execute : ∀ p, ∀ i ∈ (s.core.lane p).exInstQueue, TaggedInst s.core p i ∧ takes p .compute i
  compute : ∀ i ∈ s.core.computePipeline, TaggedInst s.core .SA i
  vector : ∀ i ∈ contents (List.range config.vectorCoreCount) s.core.vectorPipelines,
    TaggedInst s.core (instPlatform i) i
  dropped : ∀ i ∈ s.core.dropped,
    ∃ p, TaggedInst s.core p i ∧ takes p .compute i ∧ Rejected i
  queued : ∀ p k, ∀ r ∈ (s.core.lane p).memoryRequestQueues k,
    r.stagePlatform = p ∧ TaggedReq s.core r
  unanswered : ∀ r ∈ s.unanswered, TaggedReq s.core r

variable {config : SimulationConfig} {set : RobinHood} {c c' : NeuPIMSCore}
  {s t : Session} {u : List MemoryAccess} {p : StagePlatform} {i : Instruction} {r : MemoryAccess}

theorem taggedInst_kept (h : TaggedInst c p i) (hkept : Kept c c') : TaggedInst c' p i where
  old := Nat.lt_of_lt_of_le h.old hkept.next
  platform := h.platform
  tile := by
    intro tile' htile'
    obtain ⟨tile, htile, hplatform, hspad, haccum, -⟩ := hkept.heap _ h.old tile' htile'
    rw [hplatform, hspad, haccum]
    exact h.tile tile htile

theorem taggedReq_kept (h : TaggedReq c r) (hkept : Kept c c') : TaggedReq c' r where
  old := Nat.lt_of_lt_of_le h.old hkept.next
  tile := by
    intro tile' htile'
    obtain ⟨tile, htile, hplatform, hspad, haccum, -⟩ := hkept.heap _ h.old tile' htile'
    rw [hplatform, tileBuffer, hspad, haccum]
    exact h.tile tile htile

theorem taggedInst_timed (h : TaggedInst c p i) (start finish : CycleType) :
    TaggedInst c p (timed i start finish) := ⟨h.old, h.platform, h.tile⟩

theorem taggedReq_made (h : TaggedInst c p i) (hmade : Made p i r) : TaggedReq c r := by
  obtain ⟨hplatform, hparent, hspad, hbuffer⟩ := hmade
  refine ⟨hparent ▸ h.old, ?_⟩
  intro tile htile
  rw [hparent] at htile
  obtain ⟨h1, h2, h3⟩ := h.tile tile htile
  refine ⟨h1.trans hplatform.symm, ?_⟩
  rw [hbuffer, Instruction.bufferId, tileBuffer, hspad, h2, h3]

/-- What flows from tagged queues is tagged. -/
theorem tagged_of_flows (h : Tagged config s) (hflows : Flows config s t) : Tagged config t := by
  have hexecute : ∀ q, ∀ j ∈ (s.core.lane q).exInstQueue, TaggedInst t.core q j :=
    fun q j hj => taggedInst_kept (h.execute q j hj).1 hflows.kept
  refine
    { load := fun q j hj => ?_
      store := fun q j hj => ?_
      execute := fun q j hj => ?_
      compute := fun j hj => ?_
      vector := fun j hj => ?_
      dropped := fun j hj => ?_
      queued := fun q k r hr => ?_
      unanswered := fun r hr => ?_ }
  · obtain ⟨htag, htakes⟩ := h.load q j (hflows.load q j hj)
    exact ⟨taggedInst_kept htag hflows.kept, htakes⟩
  · obtain ⟨htag, htakes⟩ := h.store q j (hflows.store q j hj)
    exact ⟨taggedInst_kept htag hflows.kept, htakes⟩
  · obtain ⟨htag, htakes⟩ := h.execute q j (hflows.execute q j hj)
    exact ⟨taggedInst_kept htag hflows.kept, htakes⟩
  · rcases hflows.compute j hj with hold | ⟨j', hj', a, b, rfl⟩
    · exact taggedInst_kept (h.compute j hold) hflows.kept
    · exact taggedInst_timed (hexecute .SA j' hj') a b
  · rcases hflows.vector j hj with hold | ⟨q, j', hj', a, b, rfl⟩
    · exact taggedInst_kept (h.vector j hold) hflows.kept
    · have htag := taggedInst_timed (hexecute q j' hj') a b
      rwa [htag.platform]
  · rcases hflows.dropped j hj with hold | ⟨q, hj, hrejected⟩
    · obtain ⟨q, htag, hrest⟩ := h.dropped j hold
      exact ⟨q, taggedInst_kept htag hflows.kept, hrest⟩
    · exact ⟨q, hexecute q j hj, (h.execute q j hj).2, hrejected⟩
  · rcases hflows.queued q k r hr with hold | ⟨j, hj, hmade⟩
    · obtain ⟨hplatform, htag⟩ := h.queued q k r hold
      exact ⟨hplatform, taggedReq_kept htag hflows.kept⟩
    · refine ⟨hmade.1, ?_⟩
      rcases hj with hj | hj
      · exact taggedReq_made (taggedInst_kept (h.load q j hj).1 hflows.kept) hmade
      · exact taggedReq_made (taggedInst_kept (h.store q j hj).1 hflows.kept) hmade
  · rcases hflows.unanswered r hr with hold | ⟨q, k, hold⟩
    · exact taggedReq_kept (h.unanswered r hold) hflows.kept
    · exact taggedReq_kept (h.queued q k r hold).2 hflows.kept

section Admission

variable {tile : Tile} {platform : StagePlatform}

theorem kept_of_update {x : Option Tile} (hheap : c'.heap = Function.update c.heap c.nextTile x)
    (hnext : c'.nextTile = c.nextTile + 1) : Kept c c' where
  next := hnext ▸ Nat.le_succ _
  heap := by
    intro ptr hptr tile' htile'
    rw [hheap, Function.update_of_ne (Nat.ne_of_lt hptr)] at htile'
    exact ⟨tile', htile', rfl, rfl, rfl, rfl⟩

/-- What was there before a tile joined stays tagged. -/
theorem tagged_kept (h : Tagged config ⟨c, u⟩) (hkept : Kept c c')
    (hqueues : ∀ p, (c.lane p).SameQueues (c'.lane p))
    (hcompute : c'.computePipeline = c.computePipeline)
    (hvector : c'.vectorPipelines = c.vectorPipelines) (hdropped : c'.dropped = c.dropped) :
    Tagged config ⟨c', u⟩ :=
  tagged_of_flows h (flows_of_sameQueues hkept hqueues (fun _ hi => hcompute ▸ hi)
    (fun _ hi => hvector ▸ hi) hdropped fun _ hr => hr)

/-- The tile's instructions carry the tile's place. -/
def Placed (c : NeuPIMSCore) (platform : StagePlatform) (tile : Tile) : Prop :=
  tile.stagePlatform = platform ∧ ∀ i ∈ tile.instructions, i.parentTile = c.nextTile ∧
    instPlatform i = platform ∧ i.spadId = tile.spadId ∧ i.accumSpadId = tile.accumSpadId

theorem tagged_admitTile (h : Tagged config ⟨c, u⟩) (hplaced : Placed c platform tile)
    (hok : c.admitTile platform tile = .ok c') : Tagged config ⟨c', u⟩ := by
  obtain ⟨l', tile', hall, hc'⟩ := admitTile_ok hok
  obtain ⟨hl', htile'⟩ := enqueueAll_ok hall
  obtain ⟨hplatform, hinsts⟩ := hplaced
  have hlane : c'.lane = Function.update c.lane platform
      { l' with tiles := l'.tiles ++ [c.nextTile] } := by rw [hc']
  have hheap : c'.heap = Function.update c.heap c.nextTile (some tile') := by rw [hc']
  have hnext : c'.nextTile = c.nextTile + 1 := by rw [hc']
  have hkept := kept_of_update hheap hnext
  have hnew : ∀ j ∈ tile.instructions, TaggedInst c' platform j := by
    intro j hj
    obtain ⟨hparent, hinst, hspad, haccum⟩ := hinsts j hj
    refine ⟨by rw [hparent, hnext]; exact Nat.lt_succ_self _, hinst, ?_⟩
    intro tile₁ htile₁
    rw [hheap, hparent, Function.update_self] at htile₁
    cases htile₁
    rw [htile']
    exact ⟨hplatform, hspad, haccum⟩
  have hqueue : ∀ (f : Lane → List Instruction) (P : StagePlatform → Instruction → Bool),
      f { l' with tiles := l'.tiles ++ [c.nextTile] } =
        f (c.lane platform) ++ tile.instructions.filter (P platform) →
      (∀ p, ∀ j ∈ f (c.lane p), TaggedInst c p j ∧ P p j) →
      ∀ p, ∀ j ∈ f (c'.lane p), TaggedInst c' p j ∧ P p j := by
    intro f P hf hold q j hj
    rw [hlane] at hj
    by_cases hq : q = platform
    · subst hq
      rw [Function.update_self, hf] at hj
      rcases List.mem_append.mp hj with hj | hj
      · exact ⟨taggedInst_kept (hold q j hj).1 hkept, (hold q j hj).2⟩
      · obtain ⟨hmem, hP⟩ := List.mem_filter.mp hj
        exact ⟨hnew j hmem, hP⟩
    · rw [Function.update_of_ne hq] at hj
      exact ⟨taggedInst_kept (hold q j hj).1 hkept, (hold q j hj).2⟩
  refine
    { load := hqueue Lane.ldInstQueue takesLoad (by rw [hl']) h.load
      store := hqueue Lane.stInstQueue (fun p => takes p .store) (by rw [hl']) h.store
      execute := hqueue Lane.exInstQueue (fun p => takes p .compute) (by rw [hl']) h.execute
      compute := ?_
      vector := ?_
      dropped := ?_
      queued := ?_
      unanswered := fun r hr => taggedReq_kept (h.unanswered r hr) hkept }
  · rw [hc']
    exact fun j hj => taggedInst_kept (h.compute j hj) (hc' ▸ hkept)
  · rw [hc']
    exact fun j hj => taggedInst_kept (h.vector j hj) (hc' ▸ hkept)
  · intro j hj
    rw [hc'] at hj
    obtain ⟨q, htag, hrest⟩ := h.dropped j hj
    exact ⟨q, taggedInst_kept htag hkept, hrest⟩
  · intro q k r hr
    have hsame := lane_same Lane.memoryRequestQueues hlane (by rw [hl']) q
    dsimp only at hr
    rw [hsame] at hr
    obtain ⟨hplatform', htag⟩ := h.queued q k r hr
    exact ⟨hplatform', taggedReq_kept htag hkept⟩

theorem placed_startTile (hplatform : tile.stagePlatform = platform)
    (hunmarked : unmarked tile) (b a : ℕ) :
    Placed c platform (c.startTile platform tile b a) := by
  refine ⟨hplatform, ?_⟩
  intro j hj
  obtain ⟨j', hj', rfl⟩ := List.mem_map.mp hj
  refine ⟨rfl, ?_, rfl, rfl⟩
  have hnot : j'.isPimInst = false := by
    have := List.all_eq_true.mp hunmarked j' hj'
    simpa using this
  cases platform <;> simp [instPlatform, claimInst, hnot]

theorem tagged_skipTile (h : Tagged config ⟨c, u⟩) (tile : Tile) :
    Tagged config ⟨c.skipTile tile, u⟩ :=
  tagged_kept h (kept_of_update rfl rfl) (fun _ => sameQueues_refl _) rfl rfl rfl

theorem tagged_preserved : Preserved config set (fun _ _ => True) (Tagged config) where
  unit := by
    intro c u unit c' h hok
    by_cases hcore : unit = .core
    · subst hcore
      cases hok
      have htick : Tagged config ⟨c.tick, u⟩ :=
        tagged_kept h (kept_of_eq rfl rfl) (fun _ => sameQueues_refl _) rfl rfl rfl
      exact tagged_of_flows (tagged_of_flows htick flows_retire) flows_retire
    · exact tagged_of_flows h (flows_unitStep hcore hok)
  issue := by
    intro c u tile c' h _ hplatform hunmarked _ hok
    unfold issue at hok
    split_ifs at hok with hskip
    · cases hok
      exact tagged_skipTile h tile
    · have hflip : Tagged config ⟨c.flipBuffers tile.accum, u⟩ :=
        tagged_kept h (kept_of_eq rfl rfl) (sameQueues_flipBuffers _) rfl rfl rfl
      exact tagged_admitTile hflip (placed_startTile hplatform hunmarked _ _) hok
  issuePim := by
    intro c u tile c' h _ hplatform hunmarked _ hok
    unfold issuePim at hok
    split_ifs at hok with hskip
    · cases hok
      exact tagged_skipTile h tile
    · have hflush : Tagged config ⟨c.flushPim, u⟩ :=
        tagged_kept h (kept_of_eq rfl rfl) sameQueues_flushPim rfl rfl rfl
      exact tagged_admitTile hflush (placed_startTile hplatform hunmarked _ _) hok
  pop := fun _ _ _ _ _ _ h _ hpop => tagged_of_flows h (flows_popMemoryRequest hpop)
  response := by
    intro c u request platform c' h hmem hheader hok
    refine tagged_of_flows h (flows_pushMemoryResponse hmem hheader ?_ ?_ hok) <;> rfl
  finished := by
    intro c u h
    unfold popFinishedTile
    cases c.finishedTiles with
    | nil => exact h
    | cons ptr rest =>
      refine tagged_kept h ⟨Nat.le_refl _, ?_⟩ (fun _ => sameQueues_refl _) rfl rfl rfl
      intro q _ tile htile
      by_cases hq : q = ptr
      · subst hq
        simp at htile
      · exact ⟨tile, by simpa [hq] using htile, rfl, rfl, rfl, rfl⟩
  statics := fun _ _ _ _ h =>
    tagged_kept h (kept_of_eq rfl rfl) (fun _ => sameQueues_refl _) rfl rfl rfl

theorem tagged_init (id : ℕ) : Tagged config (init config id) where
  load := fun _ _ hi => by cases hi
  store := fun _ _ hi => by cases hi
  execute := fun _ _ hi => by cases hi
  compute := fun _ hi => by cases hi
  vector := fun i hi => by
    obtain ⟨k, -, hk⟩ := mem_contents.mp hi
    cases hk
  dropped := fun _ hi => by cases hi
  queued := fun _ _ _ hr => by cases hr
  unanswered := fun _ hr => by cases hr

end Admission

end NewPims.NeuPIMSystolicWS

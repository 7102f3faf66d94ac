import NewPims.NeuPIMSystolicWS.Admission

/-! The counters along a run: every call keeps them at the work outstanding, and a cycle
finishes the tiles that have none. -/
namespace NewPims

open NeuPIMSystolicWS Bank Transition

namespace NeuPIMSCore

variable {platform p : StagePlatform} {c : NeuPIMSCore} {ptr : TilePtr}

theorem mem_retire_tiles : ptr ∈ ((c.retire platform).lane p).tiles ↔
    ptr ∈ (c.lane p).tiles ∧ (p = platform → c.drained ptr = false) := by
  by_cases hp : p = platform
  · subst hp
    simp [retire]
  · simp [retire, hp]

theorem mem_retire_finished : ptr ∈ (c.retire platform).finishedTiles ↔
    ptr ∈ c.finishedTiles ∨ ptr ∈ (c.lane platform).tiles ∧ c.drained ptr = true := by
  simp [retire]

theorem heap_retire (h : ¬ (ptr ∈ (c.lane platform).tiles ∧ c.drained ptr)) :
    (c.retire platform).heap ptr = c.heap ptr := if_neg h

theorem heap_retire_drained (h : ptr ∈ (c.lane platform).tiles ∧ c.drained ptr) :
    (c.retire platform).heap ptr =
      (c.heap ptr).map fun tile => { tile with status := .FINISH } := if_pos h

theorem drained_iff {tile : Tile} (htile : c.heap ptr = some tile) :
    c.drained ptr = true ↔ tile.remainingAccumIo = 0 ∧ tile.remainingComputes = 0 ∧
      tile.remainingLoads = 0 := by
  simp [drained, htile, and_assoc]

end NeuPIMSCore

namespace NeuPIMSystolicWS.Session

open NeuPIMSCore

variable {config : SimulationConfig} {set : RobinHood} {s t : Session} {c c' : NeuPIMSCore}
  {u : List MemoryAccess} {platform : StagePlatform} {ptr : TilePtr}

/-- Nothing that counts has moved. -/
theorem moves_same (hqueues : ∀ p, (c.lane p).SameQueues (c'.lane p))
    (hheap : c'.heap = c.heap) (hnext : c'.nextTile = c.nextTile)
    (hfinished : c'.finishedTiles = c.finishedTiles) (hpiped : piped config c' = piped config c)
    (hdropped : c'.dropped = c.dropped) (hwaiting : c'.waitingWriteReqs = c.waitingWriteReqs) :
    Moves config ⟨c, u⟩ ⟨c', u⟩ 0 0 0 0 0 0 := by
  obtain ⟨hld, hst, hex, hreq⟩ := sameQueues_contents config hqueues
  refine
    { tiles := fun p => (hqueues p).1
      next := hnext
      finished := hfinished
      pending := fun q => pending_same hex hpiped hdropped
      loads := fun q => loads_same hld
      stores := fun q => stores_same hst
      reads := fun q => reads_same hreq
      writes := fun q => writes_same hreq
      allWrites := allWrites_same hreq
      waiting := hwaiting.trans (Int.add_zero _).symm
      heap := fun q _ => congrFun hheap q
      tile := ?_
      gone := fun hgone => (congrFun hheap _).trans hgone
      busy := ⟨fun _ => rfl, fun _ => ⟨rfl, rfl⟩, fun _ => ⟨rfl, rfl⟩⟩ }
  intro tile htile
  exact ⟨tile, (congrFun hheap _).trans htile, shifted_zero ⟨tile.stat, rfl⟩⟩

/-- A tile of the core that is drained has nothing outstanding, and the converse. -/
theorem drained_iff_idle (h : Counted config ⟨c, u⟩) (hptr : ptr ∈ (c.lane platform).tiles) :
    c.drained ptr = true ↔ Idle config ⟨c, u⟩ ptr := by
  obtain ⟨tile, htile, -, hbalanced⟩ := h.live platform ptr hptr
  rw [drained_iff htile]
  exact balanced_zero hbalanced

theorem counted_retire (h : Counted config ⟨c, u⟩) : Counted config ⟨c.retire platform, u⟩ := by
  have hlane : (c.retire platform).lane = Function.update c.lane platform
      { c.lane platform with
        tiles := (c.lane platform).tiles.filter fun ptr => !c.drained ptr } := rfl
  have hex := contents_lane_same Lane.exInstQueue hlane rfl
  have hld := contents_lane_same Lane.ldInstQueue hlane rfl
  have hst := contents_lane_same Lane.stInstQueue hlane rfl
  have hreq := contents_lane_same (fun l => contents (List.range config.dramChannels)
    l.memoryRequestQueues) hlane rfl
  have hrequests : requests config ⟨c.retire platform, u⟩ = requests config ⟨c, u⟩ :=
    requests_congr hreq
  have hpending : ∀ q, pendingOf config ⟨c.retire platform, u⟩ q =
      pendingOf config ⟨c, u⟩ q := by
    intro q
    rw [pendingOf_eq, pendingOf_eq]
    exact congrArg (fun n => n + (piped config c ++ c.dropped).countP (instOf q))
      (congrArg (List.countP (instOf q)) hex)
  have hloads : ∀ q, loadsOf ⟨c.retire platform, u⟩ q = loadsOf ⟨c, u⟩ q :=
    fun q => congrArg (List.countP (loadOf q)) hld
  have hstores : ∀ q, storesOf ⟨c.retire platform, u⟩ q = storesOf ⟨c, u⟩ q :=
    fun q => congrArg (List.countP (instOf q)) hst
  have hreads : ∀ q, readsOf config ⟨c.retire platform, u⟩ q = readsOf config ⟨c, u⟩ q :=
    fun q => congrArg (List.countP (readOf q)) hrequests
  have hwrites : ∀ q, writesOf config ⟨c.retire platform, u⟩ q = writesOf config ⟨c, u⟩ q :=
    fun q => congrArg (List.countP (writeOf q)) hrequests
  have hidle : ∀ q, Idle config ⟨c.retire platform, u⟩ q ↔ Idle config ⟨c, u⟩ q := by
    intro q
    rw [idle_iff, idle_iff, hpending, hloads, hstores, hreads, hwrites]
  have hapart : ∀ q p, q ∈ (c.lane p).tiles → q ∈ (c.lane platform).tiles → p = platform := by
    intro q p hp hq
    cases p <;> cases platform
    · rfl
    · exact absurd hq (h.apart q hp)
    · exact absurd hp (h.apart q hq)
    · rfl
  refine
    { live := ?_
      idle := ?_
      fresh := ?_
      finished := ?_
      apart := ?_
      waiting := ?_ }
  · intro p q hq
    obtain ⟨hold, hdrained⟩ := mem_retire_tiles.mp hq
    obtain ⟨tile, htile, hstatus, hc, hl, hio⟩ := h.live p q hold
    refine ⟨tile, ?_, hstatus, ?_⟩
    · refine (heap_retire ?_).trans htile
      rintro ⟨hmem, hd⟩
      rw [hdrained (hapart q p hold hmem)] at hd
      cases hd
    · simp only [Balanced, hpending, hloads, hstores, hreads, hwrites]
      exact ⟨hc, hl, hio⟩
  · intro q hq
    rw [hidle]
    by_cases hmem : ∃ p, q ∈ (c.lane p).tiles
    · obtain ⟨p, hp⟩ := hmem
      by_contra hbusy
      refine hq p (mem_retire_tiles.mpr ⟨hp, fun _ => ?_⟩)
      rw [← drained_iff_idle h hp] at hbusy
      exact Bool.eq_false_iff.mpr hbusy
    · exact h.idle q (not_exists.mp hmem)
  · intro q hq
    obtain ⟨hnot, hnotFinished⟩ := h.fresh q hq
    refine ⟨fun p hp => hnot p (mem_retire_tiles.mp hp).1, fun hf => ?_⟩
    rcases mem_retire_finished.mp hf with hf | ⟨hmem, -⟩
    · exact hnotFinished hf
    · exact hnot platform hmem
  · intro q hf p hp
    obtain ⟨hold, hdrained⟩ := mem_retire_tiles.mp hp
    rcases mem_retire_finished.mp hf with hf | ⟨hmem, hd⟩
    · exact h.finished q hf p hold
    · rw [hdrained (hapart q p hold hmem)] at hd
      cases hd
  · intro q hsa hpim
    exact h.apart q (mem_retire_tiles.mp hsa).1 (mem_retire_tiles.mp hpim).1
  · have hw : writes config ⟨c.retire platform, u⟩ = writes config ⟨c, u⟩ :=
      congrArg (List.countP isWrite) hrequests
    rw [hw, ← h.waiting]
    rfl

theorem sameQueues_refl (l : Lane) : l.SameQueues l := ⟨rfl, rfl, rfl, rfl, rfl⟩

theorem counted_cycle (h : Counted config ⟨c, u⟩) : Counted config ⟨c.cycle, u⟩ := by
  have htick : Counted config ⟨c.tick, u⟩ :=
    counted_of_moves h (moves_same (fun _ => sameQueues_refl _) rfl rfl rfl rfl rfl rfl)
  exact counted_retire (counted_retire htick)

/-- Every step but the last of a cycle moves the work of one tile, if any. -/
theorem moves_unitStep {unit : UnitStep} (hcore : unit ≠ .core)
    (hok : unitStep config set c unit = .ok c') :
    c' = c ∨ ∃ ptr dc dl ds dr dw, Moves config ⟨c, u⟩ ⟨c', u⟩ ptr dc dl ds dr dw := by
  cases unit with
  | systolic =>
    rcases systolicCycle_ok config hok with rfl | ⟨p, inst, d, hfront, hcomplete⟩
    · exact Or.inl rfl
    · exact Or.inr ⟨_, _, _, _, _, _, moves_complete hfront hcomplete⟩
  | vector k =>
    simp only [unitStep] at hok
    split_ifs at hok with hk
    rcases vectorPipelineCycle_ok hk hok with rfl | ⟨p, inst, d, hfront, hcomplete⟩
    · exact Or.inl rfl
    · exact Or.inr ⟨_, _, _, _, _, _, moves_complete hfront hcomplete⟩
  | ld =>
    rcases moves_ldInst hok with rfl | ⟨_, _, _, hmoves⟩
    · exact Or.inl rfl
    · exact Or.inr ⟨_, _, _, _, _, _, hmoves⟩
  | st p =>
    rcases moves_storeQueueCycle hok with rfl | ⟨_, _, _, hmoves⟩
    · exact Or.inl rfl
    · exact Or.inr ⟨_, _, _, _, _, _, hmoves⟩
  | ex p =>
    rcases moves_executeQueueCycle hok with rfl | ⟨_, hmoves⟩
    · exact Or.inl rfl
    · exact Or.inr ⟨_, _, _, _, _, _, hmoves⟩
  | pimLd =>
    rcases moves_pimLdInst hok with rfl | ⟨_, _, _, hmoves⟩
    · exact Or.inl rfl
    · exact Or.inr ⟨_, _, _, _, _, _, hmoves⟩
  | chargeSystolic =>
    rcases moves_chargeCycle hok with rfl | ⟨_, hmoves⟩
    · exact Or.inl rfl
    · exact Or.inr ⟨_, _, _, _, _, _, hmoves⟩
  | chargeVector k =>
    simp only [unitStep] at hok
    split_ifs at hok with hk
    rcases moves_chargeCycle hok with rfl | ⟨_, hmoves⟩
    · exact Or.inl rfl
    · exact Or.inr ⟨_, _, _, _, _, _, hmoves⟩
  | core => exact absurd rfl hcore

theorem counted_unitStep {unit : UnitStep} (h : Counted config ⟨c, u⟩)
    (hok : unitStep config set c unit = .ok c') : Counted config ⟨c', u⟩ := by
  by_cases hcore : unit = .core
  · subst hcore
    cases hok
    exact counted_cycle h
  · rcases moves_unitStep hcore hok with rfl | ⟨_, _, _, _, _, _, hmoves⟩
    · exact h
    · exact counted_of_moves h hmoves

theorem counted_skipTile (h : Counted config ⟨c, u⟩) (tile : Tile) :
    Counted config ⟨c.skipTile tile, u⟩ := by
  obtain ⟨hnew, hnewFinished⟩ := h.fresh c.nextTile (Nat.le_refl _)
  refine
    { live := ?_
      idle := h.idle
      fresh := ?_
      finished := ?_
      apart := h.apart
      waiting := h.waiting }
  · intro p q hq
    obtain ⟨tile₁, htile₁, hrest⟩ := h.live p q hq
    have hne : q ≠ c.nextTile := fun heq => hnew p (heq ▸ hq)
    exact ⟨tile₁, (Function.update_of_ne hne _ _).trans htile₁, hrest⟩
  · intro q hq
    have hlt : c.nextTile < q := hq
    obtain ⟨hnot, hnotFinished⟩ := h.fresh q (Nat.le_of_lt hlt)
    refine ⟨hnot, fun hf => ?_⟩
    rcases List.mem_append.mp hf with hf | hf
    · exact hnotFinished hf
    · exact Nat.ne_of_lt hlt (List.mem_singleton.mp hf).symm
  · intro q hf p hp
    rcases List.mem_append.mp hf with hf | hf
    · exact h.finished q hf p hp
    · rw [List.mem_singleton.mp hf] at hp
      exact hnew p hp

theorem startTile_parent (c : NeuPIMSCore) (platform : StagePlatform) (tile : Tile) (b a : ℕ) :
    ∀ i ∈ (c.startTile platform tile b a).instructions, i.parentTile = c.nextTile := by
  intro i hi
  obtain ⟨j, -, rfl⟩ := List.mem_map.mp hi
  rfl

theorem sameQueues_flipBuffers (accum : Bool) (p : StagePlatform) :
    (c.lane p).SameQueues ((c.flipBuffers accum).lane p) := by
  have hlane : (c.flipBuffers accum).lane = Function.update c.lane .SA _ := rfl
  exact sameQueues_update hlane ⟨rfl, rfl, rfl, rfl, rfl⟩ p

theorem sameQueues_flushPim (p : StagePlatform) :
    (c.lane p).SameQueues (c.flushPim.lane p) := by
  have hlane : c.flushPim.lane = Function.update c.lane .PIM _ := rfl
  exact sameQueues_update hlane ⟨rfl, rfl, rfl, rfl, rfl⟩ p

theorem counted_issue {tile : Tile} (h : Counted config ⟨c, u⟩) (hok : c.issue tile = .ok c') :
    Counted config ⟨c', u⟩ := by
  unfold issue at hok
  split_ifs at hok with hskip
  · cases hok
    exact counted_skipTile h tile
  · have hflip : Counted config ⟨c.flipBuffers tile.accum, u⟩ :=
      counted_of_moves h (moves_same (sameQueues_flipBuffers _) rfl rfl rfl rfl rfl rfl)
    exact counted_admitTile hflip rfl rfl rfl rfl (startTile_parent _ _ _ _ _) hok

theorem counted_issuePim {tile : Tile} (h : Counted config ⟨c, u⟩)
    (hok : c.issuePim tile = .ok c') : Counted config ⟨c', u⟩ := by
  unfold issuePim at hok
  split_ifs at hok with hskip
  · cases hok
    exact counted_skipTile h tile
  · have hflush : Counted config ⟨c.flushPim, u⟩ :=
      counted_of_moves h (moves_same sameQueues_flushPim rfl rfl rfl rfl rfl rfl)
    exact counted_admitTile hflush rfl rfl rfl rfl (startTile_parent _ _ _ _ _) hok

theorem counted_popFinishedTile (h : Counted config ⟨c, u⟩) :
    Counted config ⟨c.popFinishedTile.2, u⟩ := by
  unfold popFinishedTile
  cases hfinished : c.finishedTiles with
  | nil => exact h
  | cons ptr rest =>
    have hsub : ∀ q ∈ rest, q ∈ c.finishedTiles := by
      intro q hq
      rw [hfinished]
      exact List.mem_cons_of_mem ptr hq
    refine
      { live := ?_
        idle := h.idle
        fresh := fun q hq => ⟨(h.fresh q hq).1, fun hf => (h.fresh q hq).2 (hsub q hf)⟩
        finished := fun q hq => h.finished q (hsub q hq)
        apart := h.apart
        waiting := h.waiting }
    intro p q hq
    obtain ⟨tile, htile, hrest⟩ := h.live p q hq
    have hne : q ≠ ptr := by
      rintro rfl
      exact h.finished q (by rw [hfinished]; exact List.mem_cons_self) p hq
    exact ⟨tile, (Function.update_of_ne hne _ _).trans htile, hrest⟩

theorem counted_init (id : ℕ) : Counted config (init config id) := by
  have hpiped : piped config (NeuPIMSCore.init config id) = [] := by
    simp [piped, NeuPIMSCore.init, contents]
  have hrequests : requests config (init config id) = [] := by
    simp [requests, queuedRequests, init, NeuPIMSCore.init, Lane.init, contents]
  refine
    { live := fun p q hq => by cases hq
      idle := fun q _ => ?_
      fresh := fun q _ => ⟨fun p => List.not_mem_nil, List.not_mem_nil⟩
      finished := fun q hq => by cases hq
      apart := fun q hq => by cases hq
      waiting := by rw [writes, hrequests]; rfl }
  rw [idle_iff]
  refine ⟨?_, rfl, rfl, by rw [readsOf, hrequests]; rfl, by rw [writesOf, hrequests]; rfl⟩
  rw [init, pendingOf_eq, hpiped]
  rfl

/-- Every call keeps the counters at the work outstanding. -/
theorem counted_preserved : Preserved config set (fun _ _ => True) (Counted config) where
  unit := fun _ _ _ _ h hok => counted_unitStep h hok
  issue := fun _ _ _ _ h _ _ _ _ hok => counted_issue h hok
  issuePim := fun _ _ _ _ h _ _ _ _ hok => counted_issuePim h hok
  pop := fun _ _ _ _ _ _ h hchannel hpop =>
    counted_of_moves h (moves_popMemoryRequest hchannel hpop)
  response := by
    intro c u request platform c' h hmem hheader hok
    have hmoves : ∃ dr dw, Moves config ⟨c, u⟩ ⟨c', u.erase request⟩
        request.parentTile 0 0 0 dr dw := by
      refine moves_pushMemoryResponse hmem hheader ?_ ?_ hok <;> rfl
    obtain ⟨dr, dw, hmoves⟩ := hmoves
    exact counted_of_moves h hmoves
  finished := fun _ _ h => counted_popFinishedTile h
  statics := fun c _ _ _ h => counted_of_moves h
    (moves_same (c := c) (fun _ => sameQueues_refl _) rfl rfl rfl rfl rfl rfl)

end NeuPIMSystolicWS.Session

end NewPims

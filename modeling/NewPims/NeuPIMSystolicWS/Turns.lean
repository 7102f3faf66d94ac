import NewPims.NeuPIMSystolicWS.Tags

/-! The turns of the double buffers: where the tiles at work sit, and why only the last of them may
still load. -/
namespace NewPims

namespace Lane

/-- The lane as `flipBuffers` leaves it. -/
def flip (l : Lane) (spadId accumSpadId : ℕ) (accum : Bool) : Lane :=
  { l with
    spad := l.spad.flush spadId
    accSpad := if accum then l.accSpad else l.accSpad.flush accumSpadId }

end Lane

namespace NeuPIMSystolicWS

open Bank Transition NeuPIMSCore Session

/-- The tiles at work are in the lane of their platform; one that still loads into the current
scratchpad has the current accumulator, too. -/
structure Turned (c : NeuPIMSCore) : Prop where
  spad : c.currentSpad < 2
  acc : c.currentAccSpad < 2
  platform : ∀ p, ∀ ptr ∈ (c.lane p).tiles, ∀ tile, c.heap ptr = some tile →
    tile.stagePlatform = p
  range : ∀ ptr ∈ (c.lane .SA).tiles, ∀ tile, c.heap ptr = some tile → tile.spadId < 2
  latest : ∀ ptr ∈ (c.lane .SA).tiles, ∀ tile, c.heap ptr = some tile →
    tile.remainingLoads ≠ 0 → tile.spadId = c.currentSpad → tile.accumSpadId = c.currentAccSpad

/-- The buffers in use are as before. -/
def SameTurn (c c' : NeuPIMSCore) : Prop :=
  c'.currentSpad = c.currentSpad ∧ c'.currentAccSpad = c.currentAccSpad

/-- The tile is where it was, and has begun no load. -/
def Settling (tile tile' : Tile) : Prop :=
  SamePlace tile tile' ∧ (tile'.remainingLoads ≠ 0 → tile.remainingLoads ≠ 0)

variable {config : SimulationConfig} {set : RobinHood} {c c' d : NeuPIMSCore} {s t : Session}
  {u u' : List MemoryAccess} {platform p : StagePlatform} {ptr q : TilePtr} {tile : Tile}
  {inst : Instruction}

theorem sameTurn_refl (c : NeuPIMSCore) : SameTurn c c := ⟨rfl, rfl⟩

theorem sameTurn_complete (hfront : Front config c platform inst d)
    (h : complete d platform inst = .ok c') : SameTurn c c' := by
  obtain ⟨-, l, tile, -, -, rfl⟩ := complete_ok h
  cases hfront <;> exact ⟨rfl, rfl⟩

theorem sameTurn_executeQueueCycle (h : executeQueueCycle config platform c = .ok c') :
    SameTurn c c' := by
  rcases executeQueueCycle_ok h with rfl | ⟨front, rest, -, -, ⟨-, d, hd, hexpect⟩ | ⟨-, rfl⟩⟩
  · exact sameTurn_refl c'
  · obtain ⟨s, -, rfl⟩ := expectResult_ok hexpect
    cases hd <;> exact ⟨rfl, rfl⟩
  · exact ⟨rfl, rfl⟩

/-- The steps of a cycle leave the turns to `issue`. -/
theorem sameTurn_unitStep {unit : UnitStep} (h : unitStep config set c unit = .ok c') :
    SameTurn c c' := by
  cases unit with
  | systolic =>
    rcases systolicCycle_ok config h with rfl | ⟨p, inst, d, hfront, hcomplete⟩
    · exact sameTurn_refl c'
    · exact sameTurn_complete hfront hcomplete
  | vector k =>
    simp only [unitStep] at h
    split_ifs at h with hk
    rcases vectorPipelineCycle_ok hk h with rfl | ⟨p, inst, d, hfront, hcomplete⟩
    · exact sameTurn_refl c'
    · exact sameTurn_complete hfront hcomplete
  | ld => rcases ldInst_ok h with ⟨-, rfl⟩ | ⟨_, _, _, _, _, -, -, -, -, -, -, rfl⟩ <;> exact ⟨rfl, rfl⟩
  | st p => rcases storeQueueCycle_ok h with rfl | ⟨_, _, _, _, -, -, -, -, -, rfl⟩ <;> exact ⟨rfl, rfl⟩
  | ex p => exact sameTurn_executeQueueCycle h
  | pimLd =>
    rcases pimLdInst_ok h with ⟨-, rfl⟩ | ⟨_, _, _, _, _, -, -, -, -, -, rfl⟩ <;> exact ⟨rfl, rfl⟩
  | chargeSystolic => rcases chargeCycle_ok h with rfl | ⟨_, _, _, -, -, rfl⟩ <;> exact ⟨rfl, rfl⟩
  | chargeVector k =>
    simp only [unitStep] at h
    split_ifs at h with hk
    rcases chargeCycle_ok h with rfl | ⟨_, _, _, -, -, rfl⟩ <;> exact ⟨rfl, rfl⟩
  | core =>
    cases h
    exact ⟨rfl, rfl⟩

/-- The invariant needs the turns, the tiles at work, their places and their loads. -/
theorem turned_of_same (h : Turned c) (hturn : SameTurn c c')
    (htiles : ∀ p, ∀ ptr ∈ (c'.lane p).tiles, ptr ∈ (c.lane p).tiles)
    (hheap : ∀ p, ∀ ptr ∈ (c'.lane p).tiles, ∀ tile', c'.heap ptr = some tile' →
      ∃ tile, c.heap ptr = some tile ∧ Settling tile tile') : Turned c' where
  spad := hturn.1 ▸ h.spad
  acc := hturn.2 ▸ h.acc
  platform := by
    intro p ptr hptr tile' htile'
    obtain ⟨tile, htile, ⟨hplatform, -⟩, -⟩ := hheap p ptr hptr tile' htile'
    exact hplatform.trans (h.platform p ptr (htiles p ptr hptr) tile htile)
  range := by
    intro ptr hptr tile' htile'
    obtain ⟨tile, htile, ⟨-, hspad, -⟩, -⟩ := hheap .SA ptr hptr tile' htile'
    rw [hspad]
    exact h.range ptr (htiles .SA ptr hptr) tile htile
  latest := by
    intro ptr hptr tile' htile' hloads
    obtain ⟨tile, htile, ⟨-, hspad, hacc, -⟩, hold⟩ := hheap .SA ptr hptr tile' htile'
    rw [hspad, hacc, hturn.1, hturn.2]
    exact h.latest ptr (htiles .SA ptr hptr) tile htile (hold hloads)

theorem settling_refl (tile : Tile) : Settling tile tile := ⟨⟨rfl, rfl, rfl, rfl⟩, id⟩

/-- Work that moves on begins no load of a tile that has none. -/
theorem settling_of_moves {dc dl ds dr dw : ℤ} (h : Counted config s)
    (hmoves : Moves config s t ptr dc dl ds dr dw) (hq : q ∈ (s.core.lane p).tiles) {tile' : Tile}
    (htile' : t.core.heap q = some tile') :
    ∃ tile, s.core.heap q = some tile ∧ Settling tile tile' := by
  obtain ⟨tile, htile, -, -, hloads, -⟩ := h.live p q hq
  refine ⟨tile, htile, ?_⟩
  by_cases hqp : q = ptr
  · subst hqp
    obtain ⟨tile₁, htile₁, hshifted⟩ := hmoves.tile tile htile
    cases htile₁.symm.trans htile'
    have hplace : SamePlace tile tile' := by
      rw [hshifted.task]
      exact ⟨rfl, rfl, rfl, rfl⟩
    refine ⟨hplace, ?_⟩
    intro hne hzero
    have hnone : s.loadsOf q = 0 ∧ s.readsOf config q = 0 := by
      rw [hzero] at hloads
      omega
    obtain ⟨hdl, hdr⟩ := hmoves.busy.2.1 hnone
    have := hshifted.loads
    omega
  · rw [hmoves.heap q hqp] at htile'
    cases htile.symm.trans htile'
    exact settling_refl _

theorem turned_of_moves {dc dl ds dr dw : ℤ} (h : Turned s.core) (hcounted : Counted config s)
    (hmoves : Moves config s t ptr dc dl ds dr dw) (hturn : SameTurn s.core t.core) :
    Turned t.core := by
  have htiles : ∀ p, ∀ q ∈ (t.core.lane p).tiles, q ∈ (s.core.lane p).tiles := by
    intro p q hq
    rwa [hmoves.tiles p] at hq
  refine turned_of_same h hturn htiles ?_
  intro p q hq tile' htile'
  exact settling_of_moves hcounted hmoves (htiles p q hq) htile'

theorem turned_retire (h : Turned c) : Turned (c.retire platform) := by
  have hmem : ∀ p, ∀ ptr ∈ ((c.retire platform).lane p).tiles, ptr ∈ (c.lane p).tiles :=
    fun p ptr hptr => (mem_retire_tiles.mp hptr).1
  refine turned_of_same h ⟨rfl, rfl⟩ hmem ?_
  intro p ptr _ tile' htile'
  by_cases hdrained : ptr ∈ (c.lane platform).tiles ∧ c.drained ptr = true
  · rw [heap_retire_drained hdrained] at htile'
    obtain ⟨tile, htile, rfl⟩ := Option.map_eq_some_iff.mp htile'
    exact ⟨tile, htile, ⟨rfl, rfl, rfl, rfl⟩, id⟩
  · rw [heap_retire hdrained] at htile'
    exact ⟨tile', htile', settling_refl tile'⟩

theorem turned_unitStep {unit : UnitStep} (h : Turned c) (hcounted : Counted config ⟨c, u⟩)
    (hok : unitStep config set c unit = .ok c') : Turned c' := by
  by_cases hcore : unit = .core
  · subst hcore
    cases hok
    have htick : Turned c.tick := ⟨h.spad, h.acc, h.platform, h.range, h.latest⟩
    exact turned_retire (turned_retire htick)
  · rcases moves_unitStep hcore hok with rfl | ⟨_, _, _, _, _, _, hmoves⟩
    · exact h
    · exact turned_of_moves (s := ⟨c, u⟩) (t := ⟨c', u⟩) h hcounted hmoves (sameTurn_unitStep hok)

theorem turned_init (id : ℕ) : Turned (NeuPIMSCore.init config id) where
  spad := Nat.zero_lt_two
  acc := Nat.zero_lt_two
  platform := fun _ _ hptr => absurd hptr List.not_mem_nil
  range := fun _ hptr => absurd hptr List.not_mem_nil
  latest := fun _ hptr => absurd hptr List.not_mem_nil

section Issue

/-- `can_issue` waits for the loads and the computations of the next scratchpad. -/
theorem canIssue_spad (h : Turned c) (hcan : c.canIssue tile = true)
    (hptr : ptr ∈ (c.lane .SA).tiles) {tile' : Tile} (htile' : c.heap ptr = some tile')
    (hspad : tile'.spadId = (c.currentSpad + 1) % 2) :
    tile'.remainingLoads = 0 ∧ tile'.remainingComputes = 0 := by
  have hxor : ∀ n < 2, n ^^^ 1 = (n + 1) % 2 := by decide
  rw [canIssue, hxor _ h.spad, Bool.or_eq_true, Bool.and_eq_true, List.isEmpty_iff,
    List.all_eq_true] at hcan
  rcases hcan with hnil | ⟨hall, -⟩
  · rw [hnil] at hptr
    exact absurd hptr List.not_mem_nil
  · have huses := hall ptr hptr
    simp only [usesSpad, htile', hspad, beq_self_eq_true, Bool.true_and, Bool.not_eq_true',
      Bool.or_eq_false_iff, bne_eq_false_iff_eq] at huses
    exact huses

/-- For a tile that does not accumulate, it waits for the computations and the stores of the next
accumulator. -/
theorem canIssue_acc (h : Turned c) (hcan : c.canIssue tile = true) (haccum : tile.accum = false)
    (hptr : ptr ∈ (c.lane .SA).tiles) {tile' : Tile} (htile' : c.heap ptr = some tile')
    (hacc : tile'.accumSpadId = (c.currentAccSpad + 1) % 2) : tile'.remainingAccumIo = 0 := by
  have hxor : ∀ n < 2, n ^^^ 1 = (n + 1) % 2 := by decide
  rw [canIssue, hxor _ h.acc, haccum, Bool.false_or, Bool.or_eq_true, Bool.and_eq_true,
    List.isEmpty_iff, List.all_eq_true, List.all_eq_true] at hcan
  rcases hcan with hnil | ⟨-, hall⟩
  · rw [hnil] at hptr
    exact absurd hptr List.not_mem_nil
  · have huses := hall ptr hptr
    simp only [usesAccSpad, htile', hacc, beq_self_eq_true, Bool.true_and, Bool.not_eq_true',
      bne_eq_false_iff_eq] at huses
    exact huses

/-- A tile that still loads has the current scratchpad, once `can_issue` holds. -/
theorem canIssue_loads (h : Turned c) (hcan : c.canIssue tile = true)
    (hptr : ptr ∈ (c.lane .SA).tiles) {tile' : Tile} (htile' : c.heap ptr = some tile')
    (hloads : tile'.remainingLoads ≠ 0) :
    tile'.spadId = c.currentSpad ∧ tile'.accumSpadId = c.currentAccSpad := by
  have hne : tile'.spadId ≠ (c.currentSpad + 1) % 2 := fun heq =>
    hloads (canIssue_spad h hcan hptr htile' heq).1
  have := h.range ptr hptr tile' htile'
  have := h.spad
  have hspad : tile'.spadId = c.currentSpad := by omega
  exact ⟨hspad, h.latest ptr hptr tile' htile' hloads hspad⟩

theorem turned_flipBuffers (h : Turned c) (hcan : c.canIssue tile = true) :
    Turned (c.flipBuffers tile.accum) := by
  have htiles : ∀ p, ((c.flipBuffers tile.accum).lane p).tiles = (c.lane p).tiles :=
    fun p => (sameQueues_flipBuffers tile.accum p).1
  refine ⟨Nat.mod_lt _ (by decide), ?_, ?_, ?_, ?_⟩
  · have := h.acc
    change (if tile.accum then c.currentAccSpad else (c.currentAccSpad + 1) % 2) < 2
    split_ifs <;> omega
  · intro p ptr hptr
    rw [htiles p] at hptr
    exact h.platform p ptr hptr
  · intro ptr hptr
    rw [htiles .SA] at hptr
    exact h.range ptr hptr
  · intro ptr hptr tile' htile' hloads hspad
    rw [htiles .SA] at hptr
    exact absurd (canIssue_spad h hcan hptr htile' hspad).1 hloads

/-- A tile that joins its lane with the current buffers. -/
theorem turned_admitTile (h : Turned c) (hnew : ∀ p, c.nextTile ∉ (c.lane p).tiles)
    (hplatform : tile.stagePlatform = platform)
    (hturn : platform = .SA → tile.spadId = c.currentSpad ∧ tile.accumSpadId = c.currentAccSpad)
    (hok : c.admitTile platform tile = .ok c') : Turned c' := by
  obtain ⟨l', tile₁, hall, hc'⟩ := admitTile_ok hok
  obtain ⟨hl', htile₁⟩ := enqueueAll_ok hall
  have hlane : c'.lane = Function.update c.lane platform
      { l' with tiles := l'.tiles ++ [c.nextTile] } := by rw [hc']
  have hheap : c'.heap = Function.update c.heap c.nextTile (some tile₁) := by rw [hc']
  have hspad : c'.currentSpad = c.currentSpad := by rw [hc']
  have hacc : c'.currentAccSpad = c.currentAccSpad := by rw [hc']
  have hplace : tile₁.stagePlatform = tile.stagePlatform ∧ tile₁.spadId = tile.spadId ∧
      tile₁.accumSpadId = tile.accumSpadId := by
    rw [htile₁]
    exact ⟨rfl, rfl, rfl⟩
  -- a tile at work is the new one, or one from before with its entry
  have hcases : ∀ p, ∀ ptr ∈ (c'.lane p).tiles, ∀ tile', c'.heap ptr = some tile' →
      ptr ∈ (c.lane p).tiles ∧ c.heap ptr = some tile' ∨ p = platform ∧ tile' = tile₁ := by
    intro p ptr hptr tile' htile'
    rw [hheap] at htile'
    by_cases hq : ptr = c.nextTile
    · subst hq
      rw [Function.update_self] at htile'
      cases htile'
      by_cases hp : p = platform
      · exact Or.inr ⟨hp, rfl⟩
      · rw [hlane, Function.update_of_ne hp] at hptr
        exact absurd hptr (hnew p)
    · rw [Function.update_of_ne hq] at htile'
      refine Or.inl ⟨?_, htile'⟩
      rw [hlane] at hptr
      by_cases hp : p = platform
      · subst hp
        rw [Function.update_self, hl'] at hptr
        rcases List.mem_append.mp hptr with hptr | hptr
        · exact hptr
        · exact absurd (List.mem_singleton.mp hptr) hq
      · rwa [Function.update_of_ne hp] at hptr
  refine ⟨hspad ▸ h.spad, hacc ▸ h.acc, ?_, ?_, ?_⟩
  · intro p ptr hptr tile' htile'
    rcases hcases p ptr hptr tile' htile' with ⟨hold, hheap'⟩ | ⟨rfl, rfl⟩
    · exact h.platform p ptr hold tile' hheap'
    · exact hplace.1.trans hplatform
  · intro ptr hptr tile' htile'
    rcases hcases .SA ptr hptr tile' htile' with ⟨hold, hheap'⟩ | ⟨hp, rfl⟩
    · exact h.range ptr hold tile' hheap'
    · rw [hplace.2.1, (hturn hp.symm).1]
      exact h.spad
  · intro ptr hptr tile' htile' hloads hcurrent
    rw [hspad] at hcurrent
    rw [hacc]
    rcases hcases .SA ptr hptr tile' htile' with ⟨hold, hheap'⟩ | ⟨hp, rfl⟩
    · exact h.latest ptr hold tile' hheap' hloads hcurrent
    · exact hplace.2.2.trans (hturn hp.symm).2

theorem turned_skipTile (h : Turned c) (hnew : ∀ p, c.nextTile ∉ (c.lane p).tiles) (tile : Tile) :
    Turned (c.skipTile tile) := by
  refine turned_of_same h ⟨rfl, rfl⟩ (fun p ptr hptr => hptr) ?_
  intro p ptr hptr tile' htile'
  have hne : ptr ≠ c.nextTile := by
    rintro rfl
    exact hnew p hptr
  have hold : c.heap ptr = some tile' := (Function.update_of_ne hne _ _).symm.trans htile'
  exact ⟨tile', hold, settling_refl tile'⟩

theorem turned_issue (h : Turned c) (hcounted : Counted config ⟨c, u⟩)
    (hcan : c.canIssue tile = true) (hplatform : tile.stagePlatform = .SA)
    (hok : c.issue tile = .ok c') : Turned c' := by
  have hnew := (hcounted.fresh c.nextTile (Nat.le_refl _)).1
  unfold issue at hok
  split_ifs at hok with hskip
  · cases hok
    exact turned_skipTile h hnew tile
  · have hnew' : ∀ p, c.nextTile ∉ ((c.flipBuffers tile.accum).lane p).tiles := by
      intro p hp
      rw [(sameQueues_flipBuffers tile.accum p).1] at hp
      exact hnew p hp
    refine turned_admitTile (turned_flipBuffers h hcan) hnew' ?_ (fun _ => ?_) hok
    · exact hplatform
    · exact ⟨rfl, rfl⟩

theorem turned_issuePim (h : Turned c) (hcounted : Counted config ⟨c, u⟩)
    (hplatform : tile.stagePlatform = .PIM) (hok : c.issuePim tile = .ok c') : Turned c' := by
  have hnew := (hcounted.fresh c.nextTile (Nat.le_refl _)).1
  have htiles : ∀ p, (c.flushPim.lane p).tiles = (c.lane p).tiles :=
    fun p => (sameQueues_flushPim p).1
  unfold issuePim at hok
  split_ifs at hok with hskip
  · cases hok
    exact turned_skipTile h hnew tile
  · have hflush : Turned c.flushPim := by
      refine turned_of_same h ⟨rfl, rfl⟩ (fun p ptr hptr => htiles p ▸ hptr) ?_
      exact fun p ptr _ tile' htile' => ⟨tile', htile', settling_refl tile'⟩
    have hnew' : ∀ p, c.nextTile ∉ (c.flushPim.lane p).tiles := fun p hp => hnew p (htiles p ▸ hp)
    refine turned_admitTile hflush hnew' ?_ (fun hp => ?_) hok
    · exact hplatform
    · cases hp

end Issue

/-- Every call keeps the turns. -/
theorem turned_preserved : Preserved config set (fun _ _ => True)
    (fun s => Counted config s ∧ Turned s.core) where
  unit := fun _ _ _ _ h hok => ⟨counted_unitStep h.1 hok, turned_unitStep h.2 h.1 hok⟩
  issue := fun _ _ _ _ h hcan hplatform _ _ hok =>
    ⟨counted_issue h.1 hok, turned_issue h.2 h.1 hcan hplatform hok⟩
  issuePim := fun _ _ _ _ h _ hplatform _ _ hok =>
    ⟨counted_issuePim h.1 hok, turned_issuePim h.2 h.1 hplatform hok⟩
  pop := by
    intro c u platform channel request c' h hchannel hpop
    have hmoves := moves_popMemoryRequest (u := u) hchannel hpop
    obtain ⟨rest, -, rfl⟩ := popMemoryRequest_some hpop
    exact ⟨counted_of_moves h.1 hmoves, turned_of_moves h.2 h.1 hmoves ⟨rfl, rfl⟩⟩
  response := by
    intro c u request platform c' h hmem hheader hok
    have hmoves : ∃ dr dw, Moves config ⟨c, u⟩ ⟨c', u.erase request⟩
        request.parentTile 0 0 0 dr dw := by
      refine moves_pushMemoryResponse hmem hheader ?_ ?_ hok <;> rfl
    have hturn : SameTurn c c' := by
      obtain ⟨tile, tile', -, -, hresponded⟩ := pushMemoryResponse_ok hok
      cases hresponded <;> exact ⟨rfl, rfl⟩
    obtain ⟨dr, dw, hmoves⟩ := hmoves
    exact ⟨counted_of_moves h.1 hmoves, turned_of_moves h.2 h.1 hmoves hturn⟩
  finished := by
    intro c u h
    refine ⟨counted_popFinishedTile h.1, ?_⟩
    unfold popFinishedTile
    cases hfinished : c.finishedTiles with
    | nil => exact h.2
    | cons ptr rest =>
      refine turned_of_same h.2 ⟨rfl, rfl⟩ (fun p q hq => hq) ?_
      intro p q hq tile' htile'
      have hne : q ≠ ptr := by
        rintro rfl
        exact h.1.finished q (by rw [hfinished]; exact List.mem_cons_self) p hq
      have hold : c.heap q = some tile' := (Function.update_of_ne hne _ _).symm.trans htile'
      exact ⟨tile', hold, settling_refl tile'⟩
  statics := fun c u constAddr memAccessId h =>
    ⟨(@counted_preserved config set).statics c u constAddr memAccessId h.1,
      ⟨h.2.spad, h.2.acc, h.2.platform, h.2.range, h.2.latest⟩⟩

end NeuPIMSystolicWS

end NewPims

import NewPims.NeuPIMSystolicWS.Tallies

/-! When a tile is finished: a cycle leaves nothing in the load queues and finishes exactly the
tiles that have nothing outstanding. -/
namespace NewPims.NeuPIMSystolicWS

open Bank Transition NeuPIMSCore Session

variable {config : SimulationConfig} {set : RobinHood} {c c' : NeuPIMSCore}
  {u : List MemoryAccess} {platform p : StagePlatform} {ptr : TilePtr}

section LoadQueues

/-- Each iteration of the load loop takes the front instruction. -/
theorem ldInst_tail (h : ldInst config set c = .ok c') :
    (c'.lane .SA).ldInstQueue = (c.lane .SA).ldInstQueue.tail := by
  rcases ldInst_ok h with ⟨hnil, rfl⟩ | ⟨front, rest, l, tile, queues, hqueue, -, -, -, -, -, rfl⟩
  · rw [hnil]
    rfl
  · rw [hqueue]
    simp

theorem pimLdInst_tail (h : pimLdInst config c = .ok c') :
    (c'.lane .PIM).ldInstQueue = (c.lane .PIM).ldInstQueue.tail := by
  rcases pimLdInst_ok h with ⟨hnil, rfl⟩ | ⟨front, rest, request, l, queues, hqueue, -, -, -, -, rfl⟩
  · rw [hnil]
    rfl
  · rw [hqueue]
    simp

theorem repeatInst_empty {body : NeuPIMSCore → Except Fault NeuPIMSCore}
    (hbody : ∀ c c', body c = .ok c' →
      (c'.lane platform).ldInstQueue = (c.lane platform).ldInstQueue.tail) {n : ℕ}
    (hn : (c.lane platform).ldInstQueue.length ≤ n) (h : repeatInst body n c = .ok c') :
    (c'.lane platform).ldInstQueue = [] := by
  induction n generalizing c with
  | zero =>
    cases h
    exact List.length_eq_zero_iff.mp (Nat.le_zero.mp hn)
  | succ n ih =>
    obtain ⟨d, hd, h⟩ := bind_ok.mp h
    refine ih ?_ h
    rw [hbody c d hd, List.length_tail]
    omega

theorem retire_ldInstQueue (c : NeuPIMSCore) (platform p : StagePlatform) :
    ((c.retire platform).lane p).ldInstQueue = (c.lane p).ldInstQueue := by
  have hlane : (c.retire platform).lane = Function.update c.lane platform _ := rfl
  exact lane_same Lane.ldInstQueue hlane rfl p

/-- The load queues are only emptied by the steps of a cycle. -/
theorem unitStep_empty (config : SimulationConfig) (set : RobinHood) (unit : UnitStep)
    (hempty : (c.lane p).ldInstQueue = []) (h : unitStep config set c unit = .ok c') :
    (c'.lane p).ldInstQueue = [] := by
  cases unit with
  | systolic =>
    rcases systolicCycle_ok config h with rfl | ⟨q, inst, d, hfront, hcomplete⟩
    · exact hempty
    · exact (complete_sameQueues hfront hcomplete p).2.1.trans hempty
  | vector k =>
    simp only [unitStep] at h
    split_ifs at h with hk
    rcases vectorPipelineCycle_ok hk h with rfl | ⟨q, inst, d, hfront, hcomplete⟩
    · exact hempty
    · exact (complete_sameQueues hfront hcomplete p).2.1.trans hempty
  | ld =>
    rcases ldInst_ok h with ⟨-, rfl⟩ | ⟨front, rest, l, tile, queues, hqueue, -, -, -, -, -, rfl⟩
    · exact hempty
    · cases p with
      | SA => rw [hempty] at hqueue; cases hqueue
      | PIM => simpa using hempty
  | st q =>
    rcases storeQueueCycle_ok h with rfl | ⟨front, rest, tile, queues, -, -, -, -, -, hc'⟩
    · exact hempty
    · exact (lane_same Lane.ldInstQueue (congrArg NeuPIMSCore.lane hc') rfl p).trans hempty
  | ex q =>
    rcases executeQueueCycle_lane h with rfl | ⟨rest, s, hlane⟩
    · exact hempty
    · exact (lane_same Lane.ldInstQueue hlane rfl p).trans hempty
  | pimLd =>
    rcases pimLdInst_ok h with ⟨-, rfl⟩ | ⟨front, rest, request, l, queues, hqueue, -, -, -, -, rfl⟩
    · exact hempty
    · cases p with
      | SA => simpa using hempty
      | PIM => rw [hempty] at hqueue; cases hqueue
  | chargeSystolic =>
    rcases chargeCycle_ok h with rfl | ⟨_, _, _, -, -, rfl⟩ <;> exact hempty
  | chargeVector k =>
    simp only [unitStep] at h
    split_ifs at h with hk
    rcases chargeCycle_ok h with rfl | ⟨_, _, _, -, -, rfl⟩ <;> exact hempty
  | core =>
    cases h
    exact ((retire_ldInstQueue _ .PIM p).trans (retire_ldInstQueue _ .SA p)).trans hempty

theorem runs_empty {x : NeuPIMSCore} (hempty : (c.lane p).ldInstQueue = [])
    (h : Runs (unitStep config set) c (.ok x)) : (x.lane p).ldInstQueue = [] := by
  obtain ⟨units, hunits⟩ := h
  exact run_invariant (fun c => (c.lane p).ldInstQueue = [])
    (fun _ _ _ hc hstep => unitStep_empty config set _ hc hstep) hempty hunits

/-- A cycle leaves the load queues empty. -/
theorem cycle_loading (h : cycle config set c = .ok c') : loading c' = [] := by
  obtain ⟨c₁, -, h⟩ := bind_ok.mp h
  obtain ⟨c₂, -, h⟩ := bind_ok.mp h
  obtain ⟨c₃, h₃, h⟩ := bind_ok.mp h
  obtain ⟨c₄, h₄, h⟩ := bind_ok.mp h
  obtain ⟨c₅, h₅, h⟩ := bind_ok.mp h
  obtain ⟨c₆, h₆, h⟩ := bind_ok.mp h
  obtain ⟨c₇, h₇, h⟩ := bind_ok.mp h
  obtain ⟨c₈, h₈, h⟩ := bind_ok.mp h
  obtain ⟨c₉, h₉, h⟩ := bind_ok.mp h
  cases h
  -- the rest of a cycle after its sixth step
  have hrest : ∀ p, (c₆.lane p).ldInstQueue = [] → (c₉.cycle.lane p).ldInstQueue = [] := by
    intro p hp
    have hp₇ := unitStep_empty config set (.st .PIM) hp h₇
    have hp₈ := unitStep_empty config set (.ex .PIM) hp₇ h₈
    have hp₉ := runs_empty hp₈ (h₉ ▸ updateStats_runs set c₈)
    exact unitStep_empty config set .core hp₉ rfl
  have hsa : (c₆.lane .SA).ldInstQueue = [] := by
    have hp₃ := repeatInst_empty (fun _ _ => ldInst_tail) (Nat.le_refl _) h₃
    have hp₄ := unitStep_empty config set (.st .SA) hp₃ h₄
    have hp₅ := unitStep_empty config set (.ex .SA) hp₄ h₅
    exact runs_empty hp₅ (h₆ ▸ pimLdQueueCycle_runs set c₅)
  have hpim : (c₆.lane .PIM).ldInstQueue = [] :=
    repeatInst_empty (fun _ _ => pimLdInst_tail) (Nat.le_refl _) h₆
  refine List.flatMap_eq_nil_iff.mpr fun p _ => ?_
  cases p with
  | SA => exact hrest .SA hsa
  | PIM => exact hrest .PIM hpim

end LoadQueues

section Finished

/-- The tile is one of the core's tiles, or it has been finished. -/
def Held (c : NeuPIMSCore) (p : StagePlatform) (ptr : TilePtr) : Prop :=
  ptr ∈ (c.lane p).tiles ∨
    ptr ∈ c.finishedTiles ∧ ∃ tile, c.heap ptr = some tile ∧ tile.status = .FINISH

theorem held_moves {q : TilePtr} {dc dl ds dr dw : ℤ} (h : Held c p ptr)
    (hmoves : Moves config ⟨c, u⟩ ⟨c', u⟩ q dc dl ds dr dw) : Held c' p ptr := by
  rcases h with hmem | ⟨hfinished, tile, htile, hstatus⟩
  · exact Or.inl ((hmoves.tiles p).symm ▸ hmem)
  · refine Or.inr ⟨hmoves.finished.symm ▸ hfinished, ?_⟩
    by_cases hq : ptr = q
    · subst hq
      obtain ⟨tile', htile', hshifted⟩ := hmoves.tile tile htile
      exact ⟨tile', htile', (sameTask_status hshifted.task).trans hstatus⟩
    · exact ⟨tile, (hmoves.heap ptr hq).trans htile, hstatus⟩

theorem held_retire (h : Held c p ptr) : Held (c.retire platform) p ptr := by
  by_cases hdrained : ptr ∈ (c.lane platform).tiles ∧ c.drained ptr = true
  · by_cases hp : p = platform
    · -- the tile is finished here
      refine Or.inr ⟨mem_retire_finished.mpr (Or.inr hdrained), ?_⟩
      rw [heap_retire_drained hdrained]
      cases htile : c.heap ptr with
      | none => simp [drained, htile] at hdrained
      | some tile => exact ⟨_, rfl, rfl⟩
    · rcases h with hmem | ⟨hfinished, tile, htile, hstatus⟩
      · exact Or.inl (mem_retire_tiles.mpr ⟨hmem, fun heq => absurd heq hp⟩)
      · refine Or.inr ⟨mem_retire_finished.mpr (Or.inl hfinished), ?_⟩
        rw [heap_retire_drained hdrained, htile]
        exact ⟨_, rfl, rfl⟩
  · rcases h with hmem | ⟨hfinished, tile, htile, hstatus⟩
    · refine Or.inl (mem_retire_tiles.mpr ⟨hmem, fun hp => ?_⟩)
      subst hp
      by_contra hd
      exact hdrained ⟨hmem, Bool.not_eq_false _ ▸ hd⟩
    · exact Or.inr ⟨mem_retire_finished.mpr (Or.inl hfinished), tile,
        (heap_retire hdrained).trans htile, hstatus⟩

theorem held_unitStep {unit : UnitStep} (h : Held c p ptr)
    (hok : unitStep config set c unit = .ok c') : Held c' p ptr := by
  by_cases hcore : unit = .core
  · subst hcore
    cases hok
    exact held_retire (held_retire (c := c.tick) h)
  · rcases moves_unitStep (u := []) hcore hok with rfl | ⟨_, _, _, _, _, _, hmoves⟩
    · exact h
    · exact held_moves h hmoves

/-- A cycle leaves no drained tile among the tiles of the core. -/
theorem cycle_undrained (h : ptr ∈ (c.cycle.lane p).tiles) : c.cycle.drained ptr = false := by
  have hpim := mem_retire_tiles.mp h
  have hsa := mem_retire_tiles.mp hpim.1
  -- neither loop changes the entry of a tile that it keeps
  have hheap : ∀ (d : NeuPIMSCore) (q : StagePlatform), d.drained ptr = false →
      (d.retire q).heap ptr = d.heap ptr := by
    intro d q hd
    refine heap_retire ?_
    rintro ⟨-, htrue⟩
    rw [hd] at htrue
    cases htrue
  have hkeeps : ∀ (d : NeuPIMSCore) (q : StagePlatform), d.drained ptr = false →
      (d.retire q).drained ptr = false := by
    intro d q hd
    rw [← hd]
    simp only [drained, hheap d q hd]
  cases p with
  | SA => exact hkeeps _ _ (hkeeps _ _ (hsa.2 rfl))
  | PIM => exact hkeeps _ _ (hpim.2 rfl)

end Finished

end NewPims.NeuPIMSystolicWS

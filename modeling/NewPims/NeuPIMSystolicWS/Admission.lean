import NewPims.NeuPIMSystolicWS.Traffic

/-! The tiles that enter a core and those that leave it: the queues that an issued tile fills,
and the tiles that a cycle finishes. -/
namespace NewPims

open NeuPIMSystolicWS Bank Transition

namespace NeuPIMSCore

variable {platform : StagePlatform} {l l' : Lane} {tile tile' : Tile} {insts : List Instruction}
  {c c' : NeuPIMSCore}

def takes (platform : StagePlatform) (r : Route) (inst : Instruction) : Bool :=
  route platform inst.opcode == r

/-- The instructions for the load queue, headers included. -/
def takesLoad (platform : StagePlatform) (inst : Instruction) : Bool :=
  takes platform .load inst || takes platform .header inst

theorem route_header {op : Opcode} (h : route platform op = .header) :
    op = .PIM_HEADER := by
  cases platform <;> cases op <;> first | rfl | cases h

theorem route_load {op : Opcode} (h : route platform op = .load) : op ≠ .PIM_HEADER := by
  cases platform <;> cases op <;> first | (cases h; done) | exact nofun

/-- The instructions of a tile go to their queues in order, and the tile counts them. -/
theorem enqueueAll_ok (h : enqueueAll platform l tile insts = .ok (l', tile')) :
    l' = { l with
      ldInstQueue := l.ldInstQueue ++ insts.filter (takesLoad platform)
      stInstQueue := l.stInstQueue ++ insts.filter (takes platform .store)
      exInstQueue := l.exInstQueue ++ insts.filter (takes platform .compute) } ∧
    tile' = { tile with
      remainingLoads := tile.remainingLoads + insts.countP (takes platform .load)
      remainingComputes := tile.remainingComputes + insts.countP (takes platform .compute)
      remainingAccumIo := tile.remainingAccumIo +
        (insts.countP (takes platform .store) + insts.countP (takes platform .compute)) } := by
  induction insts generalizing l tile with
  | nil =>
    cases h
    simp
  | cons inst insts ih =>
    simp only [enqueueAll] at h
    cases hstep : enqueue platform l tile inst with
    | error f => simp [hstep] at h
    | ok r =>
      obtain ⟨l₁, tile₁⟩ := r
      simp only [hstep] at h
      obtain ⟨hl, htile⟩ := ih h
      unfold enqueue at hstep
      cases hroute : route platform inst.opcode with
      | refused => simp [hroute] at hstep
      | header =>
        simp only [hroute] at hstep
        cases hstep
        simp [hl, htile, takes, takesLoad, hroute]
      | load =>
        simp only [hroute] at hstep
        split_ifs at hstep
        cases hstep
        simp [hl, htile, takes, takesLoad, hroute]
        omega
      | store =>
        simp only [hroute] at hstep
        cases hstep
        simp [hl, htile, takes, takesLoad, hroute]
        omega
      | compute =>
        simp only [hroute] at hstep
        cases hstep
        simp [hl, htile, takes, takesLoad, hroute]
        omega

theorem admitTile_ok (h : c.admitTile platform tile = .ok c') :
    ∃ l' tile', enqueueAll platform (c.lane platform) tile tile.instructions = .ok (l', tile') ∧
      c' = { c with
        heap := Function.update c.heap c.nextTile (some tile')
        nextTile := c.nextTile + 1
        lane := Function.update c.lane platform
          { l' with tiles := l'.tiles ++ [c.nextTile] } } := by
  unfold admitTile at h
  cases hall : enqueueAll platform (c.lane platform) tile tile.instructions with
  | error f => simp [hall] at h
  | ok r =>
    simp only [hall] at h
    cases h
    exact ⟨r.1, r.2, rfl, rfl⟩

end NeuPIMSCore

namespace NeuPIMSystolicWS.Session

open NeuPIMSCore

variable {config : SimulationConfig} {set : RobinHood} {s t : Session} {c c' : NeuPIMSCore}
  {u : List MemoryAccess} {platform : StagePlatform} {tile : Tile} {insts : List Instruction}
  {ptr q : TilePtr}

/-- The instructions of one tile, counted for any tile. -/
theorem countP_instOf (hparent : ∀ i ∈ insts, i.parentTile = ptr) (P : Instruction → Bool) :
    (insts.filter P).countP (instOf q) = if q = ptr then insts.countP P else 0 := by
  rw [List.countP_filter]
  by_cases hq : q = ptr
  · rw [if_pos hq]
    refine List.countP_congr fun i hi => ?_
    simp [instOf, hparent i hi, hq]
  · rw [if_neg hq, List.countP_eq_zero]
    intro i hi
    simp [instOf, hparent i hi, Ne.symm hq]

theorem countP_loadOf (hparent : ∀ i ∈ insts, i.parentTile = ptr) :
    (insts.filter (takesLoad platform)).countP (loadOf q) =
      if q = ptr then insts.countP (takes platform .load) else 0 := by
  rw [List.countP_filter]
  by_cases hq : q = ptr
  · rw [if_pos hq]
    refine List.countP_congr fun i hi => ?_
    simp only [loadOf, hparent i hi, hq, beq_self_eq_true, Bool.true_and, takesLoad, takes,
      Bool.and_eq_true, bne_iff_ne, Bool.or_eq_true, beq_iff_eq]
    constructor
    · rintro ⟨hne, hload | hheader⟩
      · exact hload
      · exact absurd (route_header hheader) hne
    · exact fun hload => ⟨route_load hload, Or.inl hload⟩
  · rw [if_neg hq, List.countP_eq_zero]
    intro i hi
    simp [loadOf, hparent i hi, Ne.symm hq]

/-- A started tile, whose instructions refer to it, joins the tiles of its lane. -/
theorem counted_admitTile (h : Counted config ⟨c, u⟩) (hstatus : tile.status = .RUNNING)
    (hloads : tile.remainingLoads = 0) (hcomputes : tile.remainingComputes = 0)
    (haccumIo : tile.remainingAccumIo = 0)
    (hparent : ∀ i ∈ tile.instructions, i.parentTile = c.nextTile)
    (hok : c.admitTile platform tile = .ok c') : Counted config ⟨c', u⟩ := by
  obtain ⟨l', tile', hall, hc'⟩ := admitTile_ok hok
  obtain ⟨hl', htile'⟩ := enqueueAll_ok hall
  have hlane : c'.lane = Function.update c.lane platform
      { l' with tiles := l'.tiles ++ [c.nextTile] } := by rw [hc']
  have hheap : c'.heap = Function.update c.heap c.nextTile (some tile') := by rw [hc']
  have htiles : ∀ p ptr, ptr ∈ (c'.lane p).tiles ↔
      ptr ∈ (c.lane p).tiles ∨ p = platform ∧ ptr = c.nextTile := by
    intro p ptr
    rw [hlane]
    by_cases hp : p = platform
    · subst hp
      simp [hl']
    · simp [hp]
  have hpending : ∀ q, pendingOf config ⟨c', u⟩ q = pendingOf config ⟨c, u⟩ q +
      if q = c.nextTile then tile.instructions.countP (takes platform .compute) else 0 := by
    intro q
    have hq := countP_lane Lane.exInstQueue hlane (instOf q)
    simp only [hl', List.countP_append, countP_instOf hparent] at hq
    have hpipes : piped config c' ++ c'.dropped = piped config c ++ c.dropped := by
      rw [hc']
      rfl
    rw [pendingOf_eq, pendingOf_eq, hpipes]
    simp only [executing]
    omega
  have hstores : ∀ q, storesOf ⟨c', u⟩ q = storesOf ⟨c, u⟩ q +
      if q = c.nextTile then tile.instructions.countP (takes platform .store) else 0 := by
    intro q
    have hq := countP_lane Lane.stInstQueue hlane (instOf q)
    simp only [hl', List.countP_append, countP_instOf hparent] at hq
    simp only [storesOf, storing]
    omega
  have hloadsOf : ∀ q, loadsOf ⟨c', u⟩ q = loadsOf ⟨c, u⟩ q +
      if q = c.nextTile then tile.instructions.countP (takes platform .load) else 0 := by
    intro q
    have hq := countP_lane Lane.ldInstQueue hlane (loadOf q)
    simp only [hl', List.countP_append, countP_loadOf hparent] at hq
    simp only [loadsOf, loading]
    omega
  have hreq : queuedRequests config c' = queuedRequests config c :=
    contents_lane_same (fun l => contents (List.range config.dramChannels)
      l.memoryRequestQueues) hlane (by rw [hl'])
  have hreads : ∀ q, readsOf config ⟨c', u⟩ q = readsOf config ⟨c, u⟩ q :=
    fun q => congrArg (List.countP (readOf q)) (requests_congr hreq)
  have hwrites : ∀ q, writesOf config ⟨c', u⟩ q = writesOf config ⟨c, u⟩ q :=
    fun q => congrArg (List.countP (writeOf q)) (requests_congr hreq)
  obtain ⟨hnew, hnewFinished⟩ := h.fresh c.nextTile (Nat.le_refl _)
  have hnewIdle := idle_iff.mp (h.idle c.nextTile hnew)
  refine
    { live := ?_
      idle := ?_
      fresh := ?_
      finished := ?_
      apart := ?_
      waiting := ?_ }
  · intro p q hq
    rcases (htiles p q).mp hq with hold | ⟨rfl, rfl⟩
    · have hne : q ≠ c.nextTile := fun heq => hnew p (heq ▸ hold)
      obtain ⟨tile₁, htile₁, hstatus₁, hc, hl, hio⟩ := h.live p q hold
      refine ⟨tile₁, ?_, hstatus₁, ?_⟩
      · rw [hheap]
        exact (Function.update_of_ne hne _ _).trans htile₁
      · simp only [Balanced, hpending, hstores, hloadsOf, hreads, hwrites, hne, if_false]
        exact ⟨hc, hl, hio⟩
    · refine ⟨tile', by rw [hheap]; exact Function.update_self _ _ _, ?_, ?_⟩
      · rw [htile']
        exact hstatus
      · simp only [Balanced, hpending, hstores, hloadsOf, hreads, hwrites, if_true, htile',
          hloads, hcomputes, haccumIo]
        obtain ⟨h1, h2, h3, h4, h5⟩ := hnewIdle
        rw [h1, h2, h3, h4, h5]
        simp
        omega
  · intro q hq
    have hne : q ≠ c.nextTile := fun heq => hq platform ((htiles _ _).mpr (Or.inr ⟨rfl, heq⟩))
    have hold := idle_iff.mp (h.idle q fun p hp => hq p ((htiles p q).mpr (Or.inl hp)))
    rw [idle_iff, hpending, hstores, hloadsOf, hreads, hwrites]
    simpa only [hne, if_false, Nat.add_zero] using hold
  · intro q hq
    have hlt : c.nextTile + 1 ≤ q := by
      rw [hc'] at hq
      exact hq
    obtain ⟨hnot, hnotFinished⟩ := h.fresh q (Nat.le_of_succ_le hlt)
    refine ⟨fun p hp => ?_, by rw [hc']; exact hnotFinished⟩
    rcases (htiles p q).mp hp with hold | ⟨-, rfl⟩
    · exact hnot p hold
    · exact absurd hlt (Nat.not_succ_le_self _)
  · intro q hq p hp
    have hold : q ∈ c.finishedTiles := by
      rw [hc'] at hq
      exact hq
    rcases (htiles p q).mp hp with hmem | ⟨-, rfl⟩
    · exact h.finished q hold p hmem
    · exact hnewFinished hold
  · intro q hsa hpim
    rcases (htiles .SA q).mp hsa with hsa | ⟨hp, rfl⟩
    · rcases (htiles .PIM q).mp hpim with hpim | ⟨-, rfl⟩
      · exact h.apart q hsa hpim
      · exact hnew .SA hsa
    · rcases (htiles .PIM _).mp hpim with hpim | ⟨hp', -⟩
      · exact hnew .PIM hpim
      · rw [← hp] at hp'
        cases hp'
  · have hw : writes config ⟨c', u⟩ = writes config ⟨c, u⟩ :=
      congrArg (List.countP isWrite) (requests_congr hreq)
    rw [hw, ← h.waiting, hc']

end NeuPIMSystolicWS.Session

end NewPims

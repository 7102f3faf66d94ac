import NewPims.NeuPIMSystolicWS.Finishing

/-! Where the instructions and the requests of a core come from: in each step they move on
along the queues, and requests are made from instructions. -/
namespace NewPims.NeuPIMSystolicWS

open Bank Transition NeuPIMSCore Session

/-- The platform, the buffers and the instructions of a tile are as before. -/
def SamePlace (tile tile' : Tile) : Prop :=
  tile'.stagePlatform = tile.stagePlatform ∧ tile'.spadId = tile.spadId ∧
    tile'.accumSpadId = tile.accumSpadId ∧ tile'.instructions = tile.instructions

/-- The tiles issued so far keep their place as long as they are there. -/
structure Kept (c c' : NeuPIMSCore) : Prop where
  next : c.nextTile ≤ c'.nextTile
  heap : ∀ ptr, ptr < c.nextTile → ∀ tile', c'.heap ptr = some tile' →
    ∃ tile, c.heap ptr = some tile ∧ SamePlace tile tile'

/-- The request `r` is one of those that the lane makes from the instruction `i`. -/
def Made (p : StagePlatform) (i : Instruction) (r : MemoryAccess) : Prop :=
  r.stagePlatform = p ∧ r.parentTile = i.parentTile ∧ r.spadAddress = i.destAddr ∧
    r.bufferId = i.bufferId

/-- No pipeline takes the instruction. -/
def Rejected (i : Instruction) : Prop :=
  isGemm i.opcode = false ∧ isVector i.opcode = false ∨ i.valid = false

structure Flows (config : SimulationConfig) (s t : Session) : Prop where
  kept : Kept s.core t.core
  load : ∀ p i, i ∈ (t.core.lane p).ldInstQueue → i ∈ (s.core.lane p).ldInstQueue
  store : ∀ p i, i ∈ (t.core.lane p).stInstQueue → i ∈ (s.core.lane p).stInstQueue
  execute : ∀ p i, i ∈ (t.core.lane p).exInstQueue → i ∈ (s.core.lane p).exInstQueue
  compute : ∀ i ∈ t.core.computePipeline, i ∈ s.core.computePipeline ∨
    ∃ j ∈ (s.core.lane .SA).exInstQueue, ∃ a b, i = timed j a b
  vector : ∀ i ∈ contents (List.range config.vectorCoreCount) t.core.vectorPipelines,
    i ∈ contents (List.range config.vectorCoreCount) s.core.vectorPipelines ∨
      ∃ p, ∃ j ∈ (s.core.lane p).exInstQueue, ∃ a b, i = timed j a b
  dropped : ∀ i ∈ t.core.dropped, i ∈ s.core.dropped ∨
    ∃ p, i ∈ (s.core.lane p).exInstQueue ∧ Rejected i
  queued : ∀ p k r, r ∈ (t.core.lane p).memoryRequestQueues k →
    r ∈ (s.core.lane p).memoryRequestQueues k ∨
      ∃ i, (i ∈ (s.core.lane p).ldInstQueue ∨ i ∈ (s.core.lane p).stInstQueue) ∧ Made p i r
  unanswered : ∀ r ∈ t.unanswered, r ∈ s.unanswered ∨
    ∃ p k, r ∈ (s.core.lane p).memoryRequestQueues k

variable {config : SimulationConfig} {set : RobinHood} {c c' d : NeuPIMSCore}
  {s t : Session} {u u' : List MemoryAccess} {platform : StagePlatform} {ptr : TilePtr}

theorem kept_of_eq (hheap : c'.heap = c.heap) (hnext : c'.nextTile = c.nextTile) : Kept c c' where
  next := Nat.le_of_eq hnext.symm
  heap := fun ptr _ tile htile => ⟨tile, congrFun hheap ptr ▸ htile, rfl, rfl, rfl, rfl⟩

theorem kept_moves {dc dl ds dr dw : ℤ} (h : Moves config s t ptr dc dl ds dr dw) :
    Kept s.core t.core where
  next := Nat.le_of_eq h.next.symm
  heap := by
    intro q _ tile' htile'
    by_cases hq : q = ptr
    · subst hq
      cases htile : s.core.heap q with
      | none =>
        rw [h.gone htile] at htile'
        cases htile'
      | some tile =>
        obtain ⟨tile₁, htile₁, hshifted⟩ := h.tile tile htile
        cases htile₁.symm.trans htile'
        refine ⟨tile, rfl, ?_⟩
        rw [hshifted.task]
        exact ⟨rfl, rfl, rfl, rfl⟩
    · rw [h.heap q hq] at htile'
      exact ⟨tile', htile', rfl, rfl, rfl, rfl⟩

theorem mem_lane_subset {α : Type*} {l : Lane} (f : Lane → List α)
    (hlane : c'.lane = Function.update c.lane platform l)
    (h : ∀ x ∈ f l, x ∈ f (c.lane platform)) (q : StagePlatform) (x : α)
    (hx : x ∈ f (c'.lane q)) : x ∈ f (c.lane q) := by
  rw [hlane] at hx
  by_cases hq : q = platform
  · rw [hq, Function.update_self] at hx
    rw [hq]
    exact h x hx
  · rwa [Function.update_of_ne hq] at hx

/-- Requests are appended to the queues, in whatever channel. -/
theorem mem_pushMemoryRequests {queues queues' : ℕ → List MemoryAccess}
    {accesses : List MemoryAccess}
    (h : NeuPIMSCore.pushMemoryRequests config queues accesses = .ok queues') {k : ℕ}
    {r : MemoryAccess} (hr : r ∈ queues' k) : r ∈ queues k ∨ r ∈ accesses := by
  induction accesses generalizing queues with
  | nil =>
    cases h
    exact Or.inl hr
  | cons a as ih =>
    simp only [NeuPIMSCore.pushMemoryRequests] at h
    split_ifs at h
    rcases ih h with hold | hmem
    · by_cases hk : k = AddressConfig.maskChannel config a.dramAddress
      · subst hk
        rw [Function.update_self] at hold
        rcases List.mem_append.mp hold with hold | hnew
        · exact Or.inl hold
        · exact Or.inr (List.mem_cons.mpr (Or.inl (List.mem_singleton.mp hnew)))
      · rw [Function.update_of_ne hk] at hold
        exact Or.inl hold
    · exact Or.inr (List.mem_cons_of_mem a hmem)

/-- A step that leaves all queues alone and adds nothing to the pipelines. -/
theorem flows_of_sameQueues (hkept : Kept c c') (hqueues : ∀ p, (c.lane p).SameQueues (c'.lane p))
    (hcompute : ∀ i ∈ c'.computePipeline, i ∈ c.computePipeline)
    (hvector : ∀ i ∈ contents (List.range config.vectorCoreCount) c'.vectorPipelines,
      i ∈ contents (List.range config.vectorCoreCount) c.vectorPipelines)
    (hdropped : c'.dropped = c.dropped) (hu : ∀ r ∈ u', r ∈ u) :
    Flows config ⟨c, u⟩ ⟨c', u'⟩ where
  kept := hkept
  load := fun p _ hi => (hqueues p).2.1 ▸ hi
  store := fun p _ hi => (hqueues p).2.2.1 ▸ hi
  execute := fun p _ hi => (hqueues p).2.2.2.1 ▸ hi
  compute := fun i hi => Or.inl (hcompute i hi)
  vector := fun i hi => Or.inl (hvector i hi)
  dropped := fun _ hi => Or.inl (hdropped ▸ hi)
  queued := fun p _ _ hr => Or.inl ((hqueues p).2.2.2.2 ▸ hr)
  unanswered := fun r hr => Or.inl (hu r hr)

theorem front_subset {inst : Instruction} (h : Front config c platform inst d) :
    (∀ i ∈ d.computePipeline, i ∈ c.computePipeline) ∧
      ∀ i ∈ contents (List.range config.vectorCoreCount) d.vectorPipelines,
        i ∈ contents (List.range config.vectorCoreCount) c.vectorPipelines := by
  cases h with
  | systolic hpipe =>
    refine ⟨fun i hi => ?_, fun i hi => hi⟩
    rw [hpipe]
    exact List.mem_cons_of_mem _ hi
  | @vector k inst rest hk hpipe =>
    refine ⟨fun i hi => hi, fun i hi => ?_⟩
    rcases mem_contents_update hi with hi | hi
    · exact hi
    · refine mem_contents.mpr ⟨k, List.mem_range.mpr hk, ?_⟩
      rw [hpipe]
      exact List.mem_cons_of_mem _ hi

theorem flows_complete {inst : Instruction} (hfront : Front config c platform inst d)
    (h : complete d platform inst = .ok c') : Flows config ⟨c, u⟩ ⟨c', u⟩ := by
  obtain ⟨-, l, tile, -, -, hc'⟩ := complete_ok h
  obtain ⟨hcompute, hvector⟩ := front_subset hfront
  refine flows_of_sameQueues (kept_moves (moves_complete (u := u) hfront h))
    (complete_sameQueues hfront h) ?_ ?_ ?_ fun _ hr => hr
  · rw [hc']
    exact hcompute
  · rw [hc']
    exact hvector
  · rw [hc', ← (front_same hfront).2.2.2.2.2]
    rfl

theorem flows_chargeCycle {pipeline : List Instruction} (h : chargeCycle pipeline c = .ok c') :
    Flows config ⟨c, u⟩ ⟨c', u⟩ := by
  have hkept : Kept c c' := by
    have hmoves : c' = c ∨ ∃ ptr, Moves config ⟨c, u⟩ ⟨c', u⟩ ptr 0 0 0 0 0 :=
      moves_chargeCycle h
    rcases hmoves with rfl | ⟨_, hmoves⟩
    · exact kept_of_eq rfl rfl
    · exact kept_moves hmoves
  rcases chargeCycle_ok h with rfl | ⟨_, _, _, -, -, rfl⟩ <;>
    exact flows_of_sameQueues hkept (fun _ => sameQueues_refl _) (fun _ hi => hi)
      (fun _ hi => hi) rfl fun _ hr => hr

theorem flows_refl : Flows config s s where
  kept := kept_of_eq rfl rfl
  load := fun _ _ hi => hi
  store := fun _ _ hi => hi
  execute := fun _ _ hi => hi
  compute := fun _ hi => Or.inl hi
  vector := fun _ hi => Or.inl hi
  dropped := fun _ hi => Or.inl hi
  queued := fun _ _ _ hr => Or.inl hr
  unanswered := fun _ hr => Or.inl hr

/-- A step of one lane in which its queues only shrink, but for requests made from its
instructions. -/
theorem flows_lane {l : Lane} (hkept : Kept c c')
    (hlane : c'.lane = Function.update c.lane platform l)
    (hload : ∀ i ∈ l.ldInstQueue, i ∈ (c.lane platform).ldInstQueue)
    (hstore : ∀ i ∈ l.stInstQueue, i ∈ (c.lane platform).stInstQueue)
    (hexecute : l.exInstQueue = (c.lane platform).exInstQueue)
    (hqueued : ∀ k, ∀ r ∈ l.memoryRequestQueues k,
      r ∈ (c.lane platform).memoryRequestQueues k ∨
        ∃ i, (i ∈ (c.lane platform).ldInstQueue ∨ i ∈ (c.lane platform).stInstQueue) ∧
          Made platform i r)
    (hcompute : c'.computePipeline = c.computePipeline)
    (hvector : c'.vectorPipelines = c.vectorPipelines) (hdropped : c'.dropped = c.dropped) :
    Flows config ⟨c, u⟩ ⟨c', u⟩ where
  kept := hkept
  load := mem_lane_subset Lane.ldInstQueue hlane hload
  store := mem_lane_subset Lane.stInstQueue hlane hstore
  execute := mem_lane_subset Lane.exInstQueue hlane fun i hi => hexecute ▸ hi
  compute := fun _ hi => Or.inl (hcompute ▸ hi)
  vector := fun _ hi => Or.inl (hvector ▸ hi)
  dropped := fun _ hi => Or.inl (hdropped ▸ hi)
  queued := by
    intro p k r hr
    dsimp only at hr ⊢
    rw [hlane] at hr
    by_cases hp : p = platform
    · rw [hp, Function.update_self] at hr
      rw [hp]
      exact hqueued k r hr
    · rw [Function.update_of_ne hp] at hr
      exact Or.inl hr
  unanswered := fun _ hr => Or.inl hr

theorem made_accessesOf {inst : Instruction} {reqType : MemoryAccessType} {r : MemoryAccess}
    (h : r ∈ (accessesOf config set c platform inst reqType).1) : Made platform inst r := by
  obtain ⟨hparent, -, hspad, hbuffer, hplatform⟩ := mem_accessesOf h
  exact ⟨hplatform, hparent, hspad, hbuffer⟩

theorem flows_ldInst (h : ldInst config set c = .ok c') : Flows config ⟨c, u⟩ ⟨c', u⟩ := by
  have hmoves : c' = c ∨ ∃ ptr dl dr, Moves config ⟨c, u⟩ ⟨c', u⟩ ptr 0 dl 0 dr 0 :=
    moves_ldInst h
  rcases hmoves with rfl | ⟨_, _, _, hmoves⟩
  · exact flows_refl
  rcases ldInst_ok h with ⟨-, rfl⟩ | ⟨front, rest, l, tile, queues, hqueue, -, -, hreserve, -,
    hpush, hc'⟩
  · exact flows_refl
  obtain ⟨-, -, hstl, hexl, hreql⟩ := sameQueues_reserve hreserve
  rw [hreql] at hpush
  refine flows_lane (kept_moves hmoves) (congrArg NeuPIMSCore.lane hc') ?_ ?_ hexl ?_
    (by rw [hc']) (by rw [hc']) (by rw [hc'])
  · intro i hi
    rw [hqueue]
    exact List.mem_cons_of_mem front hi
  · intro i hi
    rw [← hstl]
    exact hi
  · intro k r hr
    rcases mem_pushMemoryRequests hpush hr with hold | hnew
    · exact Or.inl hold
    · refine Or.inr ⟨front, Or.inl ?_, made_accessesOf hnew⟩
      rw [hqueue]
      exact List.mem_cons_self

theorem flows_pimLdInst (h : pimLdInst config c = .ok c') : Flows config ⟨c, u⟩ ⟨c', u⟩ := by
  have hmoves : c' = c ∨ ∃ ptr dl dr, Moves config ⟨c, u⟩ ⟨c', u⟩ ptr 0 dl 0 dr 0 :=
    moves_pimLdInst h
  rcases hmoves with rfl | ⟨_, _, _, hmoves⟩
  · exact flows_refl
  rcases pimLdInst_ok h with ⟨-, rfl⟩ | ⟨front, rest, request, l, queues, hqueue, -, hrequest,
    hreserve, hpush, hc'⟩
  · exact flows_refl
  obtain ⟨-, -, hstl, hexl, hreql⟩ := sameQueues_reserveResult hreserve
  obtain ⟨-, hparent, hspad, hbuffer, hplatform⟩ := transToMemoryAccess_ok hrequest
  rw [hreql] at hpush
  refine flows_lane (kept_moves hmoves) (congrArg NeuPIMSCore.lane hc') ?_ ?_ hexl ?_
    (by rw [hc']) (by rw [hc']) (by rw [hc'])
  · intro i hi
    rw [hqueue]
    exact List.mem_cons_of_mem front hi
  · intro i hi
    rw [← hstl]
    exact hi
  · intro k r hr
    rcases mem_pushMemoryRequests hpush hr with hold | hnew
    · exact Or.inl hold
    · rw [List.mem_singleton.mp hnew]
      refine Or.inr ⟨front, Or.inl ?_, hplatform, hparent, hspad, hbuffer⟩
      rw [hqueue]
      exact List.mem_cons_self

theorem flows_storeQueueCycle (h : storeQueueCycle config set platform c = .ok c') :
    Flows config ⟨c, u⟩ ⟨c', u⟩ := by
  have hmoves : c' = c ∨ ∃ ptr ds dw, Moves config ⟨c, u⟩ ⟨c', u⟩ ptr 0 0 ds 0 dw :=
    moves_storeQueueCycle h
  rcases hmoves with rfl | ⟨_, _, _, hmoves⟩
  · exact flows_refl
  rcases storeQueueCycle_ok h with rfl | ⟨front, rest, tile, queues, hqueue, -, -, -, hpush, hc'⟩
  · exact flows_refl
  refine flows_lane (kept_moves hmoves) (congrArg NeuPIMSCore.lane hc') (fun _ hi => hi) ?_ rfl ?_
    (by rw [hc']) (by rw [hc']) (by rw [hc'])
  · intro i hi
    rw [hqueue]
    exact List.mem_cons_of_mem front hi
  · intro k r hr
    rcases mem_pushMemoryRequests hpush hr with hold | hnew
    · exact Or.inl hold
    · refine Or.inr ⟨front, Or.inr ?_, made_accessesOf hnew⟩
      rw [hqueue]
      exact List.mem_cons_self

theorem flows_dispatched {front : Instruction} {rest : List Instruction} {s : Sram}
    (hqueue : (c.lane platform).exInstQueue = front :: rest)
    (hd : Dispatched config (c.setLane platform { c.lane platform with exInstQueue := rest })
      front platform d)
    (hc' : c' = d.setLane platform { d.lane platform with accSpad := s }) :
    Flows config ⟨c, u⟩ ⟨c', u⟩ := by
  have hmoves : Moves config ⟨c, u⟩ ⟨c', u⟩ front.parentTile 0 0 0 0 0 :=
    moves_dispatched hqueue hd hc'
  have hlane := dispatched_lane hd hc'
  have hfront : front ∈ (c.lane platform).exInstQueue := by
    rw [hqueue]
    exact List.mem_cons_self
  have hrest : ∀ i ∈ rest, i ∈ (c.lane platform).exInstQueue := by
    intro i hi
    rw [hqueue]
    exact List.mem_cons_of_mem front hi
  have hpipes : c'.computePipeline = d.computePipeline ∧ c'.vectorPipelines = d.vectorPipelines ∧
      c'.dropped = d.dropped := by
    rw [hc']
    exact ⟨rfl, rfl, rfl⟩
  obtain ⟨hcompute, hvector, hdropped⟩ := hpipes
  refine
    { kept := kept_moves hmoves
      load := mem_lane_subset Lane.ldInstQueue hlane fun _ hi => hi
      store := mem_lane_subset Lane.stInstQueue hlane fun _ hi => hi
      execute := mem_lane_subset Lane.exInstQueue hlane hrest
      compute := ?_
      vector := ?_
      dropped := ?_
      queued := ?_
      unanswered := fun _ hr => Or.inl hr }
  · intro i hi
    dsimp only at hi
    rw [hcompute] at hi
    cases hd with
    | gemm start finish htile hsame =>
      rcases List.mem_append.mp hi with hi | hi
      · exact Or.inl hi
      · exact Or.inr ⟨front, hfront, start, finish, List.mem_singleton.mp hi⟩
    | vector start finish hk => exact Or.inl hi
    | dropped hwhy => exact Or.inl hi
  · intro i hi
    dsimp only at hi
    rw [hvector] at hi
    cases hd with
    | gemm start finish htile hsame => exact Or.inl hi
    | vector start finish hk =>
      rcases mem_contents_update hi with hi | hi
      · exact Or.inl hi
      · rcases List.mem_append.mp hi with hi | hi
        · exact Or.inl (mem_contents.mpr ⟨_, List.mem_range.mpr hk, hi⟩)
        · exact Or.inr ⟨platform, front, hfront, start, finish, List.mem_singleton.mp hi⟩
    | dropped hwhy => exact Or.inl hi
  · intro i hi
    dsimp only at hi
    rw [hdropped] at hi
    cases hd with
    | gemm start finish htile hsame => exact Or.inl hi
    | vector start finish hk => exact Or.inl hi
    | dropped hwhy =>
      rcases List.mem_append.mp hi with hi | hi
      · exact Or.inl hi
      · rw [List.mem_singleton.mp hi]
        exact Or.inr ⟨platform, hfront, hwhy⟩
  · intro p k r hr
    have hsame := lane_same Lane.memoryRequestQueues hlane rfl p
    dsimp only at hr
    rw [hsame] at hr
    exact Or.inl hr

theorem flows_executeQueueCycle (h : executeQueueCycle config platform c = .ok c') :
    Flows config ⟨c, u⟩ ⟨c', u⟩ := by
  rcases executeQueueCycle_ok h with rfl | ⟨front, rest, hqueue, -,
    ⟨-, d, hd, hexpect⟩ | ⟨hvalid, hc'⟩⟩
  · exact flows_refl
  · obtain ⟨s, -, hs⟩ := expectResult_ok hexpect
    exact flows_dispatched hqueue hd hs
  · refine flows_dispatched (s := (c.lane platform).accSpad) hqueue
      (.dropped (Or.inr hvalid)) ?_
    rw [hc']
    simp [NeuPIMSCore.setLane]

theorem kept_retire : Kept c (c.retire platform) where
  next := Nat.le_refl _
  heap := by
    intro ptr _ tile' htile'
    by_cases hdrained : ptr ∈ (c.lane platform).tiles ∧ c.drained ptr = true
    · rw [heap_retire_drained hdrained] at htile'
      obtain ⟨tile, htile, rfl⟩ := Option.map_eq_some_iff.mp htile'
      exact ⟨tile, htile, rfl, rfl, rfl, rfl⟩
    · rw [heap_retire hdrained] at htile'
      exact ⟨tile', htile', rfl, rfl, rfl, rfl⟩

theorem flows_retire : Flows config ⟨c, u⟩ ⟨c.retire platform, u⟩ := by
  have hlane : (c.retire platform).lane = Function.update c.lane platform _ := rfl
  exact flows_lane kept_retire hlane (fun _ hi => hi) (fun _ hi => hi) rfl
    (fun _ _ hr => Or.inl hr) rfl rfl rfl

/-- Every step but the last of a cycle. -/
theorem flows_unitStep {unit : UnitStep} (hcore : unit ≠ .core)
    (hok : unitStep config set c unit = .ok c') : Flows config ⟨c, u⟩ ⟨c', u⟩ := by
  cases unit with
  | systolic =>
    rcases systolicCycle_ok config hok with rfl | ⟨p, inst, d, hfront, hcomplete⟩
    · exact flows_refl
    · exact flows_complete hfront hcomplete
  | vector k =>
    simp only [unitStep] at hok
    split_ifs at hok with hk
    rcases vectorPipelineCycle_ok hk hok with rfl | ⟨p, inst, d, hfront, hcomplete⟩
    · exact flows_refl
    · exact flows_complete hfront hcomplete
  | ld => exact flows_ldInst hok
  | st p => exact flows_storeQueueCycle hok
  | ex p => exact flows_executeQueueCycle hok
  | pimLd => exact flows_pimLdInst hok
  | chargeSystolic => exact flows_chargeCycle hok
  | chargeVector k =>
    simp only [unitStep] at hok
    split_ifs at hok with hk
    exact flows_chargeCycle hok
  | core => exact absurd rfl hcore

theorem flows_popMemoryRequest {channel : ℕ} {request : MemoryAccess}
    (h : c.popMemoryRequest platform channel = some (request, c')) :
    Flows config ⟨c, u⟩ ⟨c', u ++ [request]⟩ := by
  obtain ⟨rest, hqueue, hc'⟩ := popMemoryRequest_some h
  have hlane := congrArg NeuPIMSCore.lane hc'
  have hpop : Flows config ⟨c, u⟩ ⟨c', u⟩ := by
    refine flows_lane ?_ hlane (fun _ hi => hi) (fun _ hi => hi) rfl ?_ (by rw [hc']; rfl)
      (by rw [hc']; rfl) (by rw [hc']; rfl)
    · exact kept_of_eq (by rw [hc']; rfl) (by rw [hc']; rfl)
    · intro k r hr
      by_cases hk : k = channel
      · subst hk
        rw [hqueue]
        exact Or.inl (List.mem_cons_of_mem _ (by simpa using hr))
      · exact Or.inl (by simpa [hk] using hr)
  refine { hpop with unanswered := ?_ }
  intro r hr
  rcases List.mem_append.mp hr with hr | hr
  · exact Or.inl hr
  · refine Or.inr ⟨platform, channel, ?_⟩
    rw [hqueue, List.mem_singleton.mp hr]
    exact List.mem_cons_self

theorem flows_pushMemoryResponse {request response : MemoryAccess} (hmem : request ∈ u)
    (hheader : request.reqType ≠ .P_HEADER) (htype : response.reqType = request.reqType)
    (hparent : response.parentTile = request.parentTile)
    (h : c.pushMemoryResponse response = .ok c') :
    Flows config ⟨c, u⟩ ⟨c', u.erase request⟩ := by
  have hmoves : ∃ dr dw, Moves config ⟨c, u⟩ ⟨c', u.erase request⟩ request.parentTile 0 0 0 dr dw :=
    moves_pushMemoryResponse hmem hheader htype hparent h
  obtain ⟨dr, dw, hmoves⟩ := hmoves
  have hkept := kept_moves hmoves
  obtain ⟨tile, tile', -, -, hresponded⟩ := pushMemoryResponse_ok h
  have herase : ∀ r ∈ u.erase request, r ∈ u := fun _ hr => List.mem_of_mem_erase hr
  cases hresponded with
  | write _ =>
    exact flows_of_sameQueues hkept (fun _ => sameQueues_refl _) (fun _ hi => hi)
      (fun _ hi => hi) rfl herase
  | unfilled _ _ =>
    exact flows_of_sameQueues hkept (fun _ => sameQueues_refl _) (fun _ hi => hi)
      (fun _ hi => hi) rfl herase
  | filled _ _ hfill =>
    exact flows_of_sameQueues hkept (sameQueues_update rfl (sameQueues_fill hfill))
      (fun _ hi => hi) (fun _ hi => hi) rfl herase

end NewPims.NeuPIMSystolicWS

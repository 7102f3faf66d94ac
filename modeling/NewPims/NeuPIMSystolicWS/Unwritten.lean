import NewPims.NeuPIMSystolicWS.DoubleBuffer

/-! Tiles that write each key of their accumulator once: while a computation is queued, there is no
entry for its result, and nothing else in the queues makes one. -/
namespace NewPims

open Transition NeuPIMSCore

/-- The tile writes each key of its accumulator once: it does not go on with the sums of another
tile, and it has one computation for the key and no load. -/
structure Tile.WritesOnce (tile : Tile) : Prop where
  accum : tile.accum = false
  valid : ∀ i ∈ tile.instructions, i.valid = true
  stores : ∀ i ∈ tile.instructions, i.opcode.isStore → ACCUM_SPAD_BASE ≤ i.destAddr
  once : (tile.instructions.filter (takes tile.stagePlatform .compute)).Pairwise
    fun i j => i.destAddr ≠ j.destAddr
  loads : ∀ k ∈ tile.instructions, ∀ i ∈ tile.instructions,
    takes tile.stagePlatform .load k →
    takes tile.stagePlatform .compute i → ACCUM_SPAD_BASE ≤ k.destAddr →
    k.destAddr ≠ i.destAddr

instance (tile : Tile) : Decidable tile.WritesOnce :=
  decidable_of_iff (tile.accum = false ∧ (∀ i ∈ tile.instructions, i.valid = true) ∧
    (∀ i ∈ tile.instructions, i.opcode.isStore → ACCUM_SPAD_BASE ≤ i.destAddr) ∧
    ((tile.instructions.filter (takes tile.stagePlatform .compute)).Pairwise
      fun i j => i.destAddr ≠ j.destAddr) ∧
    ∀ k ∈ tile.instructions, ∀ i ∈ tile.instructions, takes tile.stagePlatform .load k →
      takes tile.stagePlatform .compute i → ACCUM_SPAD_BASE ≤ k.destAddr →
      k.destAddr ≠ i.destAddr)
    ⟨fun ⟨haccum, hvalid, hstores, honce, hloads⟩ => ⟨haccum, hvalid, hstores, honce, hloads⟩,
      fun h => ⟨h.accum, h.valid, h.stores, h.once, h.loads⟩⟩

theorem NeuPIMSCore.route_store {platform : StagePlatform} {op : Opcode}
    (h : route platform op = .store) : op.isStore = true := by
  cases platform <;> cases op <;> first | rfl | cases h

namespace Lane

variable {l l' : Lane} {a address : AddrType} {b bufferId : ℕ}

theorem accSpad_setBuffer (s : Sram) :
    (l.setBuffer address s).accSpad = if ACCUM_SPAD_BASE ≤ address then s else l.accSpad := by
  unfold setBuffer
  split <;> rfl

theorem buffer_accSpad (h : ACCUM_SPAD_BASE ≤ address) : l.buffer address = l.accSpad := if_pos h

/-- No entry comes with an answer. -/
theorem none_fill (h : l.fill address bufferId = .ok l') (hnone : l.accSpad.cacheTable b a = none) :
    l'.accSpad.cacheTable b a = none := by
  obtain ⟨s, hs, rfl⟩ := map_ok h
  obtain ⟨e, he, -, -, rfl⟩ := Sram.fill_ok hs
  rw [accSpad_setBuffer]
  split
  next hacc =>
    rw [buffer_accSpad hacc] at he ⊢
    rw [Sram.cacheTable_setEntry, if_neg, hnone]
    rintro ⟨rfl, rfl⟩
    rw [hnone] at he
    cases he
  next => exact hnone

theorem none_reserve {size count : ℕ} (h : l.reserve address bufferId size count = .ok l')
    (hne : ACCUM_SPAD_BASE ≤ address → bufferId = b → address ≠ a)
    (hnone : l.accSpad.cacheTable b a = none) : l'.accSpad.cacheTable b a = none := by
  obtain ⟨s, hs, rfl⟩ := map_ok h
  obtain ⟨-, t, ht, rfl⟩ := Sram.reserve_ok hs
  rw [accSpad_setBuffer]
  split
  next hacc =>
    rw [buffer_accSpad hacc] at ht
    rw [Sram.cacheTable_setEntry, if_neg, ht, hnone]
    exact fun hsame => hne hacc hsame.1.symm hsame.2.symm
  next => exact hnone

/-- The keys that the queued computations write are not in the accumulator yet, and nothing else in
the queues writes them. -/
structure Unwritten (l : Lane) : Prop where
  entry : ∀ i ∈ l.exInstQueue, l.accSpad.cacheTable i.accumSpadId i.destAddr = none
  valid : ∀ i ∈ l.exInstQueue, i.valid = true
  once : l.exInstQueue.Pairwise fun i j => i.accumSpadId = j.accumSpadId → i.destAddr ≠ j.destAddr
  loads : ∀ k ∈ l.ldInstQueue, k.opcode ≠ .PIM_HEADER → ACCUM_SPAD_BASE ≤ k.destAddr →
    ∀ i ∈ l.exInstQueue, k.accumSpadId = i.accumSpadId → k.destAddr ≠ i.destAddr
  stores : ∀ i ∈ l.stInstQueue, ACCUM_SPAD_BASE ≤ i.destAddr

theorem unwritten_init (config : SimulationConfig) : (init config).Unwritten :=
  ⟨fun _ h => absurd h List.not_mem_nil, fun _ h => absurd h List.not_mem_nil, List.Pairwise.nil,
    fun _ h => absurd h List.not_mem_nil, fun _ h => absurd h List.not_mem_nil⟩

/-- Instructions have left the queues, and no key that is still to be written has come. -/
theorem unwritten_of (h : l.Unwritten) (hex : l'.exInstQueue.Sublist l.exInstQueue)
    (hld : l'.ldInstQueue ⊆ l.ldInstQueue) (hst : l'.stInstQueue ⊆ l.stInstQueue)
    (hentry : ∀ i ∈ l'.exInstQueue, l.accSpad.cacheTable i.accumSpadId i.destAddr = none →
      l'.accSpad.cacheTable i.accumSpadId i.destAddr = none) : l'.Unwritten where
  entry := fun i hi => hentry i hi (h.entry i (hex.subset hi))
  valid := fun i hi => h.valid i (hex.subset hi)
  once := h.once.sublist hex
  loads := fun k hk hheader hacc i hi => h.loads k (hld hk) hheader hacc i (hex.subset hi)
  stores := fun i hi => h.stores i (hst hi)

/-- The instructions of a tile that writes every key once come to a buffer that is empty and that
nothing else is queued for. -/
theorem unwritten_admit {tile : Tile} {ptr : TilePtr} {spadId : ℕ} {tiles : List TilePtr}
    (h : l.Unwritten) (hw : tile.WritesOnce) (hempty : ∀ a, l.accSpad.cacheTable b a = none)
    (hloads : ∀ k ∈ l.ldInstQueue, k.opcode ≠ .PIM_HEADER → ACCUM_SPAD_BASE ≤ k.destAddr →
      k.accumSpadId ≠ b)
    (hresults : ∀ i ∈ l.exInstQueue, i.accumSpadId ≠ b) :
    Unwritten { l with
      ldInstQueue := l.ldInstQueue ++
        (tile.instructions.map (claimInst tile.stagePlatform ptr spadId b)).filter
          (takesLoad tile.stagePlatform)
      stInstQueue := l.stInstQueue ++
        (tile.instructions.map (claimInst tile.stagePlatform ptr spadId b)).filter
          (takes tile.stagePlatform .store)
      exInstQueue := l.exInstQueue ++
        (tile.instructions.map (claimInst tile.stagePlatform ptr spadId b)).filter
          (takes tile.stagePlatform .compute)
      tiles := tiles } := by
  have hstarted : ∀ P, ∀ i ∈ (tile.instructions.map
      (claimInst tile.stagePlatform ptr spadId b)).filter P,
      ∃ j ∈ tile.instructions, P i = true ∧ i.accumSpadId = b ∧ i.destAddr = j.destAddr ∧
        i.opcode = j.opcode ∧ i.valid = j.valid := by
    intro P i hi
    obtain ⟨hi, hP⟩ := List.mem_filter.mp hi
    obtain ⟨j, hj, rfl⟩ := List.mem_map.mp hi
    exact ⟨j, hj, hP, rfl, rfl, rfl, rfl⟩
  refine ⟨?_, ?_, ?_, ?_, ?_⟩
  · intro i hi
    rcases List.mem_append.mp hi with hi | hi
    · exact h.entry i hi
    · obtain ⟨j, -, -, hb, -⟩ := hstarted _ i hi
      rw [hb]
      exact hempty _
  · intro i hi
    rcases List.mem_append.mp hi with hi | hi
    · exact h.valid i hi
    · obtain ⟨j, hj, -, -, -, -, hvalid⟩ := hstarted _ i hi
      rw [hvalid]
      exact hw.valid j hj
  · refine List.pairwise_append.mpr ⟨h.once, ?_, fun i hi j hj hsame => ?_⟩
    · rw [List.filter_map, List.pairwise_map]
      refine List.Pairwise.imp ?_ hw.once
      exact fun hne _ => hne
    · obtain ⟨-, -, -, hb, -⟩ := hstarted _ j hj
      exact absurd (hsame.trans hb) (hresults i hi)
  · intro k hk hheader hacc i hi hsame
    rcases List.mem_append.mp hk with hk | hk
    · rcases List.mem_append.mp hi with hi | hi
      · exact h.loads k hk hheader hacc i hi hsame
      · obtain ⟨-, -, -, hb, -⟩ := hstarted _ i hi
        exact absurd (hsame.trans hb) (hloads k hk hheader hacc)
    · obtain ⟨k', hk', htakes, hkb, hkdest, hkop, -⟩ := hstarted _ k hk
      rcases List.mem_append.mp hi with hi | hi
      · exact absurd (hsame.symm.trans hkb) (hresults i hi)
      · obtain ⟨i', hi', htakes', -, hdest, hop, -⟩ := hstarted _ i hi
        rw [hkdest] at hacc ⊢
        rw [hdest]
        refine hw.loads k' hk' i' hi' ?_ ?_ hacc
        · rw [takesLoad, Bool.or_eq_true] at htakes
          rw [takes, hkop] at htakes
          refine htakes.resolve_right fun hhead => hheader ?_
          rw [takes, beq_iff_eq] at hhead
          exact route_header hhead
        · rw [takes, hop] at htakes'
          exact htakes'
  · intro i hi
    rcases List.mem_append.mp hi with hi | hi
    · exact h.stores i hi
    · obtain ⟨j, hj, htakes, -, hdest, hop, -⟩ := hstarted _ i hi
      rw [hdest]
      refine hw.stores j hj ?_
      rw [takes, hop, beq_iff_eq] at htakes
      exact route_store htakes

end Lane

namespace NeuPIMSystolicWS

open Bank Session

/-- No queued computation has anything in its place, and all that have left the queues were
valid. -/
structure Unwritten (c : NeuPIMSCore) : Prop where
  lane : ∀ p, (c.lane p).Unwritten
  dropped : ∀ i ∈ c.dropped, i.valid = true

variable {config : SimulationConfig} {set : RobinHood} {c c' d : NeuPIMSCore}
  {u : List MemoryAccess} {platform : StagePlatform} {inst : Instruction} {tile : Tile} {l : Lane}

section Written

theorem unwritten_same (h : Unwritten c) (hlane : c'.lane = c.lane)
    (hdropped : c'.dropped = c.dropped) : Unwritten c' := by
  refine ⟨?_, ?_⟩
  · rw [hlane]
    exact h.lane
  · rw [hdropped]
    exact h.dropped

theorem unwritten_update (h : Unwritten c) (hlane : c'.lane = Function.update c.lane platform l)
    (hl : l.Unwritten) (hdropped : ∀ i ∈ c'.dropped, i.valid = true) : Unwritten c' := by
  refine ⟨fun p => ?_, hdropped⟩
  rw [hlane]
  by_cases hp : p = platform
  · rw [hp, Function.update_self]
    exact hl
  · rw [Function.update_of_ne hp]
    exact h.lane p

theorem unwritten_fill {l' : Lane} {address : AddrType} {bufferId : ℕ} (h : l.Unwritten)
    (hfill : l.fill address bufferId = .ok l') : l'.Unwritten := by
  obtain ⟨-, hld, hst, hex, -⟩ := sameQueues_fill hfill
  refine Lane.unwritten_of h (hex ▸ List.Sublist.refl _) ?_ ?_ fun i _ => Lane.none_fill hfill
  · exact fun i hi => hld ▸ hi
  · exact fun i hi => hst ▸ hi

theorem unwritten_complete (h : Unwritten c) (hfront : Front config c platform inst d)
    (hok : complete d platform inst = .ok c') : Unwritten c' := by
  obtain ⟨hlane, -⟩ := front_same hfront
  obtain ⟨-, l, tile, hfill, -, rfl⟩ := complete_ok hok
  rw [hlane] at hfill
  refine unwritten_update h (?_ : _ = Function.update c.lane platform l)
    (unwritten_fill (h.lane platform) hfill) ?_
  · rw [← hlane]
    rfl
  · cases hfront <;> exact h.dropped

/-- A load whose entry is reserved has left the queue. -/
theorem unwritten_reserve {l' : Lane} {front : Instruction} {rest : List Instruction}
    {size count : ℕ} {queues : ℕ → List MemoryAccess} (h : l.Unwritten)
    (hqueue : l.ldInstQueue = front :: rest) (hheader : front.opcode ≠ .PIM_HEADER)
    (hreserve : l.reserve front.destAddr front.bufferId size count = .ok l') :
    Lane.Unwritten { l' with ldInstQueue := rest, memoryRequestQueues := queues } := by
  obtain ⟨-, -, hst, hex, -⟩ := sameQueues_reserve hreserve
  refine Lane.unwritten_of h (hex ▸ List.Sublist.refl _) ?_ ?_ fun i hi => ?_
  · rw [hqueue]
    exact List.subset_cons_self front rest
  · exact fun i hi => hst ▸ hi
  · have hmem : front ∈ l.ldInstQueue := by
      rw [hqueue]
      exact List.mem_cons_self
    have hne : ACCUM_SPAD_BASE ≤ front.destAddr → front.bufferId = i.accumSpadId →
        front.destAddr ≠ i.destAddr := by
      intro hacc hb
      rw [Instruction.bufferId, if_pos hacc] at hb
      exact h.loads front hmem hheader hacc i (hex ▸ hi) hb
    intro hnone
    have hkept := Lane.none_reserve hreserve hne hnone
    exact hkept

theorem unwritten_ldInst (h : Unwritten c) (hok : ldInst config set c = .ok c') :
    Unwritten c' := by
  rcases ldInst_ok hok with ⟨-, rfl⟩ | ⟨front, rest, l, tile, queues, hqueue, hopcode, -, hreserve,
    -, -, rfl⟩
  · exact h
  · refine unwritten_update h rfl (unwritten_reserve (h.lane .SA) hqueue ?_ hreserve) h.dropped
    rw [hopcode]
    decide

theorem unwritten_pimLdInst (h : Unwritten c) (hok : pimLdInst config c = .ok c') :
    Unwritten c' := by
  rcases pimLdInst_ok hok with ⟨-, rfl⟩ | ⟨front, rest, request, l, queues, hqueue, -, -, hreserve,
    -, rfl⟩
  · exact h
  · refine unwritten_update h rfl ?_ h.dropped
    unfold reserveResult at hreserve
    split at hreserve
    next hreturns =>
      refine unwritten_reserve (h.lane .PIM) hqueue (fun hheader => ?_) hreserve
      rw [hheader] at hreturns
      exact absurd hreturns (by decide)
    next =>
      cases hreserve
      refine Lane.unwritten_of (h.lane .PIM) (List.Sublist.refl _) ?_ (fun _ hi => hi)
        fun _ _ hnone => hnone
      rw [hqueue]
      exact List.subset_cons_self front rest

theorem unwritten_storeQueueCycle (h : Unwritten c)
    (hok : storeQueueCycle config set platform c = .ok c') : Unwritten c' := by
  rcases storeQueueCycle_ok hok with rfl | ⟨front, rest, tile, queues, hqueue, -, -, -, -, rfl⟩
  · exact h
  · refine unwritten_update h rfl ?_ h.dropped
    refine Lane.unwritten_of (h.lane platform) (List.Sublist.refl _) (fun _ hi => hi) ?_
      fun _ _ hnone => hnone
    rw [hqueue]
    exact List.subset_cons_self front rest

/-- The computation that is issued writes a key that no other in the queue writes. -/
theorem unwritten_executeQueueCycle (h : Unwritten c)
    (hok : executeQueueCycle config platform c = .ok c') : Unwritten c' := by
  rcases executeQueueCycle_ok hok with rfl | ⟨front, rest, hqueue, -, ⟨hvalid, d, hd, hexpect⟩ |
    ⟨hvalid, -⟩⟩
  · exact h
  · obtain ⟨hfront, hrest⟩ : (∀ i ∈ rest, front.accumSpadId = i.accumSpadId →
        front.destAddr ≠ i.destAddr) ∧ _ := by
      have honce := (h.lane platform).once
      rw [hqueue] at honce
      exact List.pairwise_cons.mp honce
    obtain ⟨s, hs, rfl⟩ := expectResult_ok hexpect
    have hlane : d.lane = Function.update c.lane platform
        { c.lane platform with exInstQueue := rest } := by
      cases hd <;> rfl
    have hdropped : ∀ i ∈ d.dropped, i.valid = true := by
      cases hd with
      | gemm _ _ _ _ => exact h.dropped
      | vector _ _ _ => exact h.dropped
      | dropped _ =>
        intro i hi
        rcases List.mem_append.mp hi with hi | hi
        · exact h.dropped i hi
        · rw [List.mem_singleton.mp hi]
          exact hvalid
    have hself : d.lane platform = { c.lane platform with exInstQueue := rest } := by
      rw [hlane, Function.update_self]
    refine unwritten_update h (?_ : _ = Function.update c.lane platform
      { c.lane platform with exInstQueue := rest, accSpad := s }) ?_ hdropped
    · rw [setLane, hself, hlane]
      exact Function.update_idem _ _ _
    · refine Lane.unwritten_of (h.lane platform) ?_ (fun _ hi => hi) (fun _ hi => hi) ?_
      · rw [hqueue]
        exact List.sublist_cons_self front rest
      · intro i hi hnone
        rw [hself] at hs
        have hne : ¬ (i.accumSpadId = front.accumSpadId ∧ i.destAddr = front.destAddr) :=
          fun hsame => hfront i hi hsame.1.symm hsame.2.symm
        split_ifs at hs
        · obtain ⟨e, -, rfl⟩ := Sram.countUp_ok hs
          rw [Sram.cacheTable_setEntry, if_neg hne]
          exact hnone
        · obtain ⟨-, t, ht, rfl⟩ := Sram.reserve_ok hs
          rw [Sram.cacheTable_setEntry, if_neg hne, ht]
          exact hnone
  · have hfront := (h.lane platform).valid front (by rw [hqueue]; exact List.mem_cons_self)
    exact absurd (hfront.symm.trans hvalid) (by decide)

theorem unwritten_retire (h : Unwritten c) : Unwritten (c.retire platform) :=
  unwritten_update h rfl
    (Lane.unwritten_of (h.lane platform) (List.Sublist.refl _) (fun _ hi => hi) (fun _ hi => hi)
      fun _ _ hnone => hnone) h.dropped

theorem unwritten_unitStep {unit : UnitStep} (h : Unwritten c)
    (hok : unitStep config set c unit = .ok c') : Unwritten c' := by
  have hcharge : ∀ {pipeline : List Instruction}, chargeCycle pipeline c = .ok c' →
      Unwritten c' := by
    intro pipeline hok
    rcases chargeCycle_ok hok with rfl | ⟨_, _, _, -, -, rfl⟩
    · exact h
    · exact unwritten_same h rfl rfl
  cases unit with
  | systolic =>
    rcases systolicCycle_ok config hok with rfl | ⟨p, inst, d, hfront, hcomplete⟩
    · exact h
    · exact unwritten_complete h hfront hcomplete
  | vector k =>
    simp only [unitStep] at hok
    split_ifs at hok with hk
    rcases vectorPipelineCycle_ok hk hok with rfl | ⟨p, inst, d, hfront, hcomplete⟩
    · exact h
    · exact unwritten_complete h hfront hcomplete
  | ld => exact unwritten_ldInst h hok
  | st p => exact unwritten_storeQueueCycle h hok
  | ex p => exact unwritten_executeQueueCycle h hok
  | pimLd => exact unwritten_pimLdInst h hok
  | chargeSystolic => exact hcharge hok
  | chargeVector k =>
    simp only [unitStep] at hok
    split_ifs at hok with hk
    exact hcharge hok
  | core =>
    cases hok
    have htick : Unwritten c.tick := unwritten_same h rfl rfl
    exact unwritten_retire (unwritten_retire htick)

end Written

section Admitted

theorem unwritten_flip {spadId accumSpadId : ℕ} {accum : Bool} (h : l.Unwritten) :
    (l.flip spadId accumSpadId accum).Unwritten := by
  refine Lane.unwritten_of h (List.Sublist.refl _) (fun _ hi => hi) (fun _ hi => hi) ?_
  intro i _ hnone
  unfold Lane.flip
  cases accum with
  | true => exact hnone
  | false =>
    change ((l.accSpad.flush accumSpadId).cacheTable _ _) = none
    rw [Sram.cacheTable_flush]
    split
    · rfl
    · exact hnone

/-- A tile that writes every key once comes to a buffer that has been released and flushed. -/
theorem unwritten_admitTile {b spadId : ℕ} (h : Unwritten c) (hw : tile.WritesOnce)
    (hempty : ∀ a, (c.lane tile.stagePlatform).accSpad.cacheTable b a = none)
    (hloads : ∀ k ∈ (c.lane tile.stagePlatform).ldInstQueue, k.opcode ≠ .PIM_HEADER →
      ACCUM_SPAD_BASE ≤ k.destAddr → k.accumSpadId ≠ b)
    (hresults : ∀ i ∈ (c.lane tile.stagePlatform).exInstQueue, i.accumSpadId ≠ b)
    (hok : c.admitTile tile.stagePlatform (c.startTile tile.stagePlatform tile spadId b) =
      .ok c') : Unwritten c' := by
  obtain ⟨l', tile', hall, rfl⟩ := admitTile_ok hok
  obtain ⟨rfl, -⟩ := enqueueAll_ok hall
  refine unwritten_update h rfl ?_ h.dropped
  exact Lane.unwritten_admit (h.lane tile.stagePlatform) hw hempty hloads hresults

theorem released_queues {p : StagePlatform} {b : ℕ} (htagged : Tagged config ⟨c, u⟩)
    (h : Released config ⟨c, u⟩ p true b) :
    (∀ k ∈ (c.lane p).ldInstQueue, k.opcode ≠ .PIM_HEADER → ACCUM_SPAD_BASE ≤ k.destAddr →
      k.accumSpadId ≠ b) ∧ ∀ i ∈ (c.lane p).exInstQueue, i.accumSpadId ≠ b := by
  constructor
  · intro k hk hheader hacc
    have hne := h.loads k hk hheader (iff_of_true hacc rfl)
    rwa [Instruction.bufferId, if_pos hacc] at hne
  · intro i hi
    refine h.results rfl i ?_ (htagged.execute p i hi).1.platform
    exact List.mem_append_left _ (mem_contents.mpr ⟨p, mem_platforms p, hi⟩)

theorem unwritten_issue (hbuffered : Buffered config ⟨c, u⟩) (h : Unwritten c)
    (hcan : c.canIssue tile = true) (hplatform : tile.stagePlatform = .SA) (hw : tile.WritesOnce)
    (hok : c.issue tile = .ok c') : Unwritten c' := by
  unfold issue at hok
  split_ifs at hok with hskip
  · cases hok
    exact unwritten_same h rfl rfl
  · obtain ⟨hreleased, -⟩ :=
      released_acc hbuffered.counted hbuffered.tagged hbuffered.turned hcan hw.accum
    obtain ⟨hloads, hresults⟩ := released_queues hbuffered.tagged hreleased
    have hlane : (c.flipBuffers tile.accum).lane = Function.update c.lane .SA
        ((c.lane .SA).flip ((c.currentSpad + 1) % 2) ((c.currentAccSpad + 1) % 2) tile.accum) := rfl
    have hself : (c.flipBuffers tile.accum).lane .SA =
        (c.lane .SA).flip ((c.currentSpad + 1) % 2) ((c.currentAccSpad + 1) % 2) tile.accum := by
      rw [hlane, Function.update_self]
    have hflip : Unwritten (c.flipBuffers tile.accum) :=
      unwritten_update h hlane (unwritten_flip (h.lane .SA)) h.dropped
    have hacc : (c.flipBuffers tile.accum).currentAccSpad = (c.currentAccSpad + 1) % 2 := by
      rw [hw.accum]
      rfl
    dsimp only at hok
    rw [hacc, ← hplatform] at hok
    refine unwritten_admitTile hflip hw ?_ ?_ ?_ hok
    · intro a
      rw [hplatform, hself, Lane.flip, hw.accum]
      change ((c.lane .SA).accSpad.flush _).cacheTable _ _ = none
      rw [Sram.cacheTable_flush, if_pos rfl]
    · rw [hplatform, hself]
      exact hloads
    · rw [hplatform, hself]
      exact hresults

theorem unwritten_issuePim (hbuffered : Buffered config ⟨c, u⟩) (h : Unwritten c)
    (hcan : c.canIssuePim = true) (hplatform : tile.stagePlatform = .PIM) (hw : tile.WritesOnce)
    (hok : c.issuePim tile = .ok c') : Unwritten c' := by
  unfold issuePim at hok
  split_ifs at hok with hskip
  · cases hok
    exact unwritten_same h rfl rfl
  · obtain ⟨hreleased, -⟩ :=
      released_pim hbuffered.counted hbuffered.tagged hbuffered.turned hcan true
    obtain ⟨hloads, hresults⟩ := released_queues hbuffered.tagged hreleased
    have hlane : c.flushPim.lane =
        Function.update c.lane .PIM ((c.lane .PIM).flip 0 0 false) := rfl
    have hself : c.flushPim.lane .PIM = (c.lane .PIM).flip 0 0 false := by
      rw [hlane, Function.update_self]
    have hflush : Unwritten c.flushPim :=
      unwritten_update h hlane (unwritten_flip (h.lane .PIM)) h.dropped
    dsimp only at hok
    rw [← hplatform] at hok
    refine unwritten_admitTile hflush hw ?_ ?_ ?_ hok
    · intro a
      rw [hplatform, hself, Lane.flip]
      change ((c.lane .PIM).accSpad.flush _).cacheTable _ _ = none
      rw [Sram.cacheTable_flush, if_pos rfl]
    · rw [hplatform, hself]
      exact hloads
    · rw [hplatform, hself]
      exact hresults

end Admitted

section Runs

theorem unwritten_preserved : Preserved config set (fun _ tile => tile.WritesOnce)
    fun s => Buffered config s ∧ Unwritten s.core := by
  have hbuffered := @buffered_preserved config set
  refine ⟨?_, ?_, ?_, ?_, ?_, ?_, ?_⟩
  · intro c u unit c' h hok
    exact ⟨hbuffered.unit c u unit c' h.1 hok, unwritten_unitStep h.2 hok⟩
  · intro c u tile c' h hcan hplatform hunmarked hw hok
    exact ⟨hbuffered.issue c u tile c' h.1 hcan hplatform hunmarked trivial hok,
      unwritten_issue h.1 h.2 hcan hplatform hw hok⟩
  · intro c u tile c' h hcan hplatform hunmarked hw hok
    exact ⟨hbuffered.issuePim c u tile c' h.1 hcan hplatform hunmarked trivial hok,
      unwritten_issuePim h.1 h.2 hcan hplatform hw hok⟩
  · intro c u platform channel request c' h hchannel hpop
    refine ⟨hbuffered.pop c u platform channel request c' h.1 hchannel hpop, ?_⟩
    obtain ⟨rest, -, rfl⟩ := popMemoryRequest_some hpop
    refine unwritten_update h.2 rfl ?_ h.2.dropped
    exact Lane.unwritten_of (h.2.lane platform) (List.Sublist.refl _) (fun _ hi => hi)
      (fun _ hi => hi) fun _ _ hnone => hnone
  · intro c u request platform c' h hmem hheader hok
    refine ⟨hbuffered.response c u request platform c' h.1 hmem hheader hok, ?_⟩
    obtain ⟨tile, tile', -, -, hresponded⟩ := pushMemoryResponse_ok hok
    cases hresponded with
    | write _ => exact unwritten_same h.2 rfl rfl
    | unfilled _ _ => exact unwritten_same h.2 rfl rfl
    | filled hwrite hunfilled hfill =>
      exact unwritten_update h.2 rfl (unwritten_fill (h.2.lane _) hfill) h.2.dropped
  · intro c u h
    refine ⟨hbuffered.finished c u h.1, ?_⟩
    unfold popFinishedTile
    cases c.finishedTiles with
    | nil => exact h.2
    | cons ptr rest => exact unwritten_same h.2 rfl rfl
  · intro c u constAddr memAccessId h
    exact ⟨hbuffered.statics c u constAddr memAccessId h.1, unwritten_same h.2 rfl rfl⟩

end Runs

end NeuPIMSystolicWS

end NewPims

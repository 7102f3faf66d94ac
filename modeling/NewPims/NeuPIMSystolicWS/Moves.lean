import NewPims.NeuPIMSystolicWS.Counters

/-! Each step of a core, each request taken and each response moves the work of one tile. -/
namespace NewPims.NeuPIMSystolicWS.Session

open Bank Transition

variable {config : SimulationConfig} {set : RobinHood} {c c' d : NeuPIMSCore}
  {platform : StagePlatform} {inst : Instruction} {u : List MemoryAccess}

theorem front_same (h : Front config c platform inst d) :
    d.lane = c.lane ∧ d.heap = c.heap ∧ d.nextTile = c.nextTile ∧
      d.finishedTiles = c.finishedTiles ∧ d.waitingWriteReqs = c.waitingWriteReqs ∧
      d.dropped = c.dropped := by
  cases h <;> exact ⟨rfl, rfl, rfl, rfl, rfl, rfl⟩

theorem sameQueues_fill {l l' : Lane} {address : AddrType} {bufferId : ℕ}
    (h : l.fill address bufferId = .ok l') : l.SameQueues l' := by
  obtain ⟨s, -, rfl⟩ := Lane.fill_ok h
  exact Lane.sameQueues_setBuffer s

theorem sameQueues_reserve {l l' : Lane} {address : AddrType} {bufferId size count : ℕ}
    (h : l.reserve address bufferId size count = .ok l') : l.SameQueues l' := by
  obtain ⟨s, -, rfl⟩ := Lane.reserve_ok h
  exact Lane.sameQueues_setBuffer s

/-- A part that the new lane has unchanged. -/
theorem lane_same {β : Type*} {l : Lane} (f : Lane → β)
    (hlane : c'.lane = Function.update c.lane platform l) (h : f l = f (c.lane platform))
    (p : StagePlatform) : f (c'.lane p) = f (c.lane p) := by
  rw [hlane]
  by_cases hp : p = platform
  · rw [hp, Function.update_self, h]
  · rw [Function.update_of_ne hp]

theorem contents_lane_same {α : Type*} {l : Lane} (f : Lane → List α)
    (hlane : c'.lane = Function.update c.lane platform l) (h : f l = f (c.lane platform)) :
    (contents platforms fun p => f (c'.lane p)) = contents platforms fun p => f (c.lane p) :=
  contents_congr fun p _ => lane_same f hlane h p

/-- The requests after a lane has queued some more. -/
theorem countP_requests {l : Lane} {accesses : List MemoryAccess}
    (hlane : c'.lane = Function.update c.lane platform l)
    (hpush : NeuPIMSCore.pushMemoryRequests config (c.lane platform).memoryRequestQueues
      accesses = .ok l.memoryRequestQueues) (P : MemoryAccess → Bool) :
    (requests config ⟨c', u⟩).countP P =
      (requests config ⟨c, u⟩).countP P + accesses.countP P := by
  have hlanes := countP_lane
    (fun l => contents (List.range config.dramChannels) l.memoryRequestQueues) hlane P
  have hqueues := countP_pushMemoryRequests hpush P
  simp only [requests, queuedRequests, List.countP_append]
  omega

section Same

variable {u' : List MemoryAccess} {q ptr : TilePtr}

theorem loads_same (h : loading c' = loading c) :
    (loadsOf ⟨c', u'⟩ q : ℤ) = loadsOf ⟨c, u⟩ q + if q = ptr then 0 else 0 := by
  simp only [loadsOf, h, ite_self, Int.add_zero]

theorem stores_same (h : storing c' = storing c) :
    (storesOf ⟨c', u'⟩ q : ℤ) = storesOf ⟨c, u⟩ q + if q = ptr then 0 else 0 := by
  simp only [storesOf, h, ite_self, Int.add_zero]

theorem requests_congr (h : queuedRequests config c' = queuedRequests config c) :
    requests config ⟨c', u⟩ = requests config ⟨c, u⟩ := congrArg (· ++ u) h

theorem reads_same (h : queuedRequests config c' = queuedRequests config c) :
    (readsOf config ⟨c', u⟩ q : ℤ) = readsOf config ⟨c, u⟩ q + if q = ptr then 0 else 0 := by
  simp only [readsOf, requests_congr h, ite_self, Int.add_zero]

theorem writes_same (h : queuedRequests config c' = queuedRequests config c) :
    (writesOf config ⟨c', u⟩ q : ℤ) = writesOf config ⟨c, u⟩ q + if q = ptr then 0 else 0 := by
  simp only [writesOf, requests_congr h, ite_self, Int.add_zero]

theorem allWrites_same (h : queuedRequests config c' = queuedRequests config c) :
    (writes config ⟨c', u⟩ : ℤ) = writes config ⟨c, u⟩ + 0 := by
  simp only [writes, requests_congr h, Int.add_zero]

theorem pending_same (hex : executing c' = executing c) (hpiped : piped config c' = piped config c)
    (hdropped : c'.dropped = c.dropped) :
    (pendingOf config ⟨c', u'⟩ q : ℤ) =
      pendingOf config ⟨c, u⟩ q + if q = ptr then 0 else 0 := by
  simp only [pendingOf_eq, hex, hpiped, hdropped, ite_self, Int.add_zero]

end Same

section Accesses

theorem reads_of_reads (q : TilePtr) :
    (accessesOf config set c platform inst .READ).1.countP (readOf q) =
      if q = inst.parentTile then (accessesOf config set c platform inst .READ).1.length
      else 0 := by
  rw [countP_accessesOf (b := q == inst.parentTile)]
  · simp only [beq_iff_eq]
  · intro a hparent htype _ _ _
    rw [readOf, hparent, htype, Bool.beq_comm]
    cases q == inst.parentTile <;> rfl

theorem writes_of_reads :
    (accessesOf config set c platform inst .READ).1.countP isWrite = 0 := by
  rw [countP_accessesOf (b := false)]
  · simp
  · intro a _ htype _ _ _
    simp [isWrite, htype]

theorem reads_of_writes (q : TilePtr) :
    (accessesOf config set c platform inst .WRITE).1.countP (readOf q) = 0 := by
  rw [countP_accessesOf (b := false)]
  · simp
  · intro a _ htype _ _ _
    simp [readOf, htype]

theorem writes_of_writes :
    (accessesOf config set c platform inst .WRITE).1.countP isWrite =
      (accessesOf config set c platform inst .WRITE).1.length := by
  rw [countP_accessesOf (b := true)]
  · simp
  · intro a _ htype _ _ _
    simp [isWrite, htype]

/-- The writes of one tile among the accesses of an instruction. -/
theorem writesOf_accessesOf (reqType : MemoryAccessType) (q : TilePtr) :
    (accessesOf config set c platform inst reqType).1.countP (writeOf q) =
      if q = inst.parentTile then
        (accessesOf config set c platform inst reqType).1.countP isWrite
      else 0 := by
  by_cases hq : q = inst.parentTile
  · rw [if_pos hq]
    refine List.countP_congr fun a ha => ?_
    simp [writeOf, (mem_accessesOf ha).1, hq]
  · rw [if_neg hq, List.countP_eq_zero]
    intro a ha
    simp [writeOf, (mem_accessesOf ha).1, Ne.symm hq]

end Accesses

theorem complete_sameQueues (hfront : Front config c platform inst d)
    (h : complete d platform inst = .ok c') (p : StagePlatform) :
    (c.lane p).SameQueues (c'.lane p) := by
  obtain ⟨-, l, tile, hfill, -, hc'⟩ := complete_ok h
  have hlane : c'.lane = Function.update c.lane platform l := by
    rw [hc', ← (front_same hfront).1]
    rfl
  rw [(front_same hfront).1] at hfill
  exact sameQueues_update hlane (sameQueues_fill hfill) p

/-- A computation that ends. -/
theorem moves_complete (hfront : Front config c platform inst d)
    (h : complete d platform inst = .ok c') :
    Moves config ⟨c, u⟩ ⟨c', u⟩ inst.parentTile (-1) 0 0 0 0 := by
  obtain ⟨hlane, hheap, hnext, hfinished, hwaiting, hdropped⟩ := front_same hfront
  obtain ⟨-, l, tile, hfill, htile, hc'⟩ := complete_ok h
  have hpiped' : piped config c' = piped config d := by rw [hc']; rfl
  have hdropped' : c'.dropped = c.dropped := by rw [hc', ← hdropped]; rfl
  have hsame := complete_sameQueues hfront h
  obtain ⟨hld, hst, hex, hreq⟩ := sameQueues_contents config hsame
  have hrequests := requests_congr (u := u) hreq
  have hpend : ∀ q, (pendingOf config ⟨c, u⟩ q : ℤ) = pendingOf config ⟨c', u⟩ q +
      if q = inst.parentTile then 1 else 0 := by
    intro q
    have hq := countP_front hfront (instOf q)
    rw [← instOf_count, pendingOf_eq, pendingOf_eq, hex, hpiped', hdropped']
    simp only [List.countP_append]
    omega
  refine
    { tiles := fun p => (hsame p).1
      next := by rw [hc', ← hnext]; rfl
      finished := by rw [hc', ← hfinished]; rfl
      pending := ?_
      loads := fun q => loads_same hld
      stores := fun q => stores_same hst
      reads := fun q => reads_same hreq
      writes := fun q => writes_same hreq
      allWrites := allWrites_same hreq
      waiting := by rw [Int.add_zero, hc', ← hwaiting]; rfl
      heap := ?_
      tile := ?_
      gone := fun hgone => by rw [hheap] at htile; cases htile.symm.trans hgone
      busy := ?_ }
  · intro q
    have := hpend q
    split_ifs at this ⊢ <;> omega
  · intro q hq
    rw [hc', ← hheap]
    exact Function.update_of_ne hq _ _
  · intro tile' htile'
    rw [hheap] at htile
    cases htile.symm.trans htile'
    refine ⟨_, by rw [hc']; exact Function.update_self _ _ _, ?_⟩
    exact ⟨rfl, rfl, by simp, by dsimp only; omega⟩
  · refine ⟨fun hzero => ?_, fun _ => ⟨rfl, rfl⟩, fun _ => ⟨rfl, rfl⟩⟩
    have := hpend inst.parentTile
    simp only [if_true] at this
    omega

/-- A load expanded into its requests. -/
theorem moves_ldInst (h : ldInst config set c = .ok c') :
    c' = c ∨ ∃ ptr dl dr, Moves config ⟨c, u⟩ ⟨c', u⟩ ptr 0 dl 0 dr 0 := by
  rcases ldInst_ok h with ⟨-, rfl⟩ | ⟨front, rest, l, tile, queues, hqueue, hopcode, hacc, hreserve,
    htile, hpush, hc'⟩
  · exact Or.inl rfl
  right
  have hlane : c'.lane = Function.update c.lane .SA
      { l with ldInstQueue := rest, memoryRequestQueues := queues } := by rw [hc']
  obtain ⟨htiles, hldl, hstl, hexl, hreql⟩ := sameQueues_reserve hreserve
  rw [hreql] at hpush
  have hloads := countP_lane Lane.ldInstQueue hlane
  rw [hqueue] at hloads
  have hrequests := countP_requests (u := u) hlane hpush
  have hst := contents_lane_same Lane.stInstQueue hlane hstl
  have hex := contents_lane_same Lane.exInstQueue hlane hexl
  have hload : ∀ q, (loadsOf ⟨c, u⟩ q : ℤ) = loadsOf ⟨c', u⟩ q +
      if q = front.parentTile then 1 else 0 := by
    intro q
    have hq := hloads (loadOf q)
    rw [← instOf_count]
    have hfront : loadOf q front = instOf q front := by simp [loadOf, instOf, hopcode]
    simp only [List.countP_cons, hfront] at hq
    simp only [loadsOf, loading]
    omega
  refine ⟨front.parentTile, -1, (accessesOf config set c .SA front .READ).1.length,
    { tiles := lane_same Lane.tiles hlane htiles
      next := by rw [hc']
      finished := by rw [hc']
      pending := fun q => pending_same hex (by rw [hc']; rfl) (by rw [hc'])
      loads := ?_
      stores := fun q => stores_same hst
      reads := ?_
      writes := ?_
      allWrites := ?_
      waiting := by rw [Int.add_zero, hc']
      heap := ?_
      tile := ?_
      gone := fun hgone => by cases htile.symm.trans hgone
      busy := ?_ }⟩
  · intro q
    have := hload q
    split_ifs at this ⊢ <;> omega
  · intro q
    have hq := hrequests (readOf q)
    rw [reads_of_reads] at hq
    simp only [readsOf, hq]
    split_ifs <;> omega
  · intro q
    have hq := hrequests (writeOf q)
    rw [writesOf_accessesOf, writes_of_reads] at hq
    simp only [writesOf, hq]
    split_ifs <;> omega
  · have hq := hrequests isWrite
    rw [writes_of_reads] at hq
    simp only [writes, hq]
    omega
  · intro q hq
    rw [hc']
    exact Function.update_of_ne hq _ _
  · intro tile' htile'
    cases htile.symm.trans htile'
    refine ⟨_, by rw [hc']; exact Function.update_self _ _ _, ?_⟩
    exact ⟨rfl, by simp, by dsimp only; omega, by simp⟩
  · refine ⟨fun _ => rfl, fun hidle => ?_, fun _ => ⟨rfl, rfl⟩⟩
    obtain ⟨hzero, -⟩ := hidle
    have := hload front.parentTile
    simp only [if_true] at this
    omega

theorem transToMemoryAccess_ok {id size coreId bufferId : ℕ} {start : CycleType}
    {r : MemoryAccess}
    (h : transToMemoryAccess inst id size coreId start bufferId platform = .ok r) :
    MemoryAccess.reqTypeOf inst.opcode = .ok r.reqType ∧ r.parentTile = inst.parentTile ∧
      r.spadAddress = inst.destAddr ∧ r.bufferId = bufferId ∧ r.stagePlatform = platform := by
  unfold transToMemoryAccess at h
  cases htype : MemoryAccess.reqTypeOf inst.opcode with
  | error f => simp [htype] at h
  | ok reqType =>
    cases hsrc : inst.srcAddrs with
    | nil => simp [htype, hsrc] at h
    | cons a as =>
      simp only [htype, hsrc] at h
      cases h
      exact ⟨rfl, rfl, rfl, rfl, rfl⟩

/-- A PIM command is a read, unless it is a header. -/
theorem pim_reqType {opcode : Opcode} {reqType : MemoryAccessType} (hpim : opcode.isPim)
    (h : MemoryAccess.reqTypeOf opcode = .ok reqType) :
    reqType ≠ .WRITE ∧ (reqType = .P_HEADER ↔ opcode = .PIM_HEADER) := by
  cases opcode <;> cases hpim <;> cases h <;> simp

theorem sameQueues_reserveResult {l l' : Lane} (h : reserveResult l inst = .ok l') :
    l.SameQueues l' := by
  unfold reserveResult at h
  split_ifs at h
  · exact sameQueues_reserve h
  · cases h
    exact ⟨rfl, rfl, rfl, rfl, rfl⟩

theorem loadOf_count (q : TilePtr) :
    ((if loadOf q inst = true then 1 else 0 : ℕ) : ℤ) =
      if q = inst.parentTile then (if inst.opcode = .PIM_HEADER then 0 else 1) else 0 := by
  by_cases hparent : q = inst.parentTile
  · by_cases hop : inst.opcode = .PIM_HEADER <;> simp [loadOf, hparent, hop]
  · simp [loadOf, hparent, Ne.symm hparent]

/-- A PIM command turned into its request; a header moves nothing that is counted. -/
theorem moves_pimLdInst (h : pimLdInst config c = .ok c') :
    c' = c ∨ ∃ ptr dl dr, Moves config ⟨c, u⟩ ⟨c', u⟩ ptr 0 dl 0 dr 0 := by
  rcases pimLdInst_ok h with ⟨-, rfl⟩ | ⟨front, rest, request, l, queues, hqueue, hpim, hrequest,
    hreserve, hpush, hc'⟩
  · exact Or.inl rfl
  right
  have hlane : c'.lane = Function.update c.lane .PIM
      { l with ldInstQueue := rest, memoryRequestQueues := queues } := by rw [hc']
  obtain ⟨htiles, hldl, hstl, hexl, hreql⟩ := sameQueues_reserveResult hreserve
  rw [hreql] at hpush
  have hloads := countP_lane Lane.ldInstQueue hlane
  rw [hqueue] at hloads
  have hrequests := countP_requests (u := u) hlane hpush
  have hst := contents_lane_same Lane.stInstQueue hlane hstl
  have hex := contents_lane_same Lane.exInstQueue hlane hexl
  obtain ⟨htype, hparent, -, -, -⟩ := transToMemoryAccess_ok hrequest
  obtain ⟨hwrite, hheader⟩ := pim_reqType hpim htype
  have hread : ∀ q, readOf q request = loadOf q front := by
    intro q
    by_cases hop : front.opcode = .PIM_HEADER
    · simp [readOf, loadOf, hheader.mpr hop, hop]
    · have hne : request.reqType ≠ .P_HEADER := fun h => hop (hheader.mp h)
      simp [readOf, loadOf, hparent, bne_iff_ne.mpr hwrite, bne_iff_ne.mpr hne,
        bne_iff_ne.mpr hop]
  have hload : ∀ q, (loadsOf ⟨c, u⟩ q : ℤ) = loadsOf ⟨c', u⟩ q +
      if q = front.parentTile then (if front.opcode = .PIM_HEADER then 0 else 1) else 0 := by
    intro q
    have hq := hloads (loadOf q)
    rw [← loadOf_count]
    simp only [List.countP_cons] at hq
    simp only [loadsOf, loading]
    omega
  refine ⟨front.parentTile, -(if front.opcode = .PIM_HEADER then 0 else 1),
    if front.opcode = .PIM_HEADER then 0 else 1,
    { tiles := lane_same Lane.tiles hlane htiles
      next := by rw [hc']
      finished := by rw [hc']
      pending := fun q => pending_same hex (by rw [hc']; rfl) (by rw [hc'])
      loads := ?_
      stores := fun q => stores_same hst
      reads := ?_
      writes := ?_
      allWrites := ?_
      waiting := by rw [Int.add_zero, hc']
      heap := ?_
      tile := ?_
      gone := fun hgone => by rw [hc']; exact hgone
      busy := ?_ }⟩
  · intro q
    have := hload q
    split_ifs at this ⊢ <;> omega
  · intro q
    have hq := hrequests (readOf q)
    rw [← loadOf_count]
    simp only [List.countP_singleton, hread] at hq
    simp only [readsOf]
    omega
  · intro q
    have hq := hrequests (writeOf q)
    simp only [writesOf, hq, List.countP_singleton, writeOf, isWrite, beq_eq_false_iff_ne.mpr hwrite]
    simp
  · have hq := hrequests isWrite
    simp only [writes, hq, List.countP_singleton, isWrite, beq_eq_false_iff_ne.mpr hwrite]
    simp
  · intro q _
    rw [hc']
  · intro tile htile
    refine ⟨tile, by rw [hc']; exact htile, rfl, by simp, by omega, by simp⟩
  · refine ⟨fun _ => rfl, fun hidle => ?_, fun _ => ⟨rfl, rfl⟩⟩
    obtain ⟨hzero, -⟩ := hidle
    have := hload front.parentTile
    simp only [if_true] at this
    omega

/-- A store expanded into its requests. -/
theorem moves_storeQueueCycle (h : storeQueueCycle config set platform c = .ok c') :
    c' = c ∨ ∃ ptr ds dw, Moves config ⟨c, u⟩ ⟨c', u⟩ ptr 0 0 ds 0 dw := by
  rcases storeQueueCycle_ok h with rfl | ⟨front, rest, tile, queues, hqueue, -, -, htile, hpush,
    hc'⟩
  · exact Or.inl rfl
  right
  have hlane : c'.lane = Function.update c.lane platform
      { c.lane platform with stInstQueue := rest, memoryRequestQueues := queues } := by rw [hc']
  have hstores := countP_lane Lane.stInstQueue hlane
  rw [hqueue] at hstores
  have hrequests := countP_requests (u := u) hlane hpush
  have hld := contents_lane_same Lane.ldInstQueue hlane rfl
  have hex := contents_lane_same Lane.exInstQueue hlane rfl
  have hstore : ∀ q, (storesOf ⟨c, u⟩ q : ℤ) = storesOf ⟨c', u⟩ q +
      if q = front.parentTile then 1 else 0 := by
    intro q
    have hq := hstores (instOf q)
    rw [← instOf_count]
    simp only [List.countP_cons] at hq
    simp only [storesOf, storing]
    omega
  refine ⟨front.parentTile, -1, (accessesOf config set c platform front .WRITE).1.length,
    { tiles := lane_same Lane.tiles hlane rfl
      next := by rw [hc']
      finished := by rw [hc']
      pending := fun q => pending_same hex (by rw [hc']; rfl) (by rw [hc'])
      loads := fun q => loads_same hld
      stores := ?_
      reads := ?_
      writes := ?_
      allWrites := ?_
      waiting := by rw [hc']
      heap := ?_
      tile := ?_
      gone := fun hgone => by cases htile.symm.trans hgone
      busy := ?_ }⟩
  · intro q
    have := hstore q
    split_ifs at this ⊢ <;> omega
  · intro q
    have hq := hrequests (readOf q)
    rw [reads_of_writes] at hq
    simp only [readsOf, hq]
    split_ifs <;> omega
  · intro q
    have hq := hrequests (writeOf q)
    rw [writesOf_accessesOf, writes_of_writes] at hq
    simp only [writesOf, hq]
    split_ifs <;> omega
  · have hq := hrequests isWrite
    rw [writes_of_writes] at hq
    simp only [writes, hq]
    omega
  · intro q hq
    rw [hc']
    exact Function.update_of_ne hq _ _
  · intro tile' htile'
    cases htile.symm.trans htile'
    refine ⟨_, by rw [hc']; exact Function.update_self _ _ _, ?_⟩
    exact ⟨rfl, by simp, by simp, by dsimp only; omega⟩
  · refine ⟨fun _ => rfl, fun _ => ⟨rfl, rfl⟩, fun hidle => ?_⟩
    obtain ⟨hzero, -⟩ := hidle
    have := hstore front.parentTile
    simp only [if_true] at this
    omega

/-- The tile stays as it is but for its statistics. -/
theorem shifted_zero {tile tile' : Tile} (h : SameTile tile tile') :
    Shifted tile tile' 0 0 0 0 0 := by
  obtain ⟨stat, rfl⟩ := h
  exact ⟨rfl, by simp, by simp, by simp⟩

theorem dispatched_same (h : Dispatched config c inst platform d) :
    d.lane = c.lane ∧ d.nextTile = c.nextTile ∧ d.finishedTiles = c.finishedTiles ∧
      d.waitingWriteReqs = c.waitingWriteReqs ∧
      (∀ q, q ≠ inst.parentTile → d.heap q = c.heap q) ∧
      (∀ tile, c.heap inst.parentTile = some tile →
        ∃ tile', d.heap inst.parentTile = some tile' ∧ SameTile tile tile') ∧
      (c.heap inst.parentTile = none → d.heap inst.parentTile = none) := by
  cases h with
  | gemm start finish htile hsame =>
    refine ⟨rfl, rfl, rfl, rfl, fun q hq => Function.update_of_ne hq _ _, ?_, ?_⟩
    · intro tile htile'
      cases htile.symm.trans htile'
      exact ⟨_, Function.update_self _ _ _, hsame⟩
    · intro hnone
      cases htile.symm.trans hnone
  | vector start finish hk =>
    exact ⟨rfl, rfl, rfl, rfl, fun _ _ => rfl,
      fun tile htile => ⟨tile, htile, tile.stat, rfl⟩, id⟩
  | dropped _ =>
    exact ⟨rfl, rfl, rfl, rfl, fun _ _ => rfl,
      fun tile htile => ⟨tile, htile, tile.stat, rfl⟩, id⟩

theorem dispatched_lane {front : Instruction} {rest : List Instruction} {s : Sram}
    (hd : Dispatched config (c.setLane platform { c.lane platform with exInstQueue := rest })
      front platform d)
    (hc' : c' = d.setLane platform { d.lane platform with accSpad := s }) :
    c'.lane = Function.update c.lane platform
      { c.lane platform with exInstQueue := rest, accSpad := s } := by
  rw [hc']
  change Function.update d.lane platform _ = _
  rw [(dispatched_same hd).1]
  simp [NeuPIMSCore.setLane]

/-- The execute queue and the accumulator are all that changes in a lane. -/
theorem executeQueueCycle_lane (h : executeQueueCycle config platform c = .ok c') :
    c' = c ∨ ∃ rest s, c'.lane = Function.update c.lane platform
      { c.lane platform with exInstQueue := rest, accSpad := s } := by
  rcases executeQueueCycle_ok h with rfl | ⟨front, rest, -, -, ⟨-, d, hd, hexpect⟩ | ⟨-, hc'⟩⟩
  · exact Or.inl rfl
  · obtain ⟨s, -, hs⟩ := expectResult_ok hexpect
    exact Or.inr ⟨rest, s, dispatched_lane hd hs⟩
  · exact Or.inr ⟨rest, (c.lane platform).accSpad, congrArg NeuPIMSCore.lane hc'⟩

/-- An instruction that leaves the execute queue stays pending. -/
theorem moves_dispatched {front : Instruction} {rest : List Instruction} {s : Sram}
    (hqueue : (c.lane platform).exInstQueue = front :: rest)
    (hd : Dispatched config (c.setLane platform { c.lane platform with exInstQueue := rest })
      front platform d)
    (hc' : c' = d.setLane platform { d.lane platform with accSpad := s }) :
    Moves config ⟨c, u⟩ ⟨c', u⟩ front.parentTile 0 0 0 0 0 := by
  obtain ⟨-, hnext, hfinished, hwaiting, hheap, htile, hnone⟩ := dispatched_same hd
  have hlane' := dispatched_lane hd hc'
  have hld := contents_lane_same Lane.ldInstQueue hlane' rfl
  have hst := contents_lane_same Lane.stInstQueue hlane' rfl
  have hreq := contents_lane_same (fun l => contents (List.range config.dramChannels)
    l.memoryRequestQueues) hlane' rfl
  have hexecutes := countP_lane Lane.exInstQueue hlane'
  rw [hqueue] at hexecutes
  have hpiped := countP_dispatched hd
  refine
    { tiles := lane_same Lane.tiles hlane' rfl
      next := by rw [hc']; exact hnext
      finished := by rw [hc']; exact hfinished
      pending := ?_
      loads := fun q => loads_same hld
      stores := fun q => stores_same hst
      reads := fun q => reads_same hreq
      writes := fun q => writes_same hreq
      allWrites := allWrites_same hreq
      waiting := by rw [hc', Int.add_zero]; exact hwaiting
      heap := ?_
      tile := ?_
      gone := fun hgone => by rw [hc']; exact hnone hgone
      busy := ⟨fun _ => rfl, fun _ => ⟨rfl, rfl⟩, fun _ => ⟨rfl, rfl⟩⟩ }
  · intro q
    have hq := hexecutes (instOf q)
    have hp : (piped config c' ++ c'.dropped).countP (instOf q) =
        (piped config c ++ c.dropped).countP (instOf q) + if instOf q front then 1 else 0 := by
      rw [hc']
      exact hpiped (instOf q) fun _ _ => rfl
    rw [pendingOf_eq, pendingOf_eq, ite_self, Int.add_zero, hp]
    simp only [List.countP_cons] at hq
    simp only [executing]
    omega
  · intro q hq
    rw [hc']
    exact hheap q hq
  · intro tile htile'
    obtain ⟨tile', htile'', hsame⟩ := htile tile htile'
    exact ⟨tile', by rw [hc']; exact htile'', shifted_zero hsame⟩

/-- An instruction that is not valid is dropped. -/
theorem moves_invalid {front : Instruction} {rest : List Instruction}
    (hqueue : (c.lane platform).exInstQueue = front :: rest) (hvalid : front.valid = false)
    (hc' : c' = { c.setLane platform { c.lane platform with exInstQueue := rest } with
      dropped := c.dropped ++ [front] }) :
    Moves config ⟨c, u⟩ ⟨c', u⟩ front.parentTile 0 0 0 0 0 := by
  refine moves_dispatched (s := (c.lane platform).accSpad) hqueue (.dropped (Or.inr hvalid)) ?_
  rw [hc']
  simp [NeuPIMSCore.setLane]

theorem moves_executeQueueCycle (h : executeQueueCycle config platform c = .ok c') :
    c' = c ∨ ∃ ptr, Moves config ⟨c, u⟩ ⟨c', u⟩ ptr 0 0 0 0 0 := by
  rcases executeQueueCycle_ok h with rfl | ⟨front, rest, hqueue, -, ⟨-, d, hd, hexpect⟩ | ⟨hvalid, hc'⟩⟩
  · exact Or.inl rfl
  · obtain ⟨s, -, hs⟩ := expectResult_ok hexpect
    exact Or.inr ⟨front.parentTile, moves_dispatched hqueue hd hs⟩
  · exact Or.inr ⟨front.parentTile, moves_invalid hqueue hvalid hc'⟩

theorem moves_chargeCycle {pipeline : List Instruction} (h : chargeCycle pipeline c = .ok c') :
    c' = c ∨ ∃ ptr, Moves config ⟨c, u⟩ ⟨c', u⟩ ptr 0 0 0 0 0 := by
  rcases chargeCycle_ok h with rfl | ⟨ptr, tile, tile', htile, hsame, rfl⟩
  · exact Or.inl rfl
  refine Or.inr ⟨ptr,
    { tiles := fun _ => rfl
      next := rfl
      finished := rfl
      pending := fun q => pending_same rfl rfl rfl
      loads := fun q => loads_same rfl
      stores := fun q => stores_same rfl
      reads := fun q => reads_same rfl
      writes := fun q => writes_same rfl
      allWrites := allWrites_same rfl
      waiting := (Int.add_zero _).symm
      heap := fun q hq => Function.update_of_ne hq _ _
      tile := ?_
      gone := fun hgone => by cases htile.symm.trans hgone
      busy := ⟨fun _ => rfl, fun _ => ⟨rfl, rfl⟩, fun _ => ⟨rfl, rfl⟩⟩ }⟩
  intro tile₁ htile₁
  cases htile.symm.trans htile₁
  exact ⟨tile', Function.update_self _ _ _, shifted_zero hsame⟩

end NewPims.NeuPIMSystolicWS.Session

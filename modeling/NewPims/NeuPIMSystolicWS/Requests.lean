import NewPims.NeuPIMSystolicWS.Phases

/-! The requests that a core makes: they join the queue of their channel and platform, and the
pimCommands among them are those that leave the load queue, in order. -/
namespace NewPims

open Transition

/-- The types of the commands to the PIM. -/
def MemoryAccessType.isCommand : MemoryAccessType → Bool
  | .READ | .WRITE => false
  | _ => true

/-- The request type of a PIM instruction. -/
def Opcode.commandType : Opcode → Option MemoryAccessType
  | .PIM_HEADER => some .P_HEADER
  | .PIM_GWRITE => some .GWRITE
  | .PIM_COMP => some .COMP
  | .PIM_READRES => some .READRES
  | .PIM_COMPS_READRES => some .COMPS_READRES
  | _ => none

/-- A PIM instruction of a tile, on its way to the memory. -/
structure PimCommand where
  tile : TilePtr
  reqType : MemoryAccessType
  dramAddress : AddrType
  spadAddress : AddrType
  deriving DecidableEq, Repr

def MemoryAccess.asCommand (access : MemoryAccess) : Option PimCommand :=
  if access.reqType.isCommand then
    some ⟨access.parentTile, access.reqType, access.dramAddress, access.spadAddress⟩
  else none

/-- The commands among the requests of a queue. -/
def pimCommands (accesses : List MemoryAccess) : List PimCommand :=
  accesses.filterMap MemoryAccess.asCommand

section Instructions

variable (config : SimulationConfig) (ch : ℕ)

/-- The instruction of the tile `ptr` as a command to the channel `ch`, if it is one. -/
def Instruction.commandTo (ptr : TilePtr) (inst : Instruction) : Option PimCommand :=
  match inst.opcode.commandType, inst.srcAddrs with
  | some reqType, dramAddr :: _ =>
    if AddressConfig.maskChannel config dramAddr = ch then
      some ⟨ptr, reqType, dramAddr, inst.destAddr⟩
    else none
  | _, _ => none

/-- The instructions of a tile that address the channel, in their order. A skipped tile is
finished without them. -/
def Tile.commandsTo (ptr : TilePtr) (tile : Tile) : List PimCommand :=
  if tile.skip then [] else tile.instructions.filterMap (Instruction.commandTo config ch ptr)

/-- The commands that wait in the load queue. -/
def NeuPIMSCore.loadCommands (c : NeuPIMSCore) : List PimCommand :=
  (c.lane .PIM).ldInstQueue.filterMap fun inst => inst.commandTo config ch inst.parentTile

end Instructions

@[simp]
theorem pimCommands_nil : pimCommands [] = [] := rfl

@[simp]
theorem pimCommands_append (xs ys : List MemoryAccess) :
    pimCommands (xs ++ ys) = pimCommands xs ++ pimCommands ys := List.filterMap_append

theorem pimCommands_eq_nil {accesses : List MemoryAccess}
    (h : ∀ a ∈ accesses, a.reqType.isCommand = false) : pimCommands accesses = [] := by
  rw [pimCommands, List.filterMap_eq_nil_iff]
  intro a ha
  rw [MemoryAccess.asCommand, h a ha]
  rfl

namespace NeuPIMSystolicWS

variable {config : SimulationConfig} {set : RobinHood} {c c' d : NeuPIMSCore}
  {platform : StagePlatform}

/-- A request as the core queues it for the channel `ch`. -/
structure Queued (config : SimulationConfig) (platform : StagePlatform) (ch : ℕ)
    (access : MemoryAccess) : Prop where
  request : access.request = true
  channel : AddressConfig.maskChannel config access.dramAddress = ch
  lane : access.stagePlatform = platform
  command : access.reqType.isCommand → platform = .PIM

/-- A step of a core that queues the requests of `sent`. -/
structure SendsBy (config : SimulationConfig) (c c' : NeuPIMSCore)
    (sent : StagePlatform → ℕ → List MemoryAccess) : Prop where
  requests : ∀ p ch,
    (c'.lane p).memoryRequestQueues ch = (c.lane p).memoryRequestQueues ch ++ sent p ch
  made : ∀ p ch, ∀ a ∈ sent p ch, Queued config p ch a
  loads : ∀ ch, pimCommands (sent .PIM ch) ++ c'.loadCommands config ch = c.loadCommands config ch
  next : c'.nextTile = c.nextTile

def Sends (config : SimulationConfig) (c c' : NeuPIMSCore) : Prop :=
  ∃ sent, SendsBy config c c' sent

theorem Sends.trans (h : Sends config c d) (h' : Sends config d c') : Sends config c c' := by
  obtain ⟨sent, hsent⟩ := h
  obtain ⟨sent', hsent'⟩ := h'
  refine ⟨fun p ch => sent p ch ++ sent' p ch, ?_, ?_, ?_, hsent'.next.trans hsent.next⟩
  · intro p ch
    rw [hsent'.requests, hsent.requests, List.append_assoc]
  · intro p ch a ha
    rcases List.mem_append.mp ha with ha | ha
    · exact hsent.made p ch a ha
    · exact hsent'.made p ch a ha
  · intro ch
    rw [pimCommands_append, List.append_assoc, hsent'.loads, hsent.loads]

/-- A step that queues nothing and leaves the load queue of the PIM. -/
theorem sends_of_same
    (hrequests : ∀ p, (c'.lane p).memoryRequestQueues = (c.lane p).memoryRequestQueues)
    (hloads : (c'.lane .PIM).ldInstQueue = (c.lane .PIM).ldInstQueue)
    (hnext : c'.nextTile = c.nextTile) : Sends config c c' := by
  refine ⟨fun _ _ => [], ?_, ?_, ?_, hnext⟩
  · intro p ch
    rw [hrequests, List.append_nil]
  · intro p ch a ha
    cases ha
  · intro ch
    rw [pimCommands_nil, List.nil_append, NeuPIMSCore.loadCommands, NeuPIMSCore.loadCommands, hloads]

theorem Sends.refl (config : SimulationConfig) (c : NeuPIMSCore) : Sends config c c :=
  sends_of_same (fun _ => rfl) rfl rfl

theorem sends_of_sameQueues (hqueues : ∀ p, (c.lane p).SameQueues (c'.lane p))
    (hnext : c'.nextTile = c.nextTile) : Sends config c c' :=
  sends_of_same (fun p => (hqueues p).2.2.2.2) (hqueues .PIM).2.1 hnext

/-- Each request joins the queue of its channel. -/
theorem pushMemoryRequests_ok {queues queues' : ℕ → List MemoryAccess}
    {accesses : List MemoryAccess}
    (h : NeuPIMSCore.pushMemoryRequests config queues accesses = .ok queues') (ch : ℕ) :
    queues' ch = queues ch ++
      accesses.filter fun a => AddressConfig.maskChannel config a.dramAddress = ch := by
  induction accesses generalizing queues with
  | nil =>
    cases h
    rw [List.filter_nil, List.append_nil]
  | cons a as ih =>
    simp only [NeuPIMSCore.pushMemoryRequests] at h
    split_ifs at h
    rw [ih h]
    by_cases hch : AddressConfig.maskChannel config a.dramAddress = ch
    · simp [hch]
    · simp [hch, Ne.symm hch]

/-- The requests that an instruction is expanded to join the queues of one lane. -/
theorem sends_of_push (platform : StagePlatform) {l : Lane} {queues : ℕ → List MemoryAccess}
    {accesses : List MemoryAccess}
    (hlane : c'.lane = Function.update c.lane platform l)
    (hqueues : l.memoryRequestQueues = queues)
    (hpush : NeuPIMSCore.pushMemoryRequests config (c.lane platform).memoryRequestQueues accesses =
      .ok queues)
    (hmade : ∀ a ∈ accesses,
      Queued config platform (AddressConfig.maskChannel config a.dramAddress) a)
    (hloads : ∀ ch, (if platform = .PIM then
      pimCommands (accesses.filter fun a => AddressConfig.maskChannel config a.dramAddress = ch)
      else []) ++ c'.loadCommands config ch = c.loadCommands config ch)
    (hnext : c'.nextTile = c.nextTile) : Sends config c c' := by
  refine ⟨fun p ch => if p = platform then
    accesses.filter fun a => AddressConfig.maskChannel config a.dramAddress = ch else [],
    ?_, ?_, ?_, hnext⟩
  · intro p ch
    rw [hlane]
    by_cases hp : p = platform
    · subst hp
      rw [Function.update_self, if_pos rfl, hqueues]
      exact pushMemoryRequests_ok hpush ch
    · rw [Function.update_of_ne hp, if_neg hp, List.append_nil]
  · intro p ch a ha
    split_ifs at ha with hp
    · obtain ⟨ha, hch⟩ := List.mem_filter.mp ha
      have h := hmade a ha
      rw [hp, ← of_decide_eq_true hch]
      exact h
    · cases ha
  · intro ch
    have h := hloads ch
    by_cases hp : platform = .PIM
    · rw [if_pos hp] at h
      rw [if_pos hp.symm]
      exact h
    · rw [if_neg hp] at h
      rw [if_neg (Ne.symm hp), pimCommands_nil]
      exact h

/-- The accesses of a load or a store are no commands. -/
theorem accessesOf_queued {inst : Instruction} {reqType : MemoryAccessType} {a : MemoryAccess}
    (hplain : reqType.isCommand = false)
    (h : a ∈ (accessesOf config set c platform inst reqType).1) :
    a.reqType.isCommand = false ∧
      Queued config platform (AddressConfig.maskChannel config a.dramAddress) a := by
  obtain ⟨addr, -, rfl⟩ := List.mem_map.mp h
  refine ⟨hplain, rfl, rfl, rfl, fun hcommand => ?_⟩
  rw [hplain] at hcommand
  cases hcommand

theorem accessesOf_commands {inst : Instruction} {reqType : MemoryAccessType}
    (hplain : reqType.isCommand = false) (P : MemoryAccess → Bool) :
    pimCommands ((accessesOf config set c platform inst reqType).1.filter P) = [] := by
  refine pimCommands_eq_nil fun a ha => ?_
  exact (accessesOf_queued hplain (List.mem_of_mem_filter ha)).1

theorem sends_ldInst (h : ldInst config set c = .ok c') : Sends config c c' := by
  rcases ldInst_ok h with
    ⟨-, rfl⟩ | ⟨front, rest, l, tile, queues, -, -, -, hreserve, -, hpush, rfl⟩
  · exact .refl config c'
  have hsame := Session.sameQueues_reserve hreserve
  refine sends_of_push .SA rfl rfl (hsame.2.2.2.2 ▸ hpush) ?_ ?_ rfl
  · intro a ha
    exact (accessesOf_queued rfl ha).2
  · intro ch
    rw [if_neg (by decide), List.nil_append]
    rfl

theorem sends_storeQueueCycle (h : storeQueueCycle config set platform c = .ok c') :
    Sends config c c' := by
  rcases storeQueueCycle_ok h with rfl | ⟨front, rest, tile, queues, -, -, -, -, hpush, rfl⟩
  · exact .refl config c'
  refine sends_of_push platform rfl rfl hpush ?_ ?_ rfl
  · intro a ha
    exact (accessesOf_queued rfl ha).2
  · intro ch
    rw [accessesOf_commands rfl, ite_self, List.nil_append]
    cases platform <;> rfl

theorem commandType_isPim {opcode : Opcode} (h : opcode.isPim) {reqType : MemoryAccessType}
    (htype : MemoryAccess.reqTypeOf opcode = .ok reqType) :
    opcode.commandType = some reqType ∧ reqType.isCommand := by
  cases opcode <;> cases h <;> cases htype <;> exact ⟨rfl, rfl⟩

/-- The request of a PIM instruction is its command. -/
theorem asCommand_transToMemoryAccess (config : SimulationConfig) {inst : Instruction}
    {id size coreId bufferId : ℕ} {start : CycleType} {r : MemoryAccess} (hpim : inst.opcode.isPim)
    (h : transToMemoryAccess inst id size coreId start bufferId .PIM = .ok r) (ch : ℕ) :
    Queued config .PIM (AddressConfig.maskChannel config r.dramAddress) r ∧
      inst.commandTo config ch inst.parentTile =
        if AddressConfig.maskChannel config r.dramAddress = ch then r.asCommand else none := by
  unfold transToMemoryAccess at h
  cases htype : MemoryAccess.reqTypeOf inst.opcode with
  | error f => simp [htype] at h
  | ok reqType =>
    obtain ⟨hcommand, his⟩ := commandType_isPim hpim htype
    cases hsrc : inst.srcAddrs with
    | nil => simp [htype, hsrc] at h
    | cons a as =>
      simp only [htype, hsrc] at h
      cases h
      refine ⟨⟨rfl, rfl, rfl, fun _ => rfl⟩, ?_⟩
      simp only [Instruction.commandTo, hcommand, hsrc, MemoryAccess.asCommand, his, if_true]

theorem sends_pimLdInst (h : pimLdInst config c = .ok c') : Sends config c c' := by
  rcases pimLdInst_ok h with ⟨-, rfl⟩ | ⟨front, rest, request, l, queues, hqueue, hpim, hrequest,
    hreserve, hpush, rfl⟩
  · exact .refl config c'
  have hsame := Session.sameQueues_reserveResult hreserve
  refine sends_of_push .PIM rfl rfl (hsame.2.2.2.2 ▸ hpush) ?_ ?_ rfl
  · intro a ha
    rw [List.mem_singleton.mp ha]
    exact (asCommand_transToMemoryAccess config hpim hrequest 0).1
  · intro ch
    have hfront := (asCommand_transToMemoryAccess config hpim hrequest ch).2
    have hrest : NeuPIMSCore.loadCommands config ch { c with
        lane := Function.update c.lane .PIM
          { l with ldInstQueue := rest, memoryRequestQueues := queues }
        memAccessId := c.memAccessId + 1 } =
        rest.filterMap fun inst => inst.commandTo config ch inst.parentTile := by
      simp only [NeuPIMSCore.loadCommands, Function.update_self]
    rw [if_pos rfl, hrest, NeuPIMSCore.loadCommands, hqueue]
    by_cases hch : AddressConfig.maskChannel config request.dramAddress = ch
    · rw [if_pos hch] at hfront
      rw [List.filterMap_cons, hfront]
      simp only [hch, decide_true, List.filter_cons_of_pos, List.filter_nil, pimCommands,
        List.filterMap_cons, List.filterMap_nil]
      cases request.asCommand <;> rfl
    · rw [if_neg hch] at hfront
      rw [List.filterMap_cons, hfront]
      simp [hch]

theorem sends_complete {inst : Instruction} (hfront : Front config c platform inst d)
    (h : complete d platform inst = .ok c') : Sends config c c' := by
  refine sends_of_sameQueues (Session.complete_sameQueues hfront h) ?_
  obtain ⟨-, l, tile, -, -, rfl⟩ := complete_ok h
  exact (Session.front_same hfront).2.2.1

theorem sends_executeQueueCycle (h : executeQueueCycle config platform c = .ok c') :
    Sends config c c' := by
  have hnext : c'.nextTile = c.nextTile := by
    rcases executeQueueCycle_ok h with rfl | ⟨front, rest, -, -, ⟨-, d, hd, hexpect⟩ | ⟨-, rfl⟩⟩
    · rfl
    · obtain ⟨s, -, rfl⟩ := expectResult_ok hexpect
      exact (Session.dispatched_same hd).2.1
    · rfl
  rcases Session.executeQueueCycle_lane h with rfl | ⟨rest, s, hlane⟩
  · exact .refl config c'
  · refine sends_of_same (fun p => ?_) ?_ hnext
    · exact Session.lane_same Lane.memoryRequestQueues hlane rfl p
    · exact Session.lane_same Lane.ldInstQueue hlane rfl .PIM

theorem sends_chargeCycle {pipeline : List Instruction} (h : chargeCycle pipeline c = .ok c') :
    Sends config c c' := by
  rcases chargeCycle_ok h with rfl | ⟨ptr, tile, tile', -, -, rfl⟩
  · exact .refl config c'
  · exact sends_of_same (fun _ => rfl) rfl rfl

/-- The end of a cycle retires tiles and touches no queue of instructions or requests. -/
theorem sends_core (config : SimulationConfig) (c : NeuPIMSCore) : Sends config c c.cycle := by
  refine sends_of_same (fun p => ?_) ?_ rfl
  · cases p <;> rfl
  · rfl

theorem sends_unitStep {u : UnitStep} (h : unitStep config set c u = .ok c') :
    Sends config c c' := by
  have hfront : (c' = c ∨ ∃ platform inst d, Front config c platform inst d ∧
      complete d platform inst = .ok c') → Sends config c c' := by
    rintro (rfl | ⟨platform, inst, d, hd, h⟩)
    · exact .refl config c'
    · exact sends_complete hd h
  cases u with
  | systolic => exact hfront (systolicCycle_ok config h)
  | vector k =>
    simp only [unitStep] at h
    split_ifs at h with hk
    exact hfront (vectorPipelineCycle_ok hk h)
  | ld => exact sends_ldInst h
  | st platform => exact sends_storeQueueCycle h
  | ex platform => exact sends_executeQueueCycle h
  | pimLd => exact sends_pimLdInst h
  | chargeSystolic => exact sends_chargeCycle h
  | chargeVector k =>
    simp only [unitStep] at h
    split_ifs at h
    exact sends_chargeCycle h
  | core =>
    cases h
    exact sends_core config c

/-- A cycle only adds to the request queues. -/
theorem sends_cycle (h : cycle config set c = .ok c') : Sends config c c' := by
  obtain ⟨units, hunits⟩ := cycle_runs config set c
  exact run_invariant (fun d => Sends config c d)
    (fun _ _ _ hs hstep => hs.trans (sends_unitStep hstep)) (.refl config c) (hunits.trans h)

theorem pimLdInst_length (h : pimLdInst config c = .ok c') :
    (c'.lane .PIM).ldInstQueue.length = (c.lane .PIM).ldInstQueue.length - 1 := by
  rcases pimLdInst_ok h with
    ⟨hnil, rfl⟩ | ⟨front, rest, request, l, queues, hqueue, -, -, -, -, rfl⟩
  · rw [hnil]
    rfl
  · rw [hqueue]
    exact congrArg (fun l => l.ldInstQueue.length) (Function.update_self StagePlatform.PIM _ c.lane)

theorem repeatInst_length {n : ℕ} (h : repeatInst (pimLdInst config) n c = .ok c') :
    (c'.lane .PIM).ldInstQueue.length = (c.lane .PIM).ldInstQueue.length - n := by
  induction n generalizing c with
  | zero =>
    cases h
    rfl
  | succ n ih =>
    obtain ⟨d, hd, h⟩ := bind_ok.mp h
    rw [ih h, pimLdInst_length hd, Nat.sub_sub, Nat.add_comm]

/-- A cycle expands all that the load queue of the PIM holds. -/
theorem cycle_drains (h : cycle config set c = .ok c') : (c'.lane .PIM).ldInstQueue = [] := by
  obtain ⟨d, e, hd, he, rfl⟩ := cycle_ok h
  obtain ⟨f, hf, hex⟩ := bind_ok.mp hd
  obtain ⟨a, -, hf⟩ := bind_ok.mp hf
  obtain ⟨a', -, hf⟩ := bind_ok.mp hf
  obtain ⟨a'', hload, hst⟩ := bind_ok.mp hf
  have hempty : (a''.lane .PIM).ldInstQueue = [] := by
    apply List.eq_nil_of_length_eq_zero
    rw [repeatInst_length hload, Nat.sub_self]
  have hstored : (f.lane .PIM).ldInstQueue = [] := by
    rcases storeQueueCycle_ok hst with rfl | ⟨front, rest, tile, queues, -, -, -, -, -, rfl⟩
    · exact hempty
    · exact (congrArg Lane.ldInstQueue (Function.update_self StagePlatform.PIM _ a''.lane)).trans
        hempty
  have hissued : (d.lane .PIM).ldInstQueue = [] := by
    rcases Session.executeQueueCycle_lane hex with rfl | ⟨rest, s, hlane⟩
    · exact hstored
    · exact (Session.lane_same Lane.ldInstQueue hlane rfl .PIM).trans hstored
  have hcharged : e.lane = d.lane := by
    have hcharge : ∀ {pipeline : List Instruction} {x y : NeuPIMSCore},
        chargeCycle pipeline x = .ok y → y.lane = x.lane := by
      intro pipeline x y hxy
      rcases chargeCycle_ok hxy with rfl | ⟨ptr, tile, tile', -, -, rfl⟩
      · rfl
      · rfl
    obtain ⟨x, hx, he⟩ := bind_ok.mp he
    exact foldlM_inv (P := fun y => y.lane = d.lane) (fun _ _ _ hb hstep =>
      (hcharge hstep).trans hb) (hcharge hx) he
  have hend : (e.cycle.lane .PIM).ldInstQueue = (e.lane .PIM).ldInstQueue := rfl
  rw [hend, hcharged, hissued]

theorem pushMemoryResponse_queues {response : MemoryAccess}
    (h : c.pushMemoryResponse response = .ok c') :
    (∀ p, (c.lane p).SameQueues (c'.lane p)) ∧ c'.nextTile = c.nextTile := by
  have hrefl : ∀ p, (c.lane p).SameQueues (c.lane p) := fun p => ⟨rfl, rfl, rfl, rfl, rfl⟩
  obtain ⟨tile, tile', -, -, hresponded⟩ := NeuPIMSCore.pushMemoryResponse_ok h
  cases hresponded with
  | write _ => exact ⟨hrefl, rfl⟩
  | unfilled _ _ => exact ⟨hrefl, rfl⟩
  | filled _ _ hfill =>
    exact ⟨Session.sameQueues_update rfl (Session.sameQueues_fill hfill), rfl⟩

theorem sends_pushMemoryResponse (config : SimulationConfig) {response : MemoryAccess}
    (h : c.pushMemoryResponse response = .ok c') : Sends config c c' :=
  sends_of_sameQueues (pushMemoryResponse_queues h).1 (pushMemoryResponse_queues h).2

theorem sends_popFinishedTile (config : SimulationConfig) (c : NeuPIMSCore) :
    Sends config c c.popFinishedTile.2 := by
  unfold NeuPIMSCore.popFinishedTile
  cases c.finishedTiles with
  | nil => exact .refl config c
  | cons ptr rest => exact sends_of_same (fun _ => rfl) rfl rfl

section Issue

variable {tile : Tile}

/-- A started tile queues no request, and its commands join the load queue of its lane. -/
theorem admitTile_queues (h : c.admitTile platform tile = .ok c') :
    (∀ p, (c'.lane p).memoryRequestQueues = (c.lane p).memoryRequestQueues) ∧
      (∀ p, (c'.lane p).ldInstQueue = (c.lane p).ldInstQueue ++
        if p = platform then tile.instructions.filter (NeuPIMSCore.takesLoad platform) else []) ∧
      c'.nextTile = c.nextTile + 1 := by
  obtain ⟨l', tile', hall, hc'⟩ := NeuPIMSCore.admitTile_ok h
  have hlane : c'.lane =
      Function.update c.lane platform { l' with tiles := l'.tiles ++ [c.nextTile] } :=
    congrArg NeuPIMSCore.lane hc'
  obtain ⟨hl, -⟩ := NeuPIMSCore.enqueueAll_ok hall
  refine ⟨fun p => ?_, fun p => ?_, by rw [hc']⟩
  · refine Session.lane_same Lane.memoryRequestQueues hlane ?_ p
    rw [hl]
  · rw [hlane]
    by_cases hp : p = platform
    · subst hp
      rw [Function.update_self, if_pos rfl, hl]
    · rw [Function.update_of_ne hp, if_neg hp, List.append_nil]

/-- An instruction that is a command goes to the load queue. -/
theorem commandTo_takesLoad {ch : ℕ} {ptr : TilePtr} {inst : Instruction}
    (h : NeuPIMSCore.takesLoad .PIM inst = false) : inst.commandTo config ch ptr = none := by
  have htype : inst.opcode.commandType = none := by
    unfold NeuPIMSCore.takesLoad NeuPIMSCore.takes at h
    cases hop : inst.opcode <;> rw [hop] at h <;> first | rfl | cases h
  rw [Instruction.commandTo, htype]

theorem commandTo_claimInst {ch : ℕ} {ptr : TilePtr} (platform : StagePlatform)
    (spadId accumSpadId : ℕ) (inst : Instruction) :
    (NeuPIMSCore.claimInst platform ptr spadId accumSpadId inst).commandTo config ch ptr =
      inst.commandTo config ch ptr := rfl

/-- The commands of a tile, in the order of its instructions. -/
theorem filterMap_claimInst {ch : ℕ} {ptr : TilePtr} {spadId accumSpadId : ℕ}
    (insts : List Instruction) :
    ((insts.map (NeuPIMSCore.claimInst .PIM ptr spadId accumSpadId)).filter
      (NeuPIMSCore.takesLoad .PIM)).filterMap
        (fun inst => inst.commandTo config ch inst.parentTile) =
      insts.filterMap (Instruction.commandTo config ch ptr) := by
  induction insts with
  | nil => rfl
  | cons inst insts ih =>
    rw [List.map_cons, List.filterMap_cons, 
      ← commandTo_claimInst .PIM spadId accumSpadId inst]
    cases htakes : NeuPIMSCore.takesLoad .PIM
        (NeuPIMSCore.claimInst .PIM ptr spadId accumSpadId inst) with
    | true =>
      rw [List.filter_cons_of_pos htakes, List.filterMap_cons, ih]
      rfl
    | false =>
      rw [List.filter_cons_of_neg (by simp [htakes]), ih, commandTo_takesLoad htakes]

theorem issuePim_queues (config : SimulationConfig) (h : c.issuePim tile = .ok c') (ch : ℕ) :
    (∀ p, (c'.lane p).memoryRequestQueues = (c.lane p).memoryRequestQueues) ∧
      c'.loadCommands config ch = c.loadCommands config ch ++ tile.commandsTo config ch c.nextTile ∧
      c'.nextTile = c.nextTile + 1 := by
  unfold NeuPIMSCore.issuePim at h
  by_cases hskip : tile.skip
  · rw [if_pos hskip] at h
    cases h
    rw [Tile.commandsTo, if_pos hskip, List.append_nil]
    exact ⟨fun _ => rfl, rfl, rfl⟩
  · rw [if_neg hskip] at h
    obtain ⟨hrequests, hloads, hnext⟩ := admitTile_queues h
    refine ⟨fun p => ?_, ?_, hnext⟩
    · rw [hrequests p]
      cases p <;> rfl
    · have hflush : (c.flushPim.lane .PIM).ldInstQueue = (c.lane .PIM).ldInstQueue := rfl
      rw [NeuPIMSCore.loadCommands, hloads, if_pos rfl, hflush, List.filterMap_append,
        Tile.commandsTo, if_neg hskip]
      congr 1
      exact filterMap_claimInst tile.instructions

theorem issue_queues (h : c.issue tile = .ok c') :
    (∀ p, (c'.lane p).memoryRequestQueues = (c.lane p).memoryRequestQueues) ∧
      (c'.lane .PIM).ldInstQueue = (c.lane .PIM).ldInstQueue ∧ c'.nextTile = c.nextTile + 1 := by
  unfold NeuPIMSCore.issue at h
  by_cases hskip : tile.skip
  · rw [if_pos hskip] at h
    cases h
    exact ⟨fun _ => rfl, rfl, rfl⟩
  · rw [if_neg hskip] at h
    obtain ⟨hrequests, hloads, hnext⟩ := admitTile_queues h
    refine ⟨fun p => ?_, ?_, hnext⟩
    · rw [hrequests p]
      cases p <;> rfl
    · rw [hloads, if_neg (by decide), List.append_nil]
      rfl

end Issue

end NeuPIMSystolicWS

end NewPims

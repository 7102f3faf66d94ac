import NewPims.Interconnect.Exclusive
import NewPims.Lib.Strided
import NewPims.NeuPIMSystolicWS.Requests
import NewPims.Simulator.Machine

/-! The nodes that the requests and the responses pass. -/
namespace NewPims.Machine

open NeuPIMSystolicWS SimpleInterconnect Transition

section Definitions

variable (config : SimulationConfig) (mem : NewtonSim.Config)

/-- The node to which `get_dest_node` sends the responses of a channel to a core. -/
def coreNode (coreId ch : ℕ) : ℕ := coreId * config.dramChannels + ch

/-- The cores send from and poll the nodes to which their responses go. -/
def Aligned : Prop :=
  ∀ coreId < config.numCores, ∀ ch < config.dramChannels,
    coreInd config coreId ch = coreNode config coreId ch

/-- The memory queue in which the commands to the PIM wait. -/
def commandPlatform : StagePlatform := if config.subBatchMode then .PIM else .SA

/-- A message from a channel of a core to the memory. -/
structure Outward (coreId ch : ℕ) (e : Entity) : Prop where
  dest : e.dest = memInd config (mem.getChannel e.access.dramAddress)
  channel : AddressConfig.maskChannel config e.access.dramAddress = ch
  coreId : e.access.coreId = coreId
  command : e.access.reqType.isCommand → e.access.stagePlatform = .PIM

/-- A message from a channel of the memory to a core. -/
structure Homeward (ch : ℕ) (e : Entity) : Prop where
  dest : e.dest = coreNode config e.access.coreId ch
  core : e.access.coreId < config.numCores
  channel : mem.getChannel e.access.dramAddress = ch

/-- Every message of the interconnect is where it belongs. -/
structure Routed (n : SimpleInterconnect) : Prop where
  free : ∀ node, n.busyNode node = false
  outward : ∀ coreId < config.numCores, ∀ ch < config.dramChannels,
    ∀ e ∈ n.inBuffers (coreNode config coreId ch), Outward config mem coreId ch e
  homeward : ∀ ch < config.dramChannels, ∀ e ∈ n.inBuffers (memInd config ch),
    Homeward config mem ch e
  arrived : ∀ coreId < config.numCores, ∀ ch < config.dramChannels,
    ∀ a ∈ n.outBuffers (coreNode config coreId ch),
      a.coreId = coreId ∧ mem.getChannel a.dramAddress = ch
  waiting : ∀ p ch, ∀ a ∈ memReqQueue n p ch,
    a.coreId < config.numCores ∧ (a.reqType.isCommand → p = commandPlatform config)

structure Lawful (M : Machine) : Prop where
  requests : ∀ coreId < config.numCores, ∀ p ch,
    ∀ a ∈ ((M.cores coreId).lane p).memoryRequestQueues ch, Queued config p ch a
  net : Routed config mem M.icnt
  dram : ∀ ch, ∀ a ∈ M.dram ch,
    a.request = false ∧ a.coreId < config.numCores ∧ mem.getChannel a.dramAddress = ch

end Definitions

variable {config : SimulationConfig} {mem : NewtonSim.Config} {set : RobinHood} {M M' : Machine}
  {n : SimpleInterconnect} {p : StagePlatform} {coreId ch : ℕ} {e : Entity}

section Nodes

theorem coreNode_lt (hcore : coreId < config.numCores) (hch : ch < config.dramChannels) :
    coreNode config coreId ch < dramOffset config :=
  calc coreId * config.dramChannels + ch
    _ < coreId * config.dramChannels + config.dramChannels := Nat.add_lt_add_left hch _
    _ = (coreId + 1) * config.dramChannels := (Nat.succ_mul _ _).symm
    _ ≤ config.numCores * config.dramChannels := Nat.mul_le_mul_right _ hcore

theorem coreNode_inj {coreId' ch' : ℕ} (hch : ch < config.dramChannels)
    (hch' : ch' < config.dramChannels)
    (h : coreNode config coreId ch = coreNode config coreId' ch') :
    coreId = coreId' ∧ ch = ch' := by
  rw [coreNode, coreNode, Nat.mul_comm coreId, Nat.mul_comm coreId'] at h
  exact Strided.axis_inj hch hch' h

theorem dramOffset_le_memInd (ch : ℕ) : dramOffset config ≤ memInd config ch := Nat.le_add_right _ _

theorem memInd_inj {ch' : ℕ} (h : memInd config ch = memInd config ch') : ch = ch' :=
  Nat.add_left_cancel h

theorem coreNode_ne_memInd {ch' : ℕ} (hcore : coreId < config.numCores)
    (hch : ch < config.dramChannels) : coreNode config coreId ch ≠ memInd config ch' :=
  Nat.ne_of_lt (Nat.lt_of_lt_of_le (coreNode_lt hcore hch) (dramOffset_le_memInd ch'))

theorem memInd_lt (hch : ch < config.dramChannels) : memInd config ch < nNodes config :=
  Nat.add_lt_add_left hch _

theorem coreNode_lt_nNodes (hcore : coreId < config.numCores) (hch : ch < config.dramChannels) :
    coreNode config coreId ch < nNodes config :=
  Nat.lt_of_lt_of_le (coreNode_lt hcore hch) (Nat.le_add_right _ _)

/-- A node belongs to a channel of a core or of the memory. -/
theorem node_cases {node : ℕ} (h : node < nNodes config) :
    (∃ coreId < config.numCores, ∃ ch < config.dramChannels, node = coreNode config coreId ch) ∨
      ∃ ch < config.dramChannels, node = memInd config ch := by
  by_cases hnode : node < dramOffset config
  · left
    have hpos : 0 < config.dramChannels := by
      by_contra hzero
      rw [dramOffset, Nat.eq_zero_of_not_pos hzero, Nat.mul_zero] at hnode
      exact Nat.not_lt_zero _ hnode
    refine ⟨node / config.dramChannels, ?_, node % config.dramChannels, Nat.mod_lt _ hpos, ?_⟩
    · exact Nat.div_lt_of_lt_mul (Nat.mul_comm _ _ ▸ hnode)
    · exact (Nat.div_add_mod' node config.dramChannels).symm
  · right
    have hle := Nat.le_of_not_lt hnode
    refine ⟨node - dramOffset config, ?_, (Nat.add_sub_of_le hle).symm⟩
    exact Nat.sub_lt_left_of_lt_add hle h

end Nodes

section Places

/-- The place of the messages that wait for a channel of the memory. -/
def memPlace : StagePlatform → ℕ → Place
  | .SA, ch => .mem1 ch
  | .PIM, ch => .mem2 ch

theorem memReqQueue_eq (n : SimpleInterconnect) (p : StagePlatform) (ch : ℕ) :
    memReqQueue n p ch = n.queue (memPlace p ch) := by
  cases p <;> rfl

theorem place_eq_out {nid : ℕ} :
    place config e = .out nid ↔ e.dest < dramOffset config ∧ e.dest = nid := by
  unfold place
  by_cases h : e.dest < dramOffset config
  · simp [h]
  · simp only [h, if_false, false_and, iff_false]
    split <;> simp

theorem place_eq_mem : place config e = memPlace p ch ↔
    dramOffset config ≤ e.dest ∧ (memReq config e.access).stagePlatform = p ∧
      e.dest - dramOffset config = ch := by
  unfold place
  by_cases h : e.dest < dramOffset config
  · rw [if_pos h]
    have hne : Place.out e.dest ≠ memPlace p ch := by
      cases p <;> simp [memPlace]
    exact iff_of_false hne fun hle => absurd h (Nat.not_lt.mpr hle.1)
  · rw [if_neg h]
    cases p <;> cases hplat : (memReq config e.access).stagePlatform <;>
      simp [memPlace, Nat.le_of_not_lt h]

theorem memReq_coreId (config : SimulationConfig) (access : MemoryAccess) :
    (memReq config access).coreId = access.coreId := by
  unfold memReq
  split <;> rfl

theorem memReq_asCommand (config : SimulationConfig) (access : MemoryAccess) :
    (memReq config access).asCommand = access.asCommand := by
  unfold memReq
  split <;> rfl

theorem memReq_reqType (config : SimulationConfig) (access : MemoryAccess) :
    (memReq config access).reqType = access.reqType := by
  unfold memReq
  split <;> rfl

/-- Where the commands wait for the memory. -/
theorem memReq_platform {access : MemoryAccess} (h : access.stagePlatform = .PIM) :
    (memReq config access).stagePlatform = commandPlatform config := by
  unfold memReq commandPlatform
  split
  · exact h
  · rfl

theorem outward_place (h : Outward config mem coreId ch e) (p : StagePlatform) (ch' : ℕ) :
    place config e = memPlace p ch' ↔
      (memReq config e.access).stagePlatform = p ∧ mem.getChannel e.access.dramAddress = ch' := by
  have hsub : memInd config (mem.getChannel e.access.dramAddress) - dramOffset config =
      mem.getChannel e.access.dramAddress := Nat.add_sub_cancel_left _ _
  rw [place_eq_mem, h.dest, hsub]
  exact and_iff_right (dramOffset_le_memInd _)

theorem homeward_place (h : Homeward config mem ch e) (hch : ch < config.dramChannels) :
    place config e = .out (coreNode config e.access.coreId ch) :=
  place_eq_out.mpr ⟨h.dest ▸ coreNode_lt h.core hch, h.dest⟩

theorem homeward_delivered (h : Homeward config mem ch e) (hch : ch < config.dramChannels) :
    SimpleInterconnect.delivered config e = e.access :=
  if_pos (h.dest ▸ coreNode_lt h.core hch)

theorem outward_delivered (h : Outward config mem coreId ch e) :
    SimpleInterconnect.delivered config e = memReq config e.access :=
  if_neg (Nat.not_lt.mpr (h.dest ▸ dramOffset_le_memInd _))

end Places

section Net

theorem routed_init (rrStart : ℕ) : Routed config mem (.init rrStart) where
  free _ := rfl
  outward _ _ _ _ _ he := absurd he List.not_mem_nil
  homeward _ _ _ he := absurd he List.not_mem_nil
  arrived _ _ _ _ _ ha := absurd ha List.not_mem_nil
  waiting p _ a ha := by cases p <;> exact absurd ha List.not_mem_nil

theorem routed_pushOutward (h : Routed config mem n) (hcore : coreId < config.numCores)
    (hch : ch < config.dramChannels) (he : Outward config mem coreId ch e) :
    Routed config mem { n with
      inBuffers := Function.update n.inBuffers (coreNode config coreId ch)
        (n.inBuffers (coreNode config coreId ch) ++ [e]) } := by
  refine ⟨h.free, ?_, ?_, h.arrived, h.waiting⟩
  · intro k hk c hc e' he'
    by_cases hnode : coreNode config k c = coreNode config coreId ch
    · obtain ⟨rfl, rfl⟩ := coreNode_inj hc hch hnode
      dsimp only at he'
      rw [Function.update_self] at he'
      rcases List.mem_append.mp he' with he' | he'
      · exact h.outward k hk c hc e' he'
      · rw [List.mem_singleton.mp he']
        exact he
    · dsimp only at he'
      rw [Function.update_of_ne hnode] at he'
      exact h.outward k hk c hc e' he'
  · intro c hc e' he'
    have hne : coreNode config coreId ch ≠ memInd config c := coreNode_ne_memInd hcore hch
    dsimp only at he'
    rw [Function.update_of_ne hne.symm] at he'
    exact h.homeward c hc e' he'

theorem routed_pushHomeward (h : Routed config mem n) (he : Homeward config mem ch e) :
    Routed config mem { n with
      inBuffers := Function.update n.inBuffers (memInd config ch)
        (n.inBuffers (memInd config ch) ++ [e]) } := by
  refine ⟨h.free, ?_, ?_, h.arrived, h.waiting⟩
  · intro k hk c hc e' he'
    have hne : coreNode config k c ≠ memInd config ch := coreNode_ne_memInd hk hc
    dsimp only at he'
    rw [Function.update_of_ne hne] at he'
    exact h.outward k hk c hc e' he'
  · intro c hc e' he'
    by_cases hnode : c = ch
    · subst hnode
      dsimp only at he'
      rw [Function.update_self] at he'
      rcases List.mem_append.mp he' with he' | he'
      · exact h.homeward c hc e' he'
      · rw [List.mem_singleton.mp he']
        exact he
    · have hne : memInd config c ≠ memInd config ch := fun heq => hnode (memInd_inj heq)
      dsimp only at he'
      rw [Function.update_of_ne hne] at he'
      exact h.homeward c hc e' he'

/-- Messages that leave the queue of a place do not disturb the others. -/
theorem routed_dequeue {n' : SimpleInterconnect} (h : Routed config mem n)
    (hbusy : n'.busyNode = n.busyNode) (hin : n'.inBuffers = n.inBuffers)
    (hqueue : ∀ q, ∀ a ∈ n'.queue q, a ∈ n.queue q) : Routed config mem n' := by
  refine ⟨?_, ?_, ?_, ?_, ?_⟩
  · rw [hbusy]
    exact h.free
  · rw [hin]
    exact h.outward
  · rw [hin]
    exact h.homeward
  · intro k hk c hc a ha
    exact h.arrived k hk c hc a (hqueue (.out _) a ha)
  · intro p c a ha
    rw [memReqQueue_eq] at ha
    refine h.waiting p c a ?_
    rw [memReqQueue_eq]
    exact hqueue _ a ha

/-- A cycle brings every message to a place where it belongs. -/
theorem routed_cycle (h : Routed config mem n) : Routed config mem (n.cycle config) := by
  refine ⟨fun _ => rfl, ?_, ?_, ?_, ?_⟩
  · intro k hk c hc e he
    exact h.outward k hk c hc e (mem_cycle_inBuffers he)
  · intro c hc e he
    exact h.homeward c hc e (mem_cycle_inBuffers he)
  · intro k hk c hc a ha
    rcases mem_cycle_queue (p := .out (coreNode config k c)) ha with
      ha | ⟨s, hs, e, he, hplace, rfl⟩
    · exact h.arrived k hk c hc a ha
    · obtain ⟨k', hk', c', hc', rfl⟩ | ⟨c', hc', rfl⟩ := node_cases hs
      · have hout := h.outward k' hk' c' hc' e he
        have hlt := (place_eq_out.mp hplace).1
        rw [hout.dest] at hlt
        exact absurd hlt (Nat.not_lt.mpr (dramOffset_le_memInd _))
      · have hhome := h.homeward c' hc' e he
        have hdest := (place_eq_out.mp hplace).2
        rw [hhome.dest] at hdest
        obtain ⟨rfl, rfl⟩ := coreNode_inj hc' hc hdest
        rw [homeward_delivered hhome hc']
        exact ⟨rfl, hhome.channel⟩
  · intro p c a ha
    rw [memReqQueue_eq] at ha
    rcases mem_cycle_queue ha with ha | ⟨s, hs, e, he, hplace, rfl⟩
    · rw [← memReqQueue_eq] at ha
      exact h.waiting p c a ha
    · obtain ⟨k', hk', c', hc', rfl⟩ | ⟨c', hc', rfl⟩ := node_cases hs
      · have hout := h.outward k' hk' c' hc' e he
        have hplat := ((outward_place hout p c).mp hplace).1
        rw [outward_delivered hout, memReq_coreId, memReq_reqType, hout.coreId]
        refine ⟨hk', fun hcommand => ?_⟩
        rw [← hplat]
        exact memReq_platform (hout.command hcommand)
      · have hhome := h.homeward c' hc' e he
        have hle := (place_eq_mem.mp hplace).1
        rw [hhome.dest] at hle
        exact absurd hle (Nat.not_le.mpr (coreNode_lt hhome.core hc'))

end Net

end NewPims.Machine

import NewPims.Simulator.Routes

/-! What each part of the interconnect cycle of the simulator does, and that it brings every
message to where it belongs. -/
namespace NewPims.Machine

open NeuPIMSystolicWS SimpleInterconnect Transition

variable {config : SimulationConfig} {mem : NewtonSim.Config} {set : RobinHood} {M M' : Machine}
  {memory : MemoryCycle} {p : StagePlatform} {coreId ch : ℕ}

section Steps

@[simp]
theorem setCore_cores (M : Machine) (coreId : ℕ) (c : NeuPIMSCore) :
    (M.setCore coreId c).cores = Function.update M.cores coreId c := rfl

theorem getDestNode_ok {access : MemoryAccess} {dest : ℕ}
    (h : getDestNode config mem access = .ok dest) :
    dest = if access.request then memInd config (mem.getChannel access.dramAddress)
      else coreNode config access.coreId (mem.getChannel access.dramAddress) := by
  simp only [getDestNode] at h
  by_cases hrequest : access.request
  · rw [if_pos hrequest] at h ⊢
    split_ifs at h
    cases h
    rfl
  · rw [if_neg hrequest] at h ⊢
    split_ifs at h
    cases h
    rfl

/-- A core's request with the core's id, as it enters the interconnect. -/
def tagged (coreId : ℕ) (access : MemoryAccess) : MemoryAccess := { access with coreId := coreId }

/-- The core without the first request of a queue. -/
def dropRequest (c : NeuPIMSCore) (platform : StagePlatform) (ch : ℕ) : NeuPIMSCore :=
  c.setLane platform { c.lane platform with
    memoryRequestQueues := Function.update (c.lane platform).memoryRequestQueues ch
      ((c.lane platform).memoryRequestQueues ch).tail }

theorem sendRequest_ok (h : sendRequest config mem p coreId ch M = .ok M') :
    (((M.cores coreId).lane p).memoryRequestQueues ch = [] ∧ M' = M) ∨ ∃ front rest dest,
      ((M.cores coreId).lane p).memoryRequestQueues ch = front :: rest ∧
      getDestNode config mem (tagged coreId front) = .ok dest ∧
      M' = { M.setCore coreId (dropRequest (M.cores coreId) p ch) with
        icnt := { M.icnt with
          inBuffers := Function.update M.icnt.inBuffers (coreInd config coreId ch)
            (M.icnt.inBuffers (coreInd config coreId ch) ++ [M.icnt.newEntity config
              (coreInd config coreId ch) dest (tagged coreId front)]) } } := by
  unfold sendRequest NeuPIMSCore.popMemoryRequest at h
  cases hqueue : ((M.cores coreId).lane p).memoryRequestQueues ch with
  | nil =>
    simp only [hqueue] at h
    cases h
    exact Or.inl ⟨rfl, rfl⟩
  | cons front rest =>
    simp only [hqueue] at h
    obtain ⟨dest, hdest, h⟩ := bind_ok.mp h
    obtain ⟨icnt, hpush, h⟩ := bind_ok.mp h
    obtain ⟨-, rfl⟩ := push_ok hpush
    cases h
    refine Or.inr ⟨front, rest, dest, rfl, hdest, ?_⟩
    rw [dropRequest, hqueue]
    rfl

theorem receiveResponse_ok (h : receiveResponse config coreId ch M = .ok M') :
    (M.icnt.outBuffers (coreInd config coreId ch) = [] ∧ M' = M) ∨ ∃ response rest c,
      M.icnt.outBuffers (coreInd config coreId ch) = response :: rest ∧
      (M.cores coreId).pushMemoryResponse response = .ok c ∧
      M' = { M.setCore coreId c with
        icnt := { M.icnt with
          outBuffers := Function.update M.icnt.outBuffers (coreInd config coreId ch) rest }
        delivered := Function.update M.delivered coreId (M.delivered coreId ++ [response]) } := by
  simp only [receiveResponse] at h
  split_ifs at h
  unfold top at h
  cases hqueue : M.icnt.outBuffers (coreInd config coreId ch) with
  | nil =>
    simp only [hqueue, List.head?_nil] at h
    cases h
    exact Or.inl ⟨rfl, rfl⟩
  | cons response rest =>
    simp only [hqueue, List.head?_cons] at h
    obtain ⟨c, hc, h⟩ := bind_ok.mp h
    obtain ⟨icnt, hpop, h⟩ := bind_ok.mp h
    obtain ⟨-, rfl⟩ := pop_ok hpop
    cases h
    refine Or.inr ⟨response, rest, c, rfl, hc, ?_⟩
    rw [hqueue]
    rfl

theorem dramPush_ok {request : MemoryAccess} (h : dramPush mem ch request M = .ok M') :
    mem.getChannel request.dramAddress = ch ∧ M' = { M with
      dram := Function.update M.dram ch (M.dram ch ++ [{ request with request := false }])
      handed := Function.update M.handed ch (M.handed ch ++ [request]) } := by
  unfold dramPush at h
  split_ifs at h with hguard
  cases h
  exact ⟨hguard.1, rfl⟩

theorem memreqPop_ok {n n' : SimpleInterconnect} (h : memreqPop config n p ch = .ok n') :
    n'.busyNode = n.busyNode ∧ n'.inBuffers = n.inBuffers ∧ n'.cycles = n.cycles ∧
      n'.queue = Function.update n.queue (memPlace p ch) (n.queue (memPlace p ch)).tail := by
  cases p with
  | SA =>
    obtain ⟨-, rfl⟩ := memreqPop1_ok h
    exact ⟨rfl, rfl, rfl, update_mem1_queue n ch _⟩
  | PIM =>
    obtain ⟨-, rfl⟩ := memreqPop2_ok h
    exact ⟨rfl, rfl, rfl, update_mem2_queue n ch _⟩

/-- The head of a memory queue is handed to the memory, unless that is full. -/
theorem forwardRequest_ok (h : forwardRequest config mem memory p ch M = .ok M') :
    ((memReqQueue M.icnt p ch = [] ∨ memory.full p ch) ∧ M' = M) ∨ ∃ request rest n',
      memReqQueue M.icnt p ch = request :: rest ∧ mem.getChannel request.dramAddress = ch ∧
      memreqPop config M.icnt p ch = .ok n' ∧
      M' = { M with
        icnt := n'
        dram := Function.update M.dram ch (M.dram ch ++ [{ request with request := false }])
        handed := Function.update M.handed ch (M.handed ch ++ [request]) } := by
  unfold forwardRequest at h
  cases hqueue : memReqQueue M.icnt p ch with
  | nil =>
    simp only [hqueue] at h
    cases h
    exact Or.inl ⟨Or.inl rfl, rfl⟩
  | cons request rest =>
    simp only [hqueue] at h
    split_ifs at h with hfull
    · cases h
      exact Or.inl ⟨Or.inr hfull, rfl⟩
    · obtain ⟨D, hD, h⟩ := bind_ok.mp h
      obtain ⟨hchannel, rfl⟩ := dramPush_ok hD
      obtain ⟨n', hn', h⟩ := bind_ok.mp h
      cases h
      exact Or.inr ⟨request, rest, n', rfl, hchannel, hn', rfl⟩

theorem takeResponse_ok (h : takeResponse config mem memory ch M = .ok M') :
    (memory.response ch = none ∧ M' = M) ∨ ∃ response dest,
      memory.response ch = some response ∧ response ∈ M.dram ch ∧
      getDestNode config mem response = .ok dest ∧
      M' = { M with
        icnt := { M.icnt with
          inBuffers := Function.update M.icnt.inBuffers (memInd config ch)
            (M.icnt.inBuffers (memInd config ch) ++
              [M.icnt.newEntity config (memInd config ch) dest response]) }
        dram := Function.update M.dram ch ((M.dram ch).erase response)
        answered := Function.update M.answered ch (M.answered ch ++ [response]) } := by
  unfold takeResponse at h
  cases hresponse : memory.response ch with
  | none =>
    simp only [hresponse] at h
    cases h
    exact Or.inl ⟨rfl, rfl⟩
  | some response =>
    simp only [hresponse] at h
    split_ifs at h with hmem
    obtain ⟨dest, hdest, h⟩ := bind_ok.mp h
    obtain ⟨icnt, hpush, h⟩ := bind_ok.mp h
    obtain ⟨-, rfl⟩ := push_ok hpush
    cases h
    exact Or.inr ⟨response, dest, rfl, hmem, hdest, rfl⟩

end Steps

section Loops

/-- One message moves, or none. -/
inductive Hop (config : SimulationConfig) (mem : NewtonSim.Config) (memory : MemoryCycle)
    (M M' : Machine) : Prop
  | send (p : StagePlatform) {coreId ch : ℕ} (hcore : coreId < config.numCores)
      (hch : ch < config.dramChannels) :
      sendRequest config mem p coreId ch M = .ok M' → Hop config mem memory M M'
  | receive {coreId ch : ℕ} (hcore : coreId < config.numCores) (hch : ch < config.dramChannels) :
      receiveResponse config coreId ch M = .ok M' → Hop config mem memory M M'
  | forward (p : StagePlatform) {ch : ℕ} (hch : ch < config.dramChannels) :
      forwardRequest config mem memory p ch M = .ok M' → Hop config mem memory M M'
  | take {ch : ℕ} (hch : ch < config.dramChannels) :
      takeResponse config mem memory ch M = .ok M' → Hop config mem memory M M'

abbrev Hops (config : SimulationConfig) (mem : NewtonSim.Config) (memory : MemoryCycle) :
    Machine → Machine → Prop := Relation.ReflTransGen (Hop config mem memory)

/-- The interconnect arbitrates at the end of its cycle. -/
def arbitrate (config : SimulationConfig) (M : Machine) : Machine :=
  { M with icnt := M.icnt.cycle config }

theorem coreChannel_hops (hcore : coreId < config.numCores) (hch : ch < config.dramChannels)
    (h : coreChannel config mem coreId M ch = .ok M') : Hops config mem memory M M' := by
  obtain ⟨A, hA, h⟩ := bind_ok.mp h
  obtain ⟨B, hB, h⟩ := bind_ok.mp h
  exact ((Relation.ReflTransGen.single (.send .SA hcore hch hA)).tail
    (.send .PIM hcore hch hB)).tail (.receive hcore hch h)

theorem dramChannel_hops (hch : ch < config.dramChannels)
    (h : dramChannel config mem memory M ch = .ok M') : Hops config mem memory M M' := by
  obtain ⟨A, hA, h⟩ := bind_ok.mp h
  obtain ⟨B, hB, h⟩ := bind_ok.mp h
  exact ((Relation.ReflTransGen.single (.forward .SA hch hA)).tail
    (.forward .PIM hch hB)).tail (.take hch h)

/-- A loop of hops. -/
theorem foldlM_hops {body : Machine → ℕ → Except Fault Machine} {xs : List ℕ}
    (hbody : ∀ x ∈ xs, ∀ A B, body A x = .ok B → Hops config mem memory A B)
    (h : xs.foldlM body M = .ok M') : Hops config mem memory M M' :=
  foldlM_inv_mem (P := Hops config mem memory M)
    (fun A B x hx hA hstep => hA.trans (hbody x hx A B hstep)) .refl h

theorem coreLoop_hops (hcore : coreId < config.numCores) {channels : List ℕ}
    (hchannels : ∀ ch ∈ channels, ch < config.dramChannels)
    (h : channels.foldlM (coreChannel config mem coreId) M = .ok M') :
    Hops config mem memory M M' :=
  foldlM_hops (fun ch hch _ _ hstep => coreChannel_hops hcore (hchannels ch hch) hstep) h

theorem coresLoop_hops {cores : List ℕ} (hcores : ∀ coreId ∈ cores, coreId < config.numCores)
    (h : cores.foldlM (fun M coreId =>
      (List.range config.dramChannels).foldlM (coreChannel config mem coreId) M) M = .ok M') :
    Hops config mem memory M M' :=
  foldlM_hops (fun coreId hcore _ _ hstep =>
    coreLoop_hops (hcores coreId hcore) (fun _ hch => List.mem_range.mp hch) hstep) h

theorem dramLoop_hops {channels : List ℕ} (hchannels : ∀ ch ∈ channels, ch < config.dramChannels)
    (h : channels.foldlM (dramChannel config mem memory) M = .ok M') :
    Hops config mem memory M M' :=
  foldlM_hops (fun ch hch _ _ hstep => dramChannel_hops (hchannels ch hch) hstep) h

/-- An interconnect cycle is a sequence of hops before the arbitration. -/
theorem icntCycle_hops (h : icntCycle config mem memory M = .ok M') :
    ∃ D, Hops config mem memory M D ∧ M' = arbitrate config D := by
  obtain ⟨A, hA, h⟩ := bind_ok.mp h
  obtain ⟨D, hD, h⟩ := bind_ok.mp h
  cases h
  refine ⟨D, ?_, rfl⟩
  have hcores : Hops config mem memory M A := coresLoop_hops (fun _ hk => List.mem_range.mp hk) hA
  exact hcores.trans (dramLoop_hops (fun _ hch => List.mem_range.mp hch) hD)

/-- What hops and the arbitration keep, an interconnect cycle keeps. -/
theorem icntCycle_inv {P : Machine → Prop}
    (hhop : ∀ M M', Hop config mem memory M M' → P M → P M')
    (harbitrate : ∀ M, P M → P (arbitrate config M)) (hM : P M)
    (h : icntCycle config mem memory M = .ok M') : P M' := by
  obtain ⟨D, hD, rfl⟩ := icntCycle_hops h
  clear h
  apply harbitrate
  induction hD with
  | refl => exact hM
  | tail _ hstep ih => exact hhop _ _ hstep ih

/-- Every core gets to serve every channel. -/
theorem icntCycle_core (hcore : coreId < config.numCores) (hch : ch < config.dramChannels)
    (h : icntCycle config mem memory M = .ok M') :
    ∃ A B D, Hops config mem memory M A ∧ coreChannel config mem coreId A ch = .ok B ∧
      Hops config mem memory B D ∧ M' = arbitrate config D := by
  obtain ⟨X, hX, h⟩ := bind_ok.mp h
  obtain ⟨Y, hY, h⟩ := bind_ok.mp h
  cases h
  obtain ⟨ls, rs, A₁, B₁, hls, hrs, hA₁, hB₁, hD₁⟩ := foldlM_split (List.mem_range.mpr hcore) hX
  obtain ⟨ls', rs', A, B, hls', hrs', hA, hB, hD⟩ := foldlM_split (List.mem_range.mpr hch) hB₁
  have hbefore : Hops config mem memory M A :=
    (coresLoop_hops (fun k hk => List.mem_range.mp (hls k hk)) hA₁).trans
      (coreLoop_hops hcore (fun c hc => List.mem_range.mp (hls' c hc)) hA)
  have hcores : Hops config mem memory B X :=
    (coreLoop_hops hcore (fun c hc => List.mem_range.mp (hrs' c hc)) hD).trans
      (coresLoop_hops (fun k hk => List.mem_range.mp (hrs k hk)) hD₁)
  have hmemory : Hops config mem memory X Y :=
    dramLoop_hops (fun _ hch => List.mem_range.mp hch) hY
  exact ⟨A, B, Y, hbefore, hB, hcores.trans hmemory, rfl⟩

/-- Every core gets to send the request of every channel. -/
theorem icntCycle_send (p : StagePlatform) (hcore : coreId < config.numCores)
    (hch : ch < config.dramChannels) (h : icntCycle config mem memory M = .ok M') :
    ∃ A B D, Hops config mem memory M A ∧ sendRequest config mem p coreId ch A = .ok B ∧
      Hops config mem memory B D ∧ M' = arbitrate config D := by
  obtain ⟨A, B, D, hA, hB, hD, rfl⟩ := icntCycle_core hcore hch h
  obtain ⟨C₁, hC₁, hB⟩ := bind_ok.mp hB
  obtain ⟨C₂, hC₂, hB⟩ := bind_ok.mp hB
  have hreceive : Hop config mem memory C₂ B := .receive hcore hch hB
  cases p with
  | SA => exact ⟨A, C₁, D, hA, hC₁, .head (.send .PIM hcore hch hC₂) (.head hreceive hD), rfl⟩
  | PIM => exact ⟨C₁, C₂, D, hA.tail (.send .SA hcore hch hC₁), hC₂, .head hreceive hD, rfl⟩

/-- Every core gets to receive a response of every channel. -/
theorem icntCycle_receive (hcore : coreId < config.numCores) (hch : ch < config.dramChannels)
    (h : icntCycle config mem memory M = .ok M') :
    ∃ A B D, Hops config mem memory M A ∧ receiveResponse config coreId ch A = .ok B ∧
      Hops config mem memory B D ∧ M' = arbitrate config D := by
  obtain ⟨A, B, D, hA, hB, hD, rfl⟩ := icntCycle_core hcore hch h
  obtain ⟨C₁, hC₁, hB⟩ := bind_ok.mp hB
  obtain ⟨C₂, hC₂, hB⟩ := bind_ok.mp hB
  have hbefore := (hA.tail (.send .SA hcore hch hC₁)).tail (.send .PIM hcore hch hC₂)
  exact ⟨C₂, B, D, hbefore, hB, hD, rfl⟩

/-- Every memory queue gets to hand over its request. -/
theorem icntCycle_forward (p : StagePlatform) (hch : ch < config.dramChannels)
    (h : icntCycle config mem memory M = .ok M') :
    ∃ A B D, Hops config mem memory M A ∧ forwardRequest config mem memory p ch A = .ok B ∧
      Hops config mem memory B D ∧ M' = arbitrate config D := by
  obtain ⟨X, hX, h⟩ := bind_ok.mp h
  obtain ⟨Y, hY, h⟩ := bind_ok.mp h
  cases h
  have hcores : Hops config mem memory M X := coresLoop_hops (fun _ hk => List.mem_range.mp hk) hX
  obtain ⟨ls, rs, A, B, hls, hrs, hA, hB, hD⟩ := foldlM_split (List.mem_range.mpr hch) hY
  have hbefore : Hops config mem memory M A :=
    hcores.trans (dramLoop_hops (fun c hc => List.mem_range.mp (hls c hc)) hA)
  have hafter : Hops config mem memory B Y :=
    dramLoop_hops (fun c hc => List.mem_range.mp (hrs c hc)) hD
  obtain ⟨C₁, hC₁, hB⟩ := bind_ok.mp hB
  obtain ⟨C₂, hC₂, hB⟩ := bind_ok.mp hB
  have htake : Hop config mem memory C₂ B := .take hch hB
  cases p with
  | SA => exact ⟨A, C₁, Y, hbefore, hC₁, .head (.forward .PIM hch hC₂) (.head htake hafter), rfl⟩
  | PIM => exact ⟨C₁, C₂, Y, hbefore.tail (.forward .SA hch hC₁), hC₂, .head htake hafter, rfl⟩

end Loops

section Lawful

theorem lawful_init (config : SimulationConfig) (mem : NewtonSim.Config) (rrStart : ℕ) :
    Lawful config mem (init config rrStart) where
  requests _ _ _ _ _ ha := absurd ha List.not_mem_nil
  net := routed_init rrStart
  dram _ _ ha := absurd ha List.not_mem_nil

/-- The queues of one core change, by requests that the core makes. -/
theorem lawful_setCore (h : Lawful config mem M) {c : NeuPIMSCore}
    (hc : coreId < config.numCores → ∀ p ch, ∀ a ∈ (c.lane p).memoryRequestQueues ch,
      a ∈ ((M.cores coreId).lane p).memoryRequestQueues ch ∨ Queued config p ch a) :
    Lawful config mem (M.setCore coreId c) := by
  refine ⟨?_, h.net, h.dram⟩
  intro k hk p ch a ha
  by_cases hcore : k = coreId
  · subst hcore
    rw [setCore_cores, Function.update_self] at ha
    rcases hc hk p ch a ha with ha | ha
    · exact h.requests k hk p ch a ha
    · exact ha
  · rw [setCore_cores, Function.update_of_ne hcore] at ha
    exact h.requests k hk p ch a ha

theorem lawful_sends (h : Lawful config mem M) {c : NeuPIMSCore}
    (hc : Sends config (M.cores coreId) c) : Lawful config mem (M.setCore coreId c) := by
  obtain ⟨sent, hsent⟩ := hc
  refine lawful_setCore h fun _ p ch a ha => ?_
  rw [hsent.requests] at ha
  rcases List.mem_append.mp ha with ha | ha
  · exact Or.inl ha
  · exact Or.inr (hsent.made p ch a ha)

theorem mem_dropRequest {c : NeuPIMSCore} {q : StagePlatform} {ch' : ℕ} {a : MemoryAccess}
    (ha : a ∈ ((dropRequest c p ch).lane q).memoryRequestQueues ch') :
    a ∈ (c.lane q).memoryRequestQueues ch' := by
  simp only [dropRequest, NeuPIMSCore.setLane] at ha
  by_cases hq : q = p
  · subst hq
    rw [Function.update_self] at ha
    dsimp only at ha
    by_cases hch : ch' = ch
    · subst hch
      rw [Function.update_self] at ha
      exact List.mem_of_mem_tail ha
    · rwa [Function.update_of_ne hch] at ha
  · rwa [Function.update_of_ne hq] at ha

theorem lawful_sendRequest (haligned : Aligned config) (hcore : coreId < config.numCores)
    (hch : ch < config.dramChannels) (h : Lawful config mem M)
    (hsend : sendRequest config mem p coreId ch M = .ok M') : Lawful config mem M' := by
  obtain ⟨-, rfl⟩ | ⟨front, rest, dest, hqueue, hdest, rfl⟩ := sendRequest_ok hsend
  · exact h
  have hfront := h.requests coreId hcore p ch front (by rw [hqueue]; exact List.mem_cons_self)
  have hdrop := lawful_setCore (c := dropRequest (M.cores coreId) p ch) h
    fun _ q ch' a ha => Or.inl (mem_dropRequest ha)
  rw [haligned coreId hcore ch hch]
  refine ⟨hdrop.requests, routed_pushOutward h.net hcore hch ?_, h.dram⟩
  have hnode := getDestNode_ok hdest
  rw [if_pos (show (tagged coreId front).request = true from hfront.request)] at hnode
  exact ⟨hnode, hfront.channel, rfl, fun hcommand => hfront.lane.trans (hfront.command hcommand)⟩

theorem lawful_receiveResponse (h : Lawful config mem M)
    (hreceive : receiveResponse config coreId ch M = .ok M') : Lawful config mem M' := by
  obtain ⟨-, rfl⟩ | ⟨response, rest, c, hqueue, hc, rfl⟩ := receiveResponse_ok hreceive
  · exact h
  have hsent := lawful_sends h (sends_pushMemoryResponse config hc)
  refine ⟨hsent.requests, routed_dequeue h.net rfl rfl ?_, h.dram⟩
  intro q a ha
  rw [update_out_queue] at ha
  by_cases hq : q = .out (coreInd config coreId ch)
  · subst hq
    rw [Function.update_self] at ha
    have hmem := List.mem_cons_of_mem response ha
    rw [← hqueue] at hmem
    exact hmem
  · rwa [Function.update_of_ne hq] at ha

theorem lawful_forwardRequest (h : Lawful config mem M)
    (hforward : forwardRequest config mem memory p ch M = .ok M') : Lawful config mem M' := by
  obtain ⟨-, rfl⟩ | ⟨request, rest, n', hqueue, hchannel, hpop, rfl⟩ := forwardRequest_ok hforward
  · exact h
  obtain ⟨hbusy, hin, -, hqueues⟩ := memreqPop_ok hpop
  refine ⟨h.requests, routed_dequeue h.net hbusy hin ?_, ?_⟩
  · intro q a ha
    rw [hqueues] at ha
    by_cases hq : q = memPlace p ch
    · subst hq
      rw [Function.update_self] at ha
      exact List.mem_of_mem_tail ha
    · rwa [Function.update_of_ne hq] at ha
  · intro ch' a ha
    by_cases hch : ch' = ch
    · subst hch
      dsimp only at ha
      rw [Function.update_self] at ha
      rcases List.mem_append.mp ha with ha | ha
      · exact h.dram ch' a ha
      · rw [List.mem_singleton.mp ha]
        have hwaiting := h.net.waiting p ch' request (by rw [hqueue]; exact List.mem_cons_self)
        exact ⟨rfl, hwaiting.1, hchannel⟩
    · dsimp only at ha
      rw [Function.update_of_ne hch] at ha
      exact h.dram ch' a ha

theorem lawful_takeResponse (h : Lawful config mem M)
    (htake : takeResponse config mem memory ch M = .ok M') : Lawful config mem M' := by
  obtain ⟨-, rfl⟩ | ⟨response, dest, -, hmem, hdest, rfl⟩ := takeResponse_ok htake
  · exact h
  obtain ⟨hrequest, hcore, hchannel⟩ := h.dram ch response hmem
  refine ⟨h.requests, routed_pushHomeward h.net ?_, ?_⟩
  · have hnode := getDestNode_ok hdest
    rw [if_neg (by simp [hrequest]), hchannel] at hnode
    exact ⟨hnode, hcore, hchannel⟩
  · intro ch' a ha
    dsimp only at ha
    by_cases hch : ch' = ch
    · subst hch
      rw [Function.update_self] at ha
      exact h.dram ch' a (List.mem_of_mem_erase ha)
    · rw [Function.update_of_ne hch] at ha
      exact h.dram ch' a ha

theorem lawful_hop (haligned : Aligned config) (hhop : Hop config mem memory M M')
    (h : Lawful config mem M) : Lawful config mem M' := by
  cases hhop with
  | send p hcore hch hstep => exact lawful_sendRequest haligned hcore hch h hstep
  | receive hcore hch hstep => exact lawful_receiveResponse h hstep
  | forward p hch hstep => exact lawful_forwardRequest h hstep
  | take hch hstep => exact lawful_takeResponse h hstep

theorem lawful_hops (haligned : Aligned config) (hhops : Hops config mem memory M M')
    (h : Lawful config mem M) : Lawful config mem M' := by
  induction hhops with
  | refl => exact h
  | tail _ hhop ih => exact lawful_hop haligned hhop ih

theorem lawful_arbitrate (h : Lawful config mem M) : Lawful config mem (arbitrate config M) :=
  ⟨h.requests, routed_cycle h.net, h.dram⟩

theorem lawful_icntCycle (haligned : Aligned config) (h : Lawful config mem M)
    (hcycle : icntCycle config mem memory M = .ok M') : Lawful config mem M' :=
  icntCycle_inv (fun _ _ hhop => lawful_hop haligned hhop) (fun _ => lawful_arbitrate) h hcycle

/-- The statics are no part of a queue. -/
theorem lawful_shareStatics (h : Lawful config mem M) (coreId : ℕ) :
    Lawful config mem (M.shareStatics coreId) := ⟨h.requests, h.net, h.dram⟩

theorem lawful_step (haligned : Aligned config) (h : Lawful config mem M) {e : Event}
    (hstep : step config mem set M e = .ok M') : Lawful config mem M' := by
  cases e with
  | issue coreId tile =>
    simp only [step] at hstep
    split_ifs at hstep
    obtain ⟨c, hc, rfl⟩ := map_ok hstep
    refine lawful_setCore h fun _ p ch a ha => ?_
    rw [(issue_queues hc).1 p] at ha
    exact Or.inl ha
  | issuePim coreId tile =>
    simp only [step] at hstep
    split_ifs at hstep
    obtain ⟨c, hc, rfl⟩ := map_ok hstep
    refine lawful_setCore h fun _ p ch a ha => ?_
    rw [(issuePim_queues config hc 0).1 p] at ha
    exact Or.inl ha
  | popFinishedTile coreId =>
    simp only [step] at hstep
    split_ifs at hstep
    cases hstep
    exact lawful_sends h (sends_popFinishedTile config (M.cores coreId))
  | cycle coreId =>
    simp only [step] at hstep
    split_ifs at hstep
    obtain ⟨c, hc, rfl⟩ := map_ok hstep
    exact lawful_shareStatics (lawful_sends h (sends_cycle hc)) coreId
  | icntCycle memory => exact lawful_icntCycle haligned h hstep

/-- In every run in which the nodes fit together, every message is where it belongs. -/
theorem run_lawful (haligned : Aligned config) {rrStart : ℕ} {events : List Event}
    (hrun : run (step config mem set) (init config rrStart) events = .ok M) :
    Lawful config mem M :=
  run_invariant (Lawful config mem) (fun _ _ _ h hstep => lawful_step haligned h hstep)
    (lawful_init config mem rrStart) hrun

end Lawful

end NewPims.Machine

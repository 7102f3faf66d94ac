import NewPims.Simulator.Home

/-! Every response of the memory gets to its core, exactly if the nodes that the cores poll are the
nodes to which the responses go. -/
namespace NewPims.Machine

open NeuPIMSystolicWS SimpleInterconnect Transition

variable {config : SimulationConfig} {mem : NewtonSim.Config} {set : RobinHood} {M M' : Machine}
  {memory : MemoryCycle} {coreId ch i m : ℕ}

section Progress

variable {b : Behavior (step config mem set) M}

/-- Every interconnect cycle takes a response out of each output queue. -/
theorem serves_receive (haligned : Aligned config) (hcore : coreId < config.numCores)
    (hch : ch < config.dramChannels) (hM : Lawful config mem M)
    (hcycle : icntCycle config mem memory M = .ok M') :
    Relay.Serves (home config mem coreId ch) 0 M M' := by
  intro n
  obtain ⟨A, B, D, hA, hB, hD, rfl⟩ := icntCycle_receive hcore hch hcycle
  have hlawfulA := lawful_hops haligned hA hM
  have hlawfulB := lawful_receiveResponse hlawfulA hB
  have hlawfulD := lawful_hops haligned hD hlawfulB
  obtain ⟨hserve, hstep⟩ := home_receiveResponse haligned hlawfulA hch hcore hch hB coreId
  calc Relay.reach 0 (n + 1) (home config mem coreId ch M)
    _ ≤ Relay.reach 0 (n + 1) (home config mem coreId ch A) :=
      reach_home_hops haligned hM hch hA (by decide) (n + 1)
    _ ≤ Relay.reach 0 n (home config mem coreId ch B) :=
      Relay.reach_serve (hserve ⟨rfl, rfl⟩) hstep n
    _ ≤ Relay.reach 0 n (home config mem coreId ch D) :=
      reach_home_hops haligned hlawfulB hch hD (by decide) n
    _ ≤ Relay.reach 0 n (home config mem coreId ch (arbitrate config D)) :=
      reach_home_arbitrate hlawfulD hch 0 n

/-- Nothing but the responses of a channel goes to the core nodes of that channel. -/
theorem exclusive_home (hch : ch < config.dramChannels) (hM : Lawful config mem M) :
    Exclusive config (memInd config ch) M := by
  intro e he s hs hne e' he'
  have hhome := hM.net.homeward ch hch e he
  rw [hhome.dest]
  obtain ⟨k, hk, c, hc, rfl⟩ | ⟨c, hc, rfl⟩ := node_cases hs
  · have hother := hM.net.outward k hk c hc e' he'
    rw [hother.dest]
    exact (coreNode_ne_memInd hhome.core hch).symm
  · have hother := hM.net.homeward c hc e' he'
    rw [hother.dest]
    intro heq
    exact hne (by rw [(coreNode_inj hc hch heq).2])

theorem serves_return (haligned : Aligned config) (hch : ch < config.dramChannels)
    (hM : Lawful config mem M) (hcycle : icntCycle config mem memory M = .ok M') {w : ℕ}
    (hfront : FrontWithin (memInd config ch) w M) :
    Relay.Serves (home config mem coreId ch) 1 M M' ∨
      ∃ v, w = v + 1 ∧ FrontWithin (memInd config ch) v M' := by
  obtain ⟨D, hD, rfl⟩ := icntCycle_hops hcycle
  have hlawful := lawful_hops haligned hD hM
  rcases home_arbitrate hch hlawful coreId with ⟨hnone, -⟩ | hadvance
  · exact Or.inr (frontWithin_arbitrate (memInd_lt hch) hlawful.net.free
      (exclusive_home hch hlawful) hnone (frontWithin_hops hD hfront))
  · exact Or.inl fun n => Nat.le_trans (reach_home_hops haligned hM hch hD (by decide) (n + 1))
      (Relay.reach_front hadvance n)

theorem reach_home_event (haligned : Aligned config) (hch : ch < config.dramChannels)
    (hM : Lawful config mem M) {e : Event} (hstep : step config mem set M e = .ok M') (hi : i < 2)
    (n : ℕ) :
    Relay.reach i n (home config mem coreId ch M) ≤
      Relay.reach i n (home config mem coreId ch M') := by
  rcases step_network hstep with ⟨memory, rfl⟩ | ⟨hicnt, -, hdelivered⟩
  · obtain ⟨D, hD, rfl⟩ := icntCycle_hops hstep
    exact Nat.le_trans (reach_home_hops haligned hM hch hD hi n)
      (reach_home_arbitrate (lawful_hops haligned hD hM) hch i n)
  · have hidle : ∀ j, home config mem coreId ch M' j = home config mem coreId ch M j := by
      refine home_congr ?_ ?_ ?_
      · rw [hdelivered]
      · rw [hicnt]
      · rw [hicnt]
    exact Relay.reach_step (k := 2) (.idle hidle) i n

theorem monotone_home (haligned : Aligned config) (hch : ch < config.dramChannels)
    (hM : Lawful config mem M) (hi : i < 2) : Relay.Monotone (home config mem coreId ch) i b :=
  fun t n => reach_home_event haligned hch (lawful_behavior haligned hM b t) (b.next t) hi n

/-- A response of the memory gets to the core. -/
theorem leadsTo_delivered (haligned : Aligned config) (hcore : coreId < config.numCores)
    (hch : ch < config.dramChannels) (hM : Lawful config mem M)
    (hrecurs : b.Recurs fun e => ∃ memory, e = .icntCycle memory) :
    b.LeadsTo (fun N => m < (Relay.content 2 (home config mem coreId ch N)).length)
      fun N => m < (Relay.content 0 (home config mem coreId ch N)).length := by
  have hlawful := lawful_behavior haligned hM b
  have hreturn : b.LeadsTo (fun N => m < (Relay.content 2 (home config mem coreId ch N)).length)
      fun N => m < (Relay.content 1 (home config mem coreId ch N)).length := by
    refine Relay.leadsTo_wait (FrontWithin (memInd config ch)) hrecurs
      (monotone_home haligned hch hM (by decide)) ?_ (fun t _ => frontWithin_behavior b t) ?_
    · intro t
      refine (exists_frontWithin (memInd config ch) (b.state t)).imp_left fun hempty => ?_
      simp only [home, hempty, List.map_nil]
    · rintro t w ⟨memory, hevent⟩ hfront
      have hnext := b.next t
      rw [hevent] at hnext
      exact serves_return haligned hch (hlawful t) hnext hfront
  refine hreturn.trans (Relay.leadsTo_serve hrecurs (monotone_home haligned hch hM (by decide)) ?_)
  rintro t ⟨memory, hevent⟩
  have hnext := b.next t
  rw [hevent] at hnext
  exact serves_receive haligned hcore hch (hlawful t) hnext

/-- What the memory has given to the core stays in front of what it gives later. -/
theorem answeredTo_event (haligned : Aligned config) (hch : ch < config.dramChannels)
    (hM : Lawful config mem M) {e : Event} (hstep : step config mem set M e = .ok M') :
    answeredTo coreId ch M <+: answeredTo coreId ch M' := by
  rcases step_network hstep with ⟨memory, rfl⟩ | ⟨-, hanswered, -⟩
  · have hinv : Lawful config mem M' ∧ answeredTo coreId ch M <+: answeredTo coreId ch M' := by
      refine icntCycle_inv
        (P := fun N => Lawful config mem N ∧ answeredTo coreId ch M <+: answeredTo coreId ch N)
        ?_ ?_ ⟨hM, List.prefix_refl _⟩ hstep
      · rintro A B hhop ⟨hA, hle⟩
        refine ⟨lawful_hop haligned hhop hA, hle.trans ?_⟩
        rcases home_hop haligned hA hch hhop coreId with ⟨-, hsame⟩ | ⟨xs, -, -, hmore⟩
        · rw [hsame]
        · rw [hmore]
          exact List.prefix_append _ _
      · rintro A ⟨hA, hle⟩
        exact ⟨lawful_arbitrate hA, hle⟩
    exact hinv.2
  · rw [answeredTo, answeredTo, hanswered]

theorem answeredTo_behavior (haligned : Aligned config) (hch : ch < config.dramChannels)
    (hM : Lawful config mem M) (b : Behavior (step config mem set) M) (t : ℕ) :
    answeredTo coreId ch M <+: answeredTo coreId ch (b.state t) := by
  induction t with
  | zero => rw [b.start]
  | succ t ih =>
    exact ih.trans (answeredTo_event haligned hch (lawful_behavior haligned hM b t) (b.next t))

end Progress

section Nodes

/-- What holds of the responses in a state: those of a channel that have been given to a core are
with the core or on their way to it, in their order; a core gets no others; all that wait in an
output queue are polled for, and as long as the interconnect keeps going they arrive. -/
structure Delivers (config : SimulationConfig) (mem : NewtonSim.Config) (set : RobinHood)
    (M : Machine) : Prop where
  known : ∀ ch, ∀ a ∈ M.answered ch, a.coreId < config.numCores ∧ ch < config.dramChannels
  account : ∀ coreId < config.numCores, ∀ ch < config.dramChannels,
    deliveredFrom mem coreId ch M ++ returning config coreId ch M = answeredTo coreId ch M
  own : ∀ coreId < config.numCores, ∀ a ∈ M.delivered coreId,
    a.coreId = coreId ∧ mem.getChannel a.dramAddress < config.dramChannels
  polled : ∀ node, M.icnt.outBuffers node ≠ [] →
    ∃ coreId < config.numCores, ∃ ch < config.dramChannels, coreInd config coreId ch = node
  arrives : ∀ b : Behavior (step config mem set) M,
    b.Recurs (fun e => ∃ memory, e = .icntCycle memory) →
    ∀ coreId < config.numCores, ∀ ch < config.dramChannels,
      ∃ u, answeredTo coreId ch M <+: deliveredFrom mem coreId ch (b.state u)

/-- The node that a core polls for a channel is the one to which its responses go and no other
core's or channel's, and every run delivers the responses. -/
structure Reaches (config : SimulationConfig) (mem : NewtonSim.Config) (set : RobinHood) :
    Prop where
  nodes : ∀ access : MemoryAccess, access.request = false → access.coreId < config.numCores →
    mem.getChannel access.dramAddress < config.dramChannels →
    getDestNode config mem access =
      .ok (coreInd config access.coreId (mem.getChannel access.dramAddress))
  apart : ∀ coreId < config.numCores, ∀ ch < config.dramChannels,
    ∀ coreId' < config.numCores, ∀ ch' < config.dramChannels,
      coreInd config coreId ch = coreInd config coreId' ch' → coreId = coreId' ∧ ch = ch'
  runs : ∀ rrStart events M, run (step config mem set) (init config rrStart) events = .ok M →
    Delivers config mem set M

/-- Where the nodes fit together, the responses of every run are delivered. -/
theorem homing_delivers (haligned : Aligned config) (hM : Homing config mem M) :
    Delivers config mem set M := by
  have hcontent : ∀ {N : Machine}, Homing config mem N → ∀ coreId < config.numCores,
      ∀ ch < config.dramChannels,
        deliveredFrom mem coreId ch N ++ returning config coreId ch N = answeredTo coreId ch N := by
    intro N hN coreId hcore ch hch
    rw [← home_content]
    exact hN.account coreId hcore ch hch
  refine ⟨hM.known, hcontent hM, hM.own, ?_, ?_⟩
  · intro node hnode
    have hlt : node < nNodes config :=
      Nat.lt_of_lt_of_le (hM.near node hnode) (Nat.le_add_right _ _)
    obtain ⟨k, hk, c, hc, rfl⟩ | ⟨c, hc, rfl⟩ := node_cases hlt
    · exact ⟨k, hk, c, hc, haligned k hk c hc⟩
    · exact absurd (hM.near _ hnode) (Nat.not_lt.mpr (dramOffset_le_memInd c))
  · intro b hrecurs coreId hcore ch hch
    have hlater : ∀ t, Homing config mem (b.state t) :=
      Behavior.invariant (fun _ _ _ h hstep => homing_step haligned h hstep) hM
    cases hlength : (answeredTo coreId ch M).length with
    | zero =>
      rw [List.eq_nil_of_length_eq_zero hlength]
      exact ⟨0, List.nil_prefix⟩
    | succ m =>
      have hstart : m < (Relay.content 2 (home config mem coreId ch (b.state 0))).length := by
        rw [b.start, hM.account coreId hcore ch hch, hlength]
        exact Nat.lt_succ_self m
      obtain ⟨u, -, hdelivered⟩ :=
        leadsTo_delivered haligned hcore hch hM.lawful hrecurs 0 hstart
      have hzero : Relay.content 0 (home config mem coreId ch (b.state u)) =
          deliveredFrom mem coreId ch (b.state u) := home_delivered (b.state u)
      rw [hzero] at hdelivered
      refine ⟨u, List.prefix_of_prefix_length_le
        (answeredTo_behavior haligned hch hM.lawful b u) ?_ ?_⟩
      · rw [← hcontent (hlater u) coreId hcore ch hch]
        exact List.prefix_append _ _
      · rw [hlength]
        exact hdelivered

theorem aligned_iff : Aligned config ↔
    config.numCores ≤ 1 ∨ config.numCores = config.dramChannels ∨ config.dramChannels = 0 := by
  constructor
  · intro haligned
    by_cases hone : config.numCores ≤ 1
    · exact Or.inl hone
    by_cases hzero : config.dramChannels = 0
    · exact Or.inr (Or.inr hzero)
    have hnode := haligned 1 (Nat.lt_of_not_le hone) 0 (Nat.pos_of_ne_zero hzero)
    rw [coreInd, coreNode, Nat.one_mul, Nat.one_mul, Nat.add_zero, Nat.add_zero] at hnode
    exact Or.inr (Or.inl hnode)
  · intro h coreId hcore ch hch
    rcases h with hone | heq | hzero
    · rw [Nat.lt_one_iff.mp (Nat.lt_of_lt_of_le hcore hone), coreInd, coreNode, Nat.zero_mul,
        Nat.zero_mul]
    · rw [coreInd, coreNode, heq]
    · rw [hzero] at hch
      exact absurd hch (Nat.not_lt_zero ch)

/-- The lowest address is one of the first channel. -/
theorem getChannel_zero (mem : NewtonSim.Config) : mem.getChannel 0 = 0 := by
  simp [NewtonSim.Config.getChannel, NewtonSim.Config.addressOf, NewtonSim.Config.fieldOf,
    BitField.field]

theorem getDestNode_response {access : MemoryAccess} (hbound : nNodes config ≤ 100)
    (hrequest : access.request = false) (hcore : access.coreId < config.numCores)
    (hch : mem.getChannel access.dramAddress < config.dramChannels) :
    getDestNode config mem access =
      .ok (coreNode config access.coreId (mem.getChannel access.dramAddress)) := by
  have hlt : coreNode config access.coreId (mem.getChannel access.dramAddress) < 100 :=
    Nat.lt_of_lt_of_le (coreNode_lt_nNodes hcore hch) hbound
  simp only [getDestNode, hrequest, Bool.false_eq_true, if_false]
  exact if_pos hlt

end Nodes

/-- The responses get to their cores, in every run, exactly if there is one core at most, or as many
cores as channels. -/
theorem reaches_iff (hbound : nNodes config ≤ 100) : Reaches config mem set ↔
    config.numCores ≤ 1 ∨ config.numCores = config.dramChannels ∨ config.dramChannels = 0 := by
  constructor
  · intro hreaches
    refine aligned_iff.mp ?_
    by_contra hnot
    -- without that, the first channel of the second core is polled elsewhere
    obtain ⟨hcores, hother, hchannels⟩ : 1 < config.numCores ∧
        config.numCores ≠ config.dramChannels ∧ 0 < config.dramChannels := by
      rw [aligned_iff] at hnot
      omega
    obtain ⟨a, hrequest, hcore, haddress⟩ : ∃ a : MemoryAccess,
        a.request = false ∧ a.coreId = 1 ∧ a.dramAddress = 0 :=
      ⟨{ sampleAccess with dramAddress := 0, coreId := 1, request := false }, rfl, rfl, rfl⟩
    have hzero : mem.getChannel a.dramAddress = 0 := by
      rw [haddress]
      exact getChannel_zero mem
    have hcore' : a.coreId < config.numCores := hcore ▸ hcores
    have hch : mem.getChannel a.dramAddress < config.dramChannels := hzero ▸ hchannels
    have hpolled := hreaches.nodes a hrequest hcore' hch
    rw [getDestNode_response hbound hrequest hcore' hch, hcore, hzero, coreNode, coreInd,
      Nat.one_mul, Nat.one_mul] at hpolled
    exact hother (Nat.add_right_cancel (Except.ok.inj hpolled)).symm
  · intro hcases
    have haligned := aligned_iff.mpr hcases
    refine ⟨?_, ?_, fun rrStart events M hrun =>
      homing_delivers haligned (run_homing haligned hrun)⟩
    · intro access hrequest hcore hch
      rw [getDestNode_response hbound hrequest hcore hch, haligned _ hcore _ hch]
    · intro k hk c hc k' hk' c' hc' heq
      rw [haligned k hk c hc, haligned k' hk' c' hc'] at heq
      exact coreNode_inj hc hc' heq

theorem reaches_iff_sample : Reaches sampleConfig NewtonSim.sampleMemory .byInsertion ↔
    sampleConfig.numCores ≤ 1 ∨ sampleConfig.numCores = sampleConfig.dramChannels ∨
      sampleConfig.dramChannels = 0 :=
  reaches_iff (by decide)

/-- Two cores and four channels. -/
def twoCores : SimulationConfig := { sampleConfig with numCores := 2, dramChannels := 4 }

def fourMemory : NewtonSim.Config := { NewtonSim.sampleMemory with channels := 4 }

/-- A read of the last channel. -/
def readTile : Tile where
  status := .INITIALIZED
  operationId := 1
  stagePlatform := .PIM
  instructions :=
    [{ opcode := .PIM_READRES
       destAddr := ACCUM_SPAD_BASE
       size := 1
       srcAddrs := [0xC00]
       isPimInst := true }]

def readResponse : MemoryAccess where
  id := 0
  dramAddress := 0xC00
  spadAddress := ACCUM_SPAD_BASE
  size := 64
  reqType := .READRES
  request := false
  coreId := 1
  startCycle := 0
  bufferId := 0
  parentTile := 0
  stagePlatform := .SA

/-- The second core reads, and the memory answers in the third cycle of the interconnect. -/
def readEvents : List Event :=
  [.issuePim 1 readTile, .cycle 1] ++
    List.replicate 2 (.icntCycle ⟨fun _ _ => false, fun _ => none⟩) ++
    [.icntCycle ⟨fun _ _ => false, fun ch => if ch = 3 then some readResponse else none⟩]

/-- With two cores and four channels, the response of the last channel to the second core comes to a
node that no core polls. -/
theorem responses_lost : nNodes twoCores ≤ 100 ∧ ∃ M,
    run (step twoCores fourMemory .byInsertion) (init twoCores 0) readEvents = .ok M ∧
      M.answered 3 = [readResponse] ∧ M.icnt.outBuffers 7 = [readResponse] ∧
      (∀ coreId < 2, ∀ ch < 4, coreInd twoCores coreId ch ≠ 7) ∧
      ¬ Reaches twoCores fourMemory .byInsertion := by
  have hend : (run (step twoCores fourMemory .byInsertion) (init twoCores 0) readEvents).map
      (fun M => (M.answered 3, M.icnt.outBuffers 7)) = .ok ([readResponse], [readResponse]) := by
    decide +kernel
  obtain ⟨M, hM, hview⟩ := map_ok hend
  have hanswered : M.answered 3 = [readResponse] := congrArg Prod.fst hview
  have hstored : M.icnt.outBuffers 7 = [readResponse] := congrArg Prod.snd hview
  have hunpolled : ∀ coreId < 2, ∀ ch < 4, coreInd twoCores coreId ch ≠ 7 := by decide
  refine ⟨by decide, M, hM, hanswered, hstored, hunpolled, fun hreaches => ?_⟩
  obtain ⟨coreId, hcore, ch, hch, hnode⟩ := (hreaches.runs 0 readEvents M hM).polled 7
    (List.ne_nil_of_length_pos (by rw [hstored]; exact Nat.one_pos))
  exact hunpolled coreId hcore ch hch hnode

end NewPims.Machine

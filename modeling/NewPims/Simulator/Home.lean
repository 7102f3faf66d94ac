import NewPims.Lib.Relay
import NewPims.NewtonSim.Codec
import NewPims.Simulator.Fronts

/-! The responses of the memory on their way back to the cores. -/
namespace NewPims.Machine

open NeuPIMSystolicWS SimpleInterconnect Transition

section Definitions

variable (config : SimulationConfig) (mem : NewtonSim.Config) (coreId ch : ℕ)

/-- The responses that the memory has given to the core on the channel. -/
def answeredTo (M : Machine) : List MemoryAccess := (M.answered ch).filter (·.coreId = coreId)

/-- The responses of the channel that the core has got. -/
def deliveredFrom (M : Machine) : List MemoryAccess :=
  (M.delivered coreId).filter (mem.getChannel ·.dramAddress = ch)

/-- The responses of the channel to the core that are still in the interconnect. -/
def returning (M : Machine) : List MemoryAccess :=
  M.icnt.outBuffers (coreNode config coreId ch) ++
    ((M.icnt.inBuffers (memInd config ch)).map Entity.access).filter (·.coreId = coreId)

/-- The queues that the responses of the channel to the core pass, from the core on: what the core
has got, the output queue of its node and the input queue of the memory's node. -/
def home (M : Machine) : Relay MemoryAccess
  | 0 => (M.delivered coreId).map (Option.guard (mem.getChannel ·.dramAddress = ch))
  | 1 => (M.icnt.outBuffers (coreNode config coreId ch)).map some
  | 2 => (M.icnt.inBuffers (memInd config ch)).map fun e =>
      Option.guard (fun a : MemoryAccess => a.coreId = coreId) e.access
  | _ => []

end Definitions

variable {config : SimulationConfig} {mem : NewtonSim.Config} {set : RobinHood} {M M' : Machine}
  {memory : MemoryCycle} {p : StagePlatform} {coreId coreId' ch ch' i m : ℕ}

section Hops

theorem home_delivered (M : Machine) :
    Relay.content 0 (home config mem coreId ch M) = deliveredFrom mem coreId ch M := by
  rw [Relay.content, home, List.reduceOption, List.filterMap_map]
  exact congrFun List.filterMap_eq_filter _

theorem home_content (M : Machine) : Relay.content 2 (home config mem coreId ch M) =
    deliveredFrom mem coreId ch M ++ returning config coreId ch M := by
  have hstored : (home config mem coreId ch M 1).reduceOption =
      M.icnt.outBuffers (coreNode config coreId ch) := by
    rw [home, List.reduceOption, List.filterMap_map]
    exact List.filterMap_some
  have hsent : (home config mem coreId ch M 2).reduceOption =
      ((M.icnt.inBuffers (memInd config ch)).map Entity.access).filter (·.coreId = coreId) := by
    rw [home, List.reduceOption, List.filterMap_map, ← List.filterMap_eq_filter,
      List.filterMap_map]
    rfl
  rw [Relay.content, Relay.content, home_delivered, hstored, hsent, List.append_assoc]
  rfl

theorem home_congr (hdelivered : M'.delivered coreId = M.delivered coreId)
    (hout : M'.icnt.outBuffers (coreNode config coreId ch) =
      M.icnt.outBuffers (coreNode config coreId ch))
    (hin : M'.icnt.inBuffers (memInd config ch) = M.icnt.inBuffers (memInd config ch)) (j : ℕ) :
    home config mem coreId ch M' j = home config mem coreId ch M j := by
  rcases j with _ | _ | _ | j
  · exact congrArg _ hdelivered
  · exact congrArg _ hout
  · exact congrArg _ hin
  · rfl

theorem home_sendRequest (haligned : Aligned config) (hcore : coreId' < config.numCores)
    (hch' : ch' < config.dramChannels) (hsend : sendRequest config mem p coreId' ch' M = .ok M')
    (j : ℕ) : home config mem coreId ch M' j = home config mem coreId ch M j := by
  obtain ⟨-, rfl⟩ | ⟨front, rest, dest, -, -, rfl⟩ := sendRequest_ok hsend
  · rfl
  have hne : coreNode config coreId' ch' ≠ memInd config ch := coreNode_ne_memInd hcore hch'
  rw [haligned coreId' hcore ch' hch']
  refine home_congr ?_ ?_ ?_ j
  · rfl
  · rfl
  · exact Function.update_of_ne hne.symm _ _

/-- The core gets what has waited for it the longest. -/
theorem home_receiveResponse (haligned : Aligned config) (hM : Lawful config mem M)
    (hch : ch < config.dramChannels) (hcore : coreId' < config.numCores)
    (hch' : ch' < config.dramChannels)
    (hreceive : receiveResponse config coreId' ch' M = .ok M') (coreId : ℕ) :
    (coreId' = coreId ∧ ch' = ch →
      Relay.Advance 0 (home config mem coreId ch M) (home config mem coreId ch M') ∨
        home config mem coreId ch M 1 = []) ∧
      Relay.Step 2 (home config mem coreId ch M) (home config mem coreId ch M') := by
  obtain ⟨hempty, rfl⟩ | ⟨response, rest, c, hqueue, -, hM'⟩ := receiveResponse_ok hreceive
  · refine ⟨?_, .idle fun _ => rfl⟩
    rintro ⟨rfl, rfl⟩
    rw [haligned coreId' hcore ch' hch'] at hempty
    exact Or.inr (congrArg _ hempty)
  rw [haligned coreId' hcore ch' hch'] at hqueue hM'
  have harrived := hM.net.arrived coreId' hcore ch' hch' response
    (by rw [hqueue]; exact List.mem_cons_self)
  have hsent : home config mem coreId ch M' 2 = home config mem coreId ch M 2 := by
    rw [hM']
    rfl
  by_cases hcores : coreId' = coreId
  · subst hcores
    have hdelivered : home config mem coreId' ch M' 0 = home config mem coreId' ch M 0 ++
        [Option.guard (mem.getChannel ·.dramAddress = ch) response] := by
      rw [hM']
      simp only [home, Function.update_self, List.map_append]
      rfl
    by_cases hsame : ch' = ch
    · subst hsame
      have hguard : Option.guard (mem.getChannel ·.dramAddress = ch') response = some response :=
        if_pos (decide_eq_true harrived.2)
      have hadvance :
          Relay.Advance 0 (home config mem coreId' ch' M) (home config mem coreId' ch' M') := by
        rw [hguard] at hdelivered
        refine .pass (some response) ?_ hdelivered fun j hj hj' => ?_
        · rw [hM']
          simp only [home, hqueue, Function.update_self, List.map_cons]
        · rcases j with _ | _ | _ | j
          · exact absurd rfl hj
          · exact absurd rfl hj'
          · exact hsent
          · rfl
      exact ⟨fun _ => Or.inl hadvance, .advance 0 (by decide) hadvance⟩
    · refine ⟨fun heq => absurd heq.2 hsame, ?_⟩
      have hguard : Option.guard (mem.getChannel ·.dramAddress = ch) response = none := by
        simp [Option.guard, harrived.2, hsame]
      rw [hguard] at hdelivered
      have hne : coreNode config coreId' ch ≠ coreNode config coreId' ch' :=
        fun heq => hsame (coreNode_inj hch hch' heq).2.symm
      refine .join 0 (by decide) hdelivered fun j hj => ?_
      rcases j with _ | _ | _ | j
      · exact absurd rfl hj
      · rw [hM']
        simp only [home, Function.update_of_ne hne]
      · exact hsent
      · rfl
  · have hne : coreNode config coreId ch ≠ coreNode config coreId' ch' :=
      fun heq => hcores (coreNode_inj hch hch' heq).1.symm
    refine ⟨fun heq => absurd heq.1 hcores, .idle fun j => ?_⟩
    rw [hM']
    refine home_congr ?_ ?_ ?_ j
    · exact Function.update_of_ne (Ne.symm hcores) _ _
    · exact Function.update_of_ne hne _ _
    · rfl

theorem home_forwardRequest (hforward : forwardRequest config mem memory p ch' M = .ok M')
    (j : ℕ) : home config mem coreId ch M' j = home config mem coreId ch M j := by
  obtain ⟨-, rfl⟩ | ⟨request, rest, n', -, -, hpop, rfl⟩ := forwardRequest_ok hforward
  · rfl
  obtain ⟨-, hin, -, hqueues⟩ := memreqPop_ok hpop
  have hout : n'.queue (.out (coreNode config coreId ch)) =
      M.icnt.queue (.out (coreNode config coreId ch)) := by
    rw [hqueues]
    refine Function.update_of_ne ?_ _ _
    cases p <;> simp [memPlace]
  refine home_congr ?_ ?_ ?_ j
  · rfl
  · exact hout
  · exact congrFun hin _

/-- What the memory gives to the core joins the end of the row. -/
theorem home_takeResponse (htake : takeResponse config mem memory ch' M = .ok M') :
    ∃ xs : List (Option MemoryAccess),
      home config mem coreId ch M' 2 = home config mem coreId ch M 2 ++ xs ∧
      (∀ j, j ≠ 2 → home config mem coreId ch M' j = home config mem coreId ch M j) ∧
      answeredTo coreId ch M' = answeredTo coreId ch M ++ xs.reduceOption := by
  have hrest : ∀ {N : Machine}, N.delivered = M.delivered →
      N.icnt.outBuffers = M.icnt.outBuffers →
      ∀ j, j ≠ 2 → home config mem coreId ch N j = home config mem coreId ch M j := by
    intro N hdelivered hout j hj
    rcases j with _ | _ | _ | j
    · exact congrArg (fun f => List.map _ (f coreId)) hdelivered
    · exact congrArg (fun f => List.map some (f (coreNode config coreId ch))) hout
    · exact absurd rfl hj
    · rfl
  obtain ⟨-, rfl⟩ | ⟨response, dest, -, -, -, hM'⟩ := takeResponse_ok htake
  · refine ⟨[], ?_, fun j _ => rfl, ?_⟩
    · rw [List.append_nil]
    · rw [List.reduceOption_nil, List.append_nil]
  · by_cases hsame : ch' = ch
    · subst hsame
      refine ⟨[Option.guard (fun a : MemoryAccess => a.coreId = coreId) response], ?_,
        hrest (by rw [hM']) (by rw [hM']), ?_⟩
      · rw [hM']
        simp only [home, Function.update_self, List.map_append]
        rfl
      · rw [hM']
        simp only [answeredTo, Function.update_self, List.filter_append]
        congr 1
        by_cases hcore : response.coreId = coreId
        · simp [Option.guard, hcore]
        · simp [Option.guard, hcore]
    · have hne : memInd config ch ≠ memInd config ch' := fun heq => hsame (memInd_inj heq).symm
      refine ⟨[], ?_, hrest (by rw [hM']) (by rw [hM']), ?_⟩
      · rw [hM', List.append_nil]
        simp only [home, Function.update_of_ne hne]
      · rw [hM', List.reduceOption_nil, List.append_nil]
        simp only [answeredTo, Function.update_of_ne (Ne.symm hsame)]

/-- Only the channel of the memory sends to the node of that channel of a core. -/
theorem out_exclusive (hM : Routed config mem M.icnt) (hch : ch < config.dramChannels)
    {s : ℕ} (hs : s < nNodes config) (hne : s ≠ memInd config ch) {e : Entity}
    (he : e ∈ M.icnt.inBuffers s) : place config e ≠ .out (coreNode config coreId ch) := by
  obtain ⟨k, hk, c, hc, rfl⟩ | ⟨c, hc, rfl⟩ := node_cases hs
  · have hout := hM.outward k hk c hc e he
    intro hplace
    have hlt := (place_eq_out.mp hplace).1
    rw [hout.dest] at hlt
    exact absurd hlt (Nat.not_lt.mpr (dramOffset_le_memInd _))
  · have hhome := hM.homeward c hc e he
    rw [homeward_place hhome hc]
    intro hplace
    exact hne (by rw [(coreNode_inj hc hch (Place.out.inj hplace)).2])

/-- The arbitration moves the front of the memory's input queue, or nothing of the channel. -/
theorem home_arbitrate (hch : ch < config.dramChannels) (hM : Lawful config mem M)
    (coreId : ℕ) :
    (M.icnt.movesOf config (memInd config ch) = [] ∧
      ∀ j, home config mem coreId ch (arbitrate config M) j = home config mem coreId ch M j) ∨
      Relay.Advance 1 (home config mem coreId ch M)
        (home config mem coreId ch (arbitrate config M)) := by
  have hstored : home config mem coreId ch (arbitrate config M) 1 = home config mem coreId ch M 1 ++
      ((M.icnt.movesOf config (memInd config ch)).filter
        (place config · = .out (coreNode config coreId ch))).map fun e => some e.access := by
    have hqueue : (M.icnt.cycle config).queue (.out (coreNode config coreId ch)) =
        M.icnt.queue (.out (coreNode config coreId ch)) ++
          ((M.icnt.movesOf config (memInd config ch)).filter
            (place config · = .out (coreNode config coreId ch))).map
              (SimpleInterconnect.delivered config) :=
      cycle_queue_exclusive fun s hs hne e he => out_exclusive hM.net hch hs hne he
    have hout : (M.icnt.cycle config).outBuffers (coreNode config coreId ch) =
        M.icnt.outBuffers (coreNode config coreId ch) ++
          ((M.icnt.movesOf config (memInd config ch)).filter
            (place config · = .out (coreNode config coreId ch))).map
              (SimpleInterconnect.delivered config) := hqueue
    simp only [home, arbitrate]
    rw [hout, List.map_append, List.map_map]
    congr 1
    refine List.map_congr_left fun e he => ?_
    have hhome := hM.net.homeward ch hch e (mem_movesOf (List.mem_of_mem_filter he))
    rw [Function.comp_apply, homeward_delivered hhome hch]
  have hsent : home config mem coreId ch M 2 =
      (M.icnt.movesOf config (memInd config ch)).map
        (fun e => Option.guard (fun a : MemoryAccess => a.coreId = coreId) e.access) ++
        home config mem coreId ch (arbitrate config M) 2 := by
    have hsplit : M.icnt.inBuffers (memInd config ch) =
        M.icnt.movesOf config (memInd config ch) ++
          (M.icnt.cycle config).inBuffers (memInd config ch) := movesOf_eq M.icnt _
    simp only [home]
    rw [hsplit, List.map_append]
    rfl
  have hrest : ∀ j, j ≠ 1 → j ≠ 2 →
      home config mem coreId ch (arbitrate config M) j = home config mem coreId ch M j := by
    intro j hj hj'
    rcases j with _ | _ | _ | j
    · rfl
    · exact absurd rfl hj
    · exact absurd rfl hj'
    · rfl
  have hle : (M.icnt.movesOf config (memInd config ch)).length ≤ 1 := movesOf_length_le M.icnt _
  rcases Nat.le_one_iff_eq_zero_or_eq_one.mp hle with hnone | hone
  · have hnil := List.length_eq_zero_iff.mp hnone
    rw [hnil] at hstored hsent
    refine Or.inl ⟨hnil, fun j => ?_⟩
    by_cases hj : j = 1
    · rw [hj, hstored]
      exact List.append_nil _
    by_cases hj' : j = 2
    · rw [hj']
      exact hsent.symm
    · exact hrest j hj hj'
  · obtain ⟨e, he⟩ := List.length_eq_one_iff.mp hone
    have hmem : e ∈ M.icnt.movesOf config (memInd config ch) := by
      rw [he]
      exact List.mem_cons_self
    have hhome := hM.net.homeward ch hch e (mem_movesOf hmem)
    have hplace := homeward_place hhome hch
    rw [he] at hstored hsent
    right
    by_cases hcore : e.access.coreId = coreId
    · rw [hcore] at hplace
      rw [List.filter_cons_of_pos (by simpa using hplace)] at hstored
      have hguard : Option.guard (fun a : MemoryAccess => a.coreId = coreId) e.access =
          some e.access := if_pos (decide_eq_true hcore)
      rw [List.map_cons, hguard] at hsent
      exact .pass (some e.access) hsent hstored hrest
    · have hother : place config e ≠ .out (coreNode config coreId ch) := by
        rw [hplace]
        exact fun heq => hcore (coreNode_inj hch hch (Place.out.inj heq)).1
      rw [List.filter_cons_of_neg (by simpa using hother)] at hstored
      have hguard : Option.guard (fun a : MemoryAccess => a.coreId = coreId) e.access = none :=
        if_neg (by simpa using hcore)
      rw [List.map_cons, hguard] at hsent
      refine .leave hsent fun j hj => ?_
      by_cases hj' : j = 1
      · rw [hj', hstored]
        exact List.append_nil _
      · exact hrest j hj' hj

end Hops

section Runs

/-- A hop is a step in the row of the responses, or the memory adds to it. -/
theorem home_hop (haligned : Aligned config) (hM : Lawful config mem M)
    (hch : ch < config.dramChannels) (hhop : Hop config mem memory M M') (coreId : ℕ) :
    (Relay.Step 2 (home config mem coreId ch M) (home config mem coreId ch M') ∧
      answeredTo coreId ch M' = answeredTo coreId ch M) ∨
    ∃ xs : List (Option MemoryAccess),
      home config mem coreId ch M' 2 = home config mem coreId ch M 2 ++ xs ∧
      (∀ j, j ≠ 2 → home config mem coreId ch M' j = home config mem coreId ch M j) ∧
      answeredTo coreId ch M' = answeredTo coreId ch M ++ xs.reduceOption := by
  cases hhop with
  | send p hcore hch' hstep =>
    refine Or.inl ⟨.idle (home_sendRequest haligned hcore hch' hstep), ?_⟩
    obtain ⟨-, rfl⟩ | ⟨front, rest, dest, -, -, rfl⟩ := sendRequest_ok hstep <;> rfl
  | receive hcore hch' hstep =>
    refine Or.inl ⟨(home_receiveResponse haligned hM hch hcore hch' hstep coreId).2, ?_⟩
    obtain ⟨-, rfl⟩ | ⟨response, rest, c, -, -, rfl⟩ := receiveResponse_ok hstep <;> rfl
  | forward p hch' hstep =>
    refine Or.inl ⟨.idle (home_forwardRequest hstep), ?_⟩
    obtain ⟨-, rfl⟩ | ⟨request, rest, n', -, -, -, rfl⟩ := forwardRequest_ok hstep <;> rfl
  | take hch' hstep => exact Or.inr (home_takeResponse hstep)

theorem reach_home_hop (haligned : Aligned config) (hM : Lawful config mem M)
    (hch : ch < config.dramChannels) (hhop : Hop config mem memory M M') (hi : i < 2) (n : ℕ) :
    Relay.reach i n (home config mem coreId ch M) ≤
      Relay.reach i n (home config mem coreId ch M') := by
  rcases home_hop haligned hM hch hhop coreId with ⟨hstep, -⟩ | ⟨xs, hlast, hsame, -⟩
  · exact Relay.reach_step hstep i n
  · exact Relay.reach_feed hlast hsame hi n

theorem reach_home_hops (haligned : Aligned config) (hM : Lawful config mem M)
    (hch : ch < config.dramChannels) (hhops : Hops config mem memory M M') (hi : i < 2) (n : ℕ) :
    Relay.reach i n (home config mem coreId ch M) ≤
      Relay.reach i n (home config mem coreId ch M') := by
  induction hhops with
  | refl => exact Nat.le_refl _
  | tail hhops hhop ih =>
    exact Nat.le_trans ih (reach_home_hop haligned (lawful_hops haligned hhops hM) hch hhop hi n)

theorem reach_home_arbitrate (hM : Lawful config mem M) (hch : ch < config.dramChannels) (i n : ℕ) :
    Relay.reach i n (home config mem coreId ch M) ≤
      Relay.reach i n (home config mem coreId ch (arbitrate config M)) := by
  rcases home_arbitrate hch hM coreId with ⟨-, hidle⟩ | hadvance
  · exact Relay.reach_step (k := 2) (.idle hidle) i n
  · exact Relay.reach_advance hadvance i n

/-- Every response is where it belongs, and none is lost, doubled or given to another core. -/
structure Homing (config : SimulationConfig) (mem : NewtonSim.Config) (M : Machine) : Prop where
  lawful : Lawful config mem M
  account : ∀ coreId < config.numCores, ∀ ch < config.dramChannels,
    Relay.content 2 (home config mem coreId ch M) = answeredTo coreId ch M
  own : ∀ coreId < config.numCores, ∀ a ∈ M.delivered coreId,
    a.coreId = coreId ∧ mem.getChannel a.dramAddress < config.dramChannels
  near : ∀ node, M.icnt.outBuffers node ≠ [] → node < dramOffset config
  known : ∀ ch, ∀ a ∈ M.answered ch, a.coreId < config.numCores ∧ ch < config.dramChannels

theorem homing_init (config : SimulationConfig) (mem : NewtonSim.Config) (rrStart : ℕ) :
    Homing config mem (init config rrStart) where
  lawful := lawful_init config mem rrStart
  account _ _ _ _ := rfl
  own _ _ _ ha := absurd ha List.not_mem_nil
  near _ h := absurd rfl h
  known _ _ ha := absurd ha List.not_mem_nil

/-- Only receiving changes what the cores have got. -/
theorem own_hop (haligned : Aligned config) (hM : Homing config mem M)
    (hhop : Hop config mem memory M M') (hcore : coreId < config.numCores) {a : MemoryAccess}
    (ha : a ∈ M'.delivered coreId) :
    a.coreId = coreId ∧ mem.getChannel a.dramAddress < config.dramChannels := by
  cases hhop with
  | send p hcore' hch' hstep =>
    obtain ⟨-, rfl⟩ | ⟨front, rest, dest, -, -, rfl⟩ := sendRequest_ok hstep
    · exact hM.own coreId hcore a ha
    · exact hM.own coreId hcore a ha
  | @receive coreId' ch' hcore' hch' hstep =>
    obtain ⟨-, rfl⟩ | ⟨response, rest, c, hqueue, -, rfl⟩ := receiveResponse_ok hstep
    · exact hM.own coreId hcore a ha
    · rw [haligned coreId' hcore' ch' hch'] at hqueue
      have harrived := hM.lawful.net.arrived coreId' hcore' ch' hch' response
        (by rw [hqueue]; exact List.mem_cons_self)
      dsimp only at ha
      by_cases hcores : coreId = coreId'
      · subst hcores
        rw [Function.update_self] at ha
        rcases List.mem_append.mp ha with ha | ha
        · exact hM.own coreId hcore a ha
        · rw [List.mem_singleton.mp ha, harrived.2]
          exact ⟨harrived.1, hch'⟩
      · rw [Function.update_of_ne hcores] at ha
        exact hM.own coreId hcore a ha
  | forward p hch' hstep =>
    obtain ⟨-, rfl⟩ | ⟨request, rest, n', -, -, -, rfl⟩ := forwardRequest_ok hstep
    · exact hM.own coreId hcore a ha
    · exact hM.own coreId hcore a ha
  | take hch' hstep =>
    obtain ⟨-, rfl⟩ | ⟨response, dest, -, -, -, rfl⟩ := takeResponse_ok hstep
    · exact hM.own coreId hcore a ha
    · exact hM.own coreId hcore a ha

/-- A hop puts nothing into an output queue. -/
theorem hop_outBuffers (hhop : Hop config mem memory M M') {node : ℕ}
    (h : M'.icnt.outBuffers node ≠ []) : M.icnt.outBuffers node ≠ [] := by
  cases hhop with
  | send p hcore' hch' hstep =>
    obtain ⟨-, rfl⟩ | ⟨front, rest, dest, -, -, rfl⟩ := sendRequest_ok hstep
    · exact h
    · exact h
  | @receive coreId' ch' hcore' hch' hstep =>
    obtain ⟨-, rfl⟩ | ⟨response, rest, c, hqueue, -, rfl⟩ := receiveResponse_ok hstep
    · exact h
    · by_cases hnode : node = coreInd config coreId' ch'
      · rw [hnode, hqueue]
        exact List.cons_ne_nil response rest
      · dsimp only at h
        rwa [Function.update_of_ne hnode] at h
  | @forward p ch' hch' hstep =>
    obtain ⟨-, rfl⟩ | ⟨request, rest, n', -, -, hpop, rfl⟩ := forwardRequest_ok hstep
    · exact h
    · obtain ⟨-, -, -, hqueues⟩ := memreqPop_ok hpop
      have hout : n'.queue (.out node) = M.icnt.queue (.out node) := by
        rw [hqueues]
        refine Function.update_of_ne ?_ _ _
        cases p <;> simp [memPlace]
      have hsame : n'.outBuffers node = M.icnt.outBuffers node := hout
      rwa [← hsame]
  | take hch' hstep =>
    obtain ⟨-, rfl⟩ | ⟨response, dest, -, -, -, rfl⟩ := takeResponse_ok hstep
    · exact h
    · exact h

/-- The memory gives only what it has got. -/
theorem known_hop (hM : Homing config mem M) (hhop : Hop config mem memory M M')
    {a : MemoryAccess} (ha : a ∈ M'.answered ch) :
    a.coreId < config.numCores ∧ ch < config.dramChannels := by
  cases hhop with
  | send p hcore' hch' hstep =>
    obtain ⟨-, rfl⟩ | ⟨front, rest, dest, -, -, rfl⟩ := sendRequest_ok hstep
    · exact hM.known ch a ha
    · exact hM.known ch a ha
  | receive hcore' hch' hstep =>
    obtain ⟨-, rfl⟩ | ⟨response, rest, c, -, -, rfl⟩ := receiveResponse_ok hstep
    · exact hM.known ch a ha
    · exact hM.known ch a ha
  | forward p hch' hstep =>
    obtain ⟨-, rfl⟩ | ⟨request, rest, n', -, -, -, rfl⟩ := forwardRequest_ok hstep
    · exact hM.known ch a ha
    · exact hM.known ch a ha
  | @take ch' hch' hstep =>
    obtain ⟨-, rfl⟩ | ⟨response, dest, -, hmem, -, rfl⟩ := takeResponse_ok hstep
    · exact hM.known ch a ha
    · dsimp only at ha
      by_cases hsame : ch = ch'
      · subst hsame
        rw [Function.update_self] at ha
        rcases List.mem_append.mp ha with ha | ha
        · exact hM.known ch a ha
        · rw [List.mem_singleton.mp ha]
          exact ⟨(hM.lawful.dram ch response hmem).2.1, hch'⟩
      · rw [Function.update_of_ne hsame] at ha
        exact hM.known ch a ha

theorem homing_hop (haligned : Aligned config) (hhop : Hop config mem memory M M')
    (hM : Homing config mem M) : Homing config mem M' := by
  refine ⟨lawful_hop haligned hhop hM.lawful, ?_, ?_, ?_, ?_⟩
  · intro k hk c hc
    rcases home_hop haligned hM.lawful hc hhop k with
      ⟨hstep, hsame⟩ | ⟨xs, hlast, hrest, hanswered⟩
    · rw [Relay.content_step hstep, hsame]
      exact hM.account k hk c hc
    · rw [Relay.content_append hlast fun j hj => hrest j (Nat.ne_of_lt hj), hanswered,
        hM.account k hk c hc]
  · exact fun k hk a ha => own_hop haligned hM hhop hk ha
  · exact fun node h => hM.near node (hop_outBuffers hhop h)
  · exact fun ch a ha => known_hop hM hhop ha

theorem homing_arbitrate (hM : Homing config mem M) : Homing config mem (arbitrate config M) := by
  refine ⟨lawful_arbitrate hM.lawful, ?_, hM.own, ?_, hM.known⟩
  · intro k hk c hc
    have hsame : answeredTo k c (arbitrate config M) = answeredTo k c M := rfl
    rw [hsame, ← hM.account k hk c hc]
    rcases home_arbitrate hc hM.lawful k with ⟨-, hidle⟩ | hadvance
    · exact Relay.content_congr fun j _ => hidle j
    · exact Relay.content_advance hadvance (by decide)
  · intro node h
    obtain ⟨a, ha⟩ := List.exists_mem_of_ne_nil _ h
    rcases mem_cycle_queue (p := .out node) ha with ha | ⟨s, -, e, -, hplace, -⟩
    · exact hM.near node (List.ne_nil_of_mem ha)
    · obtain ⟨hlt, hdest⟩ := place_eq_out.mp hplace
      exact hdest ▸ hlt

theorem homing_icntCycle (haligned : Aligned config) (hM : Homing config mem M)
    (hcycle : icntCycle config mem memory M = .ok M') : Homing config mem M' :=
  icntCycle_inv (fun _ _ hhop => homing_hop haligned hhop) (fun _ => homing_arbitrate) hM hcycle

/-- A core's own work changes nothing of the responses. -/
theorem homing_congr (hM : Homing config mem M) (hlawful : Lawful config mem M')
    (hicnt : M'.icnt = M.icnt) (hanswered : M'.answered = M.answered)
    (hdelivered : M'.delivered = M.delivered) : Homing config mem M' := by
  refine ⟨hlawful, fun k hk c hc => ?_, ?_, ?_, ?_⟩
  · have hhome : Relay.content 2 (home config mem k c M') =
        Relay.content 2 (home config mem k c M) := by
      refine Relay.content_congr fun j _ => home_congr ?_ ?_ ?_ j
      · rw [hdelivered]
      · rw [hicnt]
      · rw [hicnt]
    rw [hhome, hM.account k hk c hc, answeredTo, answeredTo, hanswered]
  · rw [hdelivered]
    exact hM.own
  · rw [hicnt]
    exact hM.near
  · rw [hanswered]
    exact hM.known

theorem homing_step (haligned : Aligned config) (hM : Homing config mem M) {e : Event}
    (hstep : step config mem set M e = .ok M') : Homing config mem M' := by
  rcases step_network hstep with ⟨memory, rfl⟩ | ⟨hicnt, hanswered, hdelivered⟩
  · exact homing_icntCycle haligned hM hstep
  · exact homing_congr hM (lawful_step haligned hM.lawful hstep) hicnt hanswered hdelivered

theorem run_homing (haligned : Aligned config) {rrStart : ℕ} {events : List Event}
    (hrun : run (step config mem set) (init config rrStart) events = .ok M) :
    Homing config mem M :=
  run_invariant (Homing config mem) (fun _ _ _ h hstep => homing_step haligned h hstep)
    (homing_init config mem rrStart) hrun

end Runs

end NewPims.Machine

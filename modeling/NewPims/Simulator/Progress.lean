import NewPims.Simulator.Commands
import NewPims.Simulator.Fronts

/-! Every command of a PIM tile reaches the memory, as long as the core and the interconnect keep
going and the memory keeps accepting. -/
namespace NewPims.Machine

open NeuPIMSystolicWS SimpleInterconnect Transition

variable {config : SimulationConfig} {mem : NewtonSim.Config} {set : RobinHood} {M M' : Machine}
  {memory : MemoryCycle} {ch i m n : ℕ}

/-- The core has a cycle again and again, and so has the interconnect with a memory that accepts the
commands to the channel. -/
structure Fair (ch : ℕ) (b : Behavior (step config mem set) M) : Prop where
  core : b.Recurs (· = .cycle 0)
  memory : b.Recurs fun e =>
    ∃ memory, e = .icntCycle memory ∧ memory.full (commandPlatform config) ch = false

section Reach

theorem reach_hops (hsingle : Single config mem) (hch : ch < config.dramChannels)
    (hM : Lawful config mem M) (hhops : Hops config mem memory M M') (i n : ℕ) :
    Relay.reach i n (line config ch M) ≤ Relay.reach i n (line config ch M') := by
  induction hhops with
  | refl => exact Nat.le_refl _
  | tail hhops hhop ih =>
    have hstep := line_hop hsingle hch (lawful_hops hsingle.aligned hhops hM) hhop
    exact Nat.le_trans ih (Relay.reach_step hstep i n)

theorem reach_arbitrate (hsingle : Single config mem) (hch : ch < config.dramChannels)
    (hM : Lawful config mem M) (i n : ℕ) :
    Relay.reach i n (line config ch M) ≤ Relay.reach i n (line config ch (arbitrate config M)) := by
  rcases line_arbitrate hsingle hch hM with ⟨-, hidle⟩ | hadvance
  · exact Relay.reach_step (k := 3) (.idle hidle) i n
  · exact Relay.reach_advance hadvance i n

theorem reach_sends {c : NeuPIMSCore} (hc : Sends config (M.cores 0) c) (hi : i < 3) (n : ℕ) :
    Relay.reach i n (line config ch M) ≤ Relay.reach i n (line config ch (M.setCore 0 c)) := by
  obtain ⟨xs, hlast, hsame, -⟩ := line_sends ch hc
  exact Relay.reach_feed hlast hsame hi n

/-- No event puts a command back. -/
theorem reach_event (hsingle : Single config mem) (hch : ch < config.dramChannels)
    (hM : Lawful config mem M) {e : Event} (hstep : step config mem set M e = .ok M') (hi : i < 3)
    (n : ℕ) : Relay.reach i n (line config ch M) ≤ Relay.reach i n (line config ch M') := by
  have hzero : ∀ coreId < config.numCores, coreId = 0 := by
    intro coreId hcore
    rw [hsingle.core] at hcore
    exact Nat.lt_one_iff.mp hcore
  have hqueues : ∀ c : NeuPIMSCore,
      (∀ p, (c.lane p).memoryRequestQueues = ((M.cores 0).lane p).memoryRequestQueues) →
      Relay.reach i n (line config ch M) ≤ Relay.reach i n (line config ch (M.setCore 0 c)) := by
    intro c hc
    have hidle : ∀ j, line config ch (M.setCore 0 c) j = line config ch M j := by
      refine line_congr rfl rfl rfl ?_
      rw [setCore_cores, Function.update_self, hc]
    exact Relay.reach_step (k := 3) (.idle hidle) i n
  cases e with
  | issue coreId tile =>
    simp only [step] at hstep
    split_ifs at hstep with hguard
    obtain ⟨c, hc, rfl⟩ := map_ok hstep
    rw [hzero coreId hguard.1] at hc ⊢
    exact hqueues c (issue_queues hc).1
  | issuePim coreId tile =>
    simp only [step] at hstep
    split_ifs at hstep with hguard
    obtain ⟨c, hc, rfl⟩ := map_ok hstep
    rw [hzero coreId hguard.1] at hc ⊢
    exact hqueues c (issuePim_queues config hc ch).1
  | popFinishedTile coreId =>
    simp only [step] at hstep
    split_ifs at hstep with hguard
    cases hstep
    rw [hzero coreId hguard]
    exact reach_sends (sends_popFinishedTile config (M.cores 0)) hi n
  | cycle coreId =>
    simp only [step] at hstep
    split_ifs at hstep with hguard
    obtain ⟨c, hc, rfl⟩ := map_ok hstep
    rw [hzero coreId hguard] at hc ⊢
    exact reach_sends (sends_cycle hc) hi n
  | icntCycle memory =>
    exact line_icntCycle (P := fun q => Relay.reach i n (line config ch M) ≤ Relay.reach i n q)
      hsingle hch (fun _ _ hq hle => Nat.le_trans hle (Relay.reach_step hq i n)) hM (Nat.le_refl _)
      hstep

/-- One request of the core enters the interconnect in each cycle. -/
theorem serves_send (hsingle : Single config mem) (hch : ch < config.dramChannels)
    (hM : Lawful config mem M) (hcycle : icntCycle config mem memory M = .ok M') :
    Relay.Serves (line config ch) 2 M M' := by
  intro n
  obtain ⟨A, B, D, hA, hB, hD, rfl⟩ := icntCycle_send .PIM hsingle.zero_lt hch hcycle
  have hlawfulA := lawful_hops hsingle.aligned hA hM
  have hlawfulB := lawful_sendRequest hsingle.aligned hsingle.zero_lt hch hlawfulA hB
  have hlawfulD := lawful_hops hsingle.aligned hD hlawfulB
  obtain ⟨hserve, hstep⟩ := line_sendRequest hsingle hch hch hlawfulA hB
  calc Relay.reach 2 (n + 1) (line config ch M)
    _ ≤ Relay.reach 2 (n + 1) (line config ch A) := reach_hops hsingle hch hM hA 2 (n + 1)
    _ ≤ Relay.reach 2 n (line config ch B) := Relay.reach_serve (hserve ⟨rfl, rfl⟩) hstep n
    _ ≤ Relay.reach 2 n (line config ch D) := reach_hops hsingle hch hlawfulB hD 2 n
    _ ≤ Relay.reach 2 n (line config ch (arbitrate config D)) :=
      reach_arbitrate hsingle hch hlawfulD 2 n

/-- A memory that accepts gets one request of the queue in each cycle. -/
theorem serves_forward (hsingle : Single config mem) (hch : ch < config.dramChannels)
    (hM : Lawful config mem M) (hfull : memory.full (commandPlatform config) ch = false)
    (hcycle : icntCycle config mem memory M = .ok M') :
    Relay.Serves (line config ch) 0 M M' := by
  intro n
  obtain ⟨A, B, D, hA, hB, hD, rfl⟩ := icntCycle_forward (commandPlatform config) hch hcycle
  have hlawfulA := lawful_hops hsingle.aligned hA hM
  have hlawfulB := lawful_forwardRequest hlawfulA hB
  have hlawfulD := lawful_hops hsingle.aligned hD hlawfulB
  obtain ⟨hserve, hstep⟩ := line_forwardRequest ch hlawfulA hB
  calc Relay.reach 0 (n + 1) (line config ch M)
    _ ≤ Relay.reach 0 (n + 1) (line config ch A) := reach_hops hsingle hch hM hA 0 (n + 1)
    _ ≤ Relay.reach 0 n (line config ch B) := Relay.reach_serve (hserve ⟨rfl, rfl⟩ hfull) hstep n
    _ ≤ Relay.reach 0 n (line config ch D) := reach_hops hsingle hch hlawfulB hD 0 n
    _ ≤ Relay.reach 0 n (line config ch (arbitrate config D)) :=
      reach_arbitrate hsingle hch hlawfulD 0 n

end Reach

section Stages

variable {b : Behavior (step config mem set) M}

/-- Nothing but its own commands goes to the memory node of a channel. -/
theorem exclusive_line (hsingle : Single config mem) (hch : ch < config.dramChannels)
    (hM : Lawful config mem M) : Exclusive config (coreNode config 0 ch) M := by
  intro e he s hs hne e' he'
  have hout := hM.net.outward 0 hsingle.zero_lt ch hch e he
  rw [hout.dest, hsingle.channel, hout.channel]
  obtain ⟨k, hk, c, hc, rfl⟩ | ⟨c, hc, rfl⟩ := node_cases hs
  · have hother := hM.net.outward k hk c hc e' he'
    rw [hother.dest, hsingle.channel, hother.channel]
    intro heq
    rw [hsingle.core, Nat.lt_one_iff] at hk
    exact hne (by rw [hk, memInd_inj heq])
  · have hhome := hM.net.homeward c hc e' he'
    rw [hhome.dest]
    exact coreNode_ne_memInd hhome.core hc

/-- Every cycle of the interconnect brings the front of the input queue nearer to its move. -/
theorem serves_wait (hsingle : Single config mem) (hch : ch < config.dramChannels)
    (hM : Lawful config mem M) (hcycle : icntCycle config mem memory M = .ok M') {w : ℕ}
    (hfront : FrontWithin (coreNode config 0 ch) w M) :
    Relay.Serves (line config ch) 1 M M' ∨
      ∃ v, w = v + 1 ∧ FrontWithin (coreNode config 0 ch) v M' := by
  obtain ⟨D, hD, rfl⟩ := icntCycle_hops hcycle
  have hlawful := lawful_hops hsingle.aligned hD hM
  rcases line_arbitrate hsingle hch hlawful with ⟨hnone, -⟩ | hadvance
  · exact Or.inr (frontWithin_arbitrate (coreNode_lt_nNodes hsingle.zero_lt hch) hlawful.net.free
      (exclusive_line hsingle hch hlawful) hnone (frontWithin_hops hD hfront))
  · exact Or.inl fun n =>
      Nat.le_trans (reach_hops hsingle hch hM hD 1 (n + 1)) (Relay.reach_front hadvance n)

theorem monotone_line (hsingle : Single config mem) (hch : ch < config.dramChannels)
    (hM : Lawful config mem M) (hi : i < 3) : Relay.Monotone (line config ch) i b :=
  fun t n => reach_event hsingle hch (lawful_behavior hsingle.aligned hM b t) (b.next t) hi n

/-- The commands of the load queue get to the request queue of the core. -/
theorem leadsTo_load (hsingle : Single config mem) (hch : ch < config.dramChannels)
    (hM : Lawful config mem M) (hrecurs : b.Recurs (· = .cycle 0)) :
    b.LeadsTo (fun N => m < (flow config ch N).length)
      fun N => m < (Relay.content 3 (line config ch N)).length := by
  refine Behavior.leadsTo_of_recurs hrecurs ?_ ?_
  · intro t ht
    left
    have hlawful := lawful_behavior hsingle.aligned hM b t
    rw [flow_step hsingle hch hlawful (b.next t), List.length_append]
    exact Nat.lt_of_lt_of_le ht (Nat.le_add_right _ _)
  · intro t hevent ht
    have hnext := b.next t
    have hlawful := lawful_behavior hsingle.aligned hM b t
    rw [hevent] at hnext
    have hflow : flow config ch (b.state (t + 1)) = flow config ch (b.state t) := by
      rw [flow_step hsingle hch hlawful hnext]
      exact List.append_nil _
    have hloads : ((b.state (t + 1)).cores 0).loadCommands config ch = [] := by
      simp only [step] at hnext
      rw [if_pos hsingle.zero_lt] at hnext
      obtain ⟨c, hc, hstate⟩ := map_ok hnext
      rw [← hstate, NeuPIMSCore.loadCommands]
      simp only [shareStatics, setCore_cores, Function.update_self]
      exact congrArg (List.filterMap _) (cycle_drains hc)
    rw [← hflow, flow_eq, hloads, List.append_nil] at ht
    exact ht

/-- Once a command is issued, it gets to the memory. -/
theorem leadsTo_handed (hsingle : Single config mem) (hch : ch < config.dramChannels)
    (hM : Lawful config mem M) (hfair : Fair ch b) :
    b.LeadsTo (fun N => m < (flow config ch N).length)
      fun N => m < (pimCommands (N.handed ch)).length := by
  have hicnt : b.Recurs fun e => ∃ memory, e = .icntCycle memory := by
    intro t
    obtain ⟨u, hu, memory, hevent, -⟩ := hfair.memory t
    exact ⟨u, hu, memory, hevent⟩
  have hlawful := lawful_behavior hsingle.aligned hM b
  have hsend : b.LeadsTo (fun N => m < (Relay.content 3 (line config ch N)).length)
      fun N => m < (Relay.content 2 (line config ch N)).length := by
    refine Relay.leadsTo_serve hicnt (monotone_line hsingle hch hM (by decide)) ?_
    rintro t ⟨memory, hevent⟩
    have hnext := b.next t
    rw [hevent] at hnext
    exact serves_send hsingle hch (hlawful t) hnext
  have harbitrate : b.LeadsTo (fun N => m < (Relay.content 2 (line config ch N)).length)
      fun N => m < (Relay.content 1 (line config ch N)).length := by
    refine Relay.leadsTo_wait (FrontWithin (coreNode config 0 ch)) hicnt
      (monotone_line hsingle hch hM (by decide)) ?_ (fun t _ => frontWithin_behavior b t) ?_
    · intro t
      refine (exists_frontWithin (coreNode config 0 ch) (b.state t)).imp_left fun hempty => ?_
      exact congrArg (List.map fun e : Entity => e.access.asCommand) hempty
    · rintro t w ⟨memory, hevent⟩ hfront
      have hnext := b.next t
      rw [hevent] at hnext
      exact serves_wait hsingle hch (hlawful t) hnext hfront
  have hforward : b.LeadsTo (fun N => m < (Relay.content 1 (line config ch N)).length)
      fun N => m < (Relay.content 0 (line config ch N)).length := by
    refine Relay.leadsTo_serve hfair.memory (monotone_line hsingle hch hM (by decide)) ?_
    rintro t ⟨memory, hevent, hfull⟩
    have hnext := b.next t
    rw [hevent] at hnext
    exact serves_forward hsingle hch (hlawful t) hfull hnext
  have hhanded : ∀ N : Machine, m < (Relay.content 0 (line config ch N)).length →
      m < (pimCommands (N.handed ch)).length := by
    intro N hN
    rw [Relay.content, line, reduceOption_asCommand] at hN
    exact hN
  exact (leadsTo_load hsingle hch hM hfair.core).trans
    (hsend.trans (harbitrate.trans (hforward.trans (.of_imp hhanded))))

/-- What has been issued stays in front of what is issued later. -/
theorem flow_behavior (hsingle : Single config mem) (hch : ch < config.dramChannels)
    (hM : Lawful config mem M) (b : Behavior (step config mem set) M) (t : ℕ) :
    flow config ch M <+: flow config ch (b.state t) := by
  induction t with
  | zero => rw [b.start]
  | succ t ih =>
    rw [flow_step hsingle hch (lawful_behavior hsingle.aligned hM b t) (b.next t)]
    exact ih.trans (List.prefix_append _ _)

end Stages

/-- With one core, the commands of the PIM tiles to a channel get to the memory once each and in the
order of the instructions: those that the memory has got, followed by those in transit, are the
commands issued, and all of them get there. -/
theorem run_commands_handed (hcore : config.numCores = 1)
    (hchannel : ∀ address, mem.getChannel address = AddressConfig.maskChannel config address)
    (hch : ch < config.dramChannels) {rrStart : ℕ} {events : List Event}
    (hrun : run (step config mem set) (init config rrStart) events = .ok M) :
    pimCommands (M.handed ch) ++ inTransit config ch M = issued config mem set ch rrStart events ∧
      ∀ b : Behavior (step config mem set) M, Fair ch b →
        ∃ u, issued config mem set ch rrStart events <+: pimCommands ((b.state u).handed ch) := by
  have hsingle : Single config mem := ⟨hcore, hchannel⟩
  have hlawful := run_lawful hsingle.aligned hrun
  have hflow := run_flow hsingle hch hrun
  refine ⟨hflow, fun b hfair => ?_⟩
  rw [← hflow]
  cases hlength : (flow config ch M).length with
  | zero =>
    rw [List.eq_nil_of_length_eq_zero hlength]
    exact ⟨0, List.nil_prefix⟩
  | succ m =>
    have hstart : m < (flow config ch (b.state 0)).length := by
      rw [b.start, hlength]
      exact Nat.lt_succ_self m
    obtain ⟨u, -, hhanded⟩ := leadsTo_handed hsingle hch hlawful hfair 0 hstart
    refine ⟨u, List.prefix_of_prefix_length_le (flow_behavior hsingle hch hlawful b u)
      (List.prefix_append _ _) ?_⟩
    rw [hlength]
    exact hhanded

/-- A header and the commands that it announces, on the second channel. -/
def gemvTile : Tile where
  status := .INITIALIZED
  operationId := 1
  stagePlatform := .PIM
  instructions := [.PIM_HEADER, .PIM_GWRITE, .PIM_COMP].map fun opcode =>
    { opcode, destAddr := SPAD_BASE, srcAddrs := [0x400], isPimInst := true }

def gemvEvents : List Event :=
  [.issuePim 0 gemvTile, .cycle 0, .icntCycle ⟨fun _ _ => false, fun _ => none⟩]

theorem run_commands_handed_sample : ∃ M,
    run (step sampleConfig NewtonSim.sampleMemory .byInsertion) (init sampleConfig 0) gemvEvents =
      .ok M ∧
    pimCommands (M.handed 1) ++ inTransit sampleConfig 1 M =
      issued sampleConfig NewtonSim.sampleMemory .byInsertion 1 0 gemvEvents ∧
    ∀ b : Behavior (step sampleConfig NewtonSim.sampleMemory .byInsertion) M, Fair 1 b →
      ∃ u, issued sampleConfig NewtonSim.sampleMemory .byInsertion 1 0 gemvEvents <+:
        pimCommands ((b.state u).handed 1) := by
  obtain ⟨M, hM⟩ := exists_ok (x := run (step sampleConfig NewtonSim.sampleMemory .byInsertion)
    (init sampleConfig 0) gemvEvents) (by decide +kernel)
  exact ⟨M, hM, run_commands_handed rfl NewtonSim.shared_sample.getChannel (by decide) hM⟩

end NewPims.Machine

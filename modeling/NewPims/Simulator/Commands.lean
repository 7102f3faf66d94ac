import NewPims.Simulator.Line

/-! The commands of the tiles that a single core sends to a channel of the PIM: none is lost,
doubled or overtaken between the load queue and the memory. -/
namespace NewPims.Machine

open NeuPIMSystolicWS SimpleInterconnect Transition

section Definitions

variable (config : SimulationConfig) (mem : NewtonSim.Config) (set : RobinHood) (ch : ℕ)

/-- The commands to the channel that the memory has not got, the oldest first. -/
def inTransit (M : Machine) : List PimCommand :=
  pimCommands (memReqQueue M.icnt (commandPlatform config) ch) ++
    (pimCommands ((M.icnt.inBuffers (coreNode config 0 ch)).map Entity.access) ++
      (pimCommands (((M.cores 0).lane .PIM).memoryRequestQueues ch) ++
        (M.cores 0).loadCommands config ch))

/-- The commands that the memory has got, and then those that it has not. -/
def flow (M : Machine) : List PimCommand := pimCommands (M.handed ch) ++ inTransit config ch M

/-- What an event issues to the channel. -/
def issuedBy (M : Machine) : Event → List PimCommand
  | .issuePim coreId tile => tile.commandsTo config ch (M.cores coreId).nextTile
  | .issue _ _ | .popFinishedTile _ | .cycle _ | .icntCycle _ => []

/-- The commands to the channel of the tiles that a run issues. -/
def issued (rrStart : ℕ) (events : List Event) : List PimCommand :=
  trace (step config mem set) (issuedBy config ch) (init config rrStart) events

end Definitions

variable {config : SimulationConfig} {mem : NewtonSim.Config} {set : RobinHood} {M M' : Machine}
  {memory : MemoryCycle} {ch : ℕ}

theorem reduceOption_asCommand (accesses : List MemoryAccess) :
    (accesses.map MemoryAccess.asCommand).reduceOption = pimCommands accesses := by
  rw [List.reduceOption, List.filterMap_map]
  rfl

/-- The commands of a channel are those in its line and those in the load queue. -/
theorem flow_eq (M : Machine) :
    flow config ch M =
      Relay.content 3 (line config ch M) ++ (M.cores 0).loadCommands config ch := by
  have hbuffer : ((M.icnt.inBuffers (coreNode config 0 ch)).map fun e =>
      e.access.asCommand).reduceOption =
      pimCommands ((M.icnt.inBuffers (coreNode config 0 ch)).map Entity.access) := by
    rw [← reduceOption_asCommand, List.map_map]
    rfl
  simp only [flow, inTransit, Relay.content, line, reduceOption_asCommand, hbuffer,
    List.append_assoc]

theorem flow_sends {c : NeuPIMSCore} (hc : Sends config (M.cores 0) c) :
    flow config ch (M.setCore 0 c) = flow config ch M := by
  obtain ⟨xs, hlast, hsame, hloads⟩ := line_sends ch hc
  rw [flow_eq, flow_eq, Relay.content_append hlast fun j hj => hsame j (Nat.ne_of_lt hj),
    reduceOption_asCommand, setCore_cores, Function.update_self, List.append_assoc, hloads]

/-- An interconnect cycle loses no command and changes no order. -/
theorem flow_icntCycle (hsingle : Single config mem) (hch : ch < config.dramChannels)
    (h : Lawful config mem M) (hcycle : icntCycle config mem memory M = .ok M') :
    flow config ch M' = flow config ch M := by
  have hline : Relay.content 3 (line config ch M') = Relay.content 3 (line config ch M) :=
    line_icntCycle hsingle hch (fun q q' hstep hq => (Relay.content_step hstep).trans hq) h rfl
      hcycle
  rw [flow_eq, flow_eq, hline, loads_icntCycle hsingle hcycle]

theorem flow_step (hsingle : Single config mem) (hch : ch < config.dramChannels)
    (h : Lawful config mem M) {e : Event} (hstep : step config mem set M e = .ok M') :
    flow config ch M' = flow config ch M ++ issuedBy config ch M e := by
  have hzero : ∀ coreId < config.numCores, coreId = 0 := by
    intro coreId hcore
    rw [hsingle.core] at hcore
    exact Nat.lt_one_iff.mp hcore
  cases e with
  | issue coreId tile =>
    simp only [step] at hstep
    split_ifs at hstep with hguard
    obtain ⟨c, hc, rfl⟩ := map_ok hstep
    rw [hzero coreId hguard.1] at hc ⊢
    obtain ⟨hrequests, hloads, -⟩ := issue_queues hc
    unfold flow inTransit NeuPIMSCore.loadCommands issuedBy
    rw [setCore_cores, Function.update_self, hrequests, hloads, List.append_nil]
    rfl
  | issuePim coreId tile =>
    simp only [step] at hstep
    split_ifs at hstep with hguard
    obtain ⟨c, hc, rfl⟩ := map_ok hstep
    rw [hzero coreId hguard.1] at hc ⊢
    obtain ⟨hrequests, hloads, -⟩ := issuePim_queues config hc ch
    unfold flow inTransit issuedBy
    rw [setCore_cores, Function.update_self, hrequests, hloads]
    simp only [List.append_assoc]
    rfl
  | popFinishedTile coreId =>
    simp only [step] at hstep
    split_ifs at hstep with hguard
    cases hstep
    rw [hzero coreId hguard, issuedBy, List.append_nil]
    exact flow_sends (sends_popFinishedTile config (M.cores 0))
  | cycle coreId =>
    simp only [step] at hstep
    split_ifs at hstep with hguard
    obtain ⟨c, hc, rfl⟩ := map_ok hstep
    rw [hzero coreId hguard] at hc ⊢
    rw [issuedBy, List.append_nil]
    exact flow_sends (sends_cycle hc)
  | icntCycle memory =>
    rw [issuedBy, List.append_nil]
    exact flow_icntCycle hsingle hch h hstep

/-- In every run the commands issued to a channel are those that the memory has got, in their
order, and those that are in transit. -/
theorem run_flow (hsingle : Single config mem) (hch : ch < config.dramChannels) {rrStart : ℕ}
    {events : List Event}
    (hrun : run (step config mem set) (init config rrStart) events = .ok M) :
    flow config ch M = issued config mem set ch rrStart events := by
  have hstart : flow config ch (init config rrStart) = [] := by
    unfold flow inTransit
    cases commandPlatform config <;> rfl
  have hinv := run_trace
    (fun past M => Lawful config mem M ∧ flow config ch M = past)
    (fun past M e M' hM hstep => by
      refine ⟨lawful_step hsingle.aligned hM.1 hstep, ?_⟩
      rw [flow_step hsingle hch hM.1 hstep, hM.2])
    ⟨lawful_init config mem rrStart, hstart⟩ hrun
  exact hinv.2

end NewPims.Machine

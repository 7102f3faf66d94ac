import NewPims.NewtonSim.PIMOrder
import NewPims.Simulator.Commands
import NewPims.Simulator.MemoryFaults

/-! The commands of kernels from the tiles of a core to the banks: they are issued in the order of
the instructions, whatever the queues between them do. -/
namespace NewPims.NewtonSim.DRAMSystem

open Transition
open CommandQueue (pimCmdQueueSize)
open Controller (pimLine)

variable {config : DramConfig} {S T : DRAMSystem} {Q : Controller.Call → Prop} {c : Controller}
  {i : ℕ}

/-- No channel loses or adds a command of a kernel. -/
def SameLines (S T : DRAMSystem) : Prop := ∀ j, pimLine (T.ctrls j) = pimLine (S.ctrls j)

theorem ctrls_callback {w : Bool} {addr : AddrType} (h : S.callback config w addr = .ok T) :
    T.ctrls = S.ctrls := by
  unfold callback at h
  dsimp only at h
  split at h
  · cases h
  · obtain ⟨r, -, rfl⟩ := map_ok h
    rw [ctrls_setPendingQ]
    rfl

theorem sameLines_setCtrl (h : pimLine c = pimLine (S.ctrls i)) : SameLines S (S.setCtrl i c) := by
  intro j
  by_cases hj : j = i
  · subst hj
    simp only [setCtrl, Function.update_self]
    exact h
  · simp only [setCtrl, Function.update_of_ne hj]

theorem sameLines_returnDone {n : ℕ} (h : returnDone config i n S = .ok T) : SameLines S T := by
  -- by induction on the rounds of the loop
  induction n generalizing S with
  | zero =>
    cases h
    exact fun _ => rfl
  | succ n ih =>
    rw [returnDone] at h
    have hline := Controller.pimLine_returnDoneTrans (S.ctrls i) S.clk
    have hnext : ∀ (w : Bool) (c : Controller) (addr : AddrType),
        pimLine c = pimLine (S.ctrls i) →
        ((S.setCtrl i c).callback config w addr >>= returnDone config i n) = .ok T →
        SameLines S T := by
      intro w c addr hc hbind
      obtain ⟨M, hM, hT⟩ := bind_ok.mp hbind
      -- the requests that wait are not those of the controller
      intro j
      rw [ih hT j, ctrls_callback hM, sameLines_setCtrl hc j]
    cases hreturn : (S.ctrls i).returnDoneTrans S.clk with
    | mk o c =>
      rw [hreturn] at h hline
      cases o with
      | none =>
        cases h
        exact fun _ => rfl
      | some t =>
        cases ht : t.reqType <;> simp only [ht] at h
        case WRITE => exact hnext true c t.addr hline h
        case P_HEADER | PWRITE =>
          cases h
          exact sameLines_setCtrl hline
        all_goals exact hnext false c t.addr hline h

/-- A cycle keeps the lines, where the command queues take as many commands as the PIM queue. -/
theorem sameLines_clockTick (hregular : Regular config) (hreturn : Q .returnDoneTrans)
    (hQ : Q .clockTick) (hsize : pimCmdQueueSize ≤ config.cmdQueueSize)
    (h : Matched config Q S) (hsynced : Synced S (List.range config.channels))
    (hok : S.clockTick config = .ok T) : SameLines S T := by
  obtain ⟨M, hM, hok⟩ := bind_ok.mp hok
  obtain ⟨N, hN, hok⟩ := bind_ok.mp hok
  split at hok <;> cases hok
  have hfirst : SameLines S M := by
    refine foldlM_inv (P := SameLines S) ?_ (fun _ => rfl) hM
    intro A B j hA hB k
    rw [sameLines_returnDone hB k, hA k]
  -- `Matched` gives what a controller needs for its cycle
  obtain ⟨M', hM', hmatched, -⟩ := returnDone_all hregular hreturn h hsynced
  cases hM'.symm.trans hM
  have hsecond : Matched config Q N ∧ SameLines S N := by
    refine foldlM_inv (P := fun N => Matched config Q N ∧ SameLines S N) ?_ ⟨hmatched, hfirst⟩ hN
    rintro A B j ⟨hA, hlines⟩ hB
    obtain ⟨d, hd, rfl⟩ := map_ok hB
    refine ⟨(matched_setCtrl hregular hQ hA hd).1, ?_⟩
    have hmeets : Controller.Meets config (A.ctrls j) .clockTick := trivial
    have htidy := tidy_of_ran hregular (hA.ran j)
    obtain ⟨hticked, -⟩ := Controller.step_after hregular htidy hmeets hd
    intro k
    rw [sameLines_setCtrl ((Controller.pimLine_ticked hregular htidy hticked).2 hsize) k, hlines k]
  exact hsecond.2

end NewPims.NewtonSim.DRAMSystem

namespace NewPims.FullMachine

open NeuPIMSystolicWS
open NewtonSim (DramConfig DRAMSystem Regular CommandType transactionType)
open NewtonSim.CommandQueue (pimCmdQueueSize)
open NewtonSim.Controller (commandType pimLine)
open Transition

variable {config : SimulationConfig} {dram : DramConfig} {set : RobinHood}
  {P : BitVec 32 → Prop} {s t : FullMachine} {i : ℕ}

/-- A command of a core, as the memory sees it. -/
def memoryCommand (c : PimCommand) : CommandType × AddrType :=
  (commandType (transactionType c.reqType), c.dramAddress)

/-- The commands that a channel has issued, and those that wait in it, are those that it got. -/
def Lines (s : FullMachine) : Prop :=
  ∀ j, pimLine (s.memory.ctrls j) = (pimCommands (s.machine.handed j)).map memoryCommand

theorem acceptedPIM_request (request : MemoryAccess) :
    NewtonSim.Controller.acceptedPIM
        [.addTransaction request.dramAddress (transactionType request.reqType)] =
      (pimCommands [request]).map memoryCommand := by
  unfold pimCommands MemoryAccess.asCommand
  cases htype : request.reqType <;>
    simp [NewtonSim.Controller.acceptedPIM, transactionType, commandType, memoryCommand, htype,
      MemoryAccessType.isCommand, CommandType.pimQCommand]

theorem lines_forwardRequest {platform : StagePlatform} (hi : i < config.dramChannels)
    (hrequests : Requests config dram P s.machine.icnt) (h : Lines s)
    (hok : forwardRequest config dram platform i s = .ok t) : Lines t := by
  obtain rfl | ⟨request, rest, M, memory, icnt, hqueue, -, hmemory, hM, -, rfl⟩ :=
    forwardRequest_ok hok
  · exact h
  have hsupported := (hrequests i hi request (mem_requests hqueue)).1
  obtain ⟨hchannel, hM⟩ := Machine.dramPush_ok hM
  have hpushed := NewtonSim.DRAMSystem.pushed_of_ok
    (NewtonSim.DRAMSystem.transactionType_ne_pwrite request.reqType)
    (NewtonSim.DRAMSystem.push_ok hmemory).2
  intro j
  dsimp only
  rw [hpushed.ctrls, hchannel, hM]
  dsimp only
  by_cases hj : j = i
  · subst hj
    have hsplit : pimCommands (s.machine.handed j ++ [request]) =
        pimCommands (s.machine.handed j) ++ pimCommands [request] := List.filterMap_append
    rw [Function.update_self, Function.update_self,
      NewtonSim.Controller.pimLine_addTransaction hsupported, h j, acceptedPIM_request, hsplit,
      List.map_append]
  · rw [Function.update_of_ne hj, Function.update_of_ne hj]
    exact h j

theorem lines_takeResponse (h : Lines s) (hok : takeResponse config dram i s = .ok t) :
    Lines t := by
  unfold takeResponse at hok
  cases htop : s.memory.top i with
  | none =>
    simp only [htop] at hok
    cases hok
    exact h
  | some response =>
    simp only [htop] at hok
    obtain ⟨dest, -, hok⟩ := bind_ok.mp hok
    obtain ⟨icnt, -, hok⟩ := bind_ok.mp hok
    cases hok
    exact h

theorem lines_dramChannel (hi : i < config.dramChannels)
    (hchannels : config.dramChannels ≤ dram.channels) (hready : Ready config dram P s)
    (h : Lines s) (hok : dramChannel config dram s i = .ok t) :
    Ready config dram P t ∧ Lines t := by
  obtain ⟨a, ha, hok⟩ := bind_ok.mp hok
  obtain ⟨b, hb, hok⟩ := bind_ok.mp hok
  have hreadya := ready_forwardRequest hi hchannels hready ha
  have hreadyb := ready_forwardRequest hi hchannels hreadya hb
  refine ⟨ready_takeResponse hreadyb hok, ?_⟩
  have hlinesa := lines_forwardRequest hi hready.2 h ha
  exact lines_takeResponse (lines_forwardRequest hi hreadya.2 hlinesa hb) hok

theorem lines_of_same {M : Machine} (h : Lines s) (hsame : SameMemory s.machine M) :
    Lines { s with machine := M } := by
  intro j
  dsimp only
  rw [hsame.handed]
  exact h j

theorem lines_icntCycle (hchannels : config.dramChannels ≤ dram.channels)
    (hready : Ready config dram P s) (h : Lines s) (hok : icntCycle config dram s = .ok t) :
    Lines t := by
  obtain ⟨M, hM, hok⟩ := bind_ok.mp hok
  obtain ⟨u, hu, hok⟩ := bind_ok.mp hok
  cases hok
  have hsame := sameMemory_coreChannels (ofMachine_ok hM)
  have hend : Ready config dram P u ∧ Lines u := by
    refine foldlM_inv_mem (P := fun u => Ready config dram P u ∧ Lines u) ?_
      ⟨ready_of_same hready hsame, lines_of_same h hsame⟩ hu
    rintro a b j hj ⟨ha, hlines⟩ hb
    exact lines_dramChannel (List.mem_range.mp hj) hchannels ha hlines hb
  exact hend.2

theorem lines_step {e : Event} (hregular : Regular dram)
    (hchannels : config.dramChannels ≤ dram.channels)
    (hsize : pimCmdQueueSize ≤ dram.cmdQueueSize) (hready : Ready config dram P s) (h : Lines s)
    (hok : step config dram set s e = .ok t) : Lines t := by
  have hcore : ∀ e' : Machine.Event, (∀ memory, e' ≠ .icntCycle memory) →
      coreStep config dram set s e' = .ok t → Lines t := by
    intro e' he' hok'
    obtain ⟨M, hM, rfl⟩ := map_ok hok'
    exact lines_of_same h (sameMemory_step (ofMachine_ok hM) he')
  cases e with
  | issue coreId tile => exact hcore (.issue coreId tile) (by simp) hok
  | issuePim coreId tile => exact hcore (.issuePim coreId tile) (by simp) hok
  | popFinishedTile coreId => exact hcore (.popFinishedTile coreId) (by simp) hok
  | cycle coreId => exact hcore (.cycle coreId) (by simp) hok
  | dramCycle =>
    obtain ⟨T, hT, rfl⟩ := map_ok hok
    have hlines := NewtonSim.DRAMSystem.sameLines_clockTick hregular trivial trivial hsize
      hready.1.matched hready.1.synced (ofMemory_ok hT)
    intro j
    rw [← h j]
    exact hlines j
  | icntCycle => exact lines_icntCycle hchannels hready h hok

/-- The commands that a core issues to a channel are issued to its banks in the same order: those
that the banks have got, those that wait in the memory, and those on their way are all of them. -/
theorem run_kernel_order (hregular : Regular dram)
    (hchannels : config.dramChannels ≤ dram.channels)
    (hsize : pimCmdQueueSize ≤ dram.cmdQueueSize) (hsingle : Machine.Single config dram.toConfig)
    {ch : ℕ} (hch : ch < config.dramChannels) {rrStart : ℕ} {es : List Event}
    (hrequests : AllCalls (step config dram set)
      (fun s _ => Requests config dram P s.machine.icnt) (init config rrStart) es)
    (hrun : run (step config dram set) (init config rrStart) es = .ok s) :
    ∃ dss, List.Forall₂ (fun e ds => ∃ memory, ds = (e.toMachine memory).toList) es dss ∧
      run (Machine.step config dram.toConfig set) (.init config rrStart) dss.flatten =
        .ok s.machine ∧
      pimLine (s.memory.ctrls ch) ++ (Machine.inTransit config ch s.machine).map memoryCommand =
        (Machine.issued config dram.toConfig set ch rrStart dss.flatten).map memoryCommand := by
  -- by induction on the events, with `Lines` as the invariant
  have hinv : Sound dram P s ∧ Lines s := by
    refine run_invariant_of (fun s => Sound dram P s ∧ Lines s)
      (fun s _ => Requests config dram P s.machine.icnt) ?_ ⟨sound_init rrStart, fun _ => rfl⟩
      hrequests hrun
    rintro a e b ⟨hsound, hlines⟩ ha hb
    exact ⟨sound_step hregular hchannels ⟨hsound, ha⟩ hb,
      lines_step hregular hchannels hsize ⟨hsound, ha⟩ hlines hb⟩
  obtain ⟨dss, hall, hM, -⟩ := exists_machine_run hrun
  refine ⟨dss, hall, hM, ?_⟩
  calc pimLine (s.memory.ctrls ch) ++ (Machine.inTransit config ch s.machine).map memoryCommand
      -- from the banks back to what the memory got
      = (pimCommands (s.machine.handed ch)).map memoryCommand ++
          (Machine.inTransit config ch s.machine).map memoryCommand := by rw [hinv.2 ch]
    _ = (Machine.flow config ch s.machine).map memoryCommand := by
          rw [Machine.flow, List.map_append]
    -- and from there to the tiles
    _ = (Machine.issued config dram.toConfig set ch rrStart dss.flatten).map memoryCommand := by
          rw [Machine.run_flow hsingle hch hM]

/-- A memory with the channels of the simulator. -/
def twoMemory : DramConfig := { NewtonSim.smallMemory with toConfig := NewtonSim.sampleMemory }

theorem regular_twoMemory : Regular twoMemory := by
  refine ⟨⟨?_, ?_, ?_⟩, rfl, rfl, rfl, ?_, ?_, ?_, ?_⟩ <;> decide

theorem single_twoMemory : Machine.Single sampleConfig twoMemory.toConfig :=
  ⟨rfl, fun address => NewtonSim.shared_sample.getChannel address⟩

theorem run_kernel_order_kernelEvents : ∃ s dss,
    run (step sampleConfig twoMemory .byInsertion) (init sampleConfig 0) kernelEvents = .ok s ∧
      (pimLine (s.memory.ctrls 0)).length = 2 ∧
      List.Forall₂ (fun e ds => ∃ memory, ds = (e.toMachine memory).toList) kernelEvents dss ∧
      run (Machine.step sampleConfig twoMemory.toConfig .byInsertion) (.init sampleConfig 0)
        dss.flatten = .ok s.machine ∧
      pimLine (s.memory.ctrls 0) ++ (Machine.inTransit sampleConfig 0 s.machine).map memoryCommand =
        (Machine.issued sampleConfig twoMemory.toConfig .byInsertion 0 0 dss.flatten).map
          memoryCommand := by
  have hend : (run (step sampleConfig twoMemory .byInsertion) (init sampleConfig 0)
      kernelEvents).map (fun s => (pimLine (s.memory.ctrls 0)).length) = .ok 2 := by decide +kernel
  obtain ⟨s, hs, hlength⟩ := map_ok hend
  have hch : 0 < sampleConfig.dramChannels := by decide
  obtain ⟨dss, horder⟩ := run_kernel_order (P := fun row => row.toNat < 4) regular_twoMemory
    (by decide) (by decide) single_twoMemory hch (by decide +kernel) hs
  exact ⟨s, dss, hs, hlength, horder⟩

end NewPims.FullMachine

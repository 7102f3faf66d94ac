import NewPims.NewtonSim.Traffic
import NewPims.Simulator.Hops

/-! `Simulator::cycle` with the memory of NewtonSim. It is a run of the machine, whose memory may
refuse and answer as it likes, with the decisions that NewtonSim makes. -/
namespace NewPims

open NewtonSim (DramConfig DRAMSystem MemoryFault)

structure FullMachine where
  machine : Machine
  memory : DRAMSystem := {}

inductive SystemFault
  | machine (f : Fault)
  | memory (f : MemoryFault)
  deriving DecidableEq, Repr

namespace FullMachine

open Machine (memReqQueue memreqPop dramPush getDestNode memInd coreChannel)
open NewtonSim.DRAMSystem (inside)
open Transition

section Definitions

variable (config : SimulationConfig) (dram : DramConfig) (set : RobinHood)

def ofMachine {α : Type} (x : Except Fault α) : Except SystemFault α := x.mapError .machine

def ofMemory {α : Type} (x : Except MemoryFault α) : Except SystemFault α := x.mapError .memory

/-- Interconnect to memory, from the first or the second queue. -/
def forwardRequest (platform : StagePlatform) (dramInd : ℕ) (s : FullMachine) :
    Except SystemFault FullMachine :=
  match memReqQueue s.machine.icnt platform dramInd with
  | [] => .ok s
  | request :: _ => do
    -- `is_full` also asks for room in the queue of responses, but for a header
    let full ← ofMemory (s.memory.isFull dram request)
    if full then .ok s
    else do
      let memory ← ofMemory (s.memory.push dram dramInd request)
      let M ← ofMachine (dramPush dram.toConfig dramInd request s.machine)
      let icnt ← ofMachine (memreqPop config M.icnt platform dramInd)
      .ok { machine := { M with icnt }, memory }

/-- Memory to interconnect. -/
def takeResponse (dramInd : ℕ) (s : FullMachine) : Except SystemFault FullMachine :=
  match s.memory.top dramInd with
  | none => .ok s
  | some response => do
    let dest ← ofMachine (getDestNode config dram.toConfig response)
    let icnt ← ofMachine (s.machine.icnt.push config (memInd config dramInd) dest response)
    .ok {
      machine := { s.machine with
        icnt
        dram := Function.update s.machine.dram dramInd ((s.machine.dram dramInd).erase response)
        answered := Function.update s.machine.answered dramInd
          (s.machine.answered dramInd ++ [response]) }
      memory := s.memory.pop dramInd }

def dramChannel (s : FullMachine) (dramInd : ℕ) : Except SystemFault FullMachine := do
  let s ← forwardRequest config dram .SA dramInd s
  let s ← forwardRequest config dram .PIM dramInd s
  takeResponse config dram dramInd s

/-- The interconnect cycle of `Simulator::cycle`. -/
def icntCycle (s : FullMachine) : Except SystemFault FullMachine := do
  let M ← ofMachine ((List.range config.numCores).foldlM (fun M coreId =>
    (List.range config.dramChannels).foldlM (coreChannel config dram.toConfig coreId) M) s.machine)
  let s ← (List.range config.dramChannels).foldlM (dramChannel config dram) { s with machine := M }
  .ok { s with machine := { s.machine with icnt := s.machine.icnt.cycle config } }

/-- The calls of the core cycle, the memory cycle and the interconnect cycle. -/
inductive Event
  | issue (coreId : ℕ) (tile : Tile)
  | issuePim (coreId : ℕ) (tile : Tile)
  | popFinishedTile (coreId : ℕ)
  | cycle (coreId : ℕ)
  | dramCycle
  | icntCycle

/-- The event of the machine alone, when the memory decides as it does. -/
def Event.toMachine (memory : MemoryCycle) : Event → Option Machine.Event
  | .issue coreId tile => some (.issue coreId tile)
  | .issuePim coreId tile => some (.issuePim coreId tile)
  | .popFinishedTile coreId => some (.popFinishedTile coreId)
  | .cycle coreId => some (.cycle coreId)
  | .dramCycle => none
  | .icntCycle => some (.icntCycle memory)

/-- A step of the cores. -/
def coreStep (s : FullMachine) (e : Machine.Event) : Except SystemFault FullMachine :=
  (ofMachine (Machine.step config dram.toConfig set s.machine e)).map fun machine =>
    { s with machine }

def step (s : FullMachine) : Event → Except SystemFault FullMachine
  | .issue coreId tile => s.coreStep config dram set (.issue coreId tile)
  | .issuePim coreId tile => s.coreStep config dram set (.issuePim coreId tile)
  | .popFinishedTile coreId => s.coreStep config dram set (.popFinishedTile coreId)
  | .cycle coreId => s.coreStep config dram set (.cycle coreId)
  | .dramCycle => (ofMemory (s.memory.clockTick dram)).map fun memory => { s with memory }
  | .icntCycle => s.icntCycle config dram

def init (rrStart : ℕ) : FullMachine := { machine := .init config rrStart }

end Definitions

section Follows

variable {config : SimulationConfig} {dram : DramConfig} {set : RobinHood} {s t : FullMachine}
  {M M' : Machine} {i : ℕ}

theorem ofMachine_ok {α : Type} {x : Except Fault α} {a : α} (h : ofMachine x = .ok a) :
    x = .ok a := by
  cases x with
  | error e => cases h
  | ok b =>
    cases h
    rfl

theorem ofMemory_ok {α : Type} {x : Except MemoryFault α} {a : α} (h : ofMemory x = .ok a) :
    x = .ok a := by
  cases x with
  | error e => cases h
  | ok b =>
    cases h
    rfl

/-- What is inside NewtonSim is what the machine's memory has got and not answered, but for headers,
which get no response. -/
def Holds (dram : DramConfig) (s : FullMachine) : Prop :=
  ∀ i x, (inside dram s.memory i).count x =
    if x.reqType = .P_HEADER then 0 else (s.machine.dram i).count x

theorem mem_of_top {response : MemoryAccess} (h : Holds dram s)
    (htop : s.memory.top i = some response) :
    response.reqType ≠ .P_HEADER ∧ response ∈ s.machine.dram i := by
  have hinside : response ∈ inside dram s.memory i :=
    List.mem_append_left _ (List.mem_of_mem_head? htop)
  have hpos := List.count_pos_iff.mpr hinside
  rw [h i response] at hpos
  split at hpos
  · omega
  next hheader => exact ⟨hheader, List.count_pos_iff.mp hpos⟩

theorem holds_push {request : MemoryAccess} {memory : DRAMSystem} (h : Holds dram s)
    (hmachine : dramPush dram.toConfig i request s.machine = .ok M)
    (hmemory : s.memory.push dram i request = .ok memory) : Holds dram { machine := M, memory } := by
  obtain ⟨hchannel, hM⟩ := Machine.dramPush_ok hmachine
  have hpushed := NewtonSim.DRAMSystem.pushed_of_ok
    (NewtonSim.DRAMSystem.transactionType_ne_pwrite request.reqType)
    (NewtonSim.DRAMSystem.push_ok hmemory).2
  have hheader : NewtonSim.transactionType request.reqType = .P_HEADER ↔
      request.reqType = .P_HEADER := by
    cases request.reqType <;> simp [NewtonSim.transactionType]
  -- both sides keep the request as the response that it becomes
  obtain ⟨response, hresponse⟩ : ∃ response, response = { request with request := false } :=
    ⟨_, rfl⟩
  rw [← hresponse] at hM hpushed
  have htype : response.reqType = request.reqType := by rw [hresponse]
  intro j x
  have hadd : (M.dram j).count x =
      (s.machine.dram j).count x + if i = j ∧ response = x then 1 else 0 := by
    rw [hM]
    dsimp only
    by_cases hj : i = j
    · subst hj
      rw [Function.update_self, List.count_append, List.count_singleton]
      simp
    · rw [Function.update_of_ne (Ne.symm hj), if_neg (fun hcond => hj hcond.1), Nat.add_zero]
  dsimp only
  rw [NewtonSim.DRAMSystem.count_inside_push hpushed, hchannel, h j x, hadd]
  by_cases hx : x.reqType = .P_HEADER
  -- a header is not inside NewtonSim, before and after
  · rw [if_pos hx, if_pos hx, if_neg]
    rintro ⟨⟨hne, -⟩, rfl⟩
    exact hne (hheader.mpr (htype.symm.trans hx))
  · rw [if_neg hx, if_neg hx]
    congr 1
    by_cases heq : response = x
    · have hne : NewtonSim.transactionType request.reqType ≠ .P_HEADER := by
        intro hcond
        exact hx (by rw [← heq, htype, hheader.mp hcond])
      simp [hne]
    · simp [heq]

/-- The machine hands the request to its memory if NewtonSim takes it. -/
theorem forwardRequest_follows {platform : StagePlatform} (h : Holds dram s)
    (hok : forwardRequest config dram platform i s = .ok t) :
    Holds dram t ∧ ∃ full : Bool, ∀ memory : MemoryCycle, memory.full platform i = full →
      Machine.forwardRequest config dram.toConfig memory platform i s.machine = .ok t.machine := by
  unfold forwardRequest at hok
  cases hqueue : memReqQueue s.machine.icnt platform i with
  | nil =>
    simp only [hqueue] at hok
    cases hok
    refine ⟨h, false, ?_⟩
    intro memory _
    simp only [Machine.forwardRequest, hqueue]
  | cons request rest =>
    simp only [hqueue] at hok
    obtain ⟨full, -, hok⟩ := bind_ok.mp hok
    cases full with
    | true =>
      cases hok
      refine ⟨h, true, ?_⟩
      intro memory hfull
      simp only [Machine.forwardRequest, hqueue, hfull, if_true]
    | false =>
      obtain ⟨memory, hmemory, hok⟩ := bind_ok.mp hok
      obtain ⟨M, hM, hok⟩ := bind_ok.mp hok
      obtain ⟨icnt, hicnt, hok⟩ := bind_ok.mp hok
      cases hok
      have hpush := holds_push h (ofMachine_ok hM) (ofMemory_ok hmemory)
      refine ⟨hpush, false, ?_⟩
      intro memory' hfull
      simp only [Machine.forwardRequest, hqueue, hfull]
      exact bind_ok.mpr ⟨M, ofMachine_ok hM, bind_ok.mpr ⟨icnt, ofMachine_ok hicnt, rfl⟩⟩

/-- The machine takes the response that is at the top of NewtonSim. -/
theorem takeResponse_follows (h : Holds dram s) (hok : takeResponse config dram i s = .ok t) :
    Holds dram t ∧ ∀ memory : MemoryCycle, memory.response i = s.memory.top i →
      Machine.takeResponse config dram.toConfig memory i s.machine = .ok t.machine := by
  unfold takeResponse at hok
  cases htop : s.memory.top i with
  | none =>
    simp only [htop] at hok
    cases hok
    refine ⟨h, ?_⟩
    intro memory hresponse
    simp only [Machine.takeResponse, hresponse]
  | some response =>
    simp only [htop] at hok
    obtain ⟨dest, hdest, hok⟩ := bind_ok.mp hok
    obtain ⟨icnt, hicnt, hok⟩ := bind_ok.mp hok
    cases hok
    refine ⟨?_, ?_⟩
    · intro j x
      have hold := h j x
      rw [NewtonSim.DRAMSystem.count_inside_pop s.memory i j x] at hold
      dsimp only
      by_cases hj : j = i
      -- the response leaves both memories, and it is no header
      · subst hj
        rw [if_pos rfl, htop, Option.toList_some, List.count_singleton] at hold
        rw [Function.update_self, List.count_erase]
        split <;> rename_i hheader
        · rw [if_pos hheader] at hold
          omega
        · rw [if_neg hheader] at hold
          omega
      · rw [if_neg hj, Nat.add_zero] at hold
        rw [Function.update_of_ne hj]
        exact hold
    · intro memory hresponse
      simp only [Machine.takeResponse, hresponse]
      rw [if_pos (mem_of_top h htop).2]
      exact bind_ok.mpr ⟨dest, ofMachine_ok hdest, bind_ok.mpr ⟨icnt, ofMachine_ok hicnt, rfl⟩⟩

/-- The decisions of a memory, channel by channel. -/
def decisions (choice : ℕ → (StagePlatform → Bool) × Option MemoryAccess) : MemoryCycle where
  full platform i := (choice i).1 platform
  response i := (choice i).2

theorem dramChannel_follows (h : Holds dram s) (hok : dramChannel config dram s i = .ok t) :
    Holds dram t ∧ ∃ x, ∀ choice, choice i = x →
      Machine.dramChannel config dram.toConfig (decisions choice) s.machine i = .ok t.machine := by
  obtain ⟨a, ha, hok⟩ := bind_ok.mp hok
  obtain ⟨b, hb, hok⟩ := bind_ok.mp hok
  obtain ⟨hholds, full₁, hfull₁⟩ := forwardRequest_follows h ha
  obtain ⟨hholds, full₂, hfull₂⟩ := forwardRequest_follows hholds hb
  obtain ⟨hholds, hresponse⟩ := takeResponse_follows hholds hok
  -- what the memory decides is what was found on the way
  refine ⟨hholds, (fun platform => if platform = .SA then full₁ else full₂, b.memory.top i), ?_⟩
  intro choice hchoice
  refine bind_ok.mpr ⟨a.machine, hfull₁ _ ?_, bind_ok.mpr ⟨b.machine, hfull₂ _ ?_, hresponse _ ?_⟩⟩ <;>
    simp [decisions, hchoice]

/-- The cores leave the memory and the requests for it alone. -/
structure SameMemory (A B : Machine) : Prop where
  dram : B.dram = A.dram
  handed : B.handed = A.handed
  first : B.icnt.memReqQueue1 = A.icnt.memReqQueue1
  second : B.icnt.memReqQueue2 = A.icnt.memReqQueue2

theorem sameMemory_trans {A B C : Machine} (hAB : SameMemory A B) (hBC : SameMemory B C) :
    SameMemory A C :=
  ⟨hBC.dram.trans hAB.dram, hBC.handed.trans hAB.handed, hBC.first.trans hAB.first,
    hBC.second.trans hAB.second⟩

theorem sameMemory_coreChannel {coreId : ℕ}
    (h : coreChannel config dram.toConfig coreId M i = .ok M') : SameMemory M M' := by
  have hsend : ∀ {p : StagePlatform} {A B : Machine},
      Machine.sendRequest config dram.toConfig p coreId i A = .ok B → SameMemory A B := by
    intro p A B hB
    rcases Machine.sendRequest_ok hB with ⟨-, rfl⟩ | ⟨front, rest, dest, -, -, rfl⟩ <;>
      exact ⟨rfl, rfl, rfl, rfl⟩
  obtain ⟨A, hA, h⟩ := bind_ok.mp h
  obtain ⟨B, hB, h⟩ := bind_ok.mp h
  have hreceive : SameMemory B M' := by
    rcases Machine.receiveResponse_ok h with ⟨-, rfl⟩ | ⟨response, rest, c, -, -, rfl⟩ <;>
      exact ⟨rfl, rfl, rfl, rfl⟩
  exact sameMemory_trans (sameMemory_trans (hsend hA) (hsend hB)) hreceive

theorem sameMemory_coreChannels
    (h : (List.range config.numCores).foldlM (fun M coreId =>
      (List.range config.dramChannels).foldlM (coreChannel config dram.toConfig coreId) M) M =
        .ok M') : SameMemory M M' := by
  refine foldlM_inv (P := SameMemory M) ?_ ⟨rfl, rfl, rfl, rfl⟩ h
  intro A B coreId hA hB
  refine foldlM_inv (P := SameMemory M) ?_ hA hB
  intro A B j hA hB
  exact sameMemory_trans hA (sameMemory_coreChannel hB)

/-- In a cycle of the interconnect the machine's memory decides as NewtonSim does. -/
theorem icntCycle_follows (h : Holds dram s) (hok : icntCycle config dram s = .ok t) :
    Holds dram t ∧ ∃ memory,
      Machine.icntCycle config dram.toConfig memory s.machine = .ok t.machine := by
  obtain ⟨M, hM, hok⟩ := bind_ok.mp hok
  obtain ⟨u, hu, hok⟩ := bind_ok.mp hok
  cases hok
  have hM := ofMachine_ok hM
  have hdram : M.dram = s.machine.dram := (sameMemory_coreChannels hM).dram
  have hholds : Holds dram { s with machine := M } := by
    intro j x
    dsimp only
    rw [hdram]
    exact h j x
  have hstep : ∀ a b A j, a.machine = A ∧ Holds dram a → dramChannel config dram a j = .ok b →
      ∃ x B, (b.machine = B ∧ Holds dram b) ∧ ∀ choice, choice j = x →
        Machine.dramChannel config dram.toConfig (decisions choice) A j = .ok B := by
    rintro a b A j ⟨rfl, ha⟩ hb
    obtain ⟨hb', x, hx⟩ := dramChannel_follows ha hb
    exact ⟨x, b.machine, ⟨rfl, hb'⟩, hx⟩
  obtain ⟨choice, A, ⟨rfl, hholds⟩, hfold⟩ := foldlM_choices
    (fun s A => s.machine = A ∧ Holds dram s) hstep List.nodup_range ⟨rfl, hholds⟩ hu
  exact ⟨hholds, decisions choice, bind_ok.mpr ⟨M, hM, bind_ok.mpr ⟨u.machine, hfold, rfl⟩⟩⟩

theorem sameMemory_step {e : Machine.Event}
    (h : Machine.step config dram.toConfig set M e = .ok M') (he : ∀ memory, e ≠ .icntCycle memory) :
    SameMemory M M' := by
  cases e with
  | issue coreId tile | issuePim coreId tile | cycle coreId =>
    simp only [Machine.step] at h
    split_ifs at h
    obtain ⟨c, -, rfl⟩ := map_ok h
    exact ⟨rfl, rfl, rfl, rfl⟩
  | popFinishedTile coreId =>
    simp only [Machine.step] at h
    split_ifs at h
    cases h
    exact ⟨rfl, rfl, rfl, rfl⟩
  | icntCycle memory => exact absurd rfl (he memory)

theorem coreStep_follows {e : Machine.Event} (h : Holds dram s)
    (hok : coreStep config dram set s e = .ok t) (he : ∀ memory, e ≠ .icntCycle memory) :
    Holds dram t ∧ Machine.step config dram.toConfig set s.machine e = .ok t.machine := by
  obtain ⟨M, hM, rfl⟩ := map_ok hok
  have hM := ofMachine_ok hM
  refine ⟨?_, hM⟩
  intro j x
  dsimp only
  rw [(sameMemory_step hM he).dram]
  exact h j x

/-- Each event is one of the machine, or none where only the memory moves. -/
theorem step_follows {e : Event} (h : Holds dram s) (hok : step config dram set s e = .ok t) :
    Holds dram t ∧ ∃ memory, run (Machine.step config dram.toConfig set) s.machine
      (e.toMachine memory).toList = .ok t.machine := by
  have hone : ∀ {e' : Machine.Event}, Machine.step config dram.toConfig set s.machine e' =
      .ok t.machine → run (Machine.step config dram.toConfig set) s.machine [e'] = .ok t.machine :=
    fun he' => run_cons_ok.mpr ⟨_, he', rfl⟩
  have hcore : ∀ e' : Machine.Event, (∀ memory, e' ≠ .icntCycle memory) →
      coreStep config dram set s e' = .ok t → Holds dram t ∧
        run (Machine.step config dram.toConfig set) s.machine [e'] = .ok t.machine := by
    intro e' he' hok'
    obtain ⟨hholds, hstep⟩ := coreStep_follows h hok' he'
    exact ⟨hholds, hone hstep⟩
  -- the memory decides nothing outside the interconnect cycle
  have memory : MemoryCycle := decisions fun _ => (fun _ => false, none)
  cases e with
  | issue coreId tile =>
    obtain ⟨hholds, hrun⟩ := hcore (.issue coreId tile) (by simp) hok
    exact ⟨hholds, memory, hrun⟩
  | issuePim coreId tile =>
    obtain ⟨hholds, hrun⟩ := hcore (.issuePim coreId tile) (by simp) hok
    exact ⟨hholds, memory, hrun⟩
  | popFinishedTile coreId =>
    obtain ⟨hholds, hrun⟩ := hcore (.popFinishedTile coreId) (by simp) hok
    exact ⟨hholds, memory, hrun⟩
  | cycle coreId =>
    obtain ⟨hholds, hrun⟩ := hcore (.cycle coreId) (by simp) hok
    exact ⟨hholds, memory, hrun⟩
  | dramCycle =>
    obtain ⟨T, hT, rfl⟩ := map_ok hok
    refine ⟨?_, memory, rfl⟩
    intro j x
    dsimp only
    rw [NewtonSim.DRAMSystem.count_inside_clockTick (ofMemory_ok hT)]
    exact h j x
  | icntCycle =>
    obtain ⟨hholds, memory, hcycle⟩ := icntCycle_follows h hok
    exact ⟨hholds, memory, hone hcycle⟩

/-- The machine's run, by induction on the events, with `Holds` as the invariant. -/
theorem exists_machine_run {rrStart : ℕ} {es : List Event}
    (hrun : run (step config dram set) (init config rrStart) es = .ok s) :
    ∃ dss, List.Forall₂ (fun e ds => ∃ memory, ds = (e.toMachine memory).toList) es dss ∧
      run (Machine.step config dram.toConfig set) (.init config rrStart) dss.flatten =
        .ok s.machine ∧ Holds dram s := by
  have hinit : (init config rrStart).machine = .init config rrStart ∧
      Holds dram (init config rrStart) := by
    refine ⟨rfl, fun j x => ?_⟩
    split <;> rfl
  have hstep : ∀ a e b M, a.machine = M ∧ Holds dram a → step config dram set a e = .ok b →
      ∃ ds N, (∃ memory, ds = (Event.toMachine memory e).toList) ∧
        run (Machine.step config dram.toConfig set) M ds = .ok N ∧ b.machine = N ∧ Holds dram b := by
    rintro a e b M ⟨rfl, ha⟩ hb
    obtain ⟨hb', memory, hds⟩ := step_follows ha hb
    exact ⟨_, b.machine, ⟨memory, rfl⟩, hds, rfl, hb'⟩
  obtain ⟨dss, M, hall, hM, rfl, hholds⟩ := run_sim (fun s M => s.machine = M ∧ Holds dram s)
    (fun e ds => ∃ memory, ds = (Event.toMachine memory e).toList) hstep hinit hrun
  exact ⟨dss, hall, hM, hholds⟩

/-- Every run of the simulator with NewtonSim is a run of the machine, event by event, with some
decisions of its memory; what that owes is what NewtonSim has inside. -/
theorem run_follows {rrStart : ℕ} {es : List Event}
    (hrun : run (step config dram set) (init config rrStart) es = .ok s) :
    ∃ dss, List.Forall₂ (fun e ds => ∃ memory, ds = (e.toMachine memory).toList) es dss ∧
      run (Machine.step config dram.toConfig set) (.init config rrStart) dss.flatten =
        .ok s.machine ∧
      ∀ i, ((s.machine.dram i).filter fun access => access.reqType ≠ .P_HEADER).Perm
        (inside dram s.memory i) := by
  obtain ⟨dss, hall, hM, hholds⟩ := exists_machine_run hrun
  refine ⟨dss, hall, hM, fun i => ?_⟩
  rw [List.perm_iff_count]
  intro x
  rw [hholds i x]
  by_cases hheader : x.reqType = .P_HEADER
  · rw [if_pos hheader]
    exact List.count_eq_zero.mpr fun hmem => by simp [hheader] at hmem
  · rw [if_neg hheader]
    exact List.count_filter (by simp [hheader])

def oneChannel : SimulationConfig := { sampleConfig with dramChannels := 1 }

/-- Bursts are as long as the requests of a core. -/
def oneMemory : DramConfig := { NewtonSim.smallMemory with BL := 64 }

/-- Two commands of a kernel, for the same row. -/
def kernelTile : Tile where
  status := .INITIALIZED
  operationId := 1
  stagePlatform := .PIM
  instructions := [0, 1].map fun i =>
    { opcode := .PIM_COMPS_READRES
      destAddr := ACCUM_SPAD_BASE + BitVec.ofNat 64 i
      size := 1
      srcAddrs := [BitVec.ofNat 64 (2048 * i)]
      isPimInst := true }

/-- The commands go to the memory, and their results come back to the core. -/
def kernelEvents : List Event :=
  [.issuePim 0 kernelTile] ++ (List.replicate 4 [.cycle 0, .icntCycle]).flatten ++
    List.replicate 20 .dramCycle ++ (List.replicate 4 [.icntCycle, .cycle 0]).flatten

theorem run_follows_kernelEvents : ∃ s dss,
    run (step oneChannel oneMemory .byInsertion) (init oneChannel 0) kernelEvents = .ok s ∧
      (s.machine.delivered 0).length = 2 ∧
      List.Forall₂ (fun e ds => ∃ memory, ds = (e.toMachine memory).toList) kernelEvents dss ∧
      run (Machine.step oneChannel oneMemory.toConfig .byInsertion) (.init oneChannel 0)
        dss.flatten = .ok s.machine ∧
      ∀ i, ((s.machine.dram i).filter fun access => access.reqType ≠ .P_HEADER).Perm
        (inside oneMemory s.memory i) := by
  have hend : (run (step oneChannel oneMemory .byInsertion) (init oneChannel 0) kernelEvents).map
      (fun s => (s.machine.delivered 0).length) = .ok 2 := by decide +kernel
  obtain ⟨s, hs, hdelivered⟩ := map_ok hend
  obtain ⟨dss, hfollows⟩ := run_follows hs
  exact ⟨s, dss, hs, hdelivered, hfollows⟩

end Follows

end FullMachine

end NewPims

import NewPims.Simulator.FullMachine

/-! Where the memory is asked for what it supports, and the rows of kernels hold nothing else, it
never stops the simulator. -/
namespace NewPims.FullMachine

open Machine (memReqQueue)
open NewtonSim (DramConfig DRAMSystem MemoryFault Operable Regular transactionType)
open NewtonSim.DRAMSystem (Matched Synced)
open Transition

variable {config : SimulationConfig} {dram : DramConfig} {set : RobinHood}
  {P : BitVec 32 → Prop} {R : ℕ → MemoryAccess → Prop} {s t : FullMachine} {i : ℕ}
  {f : MemoryFault}

section Definitions

variable (config : SimulationConfig) (dram : DramConfig) (P : BitVec 32 → Prop)

/-- What holds of the requests that the interconnect has for the memory, by channel. -/
def Queued (R : ℕ → MemoryAccess → Prop) (n : SimpleInterconnect) : Prop :=
  ∀ i < config.dramChannels, ∀ request ∈ n.memReqQueue1 i ++ n.memReqQueue2 i, R i request

/-- The requests that the interconnect has for the memory are supported, and keep the rows of kernels
to them. -/
def Requests : SimpleInterconnect → Prop :=
  Queued config fun _ request =>
    NewtonSim.Controller.Supported dram request.dramAddress (transactionType request.reqType) ∧
      NewtonSim.Controller.Apart dram P
        (.addTransaction request.dramAddress (transactionType request.reqType))

/-- They are of one burst each, and have come to their channel. -/
def Bursts : SimpleInterconnect → Prop := Queued config fun i => Machine.IsBurst dram.toConfig i

instance [DecidablePred P] (n : SimpleInterconnect) : Decidable (Requests config dram P n) := by
  unfold Requests Queued
  infer_instance

instance (n : SimpleInterconnect) : Decidable (Bursts config dram n) := by
  unfold Bursts Queued
  infer_instance

/-- A request waits for all that the controllers hold, and their clocks agree. -/
structure Sound (s : FullMachine) : Prop where
  matched : Matched dram (NewtonSim.Controller.Apart dram P) s.memory
  synced : Synced s.memory (List.range dram.channels)

/-- A state in which the memory can be given what the interconnect has for it. -/
def Ready (s : FullMachine) : Prop := Sound dram P s ∧ Requests config dram P s.machine.icnt

/-- And in which it takes it. -/
def Taken (s : FullMachine) : Prop := Ready config dram P s ∧ Bursts config dram s.machine.icnt

end Definitions

theorem ofMachine_ne {α : Type} (x : Except Fault α) : ofMachine x ≠ .error (.memory f) := by
  cases x <;> simp [ofMachine, Except.mapError]

theorem ofMemory_ne {α : Type} {x : Except MemoryFault α} (h : x ≠ .error f) :
    ofMemory x ≠ .error (.memory f) := by
  cases x with
  | error e =>
    intro heq
    exact h (congrArg Except.error (SystemFault.memory.inj (Except.error.inj heq)))
  | ok a => simp [ofMemory, Except.mapError]

theorem isFull_ne {request : MemoryAccess}
    (h : NewtonSim.Controller.Supported dram request.dramAddress (transactionType request.reqType)) :
    s.memory.isFull dram request ≠ .error f := by
  refine map_ne_error ?_
  unfold DRAMSystem.willAcceptTransaction
  dsimp only
  split
  -- the assertion is on the two types that are not supported
  · unfold NewtonSim.Controller.willAcceptTransaction
    cases htype : request.reqType <;> rw [htype] at h <;>
      simp [transactionType, NewtonSim.Controller.Supported] at h ⊢
  · simp

theorem queued_of_same {n n' : SimpleInterconnect} (h : Queued config R n)
    (hfirst : ∀ j, ∀ a ∈ n'.memReqQueue1 j, a ∈ n.memReqQueue1 j)
    (hsecond : ∀ j, ∀ a ∈ n'.memReqQueue2 j, a ∈ n.memReqQueue2 j) : Queued config R n' := by
  intro i hi a ha
  apply h i hi a
  rcases List.mem_append.mp ha with ha | ha
  · exact List.mem_append_left _ (hfirst i a ha)
  · exact List.mem_append_right _ (hsecond i a ha)

theorem mem_of_mem_tail_update {α : Type} {queues : ℕ → List α} {j : ℕ} {a : α}
    (h : a ∈ Function.update queues i (queues i).tail j) : a ∈ queues j := by
  by_cases hj : j = i
  · subst hj
    rw [Function.update_self] at h
    exact List.mem_of_mem_tail h
  · rwa [Function.update_of_ne hj] at h

theorem queued_memreqPop {n n' : SimpleInterconnect} {platform : StagePlatform}
    (h : Queued config R n) (hpop : Machine.memreqPop config n platform i = .ok n') :
    Queued config R n' := by
  cases platform with
  | SA =>
    obtain ⟨-, rfl⟩ := SimpleInterconnect.memreqPop1_ok hpop
    exact queued_of_same h (fun _ _ ha => mem_of_mem_tail_update ha) fun _ _ ha => ha
  | PIM =>
    obtain ⟨-, rfl⟩ := SimpleInterconnect.memreqPop2_ok hpop
    exact queued_of_same h (fun _ _ ha => ha) fun _ _ ha => mem_of_mem_tail_update ha

theorem mem_requests {n : SimpleInterconnect} {platform : StagePlatform} {request : MemoryAccess}
    {rest : List MemoryAccess} (hqueue : memReqQueue n platform i = request :: rest) :
    request ∈ n.memReqQueue1 i ++ n.memReqQueue2 i := by
  have hhead : request ∈ memReqQueue n platform i := by
    rw [hqueue]
    exact List.mem_cons_self
  cases platform with
  | SA => exact List.mem_append_left _ hhead
  | PIM => exact List.mem_append_right _ hhead

section Forward

variable {platform : StagePlatform}

/-- A request stays where it is, or the memory takes it. -/
theorem forwardRequest_ok (h : forwardRequest config dram platform i s = .ok t) :
    t = s ∨ ∃ request rest M memory icnt, memReqQueue s.machine.icnt platform i = request :: rest ∧
      s.memory.isFull dram request = .ok false ∧
      s.memory.push dram i request = .ok memory ∧
      Machine.dramPush dram.toConfig i request s.machine = .ok M ∧
      Machine.memreqPop config s.machine.icnt platform i = .ok icnt ∧
      t = { machine := { M with icnt }, memory } := by
  unfold forwardRequest at h
  cases hqueue : memReqQueue s.machine.icnt platform i with
  | nil =>
    simp only [hqueue] at h
    cases h
    exact .inl rfl
  | cons request rest =>
    simp only [hqueue] at h
    obtain ⟨full, hfull, h⟩ := bind_ok.mp h
    cases full with
    | true =>
      cases h
      exact .inl rfl
    | false =>
      obtain ⟨memory, hmemory, h⟩ := bind_ok.mp h
      obtain ⟨M, hM, h⟩ := bind_ok.mp h
      obtain ⟨icnt, hicnt, h⟩ := bind_ok.mp h
      cases h
      have hM := ofMachine_ok hM
      have hicnt := ofMachine_ok hicnt
      rw [(Machine.dramPush_ok hM).2] at hicnt
      exact .inr ⟨request, rest, M, memory, icnt, rfl, ofMemory_ok hfull, ofMemory_ok hmemory, hM,
        hicnt, rfl⟩

theorem queued_forwardRequest (h : Queued config R s.machine.icnt)
    (hok : forwardRequest config dram platform i s = .ok t) : Queued config R t.machine.icnt := by
  obtain rfl | ⟨request, rest, M, memory, icnt, -, -, -, -, hicnt, rfl⟩ := forwardRequest_ok hok
  · exact h
  · exact queued_memreqPop h hicnt

theorem ready_forwardRequest (hi : i < config.dramChannels)
    (hchannels : config.dramChannels ≤ dram.channels) (h : Ready config dram P s)
    (hok : forwardRequest config dram platform i s = .ok t) : Ready config dram P t := by
  refine ⟨?_, queued_forwardRequest h.2 hok⟩
  obtain rfl | ⟨request, rest, M, memory, icnt, hqueue, hfull, hmemory, -, -, rfl⟩ :=
    forwardRequest_ok hok
  · exact h.1
  · obtain ⟨hsupported, hapart⟩ := h.2 i hi request (mem_requests hqueue)
    have hburst := (NewtonSim.DRAMSystem.push_ok hmemory).1
    obtain ⟨T, hT, -, hmatched, hsynced⟩ := NewtonSim.DRAMSystem.push_spec h.1.matched h.1.synced
      ⟨by omega, hburst, hsupported, hapart, hfull⟩
    cases hT.symm.trans hmemory
    exact ⟨hmatched, hsynced⟩

theorem forwardRequest_ne (hi : i < config.dramChannels)
    (hchannels : config.dramChannels ≤ dram.channels) (h : Taken config dram P s) :
    forwardRequest config dram platform i s ≠ .error (.memory f) := by
  unfold forwardRequest
  cases hqueue : memReqQueue s.machine.icnt platform i with
  | nil => simp
  | cons request rest =>
    obtain ⟨⟨hsound, hrequests⟩, hbursts⟩ := h
    obtain ⟨hsupported, hapart⟩ := hrequests i hi request (mem_requests hqueue)
    have hburst := hbursts i hi request (mem_requests hqueue)
    refine bind_ne_error (ofMemory_ne (isFull_ne hsupported)) ?_
    intro full hfull
    cases full with
    | true => simp
    | false =>
      obtain ⟨T, hT, -⟩ := NewtonSim.DRAMSystem.push_spec hsound.matched hsound.synced
        ⟨by omega, hburst, hsupported, hapart, ofMemory_ok hfull⟩
      refine bind_ne_error (ofMemory_ne (by rw [hT]; simp)) ?_
      intro memory _
      refine bind_ne_error (ofMachine_ne _) ?_
      intro M _
      refine bind_ne_error (ofMachine_ne _) ?_
      intro icnt _
      simp

theorem forwardRequest_avoids (hi : i < config.dramChannels)
    (hchannels : config.dramChannels ≤ dram.channels) :
    Avoids (.memory f) (Taken config dram P) (forwardRequest config dram platform i)
      (Taken config dram P) := by
  intro s hs
  refine ⟨forwardRequest_ne hi hchannels hs, ?_⟩
  intro t ht
  exact ⟨ready_forwardRequest hi hchannels hs.1 ht, queued_forwardRequest hs.2 ht⟩

end Forward

section Take

theorem takeResponse_ok (h : takeResponse config dram i s = .ok t) :
    t = s ∨ t.memory = s.memory.pop i ∧
      t.machine.icnt.memReqQueue1 = s.machine.icnt.memReqQueue1 ∧
      t.machine.icnt.memReqQueue2 = s.machine.icnt.memReqQueue2 := by
  unfold takeResponse at h
  cases htop : s.memory.top i with
  | none =>
    simp only [htop] at h
    cases h
    exact .inl rfl
  | some response =>
    simp only [htop] at h
    obtain ⟨dest, -, h⟩ := bind_ok.mp h
    obtain ⟨icnt, hicnt, h⟩ := bind_ok.mp h
    cases h
    obtain ⟨-, rfl⟩ := SimpleInterconnect.push_ok (ofMachine_ok hicnt)
    exact .inr ⟨rfl, rfl, rfl⟩

theorem queued_takeResponse (h : Queued config R s.machine.icnt)
    (hok : takeResponse config dram i s = .ok t) : Queued config R t.machine.icnt := by
  obtain rfl | ⟨-, hfirst, hsecond⟩ := takeResponse_ok hok
  · exact h
  · refine queued_of_same h ?_ ?_
    · intro j a ha
      rwa [hfirst] at ha
    · intro j a ha
      rwa [hsecond] at ha

theorem ready_takeResponse (h : Ready config dram P s)
    (hok : takeResponse config dram i s = .ok t) : Ready config dram P t := by
  refine ⟨?_, queued_takeResponse h.2 hok⟩
  obtain rfl | ⟨hmemory, -, -⟩ := takeResponse_ok hok
  · exact h.1
  · have hpop : Sound dram P { s with memory := s.memory.pop i } :=
      ⟨NewtonSim.DRAMSystem.matched_pop h.1.matched, h.1.synced⟩
    refine ⟨?_, ?_⟩
    · rw [hmemory]
      exact hpop.matched
    · rw [hmemory]
      exact hpop.synced

theorem takeResponse_avoids : Avoids (.memory f) (Taken config dram P)
    (takeResponse config dram i) (Taken config dram P) := by
  intro s hs
  constructor
  · unfold takeResponse
    split
    · simp
    · refine bind_ne_error (ofMachine_ne _) ?_
      intro dest _
      refine bind_ne_error (ofMachine_ne _) ?_
      intro icnt _
      simp
  · intro t ht
    exact ⟨ready_takeResponse hs.1 ht, queued_takeResponse hs.2 ht⟩

end Take

theorem dramChannels_avoids (hchannels : config.dramChannels ≤ dram.channels) :
    Avoids (.memory f) (Taken config dram P)
      (fun s => (List.range config.dramChannels).foldlM (dramChannel config dram) s)
      (Taken config dram P) := by
  refine avoids_foldlM ?_
  intro i hi
  have hi := List.mem_range.mp hi
  exact avoids_bind (forwardRequest_avoids hi hchannels)
    (avoids_bind (forwardRequest_avoids hi hchannels) takeResponse_avoids)

theorem ready_dramChannel (hi : i < config.dramChannels)
    (hchannels : config.dramChannels ≤ dram.channels) (h : Ready config dram P s)
    (hok : dramChannel config dram s i = .ok t) : Ready config dram P t := by
  obtain ⟨a, ha, hok⟩ := bind_ok.mp hok
  obtain ⟨b, hb, hok⟩ := bind_ok.mp hok
  have hreadya := ready_forwardRequest hi hchannels h ha
  exact ready_takeResponse (ready_forwardRequest hi hchannels hreadya hb) hok

/-- The cores add to the buffers of the interconnect only, not to its memory queues. -/
theorem queued_of_sameMemory {M : Machine} (h : Queued config R s.machine.icnt)
    (hsame : SameMemory s.machine M) : Queued config R M.icnt := by
  refine queued_of_same h ?_ ?_
  · intro j a ha
    rwa [hsame.first] at ha
  · intro j a ha
    rwa [hsame.second] at ha

theorem ready_of_same {M : Machine} (h : Ready config dram P s) (hsame : SameMemory s.machine M) :
    Ready config dram P { s with machine := M } :=
  ⟨⟨h.1.matched, h.1.synced⟩, queued_of_sameMemory h.2 hsame⟩

section Step

variable {e : Event}

theorem sound_icntCycle (hchannels : config.dramChannels ≤ dram.channels)
    (h : Ready config dram P s) (hok : icntCycle config dram s = .ok t) : Sound dram P t := by
  obtain ⟨M, hM, hok⟩ := bind_ok.mp hok
  obtain ⟨u, hu, hok⟩ := bind_ok.mp hok
  cases hok
  have hend : Ready config dram P u := by
    refine foldlM_inv_mem (P := Ready config dram P) ?_
      (ready_of_same h (sameMemory_coreChannels (ofMachine_ok hM))) hu
    intro a b j hj ha hb
    exact ready_dramChannel (List.mem_range.mp hj) hchannels ha hb
  exact ⟨hend.1.matched, hend.1.synced⟩

theorem icntCycle_ne (hchannels : config.dramChannels ≤ dram.channels)
    (h : Taken config dram P s) : icntCycle config dram s ≠ .error (.memory f) := by
  refine bind_ne_error (ofMachine_ne _) ?_
  intro M hM
  have hsame := sameMemory_coreChannels (ofMachine_ok hM)
  have hM : Taken config dram P { s with machine := M } :=
    ⟨ready_of_same h.1 hsame, queued_of_sameMemory h.2 hsame⟩
  refine bind_ne_error (dramChannels_avoids hchannels _ hM).1 ?_
  intro u _
  simp

theorem sound_dramCycle (hregular : Regular dram) (h : Sound dram P s)
    (hok : step config dram set s .dramCycle = .ok t) : Sound dram P t := by
  obtain ⟨T', hT', rfl⟩ := map_ok hok
  rcases NewtonSim.DRAMSystem.clockTick_spec hregular trivial trivial
    (NewtonSim.DRAMSystem.stops_apart hregular) NewtonSim.DRAMSystem.not_operable h.matched
    h.synced with ⟨f, hf, -⟩ | ⟨T, hT, hmatched, hsynced⟩
  · cases hf.symm.trans (ofMemory_ok hT')
  · cases hT.symm.trans (ofMemory_ok hT')
    exact ⟨hmatched, hsynced⟩

theorem dramCycle_ne (hregular : Regular dram) (hoperable : Operable dram)
    (h : Sound dram P s) : step config dram set s .dramCycle ≠ .error (.memory f) := by
  rcases NewtonSim.DRAMSystem.clockTick_spec hregular trivial trivial
    (NewtonSim.DRAMSystem.stops_apart hregular) NewtonSim.DRAMSystem.not_operable h.matched
    h.synced with ⟨-, -, hnot⟩ | ⟨T, hT, -⟩
  · exact absurd hoperable hnot
  · exact map_ne_error (ofMemory_ne (by rw [hT]; simp))

theorem sound_coreStep {e : Machine.Event} (h : Sound dram P s)
    (hok : coreStep config dram set s e = .ok t) : Sound dram P t := by
  obtain ⟨M, -, rfl⟩ := map_ok hok
  exact ⟨h.matched, h.synced⟩

/-- Every step that ends keeps a request for all that the controllers hold. -/
theorem sound_step (hregular : Regular dram) (hchannels : config.dramChannels ≤ dram.channels)
    (h : Ready config dram P s) (hok : step config dram set s e = .ok t) : Sound dram P t := by
  cases e with
  | issue coreId tile => exact sound_coreStep h.1 hok
  | issuePim coreId tile => exact sound_coreStep h.1 hok
  | popFinishedTile coreId => exact sound_coreStep h.1 hok
  | cycle coreId => exact sound_coreStep h.1 hok
  | dramCycle => exact sound_dramCycle hregular h.1 hok
  | icntCycle => exact sound_icntCycle hchannels h hok

theorem step_ne (hregular : Regular dram) (hoperable : Operable dram)
    (hchannels : config.dramChannels ≤ dram.channels) (h : Taken config dram P s) :
    step config dram set s e ≠ .error (.memory f) := by
  have hcore : ∀ e : Machine.Event, coreStep config dram set s e ≠ .error (.memory f) :=
    fun e => map_ne_error (ofMachine_ne _)
  cases e with
  | issue coreId tile => exact hcore (.issue coreId tile)
  | issuePim coreId tile => exact hcore (.issuePim coreId tile)
  | popFinishedTile coreId => exact hcore (.popFinishedTile coreId)
  | cycle coreId => exact hcore (.cycle coreId)
  | dramCycle => exact dramCycle_ne hregular hoperable h.1.1
  | icntCycle => exact icntCycle_ne hchannels h

end Step

theorem sound_init (rrStart : ℕ) : Sound dram P (init config rrStart) := by
  have haccounts := @NewtonSim.DRAMSystem.accounts_initial dram (NewtonSim.Controller.Apart dram P)
  exact ⟨haccounts.matched, haccounts.synced⟩

/-- Where the requests that reach the memory are supported bursts of their channel, and the rows of
kernels hold nothing else, no run stops in the memory. -/
theorem run_ne_memory (hregular : Regular dram) (hoperable : Operable dram)
    (hchannels : config.dramChannels ≤ dram.channels) {rrStart : ℕ} {es : List Event}
    (hrequests : AllCalls (step config dram set) (fun s _ =>
      Requests config dram P s.machine.icnt ∧ Bursts config dram s.machine.icnt)
      (init config rrStart) es) (f : MemoryFault) :
    run (step config dram set) (init config rrStart) es ≠ .error (.memory f) := by
  refine run_ne_error_of (Sound dram P) (fun s _ =>
    Requests config dram P s.machine.icnt ∧ Bursts config dram s.machine.icnt) ?_ ?_
    (sound_init rrStart) hrequests
  · rintro s e t hs ⟨hready, -⟩ hok
    exact sound_step hregular hchannels ⟨hs, hready⟩ hok
  · rintro s e hs ⟨hready, hbursts⟩
    exact step_ne hregular hoperable hchannels ⟨⟨hs, hready⟩, hbursts⟩

theorem regular_oneMemory : Regular oneMemory := by
  refine ⟨⟨?_, ?_, ?_⟩, rfl, rfl, rfl, ?_, ?_, ?_, ?_⟩ <;> decide

theorem operable_oneMemory : Operable oneMemory := by
  refine ⟨?_, rfl, ?_⟩ <;> decide

theorem run_ne_memory_kernelEvents :
    run (step oneChannel oneMemory .byInsertion) (init oneChannel 0) kernelEvents ≠
      .error (.memory .otherCommand) :=
  run_ne_memory (P := fun row => row.toNat < 4) regular_oneMemory operable_oneMemory (by decide)
    (by decide +kernel) _

end NewPims.FullMachine

import NewPims.Lib.Relay
import NewPims.NewtonSim.Codec
import NewPims.Simulator.Hops

/-! The queues that the commands of a single core pass on their way to a channel of the PIM: every
move between them is a step of a relay. -/
namespace NewPims

section Channel

variable {config : SimulationConfig} {mem : NewtonSim.Config} {k : ℕ}

/-- The simulator and the memory model find the same channel in every address. -/
theorem NewtonSim.Shared.getChannel (h : Shared config mem k) (address : AddrType) :
    mem.getChannel address = AddressConfig.maskChannel config address := by
  have hwidth := (fieldWidths_shared h).1
  have hpos := (pos_shared h).2.1
  have hfew := h.few
  have hmask : AddressConfig.maskChannel config address = (BitField.field address 10 k).toNat := by
    rw [AddressConfig.maskChannel, AddressConfig.channelMask, h.dramChannels]
    rfl
  have hlt : (BitField.field address 10 k).toNat < 2 ^ 32 := by
    rw [BitField.toNat_field (by omega)]
    calc address.toNat / 2 ^ 10 % 2 ^ k < 2 ^ k := Nat.mod_lt _ (Nat.two_pow_pos k)
      _ ≤ 2 ^ 32 := Nat.pow_le_pow_right (by decide) (by omega)
  simp only [Config.getChannel, Config.addressOf, Config.fieldOf, shiftBits_shared h,
    BitField.field_shiftRight, hwidth, hpos]
  rw [hmask, BitVec.toNat_setWidth, Nat.mod_eq_of_lt hlt]

end Channel

namespace Machine

open NeuPIMSystolicWS SimpleInterconnect Transition

section Definitions

variable (config : SimulationConfig) (mem : NewtonSim.Config) (ch : ℕ)

/-- The queues that a command passes on its way to the channel, from the memory on: what the memory
has got, the memory queue, the interconnect and the request queue of the core. -/
def line (M : Machine) : Relay PimCommand
  | 0 => (M.handed ch).map MemoryAccess.asCommand
  | 1 => (memReqQueue M.icnt (commandPlatform config) ch).map MemoryAccess.asCommand
  | 2 => (M.icnt.inBuffers (coreNode config 0 ch)).map fun e => e.access.asCommand
  | 3 => (((M.cores 0).lane .PIM).memoryRequestQueues ch).map MemoryAccess.asCommand
  | _ => []

/-- One core, and one channel for an address in the core and in the memory. -/
structure Single : Prop where
  core : config.numCores = 1
  channel : ∀ address, mem.getChannel address = AddressConfig.maskChannel config address

end Definitions

variable {config : SimulationConfig} {mem : NewtonSim.Config} {M M' : Machine}
  {memory : MemoryCycle} {p : StagePlatform} {ch ch' : ℕ}

theorem Single.aligned (h : Single config mem) : Aligned config := by
  intro coreId hcore ch hch
  rw [h.core, Nat.lt_one_iff] at hcore
  rw [coreInd, coreNode, hcore, Nat.zero_mul, Nat.zero_mul]

theorem Single.zero_lt (h : Single config mem) : 0 < config.numCores := by
  rw [h.core]
  exact Nat.one_pos

/-- Two states with the same queues for the channel. -/
theorem line_congr (hhanded : M'.handed ch = M.handed ch)
    (hstored : memReqQueue M'.icnt (commandPlatform config) ch =
      memReqQueue M.icnt (commandPlatform config) ch)
    (hbuffer : M'.icnt.inBuffers (coreNode config 0 ch) =
      M.icnt.inBuffers (coreNode config 0 ch))
    (hrequests : ((M'.cores 0).lane .PIM).memoryRequestQueues ch =
      ((M.cores 0).lane .PIM).memoryRequestQueues ch) (j : ℕ) :
    line config ch M' j = line config ch M j := by
  rcases j with _ | _ | _ | _ | j
  · exact congrArg _ hhanded
  · exact congrArg _ hstored
  · exact congrArg _ hbuffer
  · exact congrArg _ hrequests
  · rfl

theorem dropRequest_requests (c : NeuPIMSCore) (p q : StagePlatform) (ch ch' : ℕ) :
    ((dropRequest c p ch').lane q).memoryRequestQueues ch =
      if q = p ∧ ch = ch' then ((c.lane p).memoryRequestQueues ch').tail
      else (c.lane q).memoryRequestQueues ch := by
  simp only [dropRequest, NeuPIMSCore.setLane]
  by_cases hq : q = p
  · subst hq
    rw [Function.update_self]
    by_cases hch : ch = ch'
    · subst hch
      simp
    · simp [hch]
  · simp [hq]

/-- The request that the core sends leaves its queue for the interconnect. -/
theorem line_sendRequest (hsingle : Single config mem) (hch : ch < config.dramChannels)
    (hch' : ch' < config.dramChannels) (h : Lawful config mem M)
    (hsend : sendRequest config mem p 0 ch' M = .ok M') :
    (p = .PIM ∧ ch = ch' → Relay.Advance 2 (line config ch M) (line config ch M') ∨
      line config ch M 3 = []) ∧ Relay.Step 3 (line config ch M) (line config ch M') := by
  obtain ⟨hqueue, rfl⟩ | ⟨front, rest, dest, hqueue, -, hM'⟩ := sendRequest_ok hsend
  · refine ⟨?_, .idle fun _ => rfl⟩
    rintro ⟨rfl, rfl⟩
    exact Or.inr (congrArg _ hqueue)
  have hfront := h.requests 0 hsingle.zero_lt p ch' front (by rw [hqueue]; exact List.mem_cons_self)
  have hrequests : ((M'.cores 0).lane .PIM).memoryRequestQueues ch =
      if .PIM = p ∧ ch = ch' then rest else ((M.cores 0).lane .PIM).memoryRequestQueues ch := by
    rw [hM']
    dsimp only
    rw [setCore_cores, Function.update_self, dropRequest_requests, hqueue, List.tail_cons]
  have hstored : line config ch M' 1 = line config ch M 1 := by
    rw [hM']
    unfold line
    cases commandPlatform config <;> rfl
  have hhanded : line config ch M' 0 = line config ch M 0 := by
    rw [hM']
    rfl
  by_cases hsame : ch = ch'
  · subst hsame
    have hbuffer : line config ch M' 2 = line config ch M 2 ++ [front.asCommand] := by
      rw [hM', hsingle.aligned 0 hsingle.zero_lt ch hch]
      simp only [line, Function.update_self, List.map_append]
      rfl
    cases p with
    | SA =>
      refine ⟨fun heq => absurd heq.1 (by decide), ?_⟩
      have hnone : front.asCommand = none := by
        refine if_neg fun hcommand => ?_
        cases hfront.command hcommand
      rw [if_neg (fun heq => absurd heq.1 (by decide))] at hrequests
      refine .join 2 (by decide) (hbuffer.trans (by rw [hnone])) fun j hj => ?_
      rcases j with _ | _ | _ | _ | j
      · exact hhanded
      · exact hstored
      · exact absurd rfl hj
      · exact congrArg _ hrequests
      · rfl
    | PIM =>
      rw [if_pos ⟨rfl, rfl⟩] at hrequests
      have hadvance : Relay.Advance 2 (line config ch M) (line config ch M') := by
        refine .pass front.asCommand ?_ hbuffer fun j hj hj' => ?_
        · simp only [line, hqueue, hrequests, List.map_cons]
        · rcases j with _ | _ | _ | _ | j
          · exact hhanded
          · exact hstored
          · exact absurd rfl hj
          · exact absurd rfl hj'
          · rfl
      exact ⟨fun _ => Or.inl hadvance, .advance 2 (by decide) hadvance⟩
  · refine ⟨fun heq => absurd heq.2 hsame, .idle fun j => ?_⟩
    rw [if_neg fun heq => hsame heq.2] at hrequests
    have hbuffer : line config ch M' 2 = line config ch M 2 := by
      have hne : coreNode config 0 ch ≠ coreNode config 0 ch' :=
        fun heq => hsame (coreNode_inj hch hch' heq).2
      rw [hM', hsingle.aligned 0 hsingle.zero_lt ch' hch']
      simp only [line, Function.update_of_ne hne]
    rcases j with _ | _ | _ | _ | j
    · exact hhanded
    · exact hstored
    · exact hbuffer
    · exact congrArg _ hrequests
    · rfl

theorem line_receiveResponse (hreceive : receiveResponse config 0 ch' M = .ok M') (j : ℕ) :
    line config ch M' j = line config ch M j := by
  obtain ⟨-, rfl⟩ | ⟨response, rest, c, -, hc, rfl⟩ := receiveResponse_ok hreceive
  · rfl
  refine line_congr ?_ ?_ ?_ ?_ j
  · rfl
  · cases commandPlatform config <;> rfl
  · rfl
  · have hqueues := ((pushMemoryResponse_queues hc).1 .PIM).2.2.2.2
    dsimp only
    rw [setCore_cores, Function.update_self, hqueues]

/-- The memory gets what has waited for it the longest. -/
theorem line_forwardRequest (ch : ℕ) (h : Lawful config mem M)
    (hforward : forwardRequest config mem memory p ch' M = .ok M') :
    (p = commandPlatform config ∧ ch = ch' → memory.full p ch = false →
      Relay.Advance 0 (line config ch M) (line config ch M') ∨ line config ch M 1 = []) ∧
      Relay.Step 3 (line config ch M) (line config ch M') := by
  obtain ⟨hidle, rfl⟩ | ⟨request, rest, n', hqueue, -, hpop, hM'⟩ := forwardRequest_ok hforward
  · refine ⟨?_, .idle fun _ => rfl⟩
    rintro ⟨rfl, rfl⟩ hfull
    rcases hidle with hempty | hbusy
    · exact Or.inr (congrArg _ hempty)
    · rw [hfull] at hbusy
      cases hbusy
  obtain ⟨-, hin, -, hqueues⟩ := memreqPop_ok hpop
  have hwaiting := h.net.waiting p ch' request (by rw [hqueue]; exact List.mem_cons_self)
  have hbuffer : line config ch M' 2 = line config ch M 2 := by
    rw [hM']
    simp only [line, hin]
  have hrequests : line config ch M' 3 = line config ch M 3 := by
    rw [hM']
    rfl
  have hstored : line config ch M' 1 =
      (Function.update M.icnt.queue (memPlace p ch') rest
        (memPlace (commandPlatform config) ch)).map MemoryAccess.asCommand := by
    rw [hM']
    simp only [line]
    rw [memReqQueue_eq, hqueues, ← memReqQueue_eq, hqueue, List.tail_cons]
  by_cases hsame : ch = ch'
  · subst hsame
    have hhanded : line config ch M' 0 = line config ch M 0 ++ [request.asCommand] := by
      rw [hM']
      simp only [line, Function.update_self, List.map_append]
      rfl
    by_cases hplat : p = commandPlatform config
    · rw [← hplat, Function.update_self] at hstored
      have hadvance : Relay.Advance 0 (line config ch M) (line config ch M') := by
        refine .pass request.asCommand ?_ hhanded fun j hj hj' => ?_
        · rw [hstored]
          simp only [line]
          rw [← hplat, hqueue]
          rfl
        · rcases j with _ | _ | _ | _ | j
          · exact absurd rfl hj
          · exact absurd rfl hj'
          · exact hbuffer
          · exact hrequests
          · rfl
      exact ⟨fun _ _ => Or.inl hadvance, .advance 0 (by decide) hadvance⟩
    · refine ⟨fun heq => absurd heq.1 hplat, ?_⟩
      have hnone : request.asCommand = none := if_neg fun hcommand => hplat (hwaiting.2 hcommand)
      have hne : memPlace (commandPlatform config) ch ≠ memPlace p ch := by
        revert hplat
        cases commandPlatform config <;> cases p <;> simp [memPlace]
      rw [Function.update_of_ne hne, ← memReqQueue_eq] at hstored
      refine .join 0 (by decide) (hhanded.trans (by rw [hnone])) fun j hj => ?_
      rcases j with _ | _ | _ | _ | j
      · exact absurd rfl hj
      · exact hstored
      · exact hbuffer
      · exact hrequests
      · rfl
  · refine ⟨fun heq => absurd heq.2 hsame, .idle fun j => ?_⟩
    have hne : memPlace (commandPlatform config) ch ≠ memPlace p ch' := by
      cases commandPlatform config <;> cases p <;> simp [memPlace, hsame]
    rw [Function.update_of_ne hne, ← memReqQueue_eq] at hstored
    rcases j with _ | _ | _ | _ | j
    · rw [hM']
      simp only [line, Function.update_of_ne hsame]
    · exact hstored
    · exact hbuffer
    · exact hrequests
    · rfl

theorem line_takeResponse (hsingle : Single config mem) (hch : ch < config.dramChannels)
    (htake : takeResponse config mem memory ch' M = .ok M') (j : ℕ) :
    line config ch M' j = line config ch M j := by
  obtain ⟨-, rfl⟩ | ⟨response, dest, -, -, -, rfl⟩ := takeResponse_ok htake
  · rfl
  refine line_congr ?_ ?_ ?_ ?_ j
  · rfl
  · cases commandPlatform config <;> rfl
  · exact Function.update_of_ne (coreNode_ne_memInd hsingle.zero_lt hch) _ _
  · rfl

theorem line_hop (hsingle : Single config mem) (hch : ch < config.dramChannels)
    (h : Lawful config mem M) (hhop : Hop config mem memory M M') :
    Relay.Step 3 (line config ch M) (line config ch M') := by
  cases hhop with
  | @send p coreId ch' hcore hch' hstep =>
    rw [hsingle.core, Nat.lt_one_iff] at hcore
    subst hcore
    exact (line_sendRequest hsingle hch hch' h hstep).2
  | @receive coreId ch' hcore hch' hstep =>
    rw [hsingle.core, Nat.lt_one_iff] at hcore
    subst hcore
    exact .idle (line_receiveResponse hstep)
  | forward p hch' hstep => exact (line_forwardRequest ch h hstep).2
  | take hch' hstep => exact .idle (line_takeResponse hsingle hch hstep)

/-- Only the core's own channel sends to the memory queues of that channel. -/
theorem place_exclusive (hsingle : Single config mem) (h : Routed config mem M.icnt)
    {s : ℕ} (hs : s < nNodes config) (hne : s ≠ coreNode config 0 ch) {e : Entity}
    (he : e ∈ M.icnt.inBuffers s) (p : StagePlatform) : place config e ≠ memPlace p ch := by
  obtain ⟨k, hk, c, hc, rfl⟩ | ⟨c, hc, rfl⟩ := node_cases hs
  · have hk0 : k = 0 := by
      rw [hsingle.core] at hk
      exact Nat.lt_one_iff.mp hk
    subst hk0
    have hout := h.outward 0 hk c hc e he
    intro hplace
    have hchannel := ((outward_place hout p ch).mp hplace).2
    rw [hsingle.channel, hout.channel] at hchannel
    exact hne (hchannel ▸ rfl)
  · have hhome := h.homeward c hc e he
    rw [homeward_place hhome hc]
    cases p <;> simp [memPlace]

/-- The arbitration moves the front of the channel's input queue, or nothing of the channel. -/
theorem line_arbitrate (hsingle : Single config mem) (hch : ch < config.dramChannels)
    (h : Lawful config mem M) :
    (M.icnt.movesOf config (coreNode config 0 ch) = [] ∧
      ∀ j, line config ch (arbitrate config M) j = line config ch M j) ∨
      Relay.Advance 1 (line config ch M) (line config ch (arbitrate config M)) := by
  have hstored : line config ch (arbitrate config M) 1 = line config ch M 1 ++
      ((M.icnt.movesOf config (coreNode config 0 ch)).filter
        (place config · = memPlace (commandPlatform config) ch)).map
          fun e => e.access.asCommand := by
    have hqueue : (M.icnt.cycle config).queue (memPlace (commandPlatform config) ch) =
        M.icnt.queue (memPlace (commandPlatform config) ch) ++
          ((M.icnt.movesOf config (coreNode config 0 ch)).filter
            (place config · = memPlace (commandPlatform config) ch)).map
              (SimpleInterconnect.delivered config) :=
      cycle_queue_exclusive fun s hs hne e he => place_exclusive hsingle h.net hs hne he _
    simp only [line, arbitrate]
    rw [memReqQueue_eq, memReqQueue_eq, hqueue, List.map_append, List.map_map]
    congr 1
    refine List.map_congr_left fun e he => ?_
    have hout := h.net.outward 0 hsingle.zero_lt ch hch e (mem_movesOf (List.mem_of_mem_filter he))
    rw [Function.comp_apply, outward_delivered hout, memReq_asCommand]
  have hbuffer : line config ch M 2 =
      (M.icnt.movesOf config (coreNode config 0 ch)).map (fun e => e.access.asCommand) ++
        line config ch (arbitrate config M) 2 := by
    have hsplit : M.icnt.inBuffers (coreNode config 0 ch) =
        M.icnt.movesOf config (coreNode config 0 ch) ++
          (M.icnt.cycle config).inBuffers (coreNode config 0 ch) := movesOf_eq M.icnt _
    simp only [line]
    rw [hsplit, List.map_append]
    rfl
  have hrest : ∀ j, j ≠ 1 → j ≠ 2 → line config ch (arbitrate config M) j = line config ch M j := by
    intro j hj hj'
    rcases j with _ | _ | _ | _ | j
    · rfl
    · exact absurd rfl hj
    · exact absurd rfl hj'
    · rfl
    · rfl
  have hle : (M.icnt.movesOf config (coreNode config 0 ch)).length ≤ 1 := movesOf_length_le M.icnt _
  rcases Nat.le_one_iff_eq_zero_or_eq_one.mp hle with hnone | hone
  · have hnil := List.length_eq_zero_iff.mp hnone
    rw [hnil] at hstored hbuffer
    refine Or.inl ⟨hnil, fun j => ?_⟩
    by_cases hj : j = 1
    · rw [hj, hstored]
      exact List.append_nil _
    by_cases hj' : j = 2
    · rw [hj']
      exact hbuffer.symm
    · exact hrest j hj hj'
  · obtain ⟨e, he⟩ := List.length_eq_one_iff.mp hone
    have hmem : e ∈ M.icnt.movesOf config (coreNode config 0 ch) := by
      rw [he]
      exact List.mem_cons_self
    have hout := h.net.outward 0 hsingle.zero_lt ch hch e (mem_movesOf hmem)
    rw [he] at hstored hbuffer
    right
    by_cases hplace : place config e = memPlace (commandPlatform config) ch
    · rw [List.filter_cons_of_pos (by simpa using hplace)] at hstored
      exact .pass e.access.asCommand hbuffer hstored hrest
    · rw [List.filter_cons_of_neg (by simpa using hplace)] at hstored
      have hplain : e.access.asCommand = none := by
        refine if_neg fun hcommand => hplace ?_
        refine (outward_place hout _ ch).mpr ⟨memReq_platform (hout.command hcommand), ?_⟩
        rw [hsingle.channel, hout.channel]
      refine .leave (hbuffer.trans (by simp [hplain])) fun j hj => ?_
      by_cases hj' : j = 1
      · rw [hj', hstored]
        exact List.append_nil _
      · exact hrest j hj' hj

/-- An interconnect cycle is made of steps in the line of the channel. -/
theorem line_icntCycle (hsingle : Single config mem) (hch : ch < config.dramChannels)
    {P : Relay PimCommand → Prop}
    (hP : ∀ q q', Relay.Step 3 q q' → P q → P q') (h : Lawful config mem M)
    (hM : P (line config ch M)) (hcycle : icntCycle config mem memory M = .ok M') :
    P (line config ch M') := by
  have hinv : Lawful config mem M' ∧ P (line config ch M') := by
    refine icntCycle_inv (P := fun N => Lawful config mem N ∧ P (line config ch N)) ?_ ?_
      ⟨h, hM⟩ hcycle
    · rintro A B hhop ⟨hA, hPA⟩
      exact ⟨lawful_hop hsingle.aligned hhop hA, hP _ _ (line_hop hsingle hch hA hhop) hPA⟩
    · rintro A ⟨hA, hPA⟩
      refine ⟨lawful_arbitrate hA, hP _ _ ?_ hPA⟩
      rcases line_arbitrate hsingle hch hA with ⟨-, hidle⟩ | hadvance
      · exact .idle hidle
      · exact .advance 1 (by decide) hadvance
  exact hinv.2

section Core

variable {c : NeuPIMSCore}

theorem loads_hop (hsingle : Single config mem) (hhop : Hop config mem memory M M') :
    (M'.cores 0).loadCommands config ch = (M.cores 0).loadCommands config ch := by
  cases hhop with
  | @send p coreId ch' hcore hch' hstep =>
    rw [hsingle.core, Nat.lt_one_iff] at hcore
    subst hcore
    obtain ⟨-, rfl⟩ | ⟨front, rest, dest, -, -, rfl⟩ := sendRequest_ok hstep
    · rfl
    · dsimp only
      rw [setCore_cores, Function.update_self]
      cases p <;> rfl
  | @receive coreId ch' hcore hch' hstep =>
    rw [hsingle.core, Nat.lt_one_iff] at hcore
    subst hcore
    obtain ⟨-, rfl⟩ | ⟨response, rest, c, -, hc, rfl⟩ := receiveResponse_ok hstep
    · rfl
    · have hqueues := ((pushMemoryResponse_queues hc).1 .PIM).2.1
      dsimp only
      rw [setCore_cores, Function.update_self, NeuPIMSCore.loadCommands, hqueues]
      rfl
  | forward p hch' hstep =>
    obtain ⟨-, rfl⟩ | ⟨request, rest, n', -, -, -, rfl⟩ := forwardRequest_ok hstep <;> rfl
  | take hch' hstep =>
    obtain ⟨-, rfl⟩ | ⟨response, dest, -, -, -, rfl⟩ := takeResponse_ok hstep <;> rfl

theorem loads_icntCycle (hsingle : Single config mem)
    (hcycle : icntCycle config mem memory M = .ok M') :
    (M'.cores 0).loadCommands config ch = (M.cores 0).loadCommands config ch :=
  icntCycle_inv
    (P := fun N => (N.cores 0).loadCommands config ch = (M.cores 0).loadCommands config ch)
    (fun _ _ hhop hA => (loads_hop hsingle hhop).trans hA) (fun _ hA => hA) rfl hcycle

/-- What the core requests joins the end of the line. -/
theorem line_sends (ch : ℕ) (hc : Sends config (M.cores 0) c) : ∃ xs : List MemoryAccess,
    line config ch (M.setCore 0 c) 3 = line config ch M 3 ++ xs.map MemoryAccess.asCommand ∧
      (∀ j, j ≠ 3 → line config ch (M.setCore 0 c) j = line config ch M j) ∧
      pimCommands xs ++ c.loadCommands config ch = (M.cores 0).loadCommands config ch := by
  obtain ⟨sent, hsent⟩ := hc
  refine ⟨sent .PIM ch, ?_, fun j hj => ?_, hsent.loads ch⟩
  · simp only [line, setCore_cores, Function.update_self, hsent.requests, List.map_append]
  · rcases j with _ | _ | _ | _ | j
    · rfl
    · rfl
    · rfl
    · exact absurd rfl hj
    · rfl

end Core

end Machine

end NewPims

import NewPims.NeuPIMSystolicWS.Release
import NewPims.Sram.Remain

/-! The responses and results to come against what the entries wait for: the invariant, and each
step of a core. -/
namespace NewPims

open Transition

namespace Lane

variable {l l' : Lane} {s : Sram} {address a : AddrType} {bufferId b size count : ℕ}

/-- The requests that the entry of the key `a` waits for. -/
def remain (l : Lane) (a : AddrType) (b : ℕ) : ℕ := (l.buffer a).remain a b

def Settled (l : Lane) : Prop := l.spad.Settled ∧ l.accSpad.Settled

theorem buffer_congr (h : ACCUM_SPAD_BASE ≤ a ↔ ACCUM_SPAD_BASE ≤ address) :
    l.buffer a = l.buffer address := by
  simp only [buffer, h]

theorem settled_buffer (h : l.Settled) (a : AddrType) : (l.buffer a).Settled := by
  unfold buffer
  split_ifs
  · exact h.2
  · exact h.1

theorem settled_setBuffer (h : l.Settled) (hs : s.Settled) : (l.setBuffer a s).Settled := by
  unfold setBuffer
  split_ifs
  · exact ⟨h.1, hs⟩
  · exact ⟨hs, h.2⟩

/-- A buffer that changes in the entry of one key. -/
theorem remain_setBuffer {n m : ℕ}
    (h : s.remain a b + n = (l.buffer address).remain a b + m)
    (hother : a ≠ address → n = 0 ∧ m = 0) :
    (l.setBuffer address s).remain a b + n = l.remain a b + m := by
  rw [remain, buffer_setBuffer]
  by_cases hside : ACCUM_SPAD_BASE ≤ a ↔ ACCUM_SPAD_BASE ≤ address
  · rw [if_pos hside, h, remain, buffer_congr hside]
  · obtain ⟨rfl, rfl⟩ := hother fun heq => hside (by rw [heq])
    rw [if_neg hside, remain]

theorem remain_reserve (h : l.reserve address bufferId size count = .ok l') :
    l'.remain a b = l.remain a b + if b = bufferId ∧ a = address then count else 0 := by
  obtain ⟨s, hs, rfl⟩ := reserve_ok h
  have heq := Sram.remain_reserve (a := a) (b := b) hs
  exact remain_setBuffer (n := 0) heq fun hne => ⟨rfl, if_neg fun hsame => hne hsame.2⟩

theorem remain_fill (h : l.fill address bufferId = .ok l') :
    l'.remain a b + (if b = bufferId ∧ a = address then 1 else 0) = l.remain a b := by
  obtain ⟨s, hs, rfl⟩ := fill_ok h
  have heq := Sram.remain_fill (a := a) (b := b) hs
  exact remain_setBuffer (m := 0) heq fun hne => ⟨if_neg fun hsame => hne hsame.2, rfl⟩

theorem settled_reserve (hl : l.Settled) (h : l.reserve address bufferId size count = .ok l') :
    l'.Settled := by
  obtain ⟨s, hs, rfl⟩ := reserve_ok h
  exact settled_setBuffer hl (Sram.settled_reserve (settled_buffer hl address) hs)

theorem settled_fill (hl : l.Settled) (h : l.fill address bufferId = .ok l') : l'.Settled := by
  obtain ⟨s, hs, rfl⟩ := fill_ok h
  exact settled_setBuffer hl (Sram.settled_fill (settled_buffer hl address) hs)

theorem exists_fill (hl : l.Settled) (h : 0 < l.remain address bufferId) :
    ∃ l', l.fill address bufferId = .ok l' := by
  obtain ⟨s, hs⟩ := Sram.exists_fill (settled_buffer hl address) h
  exact ⟨l.setBuffer address s, by rw [fill, hs]; rfl⟩

theorem remain_congr (hspad : l'.spad = l.spad) (hacc : l'.accSpad = l.accSpad) :
    l'.remain a b = l.remain a b := by
  rw [remain, remain, buffer, buffer, hspad, hacc]

end Lane

namespace NeuPIMSystolicWS

open Bank NeuPIMSCore Session

/-- The response to the request will fill the entry of the key `a`. -/
def responseFor (p : StagePlatform) (a : AddrType) (b : ℕ) (r : MemoryAccess) : Bool :=
  r.stagePlatform == p && r.reqType.fills && r.spadAddress == a && r.bufferId == b

/-- The result of the computation will fill the entry of the key `a`. -/
def resultFor (p : StagePlatform) (a : AddrType) (b : ℕ) (i : Instruction) : Bool :=
  decide (ACCUM_SPAD_BASE ≤ i.destAddr) && instPlatform i == p && i.destAddr == a &&
    i.accumSpadId == b

/-- The results to come; a dropped instruction has announced its result if it is valid. -/
def owedResults (config : SimulationConfig) (c : NeuPIMSCore) (p : StagePlatform) (a : AddrType)
    (b : ℕ) : ℕ :=
  (piped config c).countP (resultFor p a b) +
    c.dropped.countP fun i => resultFor p a b i && i.valid

def owing (config : SimulationConfig) (s : Session) (p : StagePlatform) (a : AddrType)
    (b : ℕ) : ℕ :=
  (s.requests config).countP (responseFor p a b) + owedResults config s.core p a b

/-- An entry waits for everything that is to fill it. -/
structure Owed (config : SimulationConfig) (s : Session) : Prop where
  settled : ∀ p, (s.core.lane p).Settled
  owed : ∀ p a b, owing config s p a b ≤ (s.core.lane p).remain a b

variable {config : SimulationConfig} {set : RobinHood} {c c' d : NeuPIMSCore} {s t : Session}
  {u u' : List MemoryAccess} {platform p : StagePlatform} {a : AddrType} {b : ℕ}
  {inst : Instruction} {accum : Bool}

theorem resultFor_iff : resultFor p a b inst = true ↔
    ACCUM_SPAD_BASE ≤ inst.destAddr ∧ instPlatform inst = p ∧ inst.destAddr = a ∧
      inst.accumSpadId = b := by
  simp only [resultFor, Bool.and_eq_true, decide_eq_true_eq, beq_iff_eq, and_assoc]

theorem responseFor_iff {r : MemoryAccess} : responseFor p a b r = true ↔
    r.stagePlatform = p ∧ r.reqType.fills = true ∧ r.spadAddress = a ∧ r.bufferId = b := by
  simp only [responseFor, Bool.and_eq_true, beq_iff_eq, and_assoc]

/-- Nothing is owed to a buffer that is released. -/
theorem owing_released (h : Released config s p accum b) (hside : InBuffer accum a) :
    owing config s p a b = 0 := by
  have hresponses : (s.requests config).countP (responseFor p a b) = 0 := by
    refine List.countP_eq_zero.mpr fun r hr hfor => ?_
    obtain ⟨hplatform, hfills, haddr, hbuffer⟩ := responseFor_iff.mp hfor
    exact h.responses r hr hplatform hfills (haddr ▸ hside) hbuffer
  have hnone : ∀ i ∈ unfinished config s.core, ¬ resultFor p a b i = true := by
    intro i hi hfor
    obtain ⟨hdest, hplatform, haddr, hbuffer⟩ := resultFor_iff.mp hfor
    exact h.results (hside.mp (haddr ▸ hdest)) i hi hplatform hbuffer
  have hpiped : (piped config s.core).countP (resultFor p a b) = 0 := by
    refine List.countP_eq_zero.mpr fun i hi => hnone i ?_
    exact List.mem_append_right _ (List.mem_append_left _ hi)
  have hdropped : (s.core.dropped.countP fun i => resultFor p a b i && i.valid) = 0 := by
    refine List.countP_eq_zero.mpr fun i hi hfor => ?_
    refine hnone i (List.mem_append_right _ (List.mem_append_right _ hi)) ?_
    exact (Bool.and_eq_true_iff.mp hfor).1
  rw [owing, owedResults, hresponses, hpiped, hdropped]

/-- A lane whose entries wait for as much more as is owed more. -/
theorem owed_update {l : Lane} (h : Owed config s)
    (hlane : t.core.lane = Function.update s.core.lane platform l) (hsettled : l.Settled)
    (hself : ∀ a b, owing config t platform a b + (s.core.lane platform).remain a b ≤
      owing config s platform a b + l.remain a b)
    (hother : ∀ p, p ≠ platform → ∀ a b, owing config t p a b ≤ owing config s p a b) :
    Owed config t where
  settled := by
    intro p
    rw [hlane]
    by_cases hp : p = platform
    · subst hp
      rwa [Function.update_self]
    · rw [Function.update_of_ne hp]
      exact h.settled p
  owed := by
    intro p a b
    rw [hlane]
    by_cases hp : p = platform
    · subst hp
      rw [Function.update_self]
      have := hself a b
      have := h.owed p a b
      omega
    · rw [Function.update_of_ne hp]
      exact Nat.le_trans (hother p hp a b) (h.owed p a b)

/-- No buffer changes, and no more is owed. -/
theorem owed_same (h : Owed config s)
    (hlane : ∀ p, (t.core.lane p).spad = (s.core.lane p).spad ∧
      (t.core.lane p).accSpad = (s.core.lane p).accSpad)
    (howing : ∀ p a b, owing config t p a b ≤ owing config s p a b) : Owed config t where
  settled := by
    intro p
    obtain ⟨hspad, hacc⟩ := hlane p
    rw [Lane.Settled, hspad, hacc]
    exact h.settled p
  owed := by
    intro p a b
    rw [Lane.remain_congr (hlane p).1 (hlane p).2]
    exact Nat.le_trans (howing p a b) (h.owed p a b)

theorem owing_congr (hrequests : t.requests config = s.requests config)
    (hpiped : piped config t.core = piped config s.core)
    (hdropped : t.core.dropped = s.core.dropped) (p : StagePlatform) (a : AddrType) (b : ℕ) :
    owing config t p a b = owing config s p a b := by
  rw [owing, owing, owedResults, owedResults, hrequests, hpiped, hdropped]

/-- A result that arrives. -/
theorem owed_complete (h : Owed config ⟨c, u⟩) (hplatform : instPlatform inst = platform)
    (hfront : Front config c platform inst d) (hok : complete d platform inst = .ok c') :
    Owed config ⟨c', u⟩ := by
  obtain ⟨hlane, -, -, -, -, hdropped⟩ := front_same hfront
  obtain ⟨-, -, -, hreq⟩ := sameQueues_contents config (complete_sameQueues hfront hok)
  obtain ⟨hdest, l, tile, hfill, -, hc'⟩ := complete_ok hok
  have howing : ∀ p a b, owing config ⟨c', u⟩ p a b + (if resultFor p a b inst then 1 else 0) =
      owing config ⟨c, u⟩ p a b := by
    intro p a b
    have hcount := countP_front hfront (resultFor p a b)
    have hpiped : piped config c' = piped config d := by rw [hc']; rfl
    have hdropped' : c'.dropped = c.dropped := by rw [hc', ← hdropped]; rfl
    simp only [owing, owedResults, requests_congr hreq, hpiped, hdropped']
    omega
  rw [hlane] at hfill
  have hlane' : c'.lane = Function.update c.lane platform l := by
    rw [hc', ← hlane]
    rfl
  refine owed_update (s := ⟨c, u⟩) h hlane' (Lane.settled_fill (h.settled platform) hfill) ?_ ?_
  · intro a b
    have heq := howing platform a b
    have hremain := Lane.remain_fill (a := a) (b := b) hfill
    have hiff : resultFor platform a b inst = true ↔
        b = inst.accumSpadId ∧ a = inst.destAddr := by
      rw [resultFor_iff]
      exact ⟨fun hfor => ⟨hfor.2.2.2.symm, hfor.2.2.1.symm⟩,
        fun hsame => ⟨hdest, hplatform, hsame.2.symm, hsame.1.symm⟩⟩
    simp only [hiff] at heq
    dsimp only
    omega
  · intro p _ a b
    have := howing p a b
    omega

section Requests

variable {l : Lane} {accesses : List MemoryAccess}

/-- Requests that are made from an instruction, whose entry waits for them. -/
theorem owed_requests (h : Owed config ⟨c, u⟩)
    (hlane : c'.lane = Function.update c.lane platform l)
    (hpush : pushMemoryRequests config (c.lane platform).memoryRequestQueues accesses =
      .ok l.memoryRequestQueues)
    (hpiped : piped config c' = piped config c) (hdropped : c'.dropped = c.dropped)
    (hsettled : l.Settled)
    (hself : ∀ a b, accesses.countP (responseFor platform a b) + (c.lane platform).remain a b ≤
      l.remain a b)
    (hother : ∀ p, p ≠ platform → ∀ a b, accesses.countP (responseFor p a b) = 0) :
    Owed config ⟨c', u⟩ := by
  have howing : ∀ p a b, owing config ⟨c', u⟩ p a b =
      owing config ⟨c, u⟩ p a b + accesses.countP (responseFor p a b) := by
    intro p a b
    have hrequests := countP_requests (u := u) hlane hpush (responseFor p a b)
    simp only [owing, owedResults, hrequests, hpiped, hdropped]
    omega
  refine owed_update (s := ⟨c, u⟩) h hlane hsettled ?_ ?_
  · intro a b
    have := hself a b
    rw [howing]
    dsimp only
    omega
  · intro p hp a b
    rw [howing, hother p hp]
    exact Nat.le_refl _

/-- A load: its entry waits for the requests that it is expanded into. -/
theorem owed_ldInst (h : Owed config ⟨c, u⟩) (hok : ldInst config set c = .ok c') :
    Owed config ⟨c', u⟩ := by
  rcases ldInst_ok hok with ⟨-, rfl⟩ | ⟨front, rest, l, tile, queues, -, -, -, hreserve, -, hpush,
    hc'⟩
  · exact h
  obtain ⟨-, -, -, -, hqueues⟩ := sameQueues_reserve hreserve
  have hlane : c'.lane = Function.update c.lane .SA
      { l with ldInstQueue := rest, memoryRequestQueues := queues } := by rw [hc']
  have hcount : ∀ p a b, (accessesOf config set c .SA front .READ).1.countP (responseFor p a b) =
      if p = .SA ∧ b = front.bufferId ∧ a = front.destAddr then
        (accessesOf config set c .SA front .READ).1.length else 0 := by
    intro p a b
    rw [countP_accessesOf (b := decide (p = .SA ∧ b = front.bufferId ∧ a = front.destAddr))]
    · simp only [decide_eq_true_eq]
    · intro r _ htype hspad hbuffer hplatform
      rw [Bool.eq_iff_iff, responseFor_iff, htype, hspad, hbuffer, hplatform, decide_eq_true_eq]
      constructor
      · rintro ⟨hp, -, ha, hb⟩
        exact ⟨hp.symm, hb.symm, ha.symm⟩
      · rintro ⟨hp, hb, ha⟩
        exact ⟨hp.symm, rfl, ha.symm, hb.symm⟩
  have hsettled : l.Settled := Lane.settled_reserve (h.settled .SA) hreserve
  refine owed_requests h hlane (hqueues ▸ hpush) (by rw [hc']; rfl) (by rw [hc']) hsettled ?_ ?_
  · intro a b
    have hremain := Lane.remain_reserve (a := a) (b := b) hreserve
    change _ ≤ l.remain a b
    rw [hcount, hremain]
    simp only [true_and]
    omega
  · intro p hp a b
    rw [hcount, if_neg fun hsame => hp hsame.1]

/-- The commands that return a result are those whose responses fill an entry. -/
theorem returnsResult_fills {opcode : Opcode} {reqType : MemoryAccessType} (hpim : opcode.isPim)
    (h : MemoryAccess.reqTypeOf opcode = .ok reqType) : returnsResult opcode = reqType.fills := by
  cases opcode <;> cases hpim <;> cases h <;> rfl

theorem owed_pimLdInst (h : Owed config ⟨c, u⟩) (hok : pimLdInst config c = .ok c') :
    Owed config ⟨c', u⟩ := by
  rcases pimLdInst_ok hok with ⟨-, rfl⟩ | ⟨front, rest, request, l, queues, -, hpim, hrequest,
    hreserve, hpush, hc'⟩
  · exact h
  obtain ⟨-, -, -, -, hqueues⟩ := sameQueues_reserveResult hreserve
  obtain ⟨htype, -, hspad, hbuffer, hplatform⟩ := transToMemoryAccess_ok hrequest
  have hlane : c'.lane = Function.update c.lane .PIM
      { l with ldInstQueue := rest, memoryRequestQueues := queues } := by rw [hc']
  have hreturns := returnsResult_fills hpim htype
  have hcount : ∀ p a b, [request].countP (responseFor p a b) =
      if returnsResult front.opcode ∧ p = .PIM ∧ b = front.bufferId ∧ a = front.destAddr then 1
      else 0 := by
    intro p a b
    rw [List.countP_singleton]
    congr 1
    rw [responseFor_iff, hreturns, hspad, hbuffer, hplatform, eq_iff_iff]
    constructor
    · rintro ⟨hp, hfills, ha, hb⟩
      exact ⟨hfills, hp.symm, hb.symm, ha.symm⟩
    · rintro ⟨hfills, hp, hb, ha⟩
      exact ⟨hp.symm, hfills, ha.symm, hb.symm⟩
  have hlanes : l.Settled ∧ ∀ a b, l.remain a b = (c.lane .PIM).remain a b +
      if returnsResult front.opcode ∧ b = front.bufferId ∧ a = front.destAddr then 1 else 0 := by
    unfold reserveResult at hreserve
    by_cases hres : returnsResult front.opcode = true
    · rw [if_pos hres] at hreserve
      refine ⟨Lane.settled_reserve (h.settled .PIM) hreserve, fun a b => ?_⟩
      rw [Lane.remain_reserve hreserve]
      simp only [hres, true_and]
    · rw [if_neg hres] at hreserve
      cases hreserve
      refine ⟨h.settled .PIM, fun a b => ?_⟩
      rw [if_neg fun hsame => hres hsame.1, Nat.add_zero]
  refine owed_requests h hlane (hqueues ▸ hpush) (by rw [hc']; rfl) (by rw [hc']) hlanes.1 ?_ ?_
  · intro a b
    change _ ≤ l.remain a b
    rw [hcount, hlanes.2]
    simp only [true_and]
    omega
  · intro p hp a b
    rw [hcount, if_neg fun hsame => hp hsame.2.1]

/-- Nothing waits for the answer to a store. -/
theorem owed_storeQueueCycle (h : Owed config ⟨c, u⟩)
    (hok : storeQueueCycle config set platform c = .ok c') : Owed config ⟨c', u⟩ := by
  rcases storeQueueCycle_ok hok with rfl | ⟨front, rest, tile, queues, -, -, -, -, hpush, hc'⟩
  · exact h
  have hlane : c'.lane = Function.update c.lane platform
      { c.lane platform with stInstQueue := rest, memoryRequestQueues := queues } := by rw [hc']
  have hcount : ∀ p a b,
      (accessesOf config set c platform front .WRITE).1.countP (responseFor p a b) = 0 := by
    intro p a b
    refine List.countP_eq_zero.mpr fun r hr hfor => ?_
    have hfills := (responseFor_iff.mp hfor).2.1
    rw [(mem_accessesOf hr).2.1] at hfills
    cases hfills
  refine owed_requests h hlane hpush (by rw [hc']; rfl) (by rw [hc']) (h.settled platform) ?_ ?_
  · intro a b
    rw [hcount, Nat.zero_add]
    exact Nat.le_refl _
  · exact fun p _ a b => hcount p a b

end Requests

section Execute

variable {front : Instruction} {rest : List Instruction}

/-- A valid instruction that leaves the execute queue owes its result. -/
theorem owedResults_dispatched (h : Dispatched config c inst platform d) (hvalid : inst.valid)
    (p : StagePlatform) (a : AddrType) (b : ℕ) :
    owedResults config d p a b =
      owedResults config c p a b + if resultFor p a b inst then 1 else 0 := by
  cases h with
  | gemm start finish htile hsame =>
    have hfor : resultFor p a b (timed inst start finish) = resultFor p a b inst := rfl
    simp only [owedResults, piped, setTile, List.countP_append, List.countP_singleton, hfor]
    omega
  | @vector _ k start finish hk =>
    have hfor : resultFor p a b (timed inst start finish) = resultFor p a b inst := rfl
    have hupdate := countP_contents_update (q := c.vectorPipelines) List.nodup_range
      (List.mem_range.mpr hk) (c.vectorPipelines k ++ [timed inst start finish])
      (resultFor p a b)
    simp only [owedResults, piped, List.countP_append, List.countP_singleton, hfor] at hupdate ⊢
    omega
  | dropped hwhy =>
    simp only [owedResults, piped, List.countP_append, List.countP_singleton, hvalid,
      Bool.and_true]
    omega

/-- The entry of the destination, new or not, waits for one result more. -/
theorem expectResult_remain {l : Lane} {s : Sram} (hl : l.Settled)
    (h : (if l.accSpad.checkAllocated inst.destAddr inst.accumSpadId then
        l.accSpad.countUp inst.destAddr inst.accumSpadId
      else l.accSpad.reserve inst.destAddr inst.accumSpadId inst.size 1) = .ok s) :
    s.Settled ∧ ∀ a b, s.remain a b = l.accSpad.remain a b +
      if b = inst.accumSpadId ∧ a = inst.destAddr then 1 else 0 := by
  split_ifs at h
  · exact ⟨Sram.settled_countUp hl.2 h, fun a b => Sram.remain_countUp h⟩
  · exact ⟨Sram.settled_reserve hl.2 h, fun a b => Sram.remain_reserve h⟩

theorem owed_executeQueueCycle (h : Owed config ⟨c, u⟩)
    (hplatform : ∀ i ∈ (c.lane platform).exInstQueue, instPlatform i = platform)
    (hok : executeQueueCycle config platform c = .ok c') : Owed config ⟨c', u⟩ := by
  rcases executeQueueCycle_ok hok with rfl | ⟨front, rest, hqueue, -,
    ⟨hvalid, d, hd, hexpect⟩ | ⟨hvalid, rfl⟩⟩
  · exact h
  · obtain ⟨s, hs, hc'⟩ := expectResult_ok hexpect
    have hlane := dispatched_lane hd hc'
    rw [(dispatched_same hd).1] at hs
    simp only [setLane, Function.update_self] at hs
    obtain ⟨hsettled, hremain⟩ :=
      expectResult_remain (l := c.lane platform) (h.settled platform) hs
    have hfront : instPlatform front = platform :=
      hplatform front (by rw [hqueue]; exact List.mem_cons_self)
    have hreq : queuedRequests config c' = queuedRequests config c :=
      contents_lane_same (fun l => contents (List.range config.dramChannels)
        l.memoryRequestQueues) hlane rfl
    have howing : ∀ p a b, owing config ⟨c', u⟩ p a b =
        owing config ⟨c, u⟩ p a b + if resultFor p a b front then 1 else 0 := by
      intro p a b
      have hdispatched := owedResults_dispatched hd hvalid p a b
      have hresults : owedResults config c' p a b = owedResults config d p a b := by
        rw [hc']
        rfl
      have hbefore : owedResults config
          (c.setLane platform { c.lane platform with exInstQueue := rest }) p a b =
        owedResults config c p a b := rfl
      simp only [owing, requests_congr hreq, hresults, hdispatched, hbefore]
      omega
    refine owed_update (s := ⟨c, u⟩) h hlane ⟨(h.settled platform).1, hsettled⟩ ?_ ?_
    · intro a b
      rw [howing]
      have hs' := hremain a b
      simp only [Lane.remain, Lane.buffer]
      by_cases hside : ACCUM_SPAD_BASE ≤ a
      · have hiff : resultFor platform a b front = true ↔
            b = front.accumSpadId ∧ a = front.destAddr := by
          rw [resultFor_iff]
          constructor
          · exact fun hfor => ⟨hfor.2.2.2.symm, hfor.2.2.1.symm⟩
          · exact fun hsame => ⟨hsame.2 ▸ hside, hfront, hsame.2.symm, hsame.1.symm⟩
        rw [if_pos hside, if_pos hside, hs']
        simp only [hiff]
        omega
      · -- the result goes to the accumulator, whatever the key
        have hnot : ¬ resultFor platform a b front = true := by
          intro hfor
          obtain ⟨hdest, -, haddr, -⟩ := resultFor_iff.mp hfor
          exact hside (haddr ▸ hdest)
        rw [if_neg hside, if_neg hside, if_neg hnot]
        omega
    · intro p hp a b
      have hnot : ¬ resultFor p a b front = true := fun hfor =>
        hp ((resultFor_iff.mp hfor).2.1.symm.trans hfront)
      rw [howing, if_neg hnot]
      exact Nat.le_refl _
  · -- an instruction that is not valid owes nothing
    have hlane : (c.setLane platform { c.lane platform with exInstQueue := rest }).lane =
        Function.update c.lane platform { c.lane platform with exInstQueue := rest } := rfl
    refine owed_same (s := ⟨c, u⟩) h ?_ ?_
    · exact fun p => ⟨lane_same Lane.spad hlane rfl p, lane_same Lane.accSpad hlane rfl p⟩
    · intro p a b
      have hreq := contents_lane_same (fun l => contents (List.range config.dramChannels)
        l.memoryRequestQueues) hlane rfl
      refine Nat.le_of_eq ?_
      have hrequests : requests config ⟨{ c.setLane platform
          { c.lane platform with exInstQueue := rest } with
            dropped := c.dropped ++ [front] }, u⟩ = requests config ⟨c, u⟩ := requests_congr hreq
      simp only [owing, owedResults, hrequests, List.countP_append, List.countP_singleton, hvalid,
        Bool.and_false, Bool.false_eq_true, if_false, Nat.add_zero]
      rfl

end Execute

end NeuPIMSystolicWS

end NewPims

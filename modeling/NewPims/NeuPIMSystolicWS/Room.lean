import NewPims.NeuPIMSystolicWS.Faults
import NewPims.NeuPIMSystolicWS.Turns
import NewPims.Sram.Room

/-! The cycle of a core whose queued instructions keep to budgets for its scratchpad buffers: no
allocation check fails, and the budgets are kept. -/
namespace NewPims

open Transition

/-- Budgets for the scratchpad buffers of a lane and for its accumulator buffers. -/
structure RoomPlan (limit : ℕ) where
  spad : ℕ → Budget AddrType limit
  acc : ℕ → Budget AddrType limit

namespace RoomPlan

/-- The budget of the buffer that holds the key `address`. -/
def budget {limit : ℕ} (p : RoomPlan limit) (address : AddrType) (bufferId : ℕ) :
    Budget AddrType limit :=
  if ACCUM_SPAD_BASE ≤ address then p.acc bufferId else p.spad bufferId

end RoomPlan

namespace Lane

variable {l l' : Lane} {limit : ℕ} {p : RoomPlan limit}

/-- The buffers of the lane keep to their budgets, and so does what its queues will allocate: the
loads, each under a key of its own, and the results of the computations. -/
structure Planned (l : Lane) (p : RoomPlan limit) : Prop where
  spadLimit : l.spad.Takes limit
  accLimit : l.accSpad.Takes limit
  spad : ∀ b, l.spad.Room b (p.spad b)
  acc : ∀ b, l.accSpad.Room b (p.acc b)
  loads : ∀ i ∈ l.ldInstQueue, (p.budget i.destAddr i.bufferId).Allows i.destAddr i.size
  vacant : ∀ i ∈ l.ldInstQueue, (l.buffer i.destAddr).cacheTable i.bufferId i.destAddr = none
  distinct : l.ldInstQueue.Pairwise fun i j => ¬ (i.destAddr = j.destAddr ∧ i.bufferId = j.bufferId)
  computes : ∀ i ∈ l.exInstQueue, (p.acc i.accumSpadId).Allows i.destAddr i.size

/-- The same entries, the same loads and no new computations. -/
structure Calm (l l' : Lane) : Prop where
  spad : Sram.SameRoom l.spad l'.spad
  acc : Sram.SameRoom l.accSpad l'.accSpad
  loads : l'.ldInstQueue = l.ldInstQueue
  computes : ∀ i ∈ l'.exInstQueue, i ∈ l.exInstQueue

theorem calm_refl (l : Lane) : Calm l l :=
  ⟨Sram.sameRoom_refl _, Sram.sameRoom_refl _, rfl, fun _ hi => hi⟩

theorem calm_trans {l l' l'' : Lane} (h : Calm l l') (h' : Calm l' l'') : Calm l l'' where
  spad := Sram.sameRoom_trans h.spad h'.spad
  acc := Sram.sameRoom_trans h.acc h'.acc
  loads := h'.loads.trans h.loads
  computes := fun i hi => h.computes i (h'.computes i hi)

theorem calm_buffer (h : Calm l l') (a : AddrType) : Sram.SameRoom (l.buffer a) (l'.buffer a) := by
  unfold buffer
  split_ifs
  · exact h.acc
  · exact h.spad

theorem planned_calm (h : l.Planned p) (hcalm : Calm l l') : l'.Planned p where
  spadLimit := Sram.takes_congr h.spadLimit hcalm.spad.capacity
  accLimit := Sram.takes_congr h.accLimit hcalm.acc.capacity
  spad := fun b => Sram.room_same (h.spad b) hcalm.spad
  acc := fun b => Sram.room_same (h.acc b) hcalm.acc
  loads := by
    rw [hcalm.loads]
    exact h.loads
  vacant := by
    rw [hcalm.loads]
    exact fun i hi => Sram.none_same (calm_buffer hcalm i.destAddr) (h.vacant i hi)
  distinct := by
    rw [hcalm.loads]
    exact h.distinct
  computes := fun i hi => h.computes i (hcalm.computes i hi)

theorem calm_fill {address : AddrType} {bufferId : ℕ} (h : l.fill address bufferId = .ok l') :
    Calm l l' := by
  obtain ⟨s, hs, rfl⟩ := fill_ok h
  have hsame := Sram.sameRoom_fill hs
  unfold buffer at hsame
  unfold setBuffer
  split_ifs at hsame ⊢
  · exact ⟨Sram.sameRoom_refl _, hsame, rfl, fun _ hi => hi⟩
  · exact ⟨hsame, Sram.sameRoom_refl _, rfl, fun _ hi => hi⟩

theorem planned_buffer (h : l.Planned p) (a : AddrType) (b : ℕ) :
    (l.buffer a).Takes limit ∧ (l.buffer a).Room b (p.budget a b) := by
  unfold buffer RoomPlan.budget
  split_ifs
  · exact ⟨h.accLimit, h.acc b⟩
  · exact ⟨h.spadLimit, h.spad b⟩

/-- The first load finds room, and leaves room for the others. -/
theorem exists_reserve_front (h : l.Planned p) {front : Instruction} {rest : List Instruction}
    (hqueue : l.ldInstQueue = front :: rest) (count : ℕ) :
    ∃ l', l.reserve front.destAddr front.bufferId front.size count = .ok l' ∧
      ∀ queues, Planned { l' with ldInstQueue := rest, memoryRequestQueues := queues } p := by
  have hfront : front ∈ l.ldInstQueue := hqueue ▸ List.mem_cons_self
  have hrest : ∀ i ∈ rest, i ∈ l.ldInstQueue :=
    fun i hi => hqueue ▸ List.mem_cons_of_mem front hi
  have hdistinct := h.distinct
  rw [hqueue, List.pairwise_cons] at hdistinct
  obtain ⟨hlimit, hroom⟩ := planned_buffer h front.destAddr front.bufferId
  have hnew := h.vacant front hfront
  have hallows := h.loads front hfront
  obtain ⟨s, hs, hreserved⟩ := Sram.exists_reserve hroom hlimit hnew hallows count
  refine ⟨l.setBuffer front.destAddr s, ?_, ?_⟩
  · rw [reserve, hs]
    rfl
  intro queues
  have hself := Sram.room_reserved hroom hlimit hnew hallows hreserved
  have hother : ∀ b, b ≠ front.bufferId →
      (l.buffer front.destAddr).Room b (p.budget front.destAddr b) :=
    fun b _ => (planned_buffer h front.destAddr b).2
  have hbuffer : ∀ b, s.Room b (p.budget front.destAddr b) := by
    intro b
    by_cases hb : b = front.bufferId
    · rw [hb]
      exact hself
    · exact (Sram.room_reserved_ne hb hreserved).mpr (hother b hb)
  have hvacant : ∀ i ∈ rest,
      ((l.setBuffer front.destAddr s).buffer i.destAddr).cacheTable i.bufferId i.destAddr = none := by
    intro i hi
    rw [buffer_setBuffer]
    split_ifs with hside
    · -- the same scratchpad, another key or another buffer
      rw [Sram.cacheTable_reserved hreserved]
      · have hold := h.vacant i (hrest i hi)
        unfold buffer at hold ⊢
        simpa only [hside] using hold
      · intro hsame
        exact hdistinct.1 i hi ⟨hsame.1.symm, hsame.2.symm⟩
    · exact h.vacant i (hrest i hi)
  have hcapacity := hreserved.capacity
  unfold buffer at hcapacity
  unfold RoomPlan.budget at hbuffer
  unfold setBuffer at hvacant ⊢
  split_ifs at hcapacity hbuffer hvacant ⊢
  · have hacc := Sram.takes_congr h.accLimit hcapacity
    exact ⟨h.spadLimit, hacc, h.spad, hbuffer, fun i hi => h.loads i (hrest i hi), hvacant,
      hdistinct.2, h.computes⟩
  · have hspad := Sram.takes_congr h.spadLimit hcapacity
    exact ⟨hspad, h.accLimit, hbuffer, h.acc, fun i hi => h.loads i (hrest i hi), hvacant,
      hdistinct.2, h.computes⟩

/-- A result is counted at its entry or finds room for a new one, once all loads are reserved. -/
theorem exists_expect (h : l.Planned p) (hloads : l.ldInstQueue = []) {front : Instruction}
    {rest : List Instruction} (hqueue : l.exInstQueue = front :: rest) :
    ∃ s, (if l.accSpad.checkAllocated front.destAddr front.accumSpadId then
        l.accSpad.countUp front.destAddr front.accumSpadId
      else l.accSpad.reserve front.destAddr front.accumSpadId front.size 1) = .ok s ∧
      Planned { l with exInstQueue := rest, accSpad := s } p := by
  have hallows := h.computes front (hqueue ▸ List.mem_cons_self)
  have hcomputes : ∀ i ∈ rest, (p.acc i.accumSpadId).Allows i.destAddr i.size :=
    fun i hi => h.computes i (hqueue ▸ List.mem_cons_of_mem front hi)
  have hplanned : ∀ s : Sram, s.size = l.accSpad.size → (∀ b, s.Room b (p.acc b)) →
      Planned { l with exInstQueue := rest, accSpad := s } p := by
    intro s hsize hroom
    have hacc := Sram.takes_congr h.accLimit hsize
    refine ⟨h.spadLimit, hacc, h.spad, hroom, h.loads, ?_, h.distinct, hcomputes⟩
    rw [hloads]
    exact fun i hi => absurd hi List.not_mem_nil
  cases hentry : l.accSpad.cacheTable front.accumSpadId front.destAddr with
  | some e =>
    have halloc : l.accSpad.checkAllocated front.destAddr front.accumSpadId = true := by
      rw [Sram.checkAllocated, hentry]
      rfl
    rw [if_pos halloc]
    have hcount : ∃ s, l.accSpad.countUp front.destAddr front.accumSpadId = .ok s := by
      rw [Sram.countUp, hentry]
      exact ⟨_, rfl⟩
    obtain ⟨s, hs⟩ := hcount
    have hsame := Sram.sameRoom_countUp hs
    exact ⟨s, hs, hplanned s hsame.capacity fun b => Sram.room_same (h.acc b) hsame⟩
  | none =>
    have halloc : l.accSpad.checkAllocated front.destAddr front.accumSpadId = false := by
      rw [Sram.checkAllocated, hentry]
      rfl
    rw [if_neg (Bool.eq_false_iff.mp halloc)]
    obtain ⟨s, hs, hreserved⟩ :=
      Sram.exists_reserve (h.acc front.accumSpadId) h.accLimit hentry hallows 1
    refine ⟨s, hs, hplanned s hreserved.capacity ?_⟩
    intro b
    by_cases hb : b = front.accumSpadId
    · rw [hb]
      exact Sram.room_reserved (h.acc front.accumSpadId) h.accLimit hentry hallows hreserved
    · exact (Sram.room_reserved_ne hb hreserved).mpr (h.acc b)

end Lane

namespace NeuPIMSystolicWS

variable {config : SimulationConfig} {set : RobinHood} {c c' d : NeuPIMSCore}
  {platform : StagePlatform} {inst : Instruction} {limit turn accTurn : ℕ} {p : RoomPlan limit}

/-- A core with tiles of the systolic array only, whose lane keeps to the plan. -/
structure Steady (p : RoomPlan limit) (turn accTurn : ℕ) (c : NeuPIMSCore) : Prop where
  lane : (c.lane .SA).Planned p
  pimTiles : (c.lane .PIM).tiles = []
  pimLoads : (c.lane .PIM).ldInstQueue = []
  pimComputes : (c.lane .PIM).exInstQueue = []
  spadTurn : c.currentSpad = turn
  accTurn : c.currentAccSpad = accTurn

/-- A step that allocates nothing and queues nothing. -/
structure Calm (c c' : NeuPIMSCore) : Prop where
  lane : ∀ p, (c.lane p).Calm (c'.lane p)
  tiles : ∀ p, ∀ ptr ∈ (c'.lane p).tiles, ptr ∈ (c.lane p).tiles
  spadTurn : c'.currentSpad = c.currentSpad
  accTurn : c'.currentAccSpad = c.currentAccSpad

theorem calm_same (hlane : c'.lane = c.lane) (hspad : c'.currentSpad = c.currentSpad)
    (hacc : c'.currentAccSpad = c.currentAccSpad) : Calm c c' := by
  refine ⟨?_, ?_, hspad, hacc⟩
  · intro q
    rw [hlane]
    exact Lane.calm_refl _
  · intro q ptr hptr
    rwa [hlane] at hptr

theorem calm_update {l : Lane} (hlane : c'.lane = Function.update c.lane platform l)
    (hcalm : (c.lane platform).Calm l) (htiles : ∀ ptr ∈ l.tiles, ptr ∈ (c.lane platform).tiles)
    (hspad : c'.currentSpad = c.currentSpad) (hacc : c'.currentAccSpad = c.currentAccSpad) :
    Calm c c' := by
  refine ⟨?_, ?_, hspad, hacc⟩
  · intro q
    rw [hlane]
    by_cases hq : q = platform
    · subst hq
      rwa [Function.update_self]
    · rw [Function.update_of_ne hq]
      exact Lane.calm_refl _
  · exact mem_lane_subset Lane.tiles hlane htiles

theorem calm_trans {c c' c'' : NeuPIMSCore} (h : Calm c c') (h' : Calm c' c'') : Calm c c'' where
  lane := fun q => Lane.calm_trans (h.lane q) (h'.lane q)
  tiles := fun q ptr hptr => h.tiles q ptr (h'.tiles q ptr hptr)
  spadTurn := h'.spadTurn.trans h.spadTurn
  accTurn := h'.accTurn.trans h.accTurn

theorem steady_calm (h : Steady p turn accTurn c) (hcalm : Calm c c') :
    Steady p turn accTurn c' where
  lane := Lane.planned_calm h.lane (hcalm.lane .SA)
  pimTiles := by
    have hsub := hcalm.tiles .PIM
    rw [h.pimTiles] at hsub
    exact List.eq_nil_iff_forall_not_mem.mpr fun ptr hptr => List.not_mem_nil (hsub ptr hptr)
  pimLoads := (hcalm.lane .PIM).loads.trans h.pimLoads
  pimComputes := by
    have hsub := (hcalm.lane .PIM).computes
    rw [h.pimComputes] at hsub
    exact List.eq_nil_iff_forall_not_mem.mpr fun i hi => List.not_mem_nil (hsub i hi)
  spadTurn := hcalm.spadTurn.trans h.spadTurn
  accTurn := hcalm.accTurn.trans h.accTurn

/-- A new lane of the array. -/
theorem steady_update {l : Lane} {p' : RoomPlan limit} {turn' accTurn' : ℕ}
    (h : Steady p turn accTurn c) (hlane : c'.lane = Function.update c.lane .SA l)
    (hl : l.Planned p') (hspad : c'.currentSpad = turn') (hacc : c'.currentAccSpad = accTurn') :
    Steady p' turn' accTurn' c' := by
  have hself : c'.lane .SA = l := by rw [hlane, Function.update_self]
  have hother : c'.lane .PIM = c.lane .PIM := by
    rw [hlane]
    exact Function.update_of_ne (by decide) _ _
  refine ⟨?_, ?_, ?_, ?_, hspad, hacc⟩
  · rw [hself]
    exact hl
  · rw [hother]
    exact h.pimTiles
  · rw [hother]
    exact h.pimLoads
  · rw [hother]
    exact h.pimComputes

section Steps

theorem calm_complete (hfront : Front config c platform inst d)
    (h : complete d platform inst = .ok c') : Calm c c' := by
  obtain ⟨hlane, -⟩ := Session.front_same hfront
  obtain ⟨-, l, tile, hfill, -, rfl⟩ := complete_ok h
  rw [hlane] at hfill
  refine calm_update (?_ : _ = Function.update c.lane platform l) (Lane.calm_fill hfill) ?_ ?_ ?_
  · rw [← hlane]
    rfl
  · exact fun ptr hptr => (Session.sameQueues_fill hfill).1 ▸ hptr
  · cases hfront <;> rfl
  · cases hfront <;> rfl

theorem calm_storeQueueCycle (h : storeQueueCycle config set platform c = .ok c') : Calm c c' := by
  rcases storeQueueCycle_ok h with rfl | ⟨front, rest, tile, queues, -, -, -, -, -, rfl⟩
  · exact calm_same rfl rfl rfl
  · refine calm_update rfl ?_ (fun _ hptr => hptr) rfl rfl
    exact ⟨Sram.sameRoom_refl _, Sram.sameRoom_refl _, rfl, fun _ hi => hi⟩

theorem calm_chargeCycle {pipeline : List Instruction} (h : chargeCycle pipeline c = .ok c') :
    Calm c c' := by
  rcases chargeCycle_ok h with rfl | ⟨_, _, _, -, -, rfl⟩ <;> exact calm_same rfl rfl rfl

theorem calm_retire (platform : StagePlatform) : Calm c (c.retire platform) := by
  have hlane : (c.retire platform).lane = Function.update c.lane platform _ := rfl
  refine calm_update hlane ?_ (fun ptr hptr => List.mem_of_mem_filter hptr) rfl rfl
  exact ⟨Sram.sameRoom_refl _, Sram.sameRoom_refl _, rfl, fun _ hi => hi⟩

theorem calm_cycle : Calm c c.cycle := by
  have htick : Calm c c.tick := calm_same rfl rfl rfl
  have hsa : Calm c.tick (c.tick.retire .SA) := calm_retire .SA
  have hpim : Calm (c.tick.retire .SA) c.cycle := calm_retire .PIM
  exact calm_trans (calm_trans htick hsa) hpim

end Steps

section Faults

theorem fill_ne_allocation (s : Sram) (address : AddrType) (bufferId : ℕ) :
    s.fill address bufferId ≠ .error .allocation := by
  unfold Sram.fill
  split
  · exact nofun
  · split_ifs <;> exact nofun

theorem complete_ne_allocation : complete c platform inst ≠ .error .allocation := by
  have hfill : (c.lane platform).fill inst.destAddr inst.accumSpadId ≠ .error .allocation :=
    map_ne_error (fill_ne_allocation _ _ _)
  unfold complete
  split_ifs
  · split
    · next f _ hf =>
      intro h
      rw [hf] at hfill
      exact hfill (by rw [Except.error.inj h])
    · exact nofun
    · exact nofun
  · exact nofun

theorem systolicCycle_ne_allocation : systolicCycle c ≠ .error .allocation := by
  unfold systolicCycle
  split
  · exact nofun
  · split_ifs
    · exact complete_ne_allocation
    · exact nofun

theorem vectorPipelineCycle_ne_allocation {k : ℕ} :
    vectorPipelineCycle k c ≠ .error .allocation := by
  unfold vectorPipelineCycle
  split
  · exact nofun
  · split_ifs
    · exact complete_ne_allocation
    · exact nofun

end Faults

section Cycle

/-- The lane has reserved all its loads. -/
def Loaded (p : RoomPlan limit) (turn accTurn : ℕ) (c : NeuPIMSCore) : Prop :=
  Steady p turn accTurn c ∧ (c.lane .SA).ldInstQueue = []

theorem loaded_calm (h : Loaded p turn accTurn c) (hcalm : Calm c c') : Loaded p turn accTurn c' :=
  ⟨steady_calm h.1 hcalm, (hcalm.lane .SA).loads.trans h.2⟩

/-- The front load is reserved. -/
theorem avoids_ldInst (n : ℕ) : Avoids .allocation
    (fun c => Steady p turn accTurn c ∧ (c.lane .SA).ldInstQueue.length = n + 1)
    (ldInst config set)
    (fun c => Steady p turn accTurn c ∧ (c.lane .SA).ldInstQueue.length = n) := by
  rintro c ⟨h, hlength⟩
  obtain ⟨front, rest, hqueue⟩ := List.exists_cons_of_length_eq_add_one hlength
  rw [hqueue, List.length_cons] at hlength
  obtain ⟨l, hl, hplanned⟩ := Lane.exists_reserve_front h.lane hqueue
    (accessesOf config set c .SA front .READ).1.length
  constructor
  · unfold ldInst
    simp only [hqueue, hl]
    split
    · exact nofun
    · split
      · exact nofun
      · refine bind_ne_error nofun fun l _ => ?_
        split
        · exact nofun
        · split
          · exact nofun
          · exact bind_ne_error (pushMemoryRequests_ne_ofSram rfl) fun _ _ => nofun
  · intro c' hc'
    rcases ldInst_ok hc' with ⟨hnil, -⟩ |
      ⟨front', rest', l', tile, queues, hqueue', -, -, hl', -, -, rfl⟩
    · rw [hqueue] at hnil
      cases hnil
    · obtain ⟨rfl, rfl⟩ := List.cons.inj (hqueue.symm.trans hqueue')
      cases hl.symm.trans hl'
      refine ⟨steady_update h rfl (hplanned queues) h.spadTurn h.accTurn, ?_⟩
      dsimp only
      rw [Function.update_self]
      exact Nat.succ_injective hlength

theorem avoids_repeatInst (n : ℕ) : Avoids .allocation
    (fun c => Steady p turn accTurn c ∧ (c.lane .SA).ldInstQueue.length = n)
    (repeatInst (ldInst config set) n) (Loaded p turn accTurn) := by
  induction n with
  | zero =>
    rintro c ⟨h, hlength⟩
    refine ⟨nofun, ?_⟩
    intro c' hc'
    cases hc'
    exact ⟨h, List.length_eq_zero_iff.mp hlength⟩
  | succ n ih => exact avoids_bind (avoids_ldInst n) ih

theorem avoids_ldQueueCycle :
    Avoids .allocation (Steady p turn accTurn) (ldQueueCycle config set) (Loaded p turn accTurn) :=
  fun c h => avoids_repeatInst _ c ⟨h, rfl⟩

/-- The front computation leaves the execute queue, and its result has an entry. -/
theorem avoids_executeQueueCycle : Avoids .allocation (Loaded p turn accTurn)
    (executeQueueCycle config .SA) (Loaded p turn accTurn) := by
  rintro c ⟨h, hloads⟩
  cases hqueue : (c.lane .SA).exInstQueue with
  | nil =>
    have heq : executeQueueCycle config .SA c = .ok c := by
      unfold executeQueueCycle
      simp only [hqueue]
    rw [heq]
    refine ⟨by simp, ?_⟩
    intro c' hc'
    cases hc'
    exact ⟨h, hloads⟩
  | cons front rest =>
    obtain ⟨s, hs, hplanned⟩ := Lane.exists_expect h.lane hloads hqueue
    constructor
    · unfold executeQueueCycle
      simp only [hqueue]
      split
      · split
        · refine bind_ne_error (dispatch_ne_ofSram rfl) fun d hd => ?_
          have hlane : d.lane .SA = { c.lane .SA with exInstQueue := rest } := by
            simp [(Session.dispatched_same (dispatch_ok hd)).1, NeuPIMSCore.setLane]
          refine map_ne_error ?_
          rw [hlane]
          dsimp only
          rw [hs]
          simp
        · simp
      · simp
    · intro c' hc'
      have hupdate : ∀ l : Lane, l.Planned p → l.ldInstQueue = [] →
          c'.lane = Function.update c.lane .SA l → c'.currentSpad = c.currentSpad →
          c'.currentAccSpad = c.currentAccSpad → Loaded p turn accTurn c' := by
        intro l hl hnil hlane hspad hacc
        refine ⟨steady_update h hlane hl (hspad.trans h.spadTurn) (hacc.trans h.accTurn), ?_⟩
        rw [hlane, Function.update_self]
        exact hnil
      rcases executeQueueCycle_ok hc' with rfl | ⟨front', rest', hqueue', -, hissued⟩
      · exact ⟨h, hloads⟩
      obtain ⟨rfl, rfl⟩ := List.cons.inj (hqueue.symm.trans hqueue')
      rcases hissued with ⟨-, d, hd, hexpect⟩ | ⟨-, rfl⟩
      · have hlane : d.lane = Function.update c.lane .SA
            { c.lane .SA with exInstQueue := rest } := (Session.dispatched_same hd).1
        obtain ⟨s', hs', rfl⟩ := expectResult_ok hexpect
        rw [hlane, Function.update_self] at hs'
        cases hs.symm.trans hs'
        refine hupdate _ hplanned hloads ?_ ?_ ?_
        · simp [NeuPIMSCore.setLane, hlane]
        · cases hd <;> rfl
        · cases hd <;> rfl
      · refine hupdate { c.lane .SA with exInstQueue := rest } ?_ hloads rfl rfl rfl
        apply Lane.planned_calm h.lane
        refine ⟨Sram.sameRoom_refl _, Sram.sameRoom_refl _, rfl, fun i hi => ?_⟩
        rw [hqueue]
        exact List.mem_cons_of_mem front hi

/-- A step that is calm whenever it succeeds. -/
theorem avoids_steady {step : NeuPIMSCore → Except Fault NeuPIMSCore}
    (hne : ∀ c, step c ≠ .error .allocation) (hcalm : ∀ c c', step c = .ok c' → Calm c c') :
    Avoids .allocation (Steady p turn accTurn) step (Steady p turn accTurn) :=
  fun c h => ⟨hne c, fun c' hc' => steady_calm h (hcalm c c' hc')⟩

theorem avoids_loaded {step : NeuPIMSCore → Except Fault NeuPIMSCore}
    (hne : ∀ c, step c ≠ .error .allocation) (hcalm : ∀ c c', step c = .ok c' → Calm c c') :
    Avoids .allocation (Loaded p turn accTurn) step (Loaded p turn accTurn) :=
  fun c h => ⟨hne c, fun c' hc' => loaded_calm h (hcalm c c' hc')⟩

/-- The steps for the PIM find nothing to do. -/
theorem avoids_pim : Avoids .allocation (Loaded p turn accTurn) (pimLdQueueCycle config)
      (Loaded p turn accTurn) ∧
    Avoids .allocation (Loaded p turn accTurn) (executeQueueCycle config .PIM)
      (Loaded p turn accTurn) := by
  constructor
  · intro c h
    have heq : pimLdQueueCycle config c = .ok c := by
      rw [pimLdQueueCycle, h.1.pimLoads]
      rfl
    rw [heq]
    exact ⟨by simp, fun c' hc' => Except.ok.inj hc' ▸ h⟩
  · intro c h
    have heq : executeQueueCycle config .PIM c = .ok c := by
      unfold executeQueueCycle
      simp only [h.1.pimComputes]
    rw [heq]
    exact ⟨by simp, fun c' hc' => Except.ok.inj hc' ▸ h⟩

/-- A cycle reserves all loads and the result of a computation, and fails no allocation check. -/
theorem avoids_cycle :
    Avoids .allocation (Steady p turn accTurn) (cycle config set) (Loaded p turn accTurn) := by
  have hsystolic : Avoids .allocation (Steady p turn accTurn) systolicCycle
      (Steady p turn accTurn) := by
    refine avoids_steady (fun _ => systolicCycle_ne_allocation) fun c c' hc' => ?_
    rcases systolicCycle_ok config hc' with rfl | ⟨_, _, _, hfront, hcomplete⟩
    · exact calm_same rfl rfl rfl
    · exact calm_complete hfront hcomplete
  have hvector : Avoids .allocation (Steady p turn accTurn) (vectorUnitCycle config)
      (Steady p turn accTurn) := by
    refine avoids_foldlM fun k hk => ?_
    refine avoids_steady (fun _ => vectorPipelineCycle_ne_allocation) fun c c' hc' => ?_
    rcases vectorPipelineCycle_ok (List.mem_range.mp hk) hc' with rfl | ⟨_, _, _, hfront, hcomplete⟩
    · exact calm_same rfl rfl rfl
    · exact calm_complete hfront hcomplete
  have hstore : ∀ q, Avoids .allocation (Loaded p turn accTurn) (storeQueueCycle config set q)
      (Loaded p turn accTurn) := fun q =>
    avoids_loaded (fun _ => storeQueueCycle_ne_ofSram rfl) fun _ _ => calm_storeQueueCycle
  have hcharge : Avoids .allocation (Loaded p turn accTurn) (updateStats config)
      (Loaded p turn accTurn) := by
    refine avoids_bind (avoids_loaded (fun _ => chargeCycle_ne_ofSram rfl)
      fun _ _ => calm_chargeCycle) (avoids_foldlM fun k _ => ?_)
    exact avoids_loaded (fun _ => chargeCycle_ne_ofSram rfl) fun _ _ => calm_chargeCycle
  have hcore : Avoids Fault.allocation (Loaded p turn accTurn) (fun c => Except.ok c.cycle)
      (Loaded p turn accTurn) := by
    refine avoids_loaded (fun _ => nofun) fun c c' hc' => ?_
    cases hc'
    exact calm_cycle
  -- the units, then the queues of the array, then those of the PIM
  exact avoids_bind hsystolic <| avoids_bind hvector <| avoids_bind avoids_ldQueueCycle <|
    avoids_bind (hstore .SA) <| avoids_bind avoids_executeQueueCycle <|
    avoids_bind avoids_pim.1 <| avoids_bind (hstore .PIM) <| avoids_bind avoids_pim.2 <|
    avoids_bind hcharge hcore

end Cycle

end NeuPIMSystolicWS

end NewPims

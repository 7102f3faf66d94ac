import NewPims.NewtonSim.Answers
import NewPims.NewtonSim.DRAMSystem

/-! Every request that the memory takes gets one response: room is reserved for it, and what a
channel returns always finds a request that waits. -/
namespace NewPims.NewtonSim.DRAMSystem

open Transition
open Controller (key tally)

variable {config : DramConfig} {S T : DRAMSystem} {Q : Controller.Call → Prop} {c d : Controller}
  {i channel : ℕ} {request : MemoryAccess}

inductive Call
  | push (cid : ℕ) (request : MemoryAccess)
  | clockTick
  | pop (channel : ℕ)
  deriving DecidableEq, Repr

def step (config : DramConfig) (S : DRAMSystem) : Call → Except MemoryFault DRAMSystem
  | .push cid request => S.push config cid request
  | .clockTick => S.clockTick config
  | .pop channel => .ok (S.pop channel)

/-- The simulator pushes a supported request of one burst to its channel when it is not refused, and
pops a response that is there. -/
def Meets (config : DramConfig) (Q : Controller.Call → Prop) (S : DRAMSystem) : Call → Prop
  | .push cid request =>
    let reqType := transactionType request.reqType
    cid < config.channels ∧ Machine.IsBurst config.toConfig cid request ∧
      Controller.Supported config request.dramAddress reqType ∧
      Q (.addTransaction request.dramAddress reqType) ∧ S.isFull config request = .ok false
  | .clockTick => True
  | .pop channel => S.isEmpty channel = false

instance [DecidablePred Q] (S : DRAMSystem) (call : Call) : Decidable (Meets config Q S call) := by
  cases call <;> unfold Meets <;> infer_instance

section Channels

/-- A controller after calls that its client may make. -/
def Ran (config : DramConfig) (Q : Controller.Call → Prop) (c : Controller) : Prop :=
  ∃ calls, AllCalls (Controller.step config) (fun c call => Controller.Meets config c call ∧ Q call)
    {} calls ∧ run (Controller.step config) {} calls = .ok c

theorem ran_initial : Ran config Q {} := ⟨[], trivial, rfl⟩

theorem ran_step {call : Controller.Call} (h : Ran config Q c)
    (hmeets : Controller.Meets config c call) (hQ : Q call)
    (hstep : Controller.step config c call = .ok d) : Ran config Q d := by
  obtain ⟨calls, hcalls, hrun⟩ := h
  refine ⟨calls ++ [call], allCalls_append hcalls hrun ⟨⟨hmeets, hQ⟩, fun _ _ => trivial⟩, ?_⟩
  exact run_append hrun (run_cons_ok.mpr ⟨d, hstep, rfl⟩)

/-- The transactions that come back from a channel. -/
def answerable (t : TransactionType) : Bool :=
  t == .READ || t == .WRITE || t == .GWRITE || t == .COMPS_READRES

theorem tidy_of_ran (hregular : Regular config) (h : Ran config Q c) : Controller.Tidy config c := by
  obtain ⟨calls, hcalls, hrun⟩ := h
  refine run_invariant_of (Controller.Tidy config) _ ?_ (Controller.tidy_initial hregular) hcalls hrun
  intro c call t htidy hmeets hstep
  exact (Controller.step_after hregular htidy hmeets.1 hstep).2

theorem answerable_of_ran (hregular : Regular config) (h : Ran config Q c) :
    ∀ u ∈ c.held, answerable u.reqType = true := by
  obtain ⟨calls, hcalls, hrun⟩ := h
  have hnone : Controller.Tidy config c ∧ tally (fun k => !answerable k.2.1) c.held = 0 := by
    refine run_invariant_of (fun c => Controller.Tidy config c ∧
      tally (fun k => !answerable k.2.1) c.held = 0) _ ?_ ⟨Controller.tidy_initial hregular, rfl⟩
      hcalls hrun
    rintro c call t ⟨htidy, hnone⟩ hmeets hstep
    obtain ⟨hafter, htidy'⟩ := Controller.step_after hregular htidy hmeets.1 hstep
    refine ⟨htidy', ?_⟩
    cases call with
    | addTransaction addr reqType =>
      rw [Controller.After] at hafter
      rw [hafter, Controller.tally_addTransaction, hnone]
      have hsupported := hmeets.1.1
      cases reqType <;> simp [Controller.Supported] at hsupported <;> rfl
    | returnDoneTrans =>
      rw [Controller.After] at hafter
      have hsplit := Controller.tally_returnDoneTrans
        (p := fun k => !answerable k.2.1) c c.clk
      rw [hafter]
      omega
    | clockTick =>
      rw [Controller.tally_ticked hregular htidy hafter]
      exact hnone
  intro u hu
  have hu := List.countP_eq_zero.mp hnone.2 u hu
  simpa [key] using hu

end Channels

section Counts

/-- The transactions of an address, writes or others. -/
def sort (write : Bool) (addr : AddrType) (k : AddrType × TransactionType × ℕ) : Bool :=
  k.1 == addr && (k.2.1 == .WRITE) == write

/-- How many requests wait at an address. -/
def pendingAt (q : List (AddrType × MemoryAccess)) (addr : AddrType) : ℕ :=
  q.countP fun p => p.1 == addr

/-- How many requests wait for a channel. -/
def pendingOf (config : DramConfig) (q : List (AddrType × MemoryAccess)) (channel : ℕ) : ℕ :=
  q.countP fun p => config.getChannel p.1 == channel

/-- A request waits for every transaction that a channel holds, and room is reserved for its
response. -/
structure Matched (config : DramConfig) (Q : Controller.Call → Prop) (S : DRAMSystem) : Prop where
  ran : ∀ i, Ran config Q (S.ctrls i)
  counts : ∀ write i addr, tally (sort write addr) (S.ctrls i).held =
    if config.getChannel addr = i then pendingAt (S.pendingQ write) addr else 0
  reserved : ∀ i, (S.responseQueues i).numReserved =
    pendingOf config (S.pendingQ false) i + pendingOf config (S.pendingQ true) i
  room : ∀ i, (S.responseQueues i).numReserved + (S.responseQueues i).outputQueue.length ≤
    ResponseQueue.size

end Counts

section Fields

variable {w v : Bool} {q : List (AddrType × MemoryAccess)} {r : ResponseQueue}

@[simp] theorem pendingQ_setCtrl : (S.setCtrl i c).pendingQ w = S.pendingQ w := by cases w <;> rfl

@[simp] theorem pendingQ_setQueue : (S.setQueue i r).pendingQ w = S.pendingQ w := by cases w <;> rfl

@[simp] theorem pendingQ_setPendingQ :
    (S.setPendingQ w q).pendingQ v = if v = w then q else S.pendingQ v := by
  cases w <;> cases v <;> rfl

@[simp] theorem ctrls_setPendingQ : (S.setPendingQ w q).ctrls = S.ctrls := by cases w <;> rfl

@[simp] theorem responseQueues_setPendingQ :
    (S.setPendingQ w q).responseQueues = S.responseQueues := by cases w <;> rfl

@[simp] theorem clk_setPendingQ : (S.setPendingQ w q).clk = S.clk := by cases w <;> rfl

end Fields

section Callback

variable {t : Transaction} {w : Bool}

theorem tally_sort_singleton (write : Bool) (addr : AddrType) (u : Transaction) :
    tally (sort write addr) [u] =
      if u.addr = addr ∧ (u.reqType == .WRITE) = write then 1 else 0 := by
  rw [Controller.tally_singleton]
  simp only [sort, key, Bool.and_eq_true, beq_iff_eq]

/-- A transaction that comes back finds a request that waits, and its response finds the room that is
reserved for it. -/
theorem callback_spec (h : Matched config Q S) (hran : Ran config Q c)
    (hheld : ∀ p, tally p (S.ctrls i).held = tally p c.held + tally p [t])
    (hw : (t.reqType == .WRITE) = w) :
    ∃ T, (S.setCtrl i c).callback config w t.addr = .ok T ∧ Matched config Q T ∧ T.clk = S.clk ∧
      T.ctrls = Function.update S.ctrls i c := by
  have hone : ∀ write addr, tally (sort write addr) (S.ctrls i).held =
      tally (sort write addr) c.held + if t.addr = addr ∧ w = write then 1 else 0 := by
    intro write addr
    rw [hheld, tally_sort_singleton, hw]
  have hpos := hone w t.addr
  rw [h.counts, if_pos (⟨rfl, rfl⟩ : t.addr = t.addr ∧ w = w)] at hpos
  -- a channel holds transactions of its own addresses only
  have hchannel : config.getChannel t.addr = i := by
    by_contra hne
    rw [if_neg hne] at hpos
    omega
  rw [if_pos hchannel] at hpos
  have hsome : ((S.pendingQ w).find? fun p => p.1 == t.addr).isSome := by
    refine List.find?_isSome.mpr (List.countP_pos_iff.mp ?_)
    change 0 < pendingAt (S.pendingQ w) t.addr
    omega
  obtain ⟨p, hp⟩ := Option.isSome_iff_exists.mp hsome
  have haddr : p.1 = t.addr := by simpa using List.find?_some hp
  set rest := (S.pendingQ w).eraseP fun p => p.1 == t.addr with hrest
  have hat : ∀ a, pendingAt (S.pendingQ w) a = pendingAt rest a + if t.addr = a then 1 else 0 := by
    intro a
    rw [pendingAt, Controller.countP_find hp]
    simp only [haddr, beq_iff_eq]
    rfl
  have hof : ∀ j, pendingOf config (S.pendingQ w) j =
      pendingOf config rest j + if i = j then 1 else 0 := by
    intro j
    rw [pendingOf, Controller.countP_find hp]
    simp only [haddr, hchannel, beq_iff_eq]
    rfl
  have hreserved := h.reserved i
  have hofi := hof i
  rw [if_pos rfl] at hofi
  -- the request that waits has reserved its room
  have hfree : 0 < (S.responseQueues i).numReserved := by
    cases w <;> omega
  have hpush : (S.responseQueues i).push p.2 = .ok
      { numReserved := (S.responseQueues i).numReserved - 1
        outputQueue := (S.responseQueues i).outputQueue ++ [p.2] } := if_pos hfree
  -- named, so that the later rewrites do not unfold it
  obtain ⟨r, hr⟩ : ∃ r : ResponseQueue, r =
      { numReserved := (S.responseQueues i).numReserved - 1
        outputQueue := (S.responseQueues i).outputQueue ++ [p.2] } := ⟨_, rfl⟩
  rw [← hr] at hpush
  obtain ⟨T, hT⟩ : ∃ T, T = ((S.setCtrl i c).setQueue i r).setPendingQ w rest := ⟨_, rfl⟩
  have hctrls : T.ctrls = Function.update S.ctrls i c := by rw [hT, ctrls_setPendingQ]; rfl
  have hqueues : T.responseQueues = Function.update S.responseQueues i r := by
    rw [hT, responseQueues_setPendingQ]
    rfl
  have hpending : ∀ v, T.pendingQ v = if v = w then rest else S.pendingQ v := by
    intro v
    rw [hT, pendingQ_setPendingQ, pendingQ_setQueue, pendingQ_setCtrl]
  refine ⟨T, ?_, ⟨?_, ?_, ?_, ?_⟩, by rw [hT, clk_setPendingQ]; rfl, hctrls⟩
  · rw [callback]
    simp only [pendingQ_setCtrl, hp, hchannel]
    rw [show (S.setCtrl i c).responseQueues i = S.responseQueues i from rfl, hpush, hT]
    rfl
  · intro j
    rw [hctrls]
    by_cases hj : j = i
    · rw [hj, Function.update_self]
      exact hran
    · rw [Function.update_of_ne hj]
      exact h.ran j
  · intro write j addr
    rw [hctrls, hpending]
    have hold := h.counts write j addr
    have hnew := hone write addr
    have herase := hat addr
    by_cases haddr : t.addr = addr
    · have hj : config.getChannel addr = i := by rw [← haddr, hchannel]
      rw [if_pos haddr] at herase
      by_cases hij : i = j
      · subst hij
        rw [if_pos hj] at hold ⊢
        rw [Function.update_self]
        by_cases hv : write = w
        · subst hv
          rw [if_pos ⟨haddr, rfl⟩] at hnew
          rw [if_pos rfl]
          omega
        · rw [if_neg (by rintro ⟨-, h⟩; exact hv h.symm)] at hnew
          rw [if_neg hv]
          omega
      · rw [if_neg (by rw [hj]; exact hij)] at hold ⊢
        rw [Function.update_of_ne (Ne.symm hij)]
        exact hold
    · rw [if_neg haddr] at herase
      rw [if_neg (by rintro ⟨h, -⟩; exact haddr h)] at hnew
      have hsame : tally (sort write addr) (Function.update S.ctrls i c j).held =
          tally (sort write addr) (S.ctrls j).held := by
        by_cases hij : j = i
        · rw [hij, Function.update_self]
          omega
        · rw [Function.update_of_ne hij]
      rw [hsame, hold]
      by_cases hv : write = w
      · subst hv
        rw [if_pos rfl, herase]
        rfl
      · rw [if_neg hv]
  · intro j
    have hold := h.reserved j
    have hofj := hof j
    rw [hqueues, hpending, hpending]
    by_cases hij : i = j
    · subst hij
      rw [Function.update_self, hr]
      dsimp only
      cases w <;> simp <;> omega
    · rw [Function.update_of_ne (Ne.symm hij)]
      rw [if_neg hij] at hofj
      cases w <;> simp <;> omega
  · intro j
    have hold := h.room j
    rw [hqueues]
    by_cases hij : j = i
    · subst hij
      rw [Function.update_self, hr, List.length_append, List.length_singleton]
      dsimp only
      omega
    · rw [Function.update_of_ne hij]
      exact hold

end Callback

section Cycle

/-- The clocks of the controllers in a list. -/
def Synced (S : DRAMSystem) (l : List ℕ) : Prop := ∀ i ∈ l, (S.ctrls i).clk = S.clk

theorem clk_returnDoneTrans (c : Controller) (clk : ℕ) : (c.returnDoneTrans clk).2.clk = c.clk := by
  unfold Controller.returnDoneTrans
  split
  · rfl
  · dsimp only
    split <;> rfl

/-- All that a channel has done is handed to the requests that wait for it. -/
theorem returnDone_spec {n : ℕ} (hregular : Regular config) (hQ : Q .returnDoneTrans)
    (h : Matched config Q S) (hclk : (S.ctrls i).clk = S.clk) :
    ∃ T, returnDone config i n S = .ok T ∧ Matched config Q T ∧ T.clk = S.clk ∧
      ∀ j, (T.ctrls j).clk = (S.ctrls j).clk := by
  -- by induction on the rounds of the loop
  induction n generalizing S with
  | zero => exact ⟨S, rfl, h, rfl, fun _ => rfl⟩
  | succ n ih =>
    have hheld : ∀ p, tally p (S.ctrls i).held =
        tally p ((S.ctrls i).returnDoneTrans S.clk).2.held +
          tally p ((S.ctrls i).returnDoneTrans S.clk).1.toList :=
      fun p => Controller.tally_returnDoneTrans _ _
    have hran : Ran config Q ((S.ctrls i).returnDoneTrans S.clk).2 := by
      have hmeets : Controller.Meets config (S.ctrls i) .returnDoneTrans := trivial
      rw [← hclk]
      exact ran_step (h.ran i) hmeets hQ rfl
    have hkeeps := clk_returnDoneTrans (S.ctrls i) S.clk
    rw [returnDone]
    cases hreturn : (S.ctrls i).returnDoneTrans S.clk with
    | mk o c =>
      rw [hreturn] at hheld hran hkeeps
      dsimp only at hheld hran hkeeps ⊢
      cases o with
      | none => exact ⟨S, rfl, h, rfl, fun _ => rfl⟩
      | some t =>
        dsimp only [Option.toList_some] at hheld ⊢
        have hanswer : answerable t.reqType = true := by
          have hnone := hheld fun k => !answerable k.2.1
          have hall := answerable_of_ran hregular (h.ran i)
          rw [show tally (fun k => !answerable k.2.1) (S.ctrls i).held = 0 from
            List.countP_eq_zero.mpr fun u hu => by simp [key, hall u hu],
            Controller.tally_singleton] at hnone
          by_contra hno
          rw [Bool.not_eq_true] at hno
          simp [key, hno] at hnone
        have hnext : ∀ w, (t.reqType == .WRITE) = w →
            ∃ T, ((S.setCtrl i c).callback config w t.addr >>= returnDone config i n) = .ok T ∧
              Matched config Q T ∧ T.clk = S.clk ∧ ∀ j, (T.ctrls j).clk = (S.ctrls j).clk := by
          intro w hw
          obtain ⟨M, hM, hmatched, hMclk, hctrls⟩ := callback_spec h hran hheld hw
          have hsame : ∀ j, (M.ctrls j).clk = (S.ctrls j).clk := by
            intro j
            rw [hctrls]
            by_cases hj : j = i
            · rw [hj, Function.update_self, hkeeps]
            · rw [Function.update_of_ne hj]
          obtain ⟨T, hT, hdone, hTclk, hTctrls⟩ := ih hmatched (by rw [hsame, hclk, hMclk])
          refine ⟨T, ?_, hdone, hTclk.trans hMclk, fun j => (hTctrls j).trans (hsame j)⟩
          rw [hM]
          exact hT
        cases ht : t.reqType <;> rw [ht] at hanswer hnext <;> dsimp only
        case READ => exact hnext false rfl
        case WRITE => exact hnext true rfl
        case GWRITE => exact hnext false rfl
        case COMPS_READRES => exact hnext false rfl
        all_goals cases hanswer

theorem returnDone_all {l : List ℕ} (hregular : Regular config) (hQ : Q .returnDoneTrans)
    (h : Matched config Q S) (hsynced : Synced S l) :
    ∃ T, l.foldlM (fun S i => returnDone config i (S.ctrls i).returnQueue.length S) S = .ok T ∧
      Matched config Q T ∧ T.clk = S.clk ∧ ∀ j, (T.ctrls j).clk = (S.ctrls j).clk := by
  induction l generalizing S with
  | nil => exact ⟨S, rfl, h, rfl, fun _ => rfl⟩
  | cons i l ih =>
    obtain ⟨M, hM, hmatched, hMclk, hctrls⟩ :=
      returnDone_spec hregular hQ h (hsynced i List.mem_cons_self)
    obtain ⟨T, hT, hdone, hTclk, hTctrls⟩ := ih hmatched fun j hj => by
      rw [hctrls, hMclk]
      exact hsynced j (List.mem_cons_of_mem _ hj)
    refine ⟨T, ?_, hdone, hTclk.trans hMclk, fun j => (hTctrls j).trans (hctrls j)⟩
    rw [List.foldlM_cons, hM]
    exact hT

/-- A controller may stop with the faults of `F` only. -/
def Stops (config : DramConfig) (Q : Controller.Call → Prop) (F : MemoryFault → Prop) : Prop :=
  ∀ c, Ran config Q c → (∃ f, c.clockTick config = .error f ∧ F f) ∨
    ∃ t, c.clockTick config = .ok t

theorem matched_setCtrl (hregular : Regular config) (hQ : Q .clockTick) (h : Matched config Q S)
    (htick : (S.ctrls i).clockTick config = .ok d) :
    Matched config Q (S.setCtrl i d) ∧ d.clk = (S.ctrls i).clk + 1 := by
  have hmeets : Controller.Meets config (S.ctrls i) .clockTick := trivial
  have htidy := tidy_of_ran hregular (h.ran i)
  obtain ⟨hticked, -⟩ := Controller.step_after hregular htidy hmeets htick
  have hheld : ∀ p, tally p d.held = tally p (S.ctrls i).held :=
    fun p => Controller.tally_ticked hregular htidy hticked
  refine ⟨⟨?_, ?_, h.reserved, h.room⟩, Controller.clk_ticked hticked⟩
  · intro j
    by_cases hj : j = i
    · simp only [setCtrl, hj, Function.update_self]
      exact ran_step (h.ran i) hmeets hQ htick
    · simp only [setCtrl, Function.update_of_ne hj]
      exact h.ran j
  · intro write j addr
    rw [pendingQ_setCtrl, ← h.counts]
    by_cases hj : j = i
    · simp only [setCtrl, hj, Function.update_self]
      exact hheld _
    · simp only [setCtrl, Function.update_of_ne hj]

/-- The controllers of a list run for a cycle, or one of them stops. -/
theorem clockTick_all {l : List ℕ} {F : MemoryFault → Prop} (hregular : Regular config)
    (hQ : Q .clockTick) (hstops : Stops config Q F) (h : Matched config Q S) (hnodup : l.Nodup) :
    (∃ f, l.foldlM (fun S i => ((S.ctrls i).clockTick config).map fun c => S.setCtrl i c) S =
        .error f ∧ F f) ∨
      ∃ T, l.foldlM (fun S i => ((S.ctrls i).clockTick config).map fun c => S.setCtrl i c) S = .ok T ∧
        Matched config Q T ∧ T.clk = S.clk ∧
        ∀ j, (T.ctrls j).clk = (S.ctrls j).clk + if j ∈ l then 1 else 0 := by
  induction l generalizing S with
  | nil => exact .inr ⟨S, rfl, h, rfl, fun _ => by simp⟩
  | cons i l ih =>
    rw [List.nodup_cons] at hnodup
    rw [List.foldlM_cons]
    rcases hstops _ (h.ran i) with ⟨f, herr, hf⟩ | ⟨d, hd⟩
    · exact .inl ⟨f, by rw [herr]; rfl, hf⟩
    · obtain ⟨hmatched, hclk⟩ := matched_setCtrl hregular hQ h hd
      have hstep : ((S.ctrls i).clockTick config).map (fun c => S.setCtrl i c) =
          .ok (S.setCtrl i d) := by
        rw [hd]
        rfl
      rw [hstep, ok_bind]
      rcases ih hmatched hnodup.2 with herr | ⟨T, hT, hdone, hTclk, hTctrls⟩
      · exact .inl herr
      · refine .inr ⟨T, hT, hdone, hTclk, fun j => ?_⟩
        rw [hTctrls]
        by_cases hj : j = i
        · subst hj
          simp [setCtrl, hnodup.1, hclk]
        · simp [setCtrl, hj]

/-- A cycle of all channels may stop with the faults of one of them, or when the cycles are counted
in periods. -/
theorem clockTick_spec {F : MemoryFault → Prop} (hregular : Regular config)
    (hreturn : Q .returnDoneTrans) (hQ : Q .clockTick) (hstops : Stops config Q F)
    (hperiod : config.epochPeriod = 0 → F .divisionByZero) (h : Matched config Q S)
    (hsynced : Synced S (List.range config.channels)) :
    (∃ f, S.clockTick config = .error f ∧ F f) ∨ ∃ T, S.clockTick config = .ok T ∧
      Matched config Q T ∧ Synced T (List.range config.channels) := by
  obtain ⟨M, hM, hmatched, hMclk, hctrls⟩ := returnDone_all hregular hreturn h hsynced
  rw [clockTick, hM, ok_bind]
  rcases clockTick_all hregular hQ hstops hmatched List.nodup_range with
    ⟨f, herr, hf⟩ | ⟨T, hT, hdone, hTclk, hTctrls⟩
  · exact .inl ⟨f, by rw [herr]; rfl, hf⟩
  · rw [hT, ok_bind]
    by_cases hzero : config.epochPeriod = 0
    · exact .inl ⟨.divisionByZero, if_pos hzero, hperiod hzero⟩
    · refine .inr ⟨{ T with clk := T.clk + 1 }, if_neg hzero,
        ⟨hdone.ran, ?_, hdone.reserved, hdone.room⟩, ?_⟩
      · intro write j addr
        rw [hdone.counts]
        cases write <;> rfl
      · intro j hj
        change (T.ctrls j).clk = T.clk + 1
        rw [hTctrls, if_pos hj, hctrls, hsynced j hj, hTclk, hMclk]

end Cycle

section Push

variable {addr : AddrType} {reqType : TransactionType}

/-- A request that is not refused has its room, and its controller takes it. -/
theorem accepted (h : S.isFull config request = .ok false) :
    let channel := config.getChannel request.dramAddress
    let reqType := transactionType request.reqType
    ((S.responseQueues channel).isAvailable 1 || reqType == .P_HEADER) = true ∧
      (S.ctrls channel).willAcceptTransaction config reqType = .ok true := by
  obtain ⟨ok, hok, hnot⟩ := map_ok h
  rw [Bool.not_eq_false'] at hnot
  subst hnot
  unfold willAcceptTransaction at hok
  dsimp only at hok ⊢
  split at hok
  · rename_i havailable
    exact ⟨havailable, hok⟩
  · cases hok

/-- A request that waits for its response. -/
theorem pendingQ_pushToPendingQueue (hheader : reqType ≠ .P_HEADER) (hpwrite : reqType ≠ .PWRITE)
    (v : Bool) : (S.pushToPendingQueue addr reqType request).pendingQ v =
      S.pendingQ v ++ if (reqType == .WRITE) = v then [(addr, request)] else [] := by
  cases reqType <;> simp at hheader hpwrite <;> cases v <;> simp [pushToPendingQueue, pendingQ]

theorem pushToPendingQueue_same (S : DRAMSystem) (addr : AddrType) (reqType : TransactionType)
    (request : MemoryAccess) : (S.pushToPendingQueue addr reqType request).ctrls = S.ctrls ∧
      (S.pushToPendingQueue addr reqType request).clk = S.clk ∧
      (S.pushToPendingQueue addr reqType request).responseQueues = S.responseQueues := by
  cases reqType <;> exact ⟨rfl, rfl, rfl⟩

/-- The system after a request. -/
structure Pushed (config : DramConfig) (S : DRAMSystem) (addr : AddrType)
    (reqType : TransactionType) (request : MemoryAccess) (T : DRAMSystem) : Prop where
  clk : T.clk = S.clk
  ctrls : T.ctrls = Function.update S.ctrls (config.getChannel addr)
    ((S.ctrls (config.getChannel addr)).addTransaction { addr, reqType })
  pending : ∀ v, T.pendingQ v = S.pendingQ v ++
    if reqType ≠ .P_HEADER ∧ (reqType == .WRITE) = v then [(addr, request)] else []
  queues : ∀ j, (T.responseQueues j).outputQueue = (S.responseQueues j).outputQueue ∧
    (T.responseQueues j).numReserved = (S.responseQueues j).numReserved +
      if reqType ≠ .P_HEADER ∧ config.getChannel addr = j then 1 else 0

theorem reserve_ok {r r' : ResponseQueue} (h : r.reserve = .ok r') :
    r' = { r with numReserved := r.numReserved + 1 } := by
  unfold ResponseQueue.reserve at h
  split at h <;> cases h
  rfl

theorem pushed_of_ok (hpwrite : reqType ≠ .PWRITE)
    (h : S.addTransaction config addr reqType request = .ok T) :
    Pushed config S addr reqType request T := by
  rw [addTransaction] at h
  by_cases hheader : reqType = .P_HEADER
  · rw [if_pos hheader, ok_bind] at h
    obtain ⟨ok, -, h⟩ := bind_ok.mp h
    split at h <;> cases h
    refine ⟨rfl, rfl, ?_, ?_⟩
    · intro v
      rw [pendingQ_setCtrl, if_neg (by simp [hheader]), List.append_nil]
    · intro j
      rw [if_neg (by simp [hheader])]
      exact ⟨rfl, rfl⟩
  · rw [if_neg hheader] at h
    obtain ⟨M, hM, h⟩ := bind_ok.mp h
    obtain ⟨ok, -, h⟩ := bind_ok.mp h
    split at h <;> cases h
    obtain ⟨r, hr, hM⟩ := map_ok hM
    have hr := reserve_ok hr
    obtain ⟨hctrls, hclk, hqueues⟩ :=
      pushToPendingQueue_same (S.setQueue (config.getChannel addr) r) addr reqType request
    rw [hM] at hctrls hclk hqueues
    have hsame : M.ctrls = S.ctrls := hctrls
    refine ⟨hclk, ?_, ?_, ?_⟩
    · simp only [setCtrl, hsame]
    · intro v
      rw [pendingQ_setCtrl, ← hM, pendingQ_pushToPendingQueue hheader hpwrite, pendingQ_setQueue]
      simp [hheader]
    · intro j
      change (M.responseQueues j).outputQueue = _ ∧ (M.responseQueues j).numReserved = _
      rw [hqueues]
      by_cases hj : j = config.getChannel addr
      · subst hj
        simp [setQueue, hr, hheader]
      · simp [setQueue, hj, Ne.symm hj]

theorem transactionType_ne_pwrite (t : MemoryAccessType) : transactionType t ≠ .PWRITE := by
  cases t <;> simp [transactionType]

theorem push_ok {cid : ℕ} (h : S.push config cid request = .ok T) :
    Machine.IsBurst config.toConfig cid request ∧
      S.addTransaction config request.dramAddress (transactionType request.reqType)
        { request with request := false } = .ok T := by
  unfold push at h
  split at h
  · exact ⟨‹_›, h⟩
  · cases h

/-- A transaction that its controller takes, and whose response finds room, is added. -/
theorem exists_addTransaction
    (haccept : (S.ctrls (config.getChannel addr)).willAcceptTransaction config reqType = .ok true)
    (hroom : reqType ≠ .P_HEADER →
      (S.responseQueues (config.getChannel addr)).numReserved < ResponseQueue.size) :
    ∃ T, S.addTransaction config addr reqType request = .ok T := by
  have hend : ∀ M : DRAMSystem, M.ctrls = S.ctrls → ∃ T, ((M.ctrls (config.getChannel addr))
      |>.willAcceptTransaction config reqType) >>= (fun ok =>
        if ok = true then .ok (M.setCtrl (config.getChannel addr)
          ((M.ctrls (config.getChannel addr)).addTransaction { addr, reqType }))
        else .error .rejected) = .ok T := by
    intro M hM
    rw [hM, haccept, ok_bind, if_pos rfl]
    exact ⟨_, rfl⟩
  by_cases hheader : reqType = .P_HEADER
  · rw [addTransaction, if_pos hheader, ok_bind]
    exact hend S rfl
  · have hreserve : (S.responseQueues (config.getChannel addr)).reserve = .ok _ :=
      if_pos (hroom hheader)
    rw [addTransaction, if_neg hheader, hreserve]
    exact hend _ (pushToPendingQueue_same _ addr reqType request).1

theorem push_spec {cid : ℕ} (h : Matched config Q S)
    (hsynced : Synced S (List.range config.channels))
    (hmeets : Meets config Q S (.push cid request)) :
    ∃ T, S.push config cid request = .ok T ∧
      Pushed config S request.dramAddress (transactionType request.reqType)
        { request with request := false } T ∧
      Matched config Q T ∧ Synced T (List.range config.channels) := by
  obtain ⟨-, hburst, hsupported, hQ, hfull⟩ := hmeets
  obtain ⟨havailable, haccept⟩ := accepted hfull
  set addr := request.dramAddress
  set reqType := transactionType request.reqType
  have hsize : reqType ≠ .P_HEADER →
      (S.responseQueues (config.getChannel addr)).numReserved +
        (S.responseQueues (config.getChannel addr)).outputQueue.length < ResponseQueue.size := by
    intro hheader
    simpa [hheader, ResponseQueue.isAvailable] using havailable
  obtain ⟨T, hT⟩ := @exists_addTransaction config S { request with request := false } addr
    reqType haccept fun hheader => by
      have := hsize hheader
      omega
  have hpushed : Pushed config S addr reqType { request with request := false } T :=
    pushed_of_ok (transactionType_ne_pwrite request.reqType) hT
  have hcall : Controller.Meets config (S.ctrls (config.getChannel addr))
      (.addTransaction addr reqType) := ⟨hsupported, haccept⟩
  have hstep : Controller.step config (S.ctrls (config.getChannel addr))
      (.addTransaction addr reqType) =
        .ok ((S.ctrls (config.getChannel addr)).addTransaction { addr, reqType }) := by
    rw [Controller.step, haccept]
    rfl
  refine ⟨T, (if_pos hburst).trans hT, hpushed, ⟨?_, ?_, ?_, ?_⟩, ?_⟩
  · intro j
    rw [hpushed.ctrls]
    by_cases hj : j = config.getChannel addr
    · rw [hj, Function.update_self]
      exact ran_step (h.ran _) hcall hQ hstep
    · rw [Function.update_of_ne hj]
      exact h.ran j
  · intro write j a
    have hold := h.counts write j a
    have hnew : pendingAt (T.pendingQ write) a = pendingAt (S.pendingQ write) a +
        if (reqType ≠ .P_HEADER ∧ (reqType == .WRITE) = write) ∧ addr = a then 1 else 0 := by
      rw [pendingAt, hpushed.pending, List.countP_append]
      by_cases hif : reqType ≠ .P_HEADER ∧ (reqType == .WRITE) = write
      · rw [if_pos hif, List.countP_singleton]
        simp only [hif, beq_iff_eq, pendingAt, true_and, ne_eq, not_false_eq_true, and_self]
      · rw [if_neg hif, if_neg (fun h => hif h.1)]
        rfl
    rw [hnew, hpushed.ctrls]
    by_cases hj : j = config.getChannel addr
    · subst hj
      rw [Function.update_self, Controller.tally_addTransaction, hold, tally_sort_singleton]
      by_cases haddr : addr = a
      · subst haddr
        by_cases hheader : reqType = .P_HEADER <;> simp [hheader]
      · simp [haddr]
    · rw [Function.update_of_ne hj, hold]
      by_cases ha : config.getChannel a = j
      · have haddr : addr ≠ a := by
          rintro rfl
          exact hj ha.symm
        rw [if_pos ha, if_pos ha, if_neg (fun h => haddr h.2), Nat.add_zero]
      · rw [if_neg ha, if_neg ha]
  · intro j
    have hold := h.reserved j
    have hnew : ∀ v, pendingOf config (T.pendingQ v) j = pendingOf config (S.pendingQ v) j +
        if (reqType ≠ .P_HEADER ∧ (reqType == .WRITE) = v) ∧ config.getChannel addr = j then 1
        else 0 := by
      intro v
      rw [pendingOf, hpushed.pending, List.countP_append]
      by_cases hif : reqType ≠ .P_HEADER ∧ (reqType == .WRITE) = v
      · rw [if_pos hif, List.countP_singleton]
        simp only [hif, beq_iff_eq, pendingOf, true_and, ne_eq, not_false_eq_true, and_self]
      · rw [if_neg hif, if_neg (fun h => hif h.1)]
        rfl
    rw [(hpushed.queues j).2, hnew, hnew, hold]
    by_cases hheader : reqType = .P_HEADER
    · simp [hheader]
    · cases hw : (reqType == TransactionType.WRITE) <;> simp [hheader] <;> split <;> omega
  · intro j
    have hold := h.room j
    rw [(hpushed.queues j).1, (hpushed.queues j).2]
    by_cases hj : reqType ≠ .P_HEADER ∧ config.getChannel addr = j
    · obtain ⟨hheader, hj⟩ := hj
      have hfree := hsize hheader
      rw [hj] at hfree
      rw [if_pos ⟨hheader, hj⟩]
      omega
    · rw [if_neg hj]
      omega
  · intro j hj
    rw [hpushed.ctrls, hpushed.clk]
    by_cases hjc : j = config.getChannel addr
    · have hmem := hsynced j hj
      rw [hjc] at hmem ⊢
      rw [Function.update_self]
      have hafter : Controller.After config (S.ctrls (config.getChannel addr))
        (.addTransaction addr reqType) _ := rfl
      exact (Controller.after_same hafter (by simp)).1.trans hmem
    · rw [Function.update_of_ne hjc]
      exact hsynced j hj

end Push

end NewPims.NewtonSim.DRAMSystem

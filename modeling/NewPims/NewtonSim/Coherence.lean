import NewPims.NewtonSim.Apart

/-! The data that reads get. A controller moves no data; here the writes to an address are numbered,
and the number of a write stands for its data, in the write buffer, in the memory, and with the
transactions that are answered. -/
namespace NewPims.NewtonSim.Controller

open Transition CommandQueue

variable {config : DramConfig} {c m s t : Controller} {cmd : TypedCommand}
  {o : Option TypedCommand} {q : CommandQueue} {calls : List Call}

/-- What a client knows of a transaction. -/
def key (u : Transaction) : AddrType × TransactionType × ℕ := (u.addr, u.reqType, u.addedCycle)

/-- A transaction on its way back, with the last write to its address that was accepted before it,
and the data that it carries, if it has got any. -/
structure Answer where
  trans : Transaction
  due : ℕ
  data : Option ℕ

/-- `accepted` is the last write to an address that was accepted, `buffered` is the data of the write
buffer, and `stored` that of the memory. `reads` are the reads that wait for the memory, with the
write that each has to see. `taken` is what `ReturnDoneTrans` gave, and `answers` is that with its
data. -/
structure Contents where
  accepted : AddrType → ℕ := fun _ => 0
  buffered : AddrType → ℕ := fun _ => 0
  stored : AddrType → ℕ := fun _ => 0
  reads : List (Transaction × ℕ) := []
  returns : List Answer := []
  taken : List Transaction := []
  answers : List Answer := []

/-- What has been put into the return queue. -/
def completed (c t : Controller) : List Transaction := t.returnQueue.drop c.returnQueue.length

namespace Contents

/-- The data of a write goes into the buffer, also where an older write waits there. What is answered
at once has the data of the buffer, if a write of the address waits there, and no data else. -/
def accept (c t : Controller) (d : Contents) (a : AddrType) (reqType : TransactionType) : Contents :=
  let data := if 0 < count c.pendingWrQ a then some (d.buffered a) else none
  let next := if reqType = .WRITE then d.accepted a + 1 else d.accepted a
  { d with
    accepted := Function.update d.accepted a next
    buffered := if reqType = .WRITE then Function.update d.buffered a next else d.buffered
    reads := d.reads ++ (t.pendingRdQ.drop c.pendingRdQ.length).map fun u => (u, d.accepted a)
    returns := d.returns ++ (completed c t).map fun u => ⟨u, d.accepted a, data⟩ }

/-- A command that reads fetches the data of its address, for the reads of it that wait. A command
that writes takes the data from the buffer. -/
def issue (new : List Transaction) (d : Contents) (cmd : TypedCommand) : Contents :=
  let a := cmd.hexAddr
  match cmd.cmdType with
  | .READ =>
    { d with
      reads := d.reads.filter fun r => !(r.1.addr == a)
      returns := d.returns ++ List.zipWith
        (fun u r => ⟨u, r.2, if key u = key r.1 then some (d.stored a) else none⟩) new
        (d.reads.filter fun r => r.1.addr == a) }
  | .WRITE => { d with stored := Function.update d.stored a (d.buffered a) }
  | _ => { d with returns := d.returns ++ new.map fun u => ⟨u, 0, none⟩ }

/-- What a call does that leads from one controller to another. -/
def after (c t : Controller) (d : Contents) : Call → Contents
  | .addTransaction addr reqType => d.accept c t addr reqType
  | .returnDoneTrans =>
    let done := fun p : Answer => decide (p.trans.completeCycle ≤ c.clk)
    { d with
      returns := d.returns.eraseP done
      taken := d.taken ++ (c.returnDoneTrans c.clk).1.toList
      answers := d.answers ++ (d.returns.find? done).toList }
  | .clockTick => (t.log.drop c.log.length).foldl (fun d e => d.issue (completed c t) e.2) d

end Contents

/-- A call, with its data. -/
def dataStep (config : DramConfig) (s : Controller × Contents) (call : Call) :
    Except MemoryFault (Controller × Contents) :=
  (step config s.1 call).map fun t => (t, s.2.after s.1 t call)

/-- A read carries the data that it has to see. -/
def Answer.Good (p : Answer) : Prop := p.trans.reqType = .READ → p.data = some p.due

/-- Reads that wait all have to see what the memory holds, and that is the last write, unless one
waits in the buffer. What is in the return queue has its data. -/
structure Coherent (c : Controller) (d : Contents) : Prop where
  reads : d.reads.map Prod.fst = c.pendingRdQ
  returns : d.returns.map Answer.trans = c.returnQueue
  taken : d.answers.map Answer.trans = d.taken
  good : ∀ p ∈ d.returns ++ d.answers, p.Good
  pims : ∀ u ∈ c.pendingPimQ, u.reqType ≠ .READ
  owed : ∀ r ∈ d.reads, r.2 = d.stored r.1.addr
  buffered : ∀ a, d.buffered a = d.accepted a
  stored : ∀ a, count c.pendingWrQ a = 0 → d.stored a = d.accepted a

variable {d : Contents}

theorem clk_ticked (htick : Ticked config c t) : t.clk = c.clk + 1 := by
  cases htick with
  | mk o q m s hchosen heffect hscheduled =>
    obtain ⟨-, -, -, -, -, hclk, -⟩ := scheduled_same hscheduled
    have hm : m.clk = c.clk := by
      cases heffect with
      | nothing => rfl
      | header cmd htype => rfl
      | command cmd m ch hissue hfit hcompleted hissued => exact hcompleted.clk
    exact congrArg (· + 1) (hclk.trans hm)

/-- A write may be issued when no read of its address waits. -/
theorem noReads_of_drawn (hledger : Ledger config c) (hdrawn : c.cmdQueue.Drawn config cmd q)
    (htype : cmd.cmdType = .WRITE) : count c.pendingRdQ cmd.hexAddr = 0 := by
  have hwaiting := waiting_drawn hdrawn (t := .WRITE) rfl cmd.hexAddr
  rw [if_pos ⟨htype, rfl⟩] at hwaiting
  exact hledger.ordered cmd.hexAddr (by omega)

theorem good_append {p : List Answer} (h : ∀ x ∈ d.returns ++ d.answers, x.Good)
    (hp : ∀ x ∈ p, x.Good) : ∀ x ∈ (d.returns ++ p) ++ d.answers, x.Good := by
  intro x hx
  rw [List.mem_append, List.mem_append] at hx
  rcases hx with (hx | hx) | hx
  · exact h x (List.mem_append_left _ hx)
  · exact hp x hx
  · exact h x (List.mem_append_right _ hx)

theorem completed_append {new : List Transaction} (h : t.returnQueue = c.returnQueue ++ new) :
    completed c t = new := by
  rw [completed, h, List.drop_left]

/-- The end of a transaction puts something into the return queue at most. -/
theorem returnQueue_completed (h : Completed config c cmd m) :
    m.returnQueue = c.returnQueue ++ completed c m := by
  have hgrow : ∃ new, m.returnQueue = c.returnQueue ++ new := by
    cases h with
    | read htype hpos => exact ⟨_, rfl⟩
    | write htype hpos => exact ⟨[], (List.append_nil _).symm⟩
    | pim u delay htype hfind hdelay => exact ⟨_, rfl⟩
    | other hrw hgwrite hcomps => exact ⟨[], (List.append_nil _).symm⟩
  obtain ⟨new, hnew⟩ := hgrow
  rw [completed_append hnew, hnew]

/-- What is known of the data of a controller is known of another one with the same transactions. -/
theorem coherent_of_same (h : Coherent c d) (hrd : t.pendingRdQ = c.pendingRdQ)
    (hwr : t.pendingWrQ = c.pendingWrQ) (hpim : t.pendingPimQ = c.pendingPimQ)
    (hreturn : t.returnQueue = c.returnQueue) : Coherent t d := by
  refine ⟨h.reads.trans hrd.symm, h.returns.trans hreturn.symm, h.taken, h.good, ?_, h.owed,
    h.buffered, ?_⟩
  · rw [hpim]
    exact h.pims
  · rw [hwr]
    exact h.stored

/-- The reads of an address get what is stored for it. -/
theorem coherent_read {new : List Transaction} {clk : ℕ} (htype : cmd.cmdType = .READ)
    (h : Coherent c d) (hnew : new = (c.pendingRdQ.filter fun t => t.addr == cmd.hexAddr).map fun t =>
      { t with completeCycle := clk }) :
    Coherent { c with
      returnQueue := c.returnQueue ++ new
      pendingRdQ := c.pendingRdQ.filter fun t => !(t.addr == cmd.hexAddr) } (d.issue new cmd) := by
  -- the reads of the address are the same, here and in the controller
  have hreads : new = (d.reads.filter fun r => r.1.addr == cmd.hexAddr).map fun r =>
      { r.1 with completeCycle := clk } := by
    rw [hnew, ← h.reads, List.filter_map, List.map_map]
    rfl
  rw [hreads]
  simp only [Contents.issue, htype, List.zipWith_map_left, List.zipWith_self]
  refine ⟨?_, ?_, h.taken, ?_, h.pims, ?_, h.buffered, h.stored⟩
  · dsimp only
    rw [← h.reads, List.filter_map]
    rfl
  · dsimp only
    rw [List.map_append, h.returns, List.map_map]
    rfl
  · refine good_append h.good ?_
    intro p hp hread
    obtain ⟨r, hr, rfl⟩ := List.mem_map.mp hp
    obtain ⟨hr, haddr⟩ := List.mem_filter.mp hr
    rw [beq_iff_eq] at haddr
    have hdue := h.owed r hr
    rw [haddr] at hdue
    dsimp only
    rw [hdue]
    exact if_pos rfl
  · intro r hr
    exact h.owed r (List.mem_of_mem_filter hr)

/-- A write is stored when no read of its address waits. -/
theorem coherent_write {new : List Transaction} (htype : cmd.cmdType = .WRITE)
    (hpos : 0 < count c.pendingWrQ cmd.hexAddr) (hnone : count c.pendingRdQ cmd.hexAddr = 0)
    (h : Coherent c d) :
    Coherent { c with pendingWrQ := c.pendingWrQ.eraseP fun t => t.addr == cmd.hexAddr }
      (d.issue new cmd) := by
  simp only [Contents.issue, htype]
  refine ⟨h.reads, h.returns, h.taken, h.good, h.pims, ?_, h.buffered, ?_⟩
  · intro r hr
    have hne : r.1.addr ≠ cmd.hexAddr := by
      have hzero := List.countP_eq_zero.mp hnone r.1
        (by rw [← h.reads]; exact List.mem_map_of_mem hr)
      simpa using hzero
    dsimp only
    rw [Function.update_of_ne hne]
    exact h.owed r hr
  · intro a hzero
    dsimp only at hzero ⊢
    by_cases ha : a = cmd.hexAddr
    · rw [ha, Function.update_self]
      exact h.buffered _
    · rw [Function.update_of_ne ha]
      refine h.stored a ?_
      have hcount := count_eraseP hpos a
      rw [if_neg (Ne.symm ha)] at hcount
      omega

theorem coherent_completed {new : List Transaction}
    (hnone : cmd.cmdType = .WRITE → count c.pendingRdQ cmd.hexAddr = 0) (h : Coherent c d)
    (hcompleted : Completed config c cmd m) (hnew : m.returnQueue = c.returnQueue ++ new) :
    Coherent m (d.issue new cmd) := by
  have hsame : cmd.cmdType ≠ .READ → cmd.cmdType ≠ .WRITE → d.issue new cmd =
      { d with returns := d.returns ++ new.map fun u => ⟨u, 0, none⟩ } := by
    intro hread hwrite
    unfold Contents.issue
    dsimp only
    split
    · exact absurd ‹_› hread
    · exact absurd ‹_› hwrite
    · rfl
  cases hcompleted with
  | read htype hpos =>
    have hdone := (List.append_cancel_left hnew).symm
    have hread := coherent_read htype h hdone
    subst hdone
    exact hread
  | write htype hpos => exact coherent_write htype hpos (hnone htype) h
  | pim u delay htype hfind hdelay =>
    have hne : cmd.cmdType ≠ .READ ∧ cmd.cmdType ≠ .WRITE := by
      rcases htype with htype | htype <;> simp [htype]
    have hu := h.pims u (List.mem_of_find?_eq_some hfind)
    rw [hsame hne.1 hne.2, ← List.append_cancel_left hnew]
    refine ⟨h.reads, ?_, h.taken, ?_, fun v hv => h.pims v (List.mem_of_mem_eraseP hv), h.owed,
      h.buffered, h.stored⟩
    · dsimp only
      rw [List.map_append, h.returns]
      rfl
    · refine good_append h.good ?_
      intro p hp hread
      rw [List.map_singleton, List.mem_singleton] at hp
      subst hp
      exact absurd hread hu
  | other hrw hgwrite hcomps =>
    have hne : cmd.cmdType ≠ .READ ∧ cmd.cmdType ≠ .WRITE := by
      constructor <;>
      · intro htype
        rw [htype] at hrw
        cases hrw
    have hnil : new = [] := List.self_eq_append_right.mp hnew
    rw [hsame hne.1 hne.2, hnil, List.map_nil, List.append_nil]
    exact h

theorem coherent_ticked (hregular : Regular config) (htidy : Tidy config c) (h : Coherent c d)
    (htick : Ticked config c t) : Coherent t (d.after c t .clockTick) := by
  cases htick with
  | mk o q m s hchosen heffect hscheduled =>
    have hsound := sound_refreshed hregular htidy.sound
    have hledger := ledger_refreshed htidy.ledger
    obtain ⟨hrd, hwr, hpim, hreturn, hlog, -⟩ := scheduled_same hscheduled
    obtain ⟨refreshQ, r, heq, -⟩ := refreshed_cases hregular htidy.sound
    have hlogs : (refreshed config c).log = c.log := by rw [heq]
    have hreturns : (refreshed config c).returnQueue = c.returnQueue := by rw [heq]
    have hr : Coherent (refreshed config c) d := by
      rw [heq]
      exact coherent_of_same h rfl rfl rfl rfl
    have hend : completed c s.advanced = completed c m := congrArg (List.drop _) hreturn
    -- the log and the return queue of the last state are those of the middle one
    have hafter : ∀ d', (m.log.drop c.log.length).foldl
        (fun d e => Contents.issue (completed c m) d e.2) d = d' → Coherent m d' →
        Coherent s.advanced (d.after c s.advanced .clockTick) := by
      intro d' hd' hm
      have hsame : d.after c s.advanced .clockTick = d' := by
        rw [← hd', Contents.after, hend]
        change (s.log.drop _).foldl _ _ = _
        rw [hlog]
        rfl
      rw [hsame]
      exact coherent_of_same hm hrd hwr hpim hreturn
    cases heffect with
    | nothing =>
      refine hafter d ?_ (coherent_of_same hr rfl rfl rfl rfl)
      change ((refreshed config c).log.drop _).foldl _ _ = _
      rw [hlogs, List.drop_length]
      rfl
    | header cmd htype =>
      refine hafter d ?_ (coherent_of_same hr rfl rfl rfl rfl)
      have hnil : completed c (({ refreshed config c with cmdQueue := q } : Controller).logged cmd) =
          [] := completed_append (hreturns.trans (List.append_nil _).symm)
      change (((refreshed config c).log ++ [_]).drop _).foldl _ _ = _
      rw [hlogs, List.drop_left, hnil]
      simp [Contents.issue, htype]
    | command cmd m ch hissue hfit hcompleted hissued =>
      obtain ⟨-, -, hdrawn⟩ := chosen_some hsound.filled hsound.refreshes hchosen
      have hgrow := returnQueue_completed hcompleted
      have hnew : completed c m = completed
          (({ refreshed config c with cmdQueue := q } : Controller).logged cmd) m :=
        completed_append (hgrow.trans (congrArg (· ++ _) hreturns))
      refine hafter (d.issue (completed c m) cmd) ?_ ?_
      · have hm : m.log = c.log ++ [((refreshed config c).clk, cmd)] := by
          obtain ⟨returns, rd, wr, pim, rfl⟩ := completed_same hcompleted
          change (refreshed config c).log ++ [_] = _
          rw [hlogs]
        change (m.log.drop _).foldl _ _ = _
        rw [hm, List.drop_left]
        rfl
      · have hnone : cmd.cmdType = .WRITE → count (refreshed config c).pendingRdQ cmd.hexAddr = 0 :=
          noReads_of_drawn hledger hdrawn
        rw [hnew]
        have hdone := coherent_completed
          (c := ({ refreshed config c with cmdQueue := q } : Controller).logged cmd) hnone
          (coherent_of_same hr rfl rfl rfl rfl) hcompleted hgrow
        exact coherent_of_same hdone rfl rfl rfl rfl

/-- What a transaction that is added does to the queues that answers come from. -/
structure Adds (c : Controller) (addr : AddrType) (reqType : TransactionType) (t : Controller)
    (done rd pim : List Transaction) : Prop where
  returns : t.returnQueue = c.returnQueue ++ done
  reads : t.pendingRdQ = c.pendingRdQ ++ rd
  pims : t.pendingPimQ = c.pendingPimQ ++ pim
  /-- A read is answered at once when a write waits in the buffer. -/
  answered : ∀ u ∈ done, u.reqType = .READ → 0 < count c.pendingWrQ addr
  waits : ∀ u ∈ rd, u.addr = addr ∧ count c.pendingWrQ addr = 0
  kind : ∀ u ∈ pim, u.reqType ≠ .READ
  writes : ∀ a, count t.pendingWrQ a = 0 →
    count c.pendingWrQ a = 0 ∧ ¬ (reqType = .WRITE ∧ a = addr)

theorem addTransaction_adds (c : Controller) (addr : AddrType) (reqType : TransactionType) :
    ∃ done rd pim, Adds c addr reqType (c.addTransaction { addr, reqType }) done rd pim := by
  have hnone : ∀ (P : Transaction → Prop), ∀ u ∈ ([] : List Transaction), P u :=
    fun P u hu => absurd hu List.not_mem_nil
  cases reqType with
  | READ =>
    unfold addTransaction
    dsimp only
    split
    · rename_i hpos
      exact ⟨[_], [], [], rfl, (List.append_nil _).symm, (List.append_nil _).symm,
        fun _ _ _ => hpos, hnone _, hnone _, fun a ha => ⟨ha, by simp⟩⟩
    · rename_i hzero
      have hwaits : ∀ u ∈ [({ addr, addedCycle := c.clk, reqType := .READ } : Transaction)],
          u.addr = addr ∧ count c.pendingWrQ addr = 0 := by
        intro u hu
        rw [List.mem_singleton] at hu
        subst hu
        exact ⟨rfl, by omega⟩
      split <;>
        exact ⟨[], [_], [], (List.append_nil _).symm, rfl, (List.append_nil _).symm, hnone _,
          hwaits, hnone _, fun a ha => ⟨ha, by simp⟩⟩
  | WRITE =>
    have hdone : ∀ v : Transaction, v.reqType = .WRITE →
        ∀ u ∈ [v], u.reqType = .READ → 0 < count c.pendingWrQ addr := by
      intro v hv u hu hread
      rw [List.mem_singleton] at hu
      rw [hu, hv] at hread
      cases hread
    unfold addTransaction
    dsimp only
    split
    · refine ⟨[_], [], [], rfl, (List.append_nil _).symm, (List.append_nil _).symm,
        hdone _ rfl, hnone _,
        hnone _, ?_⟩
      intro a ha
      dsimp only at ha
      rw [count_concat] at ha
      split at ha
      · omega
      · exact ⟨by omega, fun h => absurd h.2.symm ‹_›⟩
    · rename_i hsome
      refine ⟨[_], [], [], rfl, (List.append_nil _).symm, (List.append_nil _).symm,
        hdone _ rfl, hnone _,
        hnone _, ?_⟩
      intro a ha
      refine ⟨ha, ?_⟩
      rintro ⟨-, rfl⟩
      exact hsome ha
  | P_HEADER =>
    exact ⟨[], [], [], (List.append_nil _).symm, (List.append_nil _).symm, (List.append_nil _).symm,
      hnone _, hnone _, hnone _, fun a ha => ⟨ha, by simp⟩⟩
  | GWRITE | COMP | READRES | COMPS_READRES | PWRITE =>
    refine ⟨[], [], [_], (List.append_nil _).symm, (List.append_nil _).symm, rfl, hnone _, hnone _,
      ?_, fun a ha => ⟨ha, by simp⟩⟩
    intro u hu
    rw [List.mem_singleton] at hu
    rw [hu]
    simp

theorem coherent_addTransaction (h : Coherent c d) (addr : AddrType) (reqType : TransactionType) :
    Coherent (c.addTransaction { addr, reqType })
      (d.accept c (c.addTransaction { addr, reqType }) addr reqType) := by
  obtain ⟨done, rd, pim, hadds⟩ := addTransaction_adds c addr reqType
  have hreads : (c.addTransaction { addr, reqType }).pendingRdQ.drop c.pendingRdQ.length = rd := by
    rw [hadds.reads, List.drop_left]
  unfold Contents.accept
  rw [hreads, completed_append hadds.returns]
  refine ⟨?_, ?_, h.taken, ?_, ?_, ?_, ?_, ?_⟩
  · dsimp only
    rw [List.map_append, h.reads, hadds.reads, List.map_map]
    exact congrArg _ (List.map_id _)
  · dsimp only
    rw [List.map_append, h.returns, hadds.returns, List.map_map]
    exact congrArg _ (List.map_id _)
  · refine good_append h.good ?_
    intro p hp hread
    obtain ⟨u, hu, rfl⟩ := List.mem_map.mp hp
    dsimp only at hread ⊢
    rw [if_pos (hadds.answered u hu hread), h.buffered]
  · rw [hadds.pims]
    exact List.forall_mem_append.mpr ⟨h.pims, hadds.kind⟩
  · dsimp only
    refine List.forall_mem_append.mpr ⟨h.owed, ?_⟩
    intro r hr
    obtain ⟨u, hu, rfl⟩ := List.mem_map.mp hr
    obtain ⟨haddr, hzero⟩ := hadds.waits u hu
    rw [haddr, h.stored addr hzero]
  · intro a
    dsimp only
    split
    · by_cases ha : a = addr
      · rw [ha, Function.update_self, Function.update_self]
      · rw [Function.update_of_ne ha, Function.update_of_ne ha]
        exact h.buffered a
    · rw [Function.update_eq_self]
      exact h.buffered a
  · intro a hzero
    obtain ⟨hold, hnot⟩ := hadds.writes a hzero
    dsimp only
    by_cases ha : a = addr
    · have hwrite : reqType ≠ .WRITE := fun hwrite => hnot ⟨hwrite, ha⟩
      rw [if_neg hwrite, Function.update_eq_self]
      exact h.stored a hold
    · rw [Function.update_of_ne ha]
      exact h.stored a hold

theorem coherent_returnDoneTrans (h : Coherent c d) : Coherent (c.returnDoneTrans c.clk).2
    (d.after c (c.returnDoneTrans c.clk).2 .returnDoneTrans) := by
  have hfind : (c.returnQueue.find? fun u => u.completeCycle ≤ c.clk) =
      (d.returns.find? fun p => p.trans.completeCycle ≤ c.clk).map Answer.trans := by
    rw [← h.returns, List.find?_map]
    rfl
  have hreturns : (d.returns.eraseP fun p => p.trans.completeCycle ≤ c.clk).map Answer.trans =
      c.returnQueue.eraseP fun u => u.completeCycle ≤ c.clk := by
    rw [← h.returns, List.eraseP_map]
    rfl
  have hgood : ∀ p ∈ (d.returns.eraseP fun p => p.trans.completeCycle ≤ c.clk) ++ (d.answers ++
      (d.returns.find? fun p => p.trans.completeCycle ≤ c.clk).toList), p.Good := by
    intro p hp
    rw [List.mem_append, List.mem_append] at hp
    rcases hp with hp | hp | hp
    · exact h.good p (List.mem_append_left _ (List.mem_of_mem_eraseP hp))
    · exact h.good p (List.mem_append_right _ hp)
    · exact h.good p (List.mem_append_left _ (List.mem_of_find?_eq_some (Option.mem_toList.mp hp)))
  have htaken : (d.answers ++
      (d.returns.find? fun p => p.trans.completeCycle ≤ c.clk).toList).map Answer.trans =
      d.taken ++ (c.returnDoneTrans c.clk).1.toList := by
    rw [List.map_append, h.taken]
    congr 1
    unfold returnDoneTrans
    rw [hfind]
    cases d.returns.find? fun p => p.trans.completeCycle ≤ c.clk with
    | none => rfl
    | some p => rfl
  have hqueues : (c.returnDoneTrans c.clk).2.pendingRdQ = c.pendingRdQ ∧
      (c.returnDoneTrans c.clk).2.pendingWrQ = c.pendingWrQ ∧
      (c.returnDoneTrans c.clk).2.pendingPimQ = c.pendingPimQ ∧
      (c.returnDoneTrans c.clk).2.returnQueue =
        c.returnQueue.eraseP fun u => u.completeCycle ≤ c.clk := by
    unfold returnDoneTrans
    split
    · rename_i hnone
      refine ⟨rfl, rfl, rfl, ?_⟩
      rw [List.eraseP_of_forall_not fun u hu => List.find?_eq_none.mp hnone u hu]
    · dsimp only
      split <;> exact ⟨rfl, rfl, rfl, rfl⟩
  obtain ⟨hrd, hwr, hpim, hreturn⟩ := hqueues
  refine ⟨h.reads.trans hrd.symm, hreturns.trans hreturn.symm, htaken, hgood, ?_, h.owed, h.buffered,
    ?_⟩
  · rw [hpim]
    exact h.pims
  · rw [hwr]
    exact h.stored

/-- Every read that is returned carries the data of the last write to its address that was accepted
before it, and the memory has the data of the last write where none waits. -/
theorem run_coherent (hregular : Regular config)
    (hmeets : AllCalls (dataStep config) (fun s call => Meets config s.1 call) ({}, {}) calls)
    (hrun : run (dataStep config) ({}, {}) calls = .ok (t, d)) :
    d.answers.map Answer.trans = d.taken ∧
      (∀ p ∈ d.answers, p.trans.reqType = .READ → p.data = some p.due) ∧
      ∀ a, count t.pendingWrQ a = 0 → d.stored a = d.accepted a := by
  -- by induction on the calls, with `Coherent` as the invariant
  have hinv : Tidy config t ∧ Coherent t d := by
    refine run_invariant_of (fun s => Tidy config s.1 ∧ Coherent s.1 s.2)
      (fun s call => Meets config s.1 call) ?_
      ⟨tidy_initial hregular, rfl, rfl, rfl, by simp, by simp, by simp, fun _ => rfl, fun _ _ => rfl⟩
      hmeets hrun
    rintro ⟨c, d⟩ call ⟨t, d'⟩ ⟨htidy, hcoherent⟩ hmeets hstep
    obtain ⟨u, hu, heq⟩ := map_ok hstep
    cases heq
    obtain ⟨hafter, htidy'⟩ := step_after hregular htidy hmeets hu
    refine ⟨htidy', ?_⟩
    cases call with
    | addTransaction addr reqType =>
      rw [After] at hafter
      rw [hafter]
      exact coherent_addTransaction hcoherent addr reqType
    | returnDoneTrans =>
      rw [After] at hafter
      rw [hafter]
      exact coherent_returnDoneTrans hcoherent
    | clockTick => exact coherent_ticked hregular htidy hcoherent hafter
  exact ⟨hinv.2.taken, fun p hp => hinv.2.good p (List.mem_append_right _ hp), hinv.2.stored⟩

/-- A read before two writes, one that the buffer answers, and one after the buffer is empty. -/
def dataCalls : List Call :=
  [.addTransaction 5 .READ, .addTransaction 5 .WRITE, .addTransaction 5 .WRITE,
    .addTransaction 5 .READ] ++ [0, 1, 2, 3, 4, 6, 7].map (.addTransaction · .WRITE) ++
    cycles 70 ++ [.addTransaction 5 .READ] ++ cycles 10

theorem run_coherent_dataCalls : ∃ (t : Controller) (d : Contents),
    run (dataStep smallMemory) ({}, {}) dataCalls = .ok (t, d) ∧
    d.answers.map Answer.trans = d.taken ∧
      (∀ p ∈ d.answers, p.trans.reqType = .READ → p.data = some p.due) ∧
      ∀ a, count t.pendingWrQ a = 0 → d.stored a = d.accepted a := by
  obtain ⟨s, hs⟩ := exists_ok (x := run (dataStep smallMemory) ({}, {}) dataCalls)
    (by decide +kernel)
  obtain ⟨t, d⟩ := s
  exact ⟨t, d, hs, run_coherent regular_smallMemory (by decide +kernel) hs⟩

end NewPims.NewtonSim.Controller

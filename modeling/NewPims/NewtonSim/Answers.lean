import Mathlib.Data.List.Count
import NewPims.NewtonSim.Apart
import NewPims.NewtonSim.Coherence

/-! Every transaction that is accepted is answered once, headers apart, and no answer comes without
its command. -/
namespace NewPims.NewtonSim.Controller

open Transition CommandQueue

variable {config : DramConfig} {c m s t : Controller} {cmd : TypedCommand}
  {o : Option TypedCommand} {q : CommandQueue} {calls : List Call}

section Lists

variable {α : Type*} {p e : α → Bool} {l : List α} {x : α}

/-- Erasing the element that was found takes its part of a count away. -/
theorem countP_find (h : l.find? e = some x) :
    l.countP p = (l.eraseP e).countP p + if p x = true then 1 else 0 := by
  induction l with
  | nil => cases h
  | cons y l ih =>
    rw [List.find?_cons] at h
    split at h
    · rename_i hy
      cases h
      rw [List.eraseP_cons_of_pos hy, List.countP_cons]
    · rename_i hy
      rw [List.eraseP_cons_of_neg (by simp [hy]), List.countP_cons, List.countP_cons, ih h]
      omega

end Lists

/-- The transactions that were accepted, and those that were returned, with the cycle in which they
were. -/
structure Account where
  accepted : List Transaction := []
  returned : List (ℕ × Transaction) := []

def Account.after (c : Controller) (a : Account) : Call → Account
  | .addTransaction addr reqType =>
    { a with accepted := a.accepted ++ [{ addr, addedCycle := c.clk, reqType }] }
  | .returnDoneTrans =>
    { a with returned := a.returned ++ (c.returnDoneTrans c.clk).1.toList.map fun u => (c.clk, u) }
  | .clockTick => a

/-- A call, with its transaction. -/
def accountStep (config : DramConfig) (s : Controller × Account) (call : Call) :
    Except MemoryFault (Controller × Account) :=
  (step config s.1 call).map fun t => (t, s.2.after s.1 call)

/-- How many of some transactions a client may take for `k`. -/
def tally (p : AddrType × TransactionType × ℕ → Bool) (l : List Transaction) : ℕ :=
  l.countP fun u => p (key u)

variable {p : AddrType × TransactionType × ℕ → Bool} {a : Account}

theorem tally_append (l l' : List Transaction) : tally p (l ++ l') = tally p l + tally p l' :=
  List.countP_append

theorem tally_singleton (u : Transaction) : tally p [u] = if p (key u) = true then 1 else 0 :=
  List.countP_singleton ..

theorem tally_map {f : Transaction → Transaction} (hf : ∀ u, key (f u) = key u)
    (l : List Transaction) : tally p (l.map f) = tally p l := by
  rw [tally, List.countP_map]
  exact List.countP_congr fun u _ => by rw [Function.comp_apply, hf]

/-- All the transactions of a controller that are not headers. -/
def held (c : Controller) : List Transaction := c.returnQueue ++ c.pendingRdQ ++ c.pendingPimQ

theorem tally_held (c : Controller) : tally p c.held =
    tally p c.returnQueue + tally p c.pendingRdQ + tally p c.pendingPimQ := by
  rw [held, tally_append, tally_append]

theorem tally_completed (h : Completed config c cmd m) : tally p m.held = tally p c.held := by
  cases h with
  | read htype hpos =>
    simp only [tally_held, tally_append]
    rw [tally_map (f := fun u => { u with completeCycle := stamp c.clk config.readDelay })
      fun _ => rfl]
    have hsplit : tally p c.pendingRdQ = tally p (c.pendingRdQ.filter fun u => u.addr == cmd.hexAddr) +
        tally p (c.pendingRdQ.filter fun u => !(u.addr == cmd.hexAddr)) := by
      unfold tally
      exact List.countP_eq_countP_filter_add ..
    omega
  | write htype hpos => rfl
  | pim u delay htype hfind hdelay =>
    simp only [tally_held, tally_append, tally_singleton]
    have hsplit : tally p c.pendingPimQ =
        tally p (c.pendingPimQ.eraseP fun t => t.addr == cmd.hexAddr) +
          if p (key u) = true then 1 else 0 := countP_find hfind
    have hkey : key { u with completeCycle := stamp c.clk delay } = key u := rfl
    rw [hkey]
    omega
  | other hrw hgwrite hcomps => rfl

theorem tally_ticked (hregular : Regular config) (htidy : Tidy config c)
    (htick : Ticked config c t) : tally p t.held = tally p c.held := by
  cases htick with
  | mk o q m s hchosen heffect hscheduled =>
    obtain ⟨refreshQ, r, heq, -⟩ := refreshed_cases hregular htidy.sound
    have hstart : (refreshed config c).held = c.held := by rw [heq]; rfl
    obtain ⟨hrd, -, hpim, hreturn, -⟩ := scheduled_same hscheduled
    have hs : s.advanced.held = m.held := by
      change s.returnQueue ++ s.pendingRdQ ++ s.pendingPimQ = _
      rw [hrd, hpim, hreturn]
      rfl
    rw [hs, ← hstart]
    cases heffect with
    | nothing => rfl
    | header cmd htype => rfl
    | command cmd m ch hissue hfit hcompleted hissued =>
      have hdone := tally_completed (p := p)
        (c := ({ refreshed config c with cmdQueue := q } : Controller).logged cmd) hcompleted
      exact hdone

theorem tally_addTransaction (c : Controller) (addr : AddrType) (reqType : TransactionType) :
    tally p (c.addTransaction { addr, reqType }).held = tally p c.held +
      if reqType = .P_HEADER then 0 else tally p [{ addr, addedCycle := c.clk, reqType }] := by
  have hdone : tally p [{ addr, addedCycle := c.clk, completeCycle := c.clk + 1, reqType }] =
      tally p [{ addr, addedCycle := c.clk, reqType }] := rfl
  cases reqType with
  | READ =>
    rw [if_neg (by simp)]
    unfold addTransaction
    dsimp only
    split
    · simp only [tally_held, tally_append, hdone]
      omega
    · split <;>
      · simp only [tally_held, tally_append]
        omega
  | WRITE =>
    rw [if_neg (by simp)]
    unfold addTransaction
    dsimp only
    split <;>
    · simp only [tally_held, tally_append, hdone]
      omega
  | P_HEADER => simp [addTransaction, tally_held]
  | GWRITE | COMP | READRES | COMPS_READRES | PWRITE =>
    rw [if_neg (by simp)]
    simp only [addTransaction, tally_held, tally_append]
    omega

theorem tally_returnDoneTrans (c : Controller) (clk : ℕ) : tally p c.held =
    tally p (c.returnDoneTrans clk).2.held + tally p (c.returnDoneTrans clk).1.toList := by
  unfold returnDoneTrans
  split
  · rfl
  · rename_i u hfind
    have hsplit : tally p c.returnQueue =
        tally p (c.returnQueue.eraseP fun t => t.completeCycle ≤ clk) +
          if p (key u) = true then 1 else 0 := countP_find hfind
    dsimp only
    rw [Option.toList_some, tally_singleton]
    split <;>
    · simp only [tally_held]
      omega

/-- Every transaction that was accepted, but for headers, has been returned once or is still held,
and nothing else is. -/
theorem run_conserves (hregular : Regular config)
    (hmeets : AllCalls (accountStep config) (fun s call => Meets config s.1 call) ({}, {}) calls)
    (hrun : run (accountStep config) ({}, {}) calls = .ok (t, a)) :
    ((a.accepted.filter fun u => u.reqType ≠ .P_HEADER).map key).Perm
      ((a.returned.map Prod.snd ++ t.held).map key) := by
  -- the counts agree for every kind of transaction, and this is what is carried along
  have hinv : Tidy config t ∧ ∀ p, tally p (a.accepted.filter fun u => u.reqType ≠ .P_HEADER) =
      tally p (a.returned.map Prod.snd) + tally p t.held := by
    refine run_invariant_of (fun s => Tidy config s.1 ∧
      ∀ p, tally p (s.2.accepted.filter fun u => u.reqType ≠ .P_HEADER) =
        tally p (s.2.returned.map Prod.snd) + tally p s.1.held) (fun s call => Meets config s.1 call) ?_
      ⟨tidy_initial hregular, fun p => rfl⟩ hmeets hrun
    rintro ⟨c, a⟩ call ⟨t, a'⟩ ⟨htidy, htally⟩ hmeets hstep
    obtain ⟨u, hu, heq⟩ := map_ok hstep
    cases heq
    obtain ⟨hafter, htidy'⟩ := step_after hregular htidy hmeets hu
    refine ⟨htidy', fun p => ?_⟩
    have hold := htally p
    dsimp only at hold ⊢
    cases call with
    | addTransaction addr reqType =>
      rw [After] at hafter
      rw [hafter, tally_addTransaction, Account.after]
      dsimp only
      rw [List.filter_append, tally_append, hold]
      by_cases hheader : reqType = .P_HEADER
      · simp [hheader, tally]
      · rw [if_neg hheader]
        simp only [List.filter_cons, hheader, ne_eq, not_false_eq_true, decide_true, if_true,
          List.filter_nil]
        omega
    | returnDoneTrans =>
      rw [After] at hafter
      rw [hafter, Account.after]
      dsimp only
      rw [List.map_append, tally_append, hold, tally_returnDoneTrans c c.clk, List.map_map]
      have hsame : (c.returnDoneTrans c.clk).1.toList.map (Prod.snd ∘ fun u => (c.clk, u)) =
          (c.returnDoneTrans c.clk).1.toList := List.map_id _
      rw [hsame]
      omega
    | clockTick =>
      rw [tally_ticked hregular htidy hafter]
      exact hold
  -- a kind may be a single key
  rw [List.perm_iff_count]
  intro k
  have hcount := hinv.2 fun k' => k' == k
  have htally : ∀ l : List Transaction, (l.map key).count k = tally (fun k' => k' == k) l :=
    fun l => List.countP_map
  rw [List.map_append, List.count_append, htally, htally, htally]
  exact hcount

theorem run_conserves_dataCalls : ∃ (t : Controller) (a : Account),
    run (accountStep smallMemory) ({}, {}) dataCalls = .ok (t, a) ∧
    ((a.accepted.filter fun u => u.reqType ≠ .P_HEADER).map key).Perm
      ((a.returned.map Prod.snd ++ t.held).map key) := by
  obtain ⟨s, hs⟩ := exists_ok (x := run (accountStep smallMemory) ({}, {}) dataCalls)
    (by decide +kernel)
  obtain ⟨t, a⟩ := s
  exact ⟨t, a, hs, run_conserves regular_smallMemory (by decide +kernel) hs⟩

section Causes

/-- `w` waits in the write buffer, from when it was accepted to a cycle. -/
def Waits (log : List (ℕ × TypedCommand)) (w : Transaction) (clk : ℕ) : Prop :=
  ∀ e ∈ log, e.2.cmdType = .WRITE → e.2.hexAddr = w.addr → e.1 < w.addedCycle ∨ clk ≤ e.1

/-- What an answer comes from. A write is answered in the next cycle, and so is a read of an address
when a write to it, accepted before, still waits in the buffer. The other answers come from a command
of the address that was issued after the transaction was added, as long before as the memory
takes. -/
inductive Caused (config : DramConfig) (a : Account) (log : List (ℕ × TypedCommand))
    (u : Transaction) : Prop
  | write : u.reqType = .WRITE → u.completeCycle = u.addedCycle + 1 → Caused config a log u
  | buffer (w : Transaction) : u.reqType = .READ → u.completeCycle = u.addedCycle + 1 →
      w.reqType = .WRITE → w.addr = u.addr →
      [w, { u with completeCycle := 0 }].Sublist a.accepted → Waits log w u.addedCycle →
      Caused config a log u
  | read (e : ℕ × TypedCommand) : e ∈ log → u.reqType = .READ → e.2.cmdType = .READ →
      e.2.hexAddr = u.addr → u.addedCycle ≤ e.1 → u.completeCycle = stamp e.1 config.readDelay →
      Caused config a log u
  | pim (e : ℕ × TypedCommand) : e ∈ log → u.reqType = .GWRITE ∨ u.reqType = .COMPS_READRES →
      e.2.cmdType = .GWRITE ∨ e.2.cmdType = .COMPS_READRES → e.2.hexAddr = u.addr →
      u.addedCycle ≤ e.1 → u.completeCycle = stamp e.1
        (if e.2.cmdType = .GWRITE then config.gwriteDelay else config.readDelay) →
      Caused config a log u

variable {u : Transaction} {log : List (ℕ × TypedCommand)}

theorem caused_logged (h : Caused config a log u) {e : ℕ × TypedCommand}
    (hadded : u.addedCycle ≤ e.1) : Caused config a (log ++ [e]) u := by
  have hmem : ∀ e' ∈ log, e' ∈ log ++ [e] := fun _ he' => List.mem_append_left _ he'
  cases h with
  | write htype hcycle => exact .write htype hcycle
  | buffer w htype hcycle hwrite haddr hsub hwaits =>
    refine .buffer w htype hcycle hwrite haddr hsub ?_
    intro e' he'
    rcases List.mem_append.mp he' with he' | he'
    · exact hwaits e' he'
    · rw [List.mem_singleton] at he'
      rw [he']
      exact fun _ _ => .inr hadded
  | read e' he' htype hcmd haddr hcycle hcomplete =>
    exact .read e' (hmem e' he') htype hcmd haddr hcycle hcomplete
  | pim e' he' htype hcmd haddr hcycle hcomplete =>
    exact .pim e' (hmem e' he') htype hcmd haddr hcycle hcomplete

theorem caused_accepted {a' : Account} (h : Caused config a log u)
    (hsub : a.accepted.Sublist a'.accepted) : Caused config a' log u := by
  cases h with
  | write htype hcycle => exact .write htype hcycle
  | buffer w htype hcycle hwrite haddr hpair hwaits =>
    exact .buffer w htype hcycle hwrite haddr (hpair.trans hsub) hwaits
  | read e he htype hcmd haddr hadded hcycle => exact .read e he htype hcmd haddr hadded hcycle
  | pim e he htype hcmd haddr hadded hcycle => exact .pim e he htype hcmd haddr hadded hcycle

/-- An answer with its cause, to a transaction of the past. -/
def Explained (config : DramConfig) (a : Account) (log : List (ℕ × TypedCommand)) (clk : ℕ)
    (u : Transaction) : Prop := Caused config a log u ∧ u.addedCycle ≤ clk

/-- Whatever is answered has its cause, and comes back when it is complete. -/
structure Answered (config : DramConfig) (c : Controller) (a : Account) : Prop where
  returned : ∀ p ∈ a.returned, Explained config a c.log c.clk p.2 ∧ p.2.completeCycle ≤ p.1
  returns : ∀ u ∈ c.returnQueue, Explained config a c.log c.clk u
  reads : ∀ u ∈ c.pendingRdQ, u.reqType = .READ ∧ u.addedCycle ≤ c.clk
  pims : ∀ u ∈ c.pendingPimQ,
    (u.reqType = .GWRITE ∨ u.reqType = .COMPS_READRES) ∧ u.addedCycle ≤ c.clk
  /-- The writes of the buffer were accepted, and not issued since. -/
  writes : ∀ x, 0 < count c.pendingWrQ x → ∃ w ∈ a.accepted, w.reqType = .WRITE ∧ w.addr = x ∧
    ∀ e ∈ c.log, e.2.cmdType = .WRITE → e.2.hexAddr = x → e.1 < w.addedCycle

theorem explained_logged {clk : ℕ} (h : Explained config a log clk u) (cmd : TypedCommand) :
    Explained config a (log ++ [(clk, cmd)]) clk u := ⟨caused_logged h.1 h.2, h.2⟩

/-- A command that is issued, with the transactions that it answers. -/
theorem answered_completed (hone : ∀ x, count c.pendingWrQ x ≤ 1) (h : Answered config c a)
    (hcompleted : Completed config (c.logged cmd) cmd m) : Answered config m a := by
  have hlast : (c.clk, cmd) ∈ c.log ++ [(c.clk, cmd)] :=
    List.mem_append_right _ (List.mem_singleton.mpr rfl)
  have hreturned : ∀ p ∈ a.returned, Explained config a (c.log ++ [(c.clk, cmd)]) c.clk p.2 ∧
      p.2.completeCycle ≤ p.1 :=
    fun p hp => ⟨explained_logged (h.returned p hp).1 cmd, (h.returned p hp).2⟩
  have hreturns : ∀ u ∈ c.returnQueue, Explained config a (c.log ++ [(c.clk, cmd)]) c.clk u :=
    fun u hu => explained_logged (h.returns u hu) cmd
  -- a write that stays in the buffer has not been issued now either
  have hwrites : ∀ x, 0 < count c.pendingWrQ x → ¬ (cmd.cmdType = .WRITE ∧ cmd.hexAddr = x) →
      ∃ w ∈ a.accepted, w.reqType = .WRITE ∧ w.addr = x ∧ ∀ e ∈ c.log ++ [(c.clk, cmd)],
        e.2.cmdType = .WRITE → e.2.hexAddr = x → e.1 < w.addedCycle := by
    intro x hpos hnot
    obtain ⟨w, hw, htype, haddr, hlog⟩ := h.writes x hpos
    refine ⟨w, hw, htype, haddr, ?_⟩
    intro e he hwrite hhex
    rcases List.mem_append.mp he with he | he
    · exact hlog e he hwrite hhex
    · rw [List.mem_singleton] at he
      subst he
      exact absurd ⟨hwrite, hhex⟩ hnot
  cases hcompleted with
  | read htype hpos =>
    refine ⟨hreturned, ?_, fun u hu => h.reads u (List.mem_of_mem_filter hu), h.pims,
      fun x hx => hwrites x hx (by simp [htype])⟩
    intro u hu
    rcases List.mem_append.mp hu with hu | hu
    · exact hreturns u hu
    · obtain ⟨v, hv, rfl⟩ := List.mem_map.mp hu
      obtain ⟨hv, haddr⟩ := List.mem_filter.mp hv
      obtain ⟨hread, hadded⟩ := h.reads v hv
      exact ⟨.read (c.clk, cmd) hlast hread htype (Eq.symm (by simpa using haddr)) hadded rfl, hadded⟩
  | write htype hpos =>
    refine ⟨hreturned, hreturns, h.reads, h.pims, ?_⟩
    intro x hx
    have hcount := count_eraseP hpos x
    have hle := hone x
    dsimp only [logged] at hx hcount
    refine hwrites x (by omega) ?_
    rintro ⟨-, rfl⟩
    rw [if_pos rfl] at hcount
    omega
  | pim u delay htype hfind hdelay =>
    have hnot : cmd.cmdType ≠ .WRITE := by
      rcases htype with htype | htype <;> simp [htype]
    refine ⟨hreturned, ?_, h.reads, fun v hv => h.pims v (List.mem_of_mem_eraseP hv),
      fun x hx => hwrites x hx fun hcmd => hnot hcmd.1⟩
    intro v hv
    rcases List.mem_append.mp hv with hv | hv
    · exact hreturns v hv
    · rw [List.mem_singleton] at hv
      subst hv
      obtain ⟨hpim, hadded⟩ := h.pims u (List.mem_of_find?_eq_some hfind)
      have haddr : u.addr = cmd.hexAddr := by simpa using List.find?_some hfind
      exact ⟨.pim (c.clk, cmd) hlast hpim htype haddr.symm hadded (by rw [hdelay]; rfl), hadded⟩
  | other hrw hgwrite hcomps =>
    refine ⟨hreturned, hreturns, h.reads, h.pims, fun x hx => hwrites x hx ?_⟩
    rintro ⟨htype, -⟩
    rw [htype] at hrw
    cases hrw

theorem answered_later (h : Answered config c a) (hclk : c.clk ≤ t.clk) (hlog : t.log = c.log)
    (hreturn : t.returnQueue = c.returnQueue) (hrd : t.pendingRdQ = c.pendingRdQ)
    (hwr : t.pendingWrQ = c.pendingWrQ) (hpim : t.pendingPimQ = c.pendingPimQ) :
    Answered config t a := by
  refine ⟨?_, ?_, ?_, ?_, ?_⟩
  · rw [hlog]
    exact fun p hp => ⟨⟨(h.returned p hp).1.1, Nat.le_trans (h.returned p hp).1.2 hclk⟩,
      (h.returned p hp).2⟩
  · rw [hlog, hreturn]
    exact fun u hu => ⟨(h.returns u hu).1, Nat.le_trans (h.returns u hu).2 hclk⟩
  · rw [hrd]
    exact fun u hu => ⟨(h.reads u hu).1, Nat.le_trans (h.reads u hu).2 hclk⟩
  · rw [hpim]
    exact fun u hu => ⟨(h.pims u hu).1, Nat.le_trans (h.pims u hu).2 hclk⟩
  · rw [hwr, hlog]
    exact h.writes

theorem answered_ticked (hregular : Regular config) (htidy : Tidy config c)
    (h : Answered config c a) (htick : Ticked config c t) : Answered config t a := by
  cases htick with
  | mk o q m s hchosen heffect hscheduled =>
    obtain ⟨refreshQ, r, heq, -⟩ := refreshed_cases hregular htidy.sound
    obtain ⟨hrd, hwr, hpim, hreturn, hlog, hclk, -⟩ := scheduled_same hscheduled
    have hstart : Answered config { refreshed config c with cmdQueue := q } a := by
      rw [heq]
      exact ⟨h.returned, h.returns, h.reads, h.pims, h.writes⟩
    have hone : ∀ x, count ({ refreshed config c with cmdQueue := q } : Controller).pendingWrQ x ≤
        1 := by
      rw [heq]
      exact htidy.ledger.oneWrite
    have hm : Answered config m a := by
      cases heffect with
      | nothing => exact hstart
      | header cmd htype =>
        refine answered_completed hone hstart (.other ?_ ?_ ?_) <;> rw [htype] <;> first
          | rfl
          | simp
      | command cmd m ch hissue hfit hcompleted hissued =>
        have hdone := answered_completed hone hstart hcompleted
        exact ⟨hdone.returned, hdone.returns, hdone.reads, hdone.pims, hdone.writes⟩
    have hlater : m.clk ≤ s.advanced.clk := by
      change m.clk ≤ s.clk + 1
      rw [hclk]
      exact Nat.le_succ _
    exact answered_later hm hlater hlog hreturn hrd hwr hpim

/-- What a cycle adds to the log is of that cycle. -/
theorem log_ticked (hregular : Regular config) (htidy : Tidy config c) (htick : Ticked config c t) :
    ∃ l, t.log = c.log ++ l ∧ ∀ e ∈ l, e.1 = c.clk := by
  cases htick with
  | mk o q m s hchosen heffect hscheduled =>
    obtain ⟨refreshQ, r, heq, -⟩ := refreshed_cases hregular htidy.sound
    obtain ⟨-, -, -, -, hlog, -⟩ := scheduled_same hscheduled
    have hlogs : (refreshed config c).log = c.log ∧ (refreshed config c).clk = c.clk := by
      rw [heq]
      exact ⟨rfl, rfl⟩
    have hone : ∀ cmd, m.log = (refreshed config c).log ++ [((refreshed config c).clk, cmd)] →
        ∃ l, s.advanced.log = c.log ++ l ∧ ∀ e ∈ l, e.1 = c.clk := by
      intro cmd hm
      rw [hlogs.1, hlogs.2] at hm
      refine ⟨[(c.clk, cmd)], hlog.trans hm, ?_⟩
      intro e he
      rw [List.mem_singleton] at he
      rw [he]
    cases heffect with
    | nothing => exact ⟨[], by rw [List.append_nil]; exact hlog.trans hlogs.1, by simp⟩
    | header cmd htype => exact hone cmd rfl
    | command cmd m ch hissue hfit hcompleted hissued =>
      obtain ⟨returns, rd, wr, pim, rfl⟩ := completed_same hcompleted
      exact hone cmd rfl

/-- The log is of the past. -/
def Past (c : Controller) : Prop := ∀ e ∈ c.log, e.1 < c.clk

theorem past_after {call : Call} (hregular : Regular config) (htidy : Tidy config c) (h : Past c)
    (hafter : After config c call t) : Past t := by
  by_cases hcall : call = .clockTick
  · subst hcall
    obtain ⟨l, hl, hclk⟩ := log_ticked hregular htidy hafter
    intro e he
    rw [hl] at he
    rw [clk_ticked hafter]
    rcases List.mem_append.mp he with he | he
    · exact Nat.lt_succ_of_lt (h e he)
    · rw [hclk e he]
      exact Nat.lt_succ_self _
  · obtain ⟨hclk, hlog, -⟩ := after_same hafter hcall
    intro e he
    rw [hlog] at he
    rw [hclk]
    exact h e he

theorem answered_addTransaction {addr : AddrType} {reqType : TransactionType}
    (h : Answered config c a) (hpast : Past c) (hsupported : Supported config addr reqType) :
    Answered config (c.addTransaction { addr, reqType })
      (a.after c (.addTransaction addr reqType)) := by
  have hsub : a.accepted.Sublist (a.after c (.addTransaction addr reqType)).accepted :=
    List.sublist_append_left _ _
  have hreturned : ∀ p ∈ a.returned,
      Explained config (a.after c (.addTransaction addr reqType)) c.log c.clk p.2 ∧
        p.2.completeCycle ≤ p.1 :=
    fun p hp => ⟨⟨caused_accepted (h.returned p hp).1.1 hsub, (h.returned p hp).1.2⟩,
      (h.returned p hp).2⟩
  have hreturns : ∀ u ∈ c.returnQueue,
      Explained config (a.after c (.addTransaction addr reqType)) c.log c.clk u :=
    fun u hu => ⟨caused_accepted (h.returns u hu).1 hsub, (h.returns u hu).2⟩
  have hwrites : ∀ x, 0 < count c.pendingWrQ x →
      ∃ w ∈ (a.after c (.addTransaction addr reqType)).accepted, w.reqType = .WRITE ∧ w.addr = x ∧
        ∀ e ∈ c.log, e.2.cmdType = .WRITE → e.2.hexAddr = x → e.1 < w.addedCycle := by
    intro x hx
    obtain ⟨w, hw, hrest⟩ := h.writes x hx
    exact ⟨w, List.mem_append_left _ hw, hrest⟩
  have hconcat : ∀ {Q : Transaction → Prop} {l : List Transaction} {v : Transaction},
      (∀ u ∈ l, Q u) → Q v → ∀ u ∈ l ++ [v], Q u := by
    intro Q l v hl hv
    exact List.forall_mem_append.mpr ⟨hl, List.forall_mem_singleton.mpr hv⟩
  cases reqType with
  | READ =>
    unfold addTransaction
    dsimp only
    split
    · rename_i hpos
      refine ⟨hreturned, ?_, h.reads, h.pims, hwrites⟩
      obtain ⟨w, hw, htype, haddr, hlog⟩ := h.writes addr hpos
      refine hconcat hreturns ⟨.buffer w rfl rfl htype haddr ?_ ?_, Nat.le_refl _⟩
      · exact (List.singleton_sublist.mpr hw).append (List.Sublist.refl [_])
      · intro e he hwrite hhex
        exact .inl (hlog e he hwrite (hhex.trans haddr))
    · split
      · refine ⟨hreturned, hreturns, ?_, h.pims, hwrites⟩
        exact hconcat h.reads ⟨rfl, Nat.le_refl _⟩
      · refine ⟨hreturned, hreturns, ?_, h.pims, hwrites⟩
        exact hconcat h.reads ⟨rfl, Nat.le_refl _⟩
  | WRITE =>
    unfold addTransaction
    dsimp only
    split
    · refine ⟨hreturned, ?_, h.reads, h.pims, ?_⟩
      · exact hconcat hreturns ⟨.write rfl rfl, Nat.le_refl _⟩
      · intro x hx
        dsimp only at hx
        rw [count_concat] at hx
        by_cases hnew : addr = x
        -- the new write is of this cycle, and the log of earlier ones
        · exact ⟨_, List.mem_append_right _ (List.mem_singleton.mpr rfl), rfl, hnew,
            fun e he _ _ => hpast e he⟩
        · rw [if_neg hnew, Nat.add_zero] at hx
          exact hwrites x hx
    · refine ⟨hreturned, ?_, h.reads, h.pims, hwrites⟩
      exact hconcat hreturns ⟨.write rfl rfl, Nat.le_refl _⟩
  | P_HEADER => exact ⟨hreturned, hreturns, h.reads, h.pims, hwrites⟩
  | GWRITE =>
    refine ⟨hreturned, hreturns, h.reads, ?_, hwrites⟩
    exact hconcat h.pims ⟨.inl rfl, Nat.le_refl _⟩
  | COMPS_READRES =>
    refine ⟨hreturned, hreturns, h.reads, ?_, hwrites⟩
    exact hconcat h.pims ⟨.inr rfl, Nat.le_refl _⟩
  | COMP | READRES | PWRITE => exact absurd hsupported (by simp [Supported])

theorem answered_returnDoneTrans (h : Answered config c a) :
    Answered config (c.returnDoneTrans c.clk).2 (a.after c .returnDoneTrans) := by
  have haccepted : ∀ r u, Explained config a c.log c.clk u →
      Explained config { a with returned := r } c.log c.clk u :=
    fun r u hu => ⟨caused_accepted hu.1 (List.Sublist.refl _), hu.2⟩
  unfold Account.after returnDoneTrans
  split
  · refine ⟨?_, fun u hu => haccepted _ u (h.returns u hu), h.reads, h.pims, h.writes⟩
    intro p hp
    rw [Option.toList_none, List.map_nil, List.append_nil] at hp
    exact ⟨haccepted _ p.2 (h.returned p hp).1, (h.returned p hp).2⟩
  · rename_i u hfind
    have hu := h.returns u (List.mem_of_find?_eq_some hfind)
    have htime : u.completeCycle ≤ c.clk := by simpa using List.find?_some hfind
    have hreturned : ∀ p ∈ a.returned ++ [(c.clk, u)],
        Explained config { a with returned := a.returned ++ [(c.clk, u)] } c.log c.clk p.2 ∧
          p.2.completeCycle ≤ p.1 := by
      refine List.forall_mem_append.mpr ⟨?_, List.forall_mem_singleton.mpr ⟨haccepted _ u hu, htime⟩⟩
      exact fun p hp => ⟨haccepted _ p.2 (h.returned p hp).1, (h.returned p hp).2⟩
    dsimp only
    split <;>
      exact ⟨hreturned, fun v hv => haccepted _ v (h.returns v (List.mem_of_mem_eraseP hv)),
        h.reads, h.pims, h.writes⟩

/-- No answer is returned before it is complete, or without its cause. -/
theorem run_answered (hregular : Regular config)
    (hmeets : AllCalls (accountStep config) (fun s call => Meets config s.1 call) ({}, {}) calls)
    (hrun : run (accountStep config) ({}, {}) calls = .ok (t, a)) :
    ∀ p ∈ a.returned, Caused config a t.log p.2 ∧ p.2.completeCycle ≤ p.1 := by
  have hinv : Tidy config t ∧ Past t ∧ Answered config t a := by
    refine run_invariant_of (fun s => Tidy config s.1 ∧ Past s.1 ∧ Answered config s.1 s.2)
      (fun s call => Meets config s.1 call) ?_
      ⟨tidy_initial hregular, by simp [Past], by simp, by simp, by simp, by simp, by simp [count]⟩
      hmeets hrun
    rintro ⟨c, a⟩ call ⟨t, a'⟩ ⟨htidy, hpast, hanswered⟩ hmeets hstep
    obtain ⟨u, hu, heq⟩ := map_ok hstep
    cases heq
    obtain ⟨hafter, htidy'⟩ := step_after hregular htidy hmeets hu
    refine ⟨htidy', past_after hregular htidy hpast hafter, ?_⟩
    cases call with
    | addTransaction addr reqType =>
      rw [After] at hafter
      rw [hafter]
      exact answered_addTransaction hanswered hpast hmeets.1
    | returnDoneTrans =>
      rw [After] at hafter
      rw [hafter]
      exact answered_returnDoneTrans hanswered
    | clockTick => exact answered_ticked hregular htidy hanswered hafter
  exact fun p hp => ⟨(hinv.2.2.returned p hp).1.1, (hinv.2.2.returned p hp).2⟩

theorem run_answered_dataCalls : ∃ (t : Controller) (a : Account),
    run (accountStep smallMemory) ({}, {}) dataCalls = .ok (t, a) ∧
    ∀ p ∈ a.returned, Caused smallMemory a t.log p.2 ∧ p.2.completeCycle ≤ p.1 := by
  obtain ⟨s, hs⟩ := exists_ok (x := run (accountStep smallMemory) ({}, {}) dataCalls)
    (by decide +kernel)
  obtain ⟨t, a⟩ := s
  exact ⟨t, a, hs, run_answered regular_smallMemory (by decide +kernel) hs⟩

end Causes

end NewPims.NewtonSim.Controller

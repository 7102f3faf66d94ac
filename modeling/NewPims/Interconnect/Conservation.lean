import Mathlib.Data.List.Nodup
import Mathlib.Data.Nat.ModEq
import NewPims.Interconnect

/-! The interconnect is a crossbar: its queues and the history of pushes and pops account for
every message, whatever calls are made. -/
namespace NewPims.SimpleInterconnect

open Transition (run)

/-- Where a message can wait after it left its input queue. -/
inductive Place
  | out (nid : ℕ)
  | mem1 (ch : ℕ)
  | mem2 (ch : ℕ)
  deriving DecidableEq, Repr

/-- The interconnect with the history of what was pushed and popped. -/
structure Ledger where
  net : SimpleInterconnect
  history : Crossbar ℕ Place Entity

section

variable (config : SimulationConfig)

/-- The place a message goes to: by its destination and, towards a memory channel, by the
platform it carries when it arrives. -/
def place (e : Entity) : Place :=
  if e.dest < dramOffset config then .out e.dest
  else
    match (memReq config e.access).stagePlatform with
    | .SA => .mem1 (e.dest - dramOffset config)
    | .PIM => .mem2 (e.dest - dramOffset config)

/-- The request as it is found at its place. -/
def delivered (e : Entity) : MemoryAccess :=
  if e.dest < dramOffset config then e.access else memReq config e.access

def queue (n : SimpleInterconnect) : Place → List MemoryAccess
  | .out nid => n.outBuffers nid
  | .mem1 ch => n.memReqQueue1 ch
  | .mem2 ch => n.memReqQueue2 ch

/-- The messages moved by the arbitration loop over the nodes of a list, with their sources. -/
def movesFrom (n : SimpleInterconnect) : List ℕ → List (ℕ × Entity)
  | [] => []
  | src :: rest =>
    match n.ready src with
    | some e => (src, e) :: movesFrom (n.forward config src e) rest
    | none => movesFrom n rest

/-- The messages that one cycle moves. -/
def moves (n : SimpleInterconnect) : List (ℕ × Entity) :=
  n.movesFrom config (n.visitOrder config)

def Ledger.init (rrStart : ℕ) : Ledger := ⟨.init rrStart, .empty⟩

def transfers (X : Crossbar ℕ Place Entity) (ms : List (ℕ × Entity)) :
    Crossbar ℕ Place Entity :=
  ms.foldl (fun X m => X.transfer m.1 m.2 (place config m.2)) X

/-- What a call that does not fault adds to the history. -/
def record (n : SimpleInterconnect) (X : Crossbar ℕ Place Entity) :
    Call → Crossbar ℕ Place Entity
  | .push src dest request => X.enqueue src (n.newEntity config src dest request)
  | .cycle => transfers config X (n.moves config)
  | .pop nid => X.dequeue (.out nid)
  | .memreqPop1 cid => X.dequeue (.mem1 cid)
  | .memreqPop2 cid => X.dequeue (.mem2 cid)

def Ledger.call (L : Ledger) (c : Call) : Except Fault Ledger :=
  (L.net.call config c).map fun net => ⟨net, record config L.net L.history c⟩

/-- The queues hold what the history says they hold, and the history is conserved. -/
structure Accounted (n : SimpleInterconnect) (X : Crossbar ℕ Place Entity) : Prop where
  input : ∀ src, X.input src = n.inBuffers src
  output : ∀ p, (X.output p).map (fun m => delivered config m.2) = n.queue p
  conserved : X.Conserved (place config)

/-- The messages that the calls of a list push at `src`: their destination and request. -/
def pushedAt (src : ℕ) (calls : List Call) : List (ℕ × MemoryAccess) :=
  calls.filterMap fun
    | .push s dest request => if s = src then some (dest, request) else none
    | _ => none

end

variable {config : SimulationConfig}

theorem ready_some {n : SimpleInterconnect} {src : ℕ} {e : Entity} (h : n.ready src = some e) :
    (∃ rest, n.inBuffers src = e :: rest) ∧ e.finishCycle ≤ n.cycles ∧
      n.busyNode e.dest = false := by
  unfold ready at h
  split at h
  next head rest hin =>
    split at h
    next hguard =>
      cases h
      exact ⟨⟨rest, hin⟩, hguard⟩
    next => cases h
  next => cases h

@[simp]
theorem forward_inBuffers (n : SimpleInterconnect) (src : ℕ) (e : Entity) :
    (n.forward config src e).inBuffers =
      Function.update n.inBuffers src (n.inBuffers src).tail := rfl

@[simp]
theorem forward_busyNode (n : SimpleInterconnect) (src : ℕ) (e : Entity) :
    (n.forward config src e).busyNode = Function.update n.busyNode e.dest true := rfl

/-- A delivered message extends the queue of its place and no other. -/
theorem deliver_queue (n : SimpleInterconnect) (e : Entity) (p : Place) :
    (n.deliver config e).queue p =
      n.queue p ++ if place config e = p then [delivered config e] else [] := by
  unfold deliver place delivered
  by_cases hdest : e.dest < dramOffset config
  · simp only [hdest, ↓reduceIte]
    cases p with
    | out nid =>
      by_cases hn : e.dest = nid
      · subst hn
        simp [queue]
      · simp [queue, hn, Ne.symm hn]
    | mem1 ch => simp [queue]
    | mem2 ch => simp [queue]
  · simp only [hdest, ↓reduceIte]
    generalize memReq config e.access = req
    obtain hplat | hplat : req.stagePlatform = .SA ∨ req.stagePlatform = .PIM := by
      cases req.stagePlatform <;> simp
    · cases p with
      | out nid => simp [queue, hplat]
      | mem1 ch =>
        by_cases hc : e.dest - dramOffset config = ch
        · subst hc
          simp [queue, hplat]
        · simp [queue, hplat, hc, Ne.symm hc]
      | mem2 ch => simp [queue, hplat]
    · cases p with
      | out nid => simp [queue, hplat]
      | mem1 ch => simp [queue, hplat]
      | mem2 ch =>
        by_cases hc : e.dest - dramOffset config = ch
        · subst hc
          simp [queue, hplat]
        · simp [queue, hplat, hc, Ne.symm hc]

theorem forward_queue (n : SimpleInterconnect) (src : ℕ) (e : Entity) (p : Place) :
    (n.forward config src e).queue p =
      n.queue p ++ if place config e = p then [delivered config e] else [] := by
  rw [← deliver_queue]
  cases p <;> rfl

/-- The arbitration loop forwards exactly the messages of `movesFrom`, in that order. -/
theorem visit_foldl_eq_moves (order : List ℕ) (n : SimpleInterconnect) :
    order.foldl (visit config) n =
      (n.movesFrom config order).foldl (fun n m => n.forward config m.1 m.2) n := by
  induction order generalizing n with
  | nil => rfl
  | cons src rest ih =>
    rw [List.foldl_cons, movesFrom, visit]
    cases hready : n.ready src with
    | none => simp only [ih]
    | some e => simp only [List.foldl_cons, ih]

/-- A moved message goes to a node that was free, and no two go to the same node. -/
theorem movesFrom_dests (order : List ℕ) (n : SimpleInterconnect) :
    (∀ m ∈ n.movesFrom config order, n.busyNode m.2.dest = false) ∧
      ((n.movesFrom config order).map (·.2.dest)).Nodup := by
  induction order generalizing n with
  | nil => simp [movesFrom]
  | cons src rest ih =>
    rw [movesFrom]
    cases hready : n.ready src with
    | none => exact ih n
    | some e =>
      obtain ⟨-, -, hfree⟩ := ready_some hready
      obtain ⟨hbusy, hnodup⟩ := ih (n.forward config src e)
      have hlater : ∀ m ∈ (n.forward config src e).movesFrom config rest,
          m.2.dest ≠ e.dest ∧ n.busyNode m.2.dest = false := by
        intro m hm
        have hm' := hbusy m hm
        rw [forward_busyNode] at hm'
        by_cases hd : m.2.dest = e.dest
        · simp [hd] at hm'
        · exact ⟨hd, by simpa [hd] using hm'⟩
      constructor
      · intro m hm
        rcases List.mem_cons.mp hm with rfl | hm
        · exact hfree
        · exact (hlater m hm).2
      · rw [List.map_cons, List.nodup_cons]
        refine ⟨?_, hnodup⟩
        rw [List.mem_map]
        rintro ⟨m, hm, hd⟩
        exact (hlater m hm).1 hd

theorem movesFrom_sources_sublist (order : List ℕ) (n : SimpleInterconnect) :
    List.Sublist ((n.movesFrom config order).map Prod.fst) order := by
  induction order generalizing n with
  | nil => simp [movesFrom]
  | cons src rest ih =>
    rw [movesFrom]
    cases hready : n.ready src with
    | none => exact (ih n).cons src
    | some e => exact (ih _).cons_cons src

/-- Each moved message is the head its source's input queue had before the cycle. -/
theorem movesFrom_heads (order : List ℕ) (n : SimpleInterconnect) (horder : order.Nodup) :
    ∀ m ∈ n.movesFrom config order, ∃ rest, n.inBuffers m.1 = m.2 :: rest := by
  induction order generalizing n with
  | nil => simp [movesFrom]
  | cons src rest ih =>
    obtain ⟨hsrc, hrest⟩ := List.nodup_cons.mp horder
    rw [movesFrom]
    cases hready : n.ready src with
    | none => exact ih n hrest
    | some e =>
      intro m hm
      rcases List.mem_cons.mp hm with rfl | hm
      · exact (ready_some hready).1
      · have hne : m.1 ≠ src := by
          rintro rfl
          have hmem : m.1 ∈ ((n.forward config m.1 e).movesFrom config rest).map Prod.fst :=
            List.mem_map_of_mem hm
          exact hsrc ((movesFrom_sources_sublist rest _).subset hmem)
        simpa [hne] using ih _ hrest m hm

theorem visitOrder_nodup (n : SimpleInterconnect) : (n.visitOrder config).Nodup := by
  refine List.Nodup.map_on ?_ List.nodup_range
  intro a ha b hb hab
  have hmod : n.rrStart + a ≡ n.rrStart + b [MOD nNodes config] := hab
  have hmod' : a ≡ b [MOD nNodes config] := Nat.ModEq.add_left_cancel' _ hmod
  exact hmod'.eq_of_lt_of_lt (List.mem_range.mp ha) (List.mem_range.mp hb)

/-- One cycle moves at most one message per source. -/
theorem moves_sources_nodup (n : SimpleInterconnect) :
    ((n.moves config).map Prod.fst).Nodup :=
  (movesFrom_sources_sublist _ n).nodup (visitOrder_nodup n)

/-- One cycle moves at most one message per destination. -/
theorem moves_dests_nodup (n : SimpleInterconnect) :
    ((n.moves config).map (·.2.dest)).Nodup :=
  (movesFrom_dests _ n).2

theorem forward_foldl_queue (ms : List (ℕ × Entity)) (n : SimpleInterconnect) (p : Place) :
    (ms.foldl (fun n m => n.forward config m.1 m.2) n).queue p =
      n.queue p ++ ((ms.filter fun m => place config m.2 = p).map
        fun m => delivered config m.2) := by
  induction ms generalizing n with
  | nil => simp
  | cons m ms ih =>
    rw [List.foldl_cons, ih, forward_queue]
    by_cases hp : place config m.2 = p <;> simp [hp]

theorem cycle_queue (n : SimpleInterconnect) (p : Place) :
    (n.cycle config).queue p =
      n.queue p ++ (((n.moves config).filter fun m => place config m.2 = p).map
        fun m => delivered config m.2) := by
  have hend : (n.cycle config).queue p =
      ((n.visitOrder config).foldl (visit config) n).queue p := by
    cases p <;> rfl
  rw [hend, visit_foldl_eq_moves, forward_foldl_queue]
  rfl

theorem accounted_forward {n : SimpleInterconnect} {X : Crossbar ℕ Place Entity}
    (h : Accounted config n X) {src : ℕ} {e : Entity} (hready : n.ready src = some e) :
    Accounted config (n.forward config src e) (X.transfer src e (place config e)) := by
  obtain ⟨⟨rest, hin⟩, -, -⟩ := ready_some hready
  refine ⟨?_, ?_, ?_⟩
  · intro s
    by_cases hs : s = src
    · subst hs
      simp [Crossbar.transfer, h.input s]
    · simp [Crossbar.transfer, hs, h.input s]
  · intro p
    rw [forward_queue, ← h.output p]
    by_cases hp : p = place config e
    · subst hp
      simp [Crossbar.transfer]
    · simp [Crossbar.transfer, hp, Ne.symm hp]
  · exact Crossbar.conserved_transfer h.conserved ((h.input src).trans hin)

theorem accounted_movesFrom (order : List ℕ) {n : SimpleInterconnect}
    {X : Crossbar ℕ Place Entity} (h : Accounted config n X) :
    Accounted config ((n.movesFrom config order).foldl (fun n m => n.forward config m.1 m.2) n)
      (transfers config X (n.movesFrom config order)) := by
  induction order generalizing n X with
  | nil => exact h
  | cons src rest ih =>
    rw [movesFrom]
    cases hready : n.ready src with
    | none => exact ih h
    | some e => exact ih (accounted_forward h hready)

theorem accounted_cycle {n : SimpleInterconnect} {X : Crossbar ℕ Place Entity}
    (h : Accounted config n X) :
    Accounted config (n.cycle config) (transfers config X (n.moves config)) := by
  have hmoves := accounted_movesFrom (n.visitOrder config) h
  rw [← visit_foldl_eq_moves] at hmoves
  exact ⟨hmoves.input, fun p => (hmoves.output p).trans (by cases p <;> rfl), hmoves.conserved⟩

theorem push_ok {n t : SimpleInterconnect} {src dest : ℕ} {request : MemoryAccess}
    (h : n.push config src dest request = .ok t) :
    (dest < 100 ∧ src < nNodes config ∧ dest < nNodes config) ∧
      t = { n with
        inBuffers := Function.update n.inBuffers src
          (n.inBuffers src ++ [n.newEntity config src dest request]) } := by
  unfold push at h
  split_ifs at h with hdest hnode
  cases h
  exact ⟨⟨hdest, hnode⟩, rfl⟩

theorem accounted_push {n t : SimpleInterconnect} {X : Crossbar ℕ Place Entity}
    (h : Accounted config n X) {src dest : ℕ} {request : MemoryAccess}
    (hpush : n.push config src dest request = .ok t) :
    Accounted config t (X.enqueue src (n.newEntity config src dest request)) := by
  obtain ⟨-, rfl⟩ := push_ok hpush
  refine ⟨?_, fun p => (h.output p).trans (by cases p <;> rfl),
    Crossbar.conserved_enqueue h.conserved _ _⟩
  intro s
  by_cases hs : s = src
  · subst hs
    simp [Crossbar.enqueue, h.input s]
  · simp [Crossbar.enqueue, hs, h.input s]

/-- Dropping the head of the queue of `p` and nothing else is a dequeue at `p`. -/
theorem accounted_dequeue {n t : SimpleInterconnect} {X : Crossbar ℕ Place Entity}
    (h : Accounted config n X) {p : Place} (hin : t.inBuffers = n.inBuffers)
    (hqueue : t.queue = Function.update n.queue p (n.queue p).tail) :
    Accounted config t (X.dequeue p) := by
  refine ⟨?_, ?_, Crossbar.conserved_dequeue h.conserved p⟩
  · intro s
    rw [hin]
    exact h.input s
  · intro q
    rw [hqueue]
    by_cases hq : q = p
    · subst hq
      simp [Crossbar.dequeue, List.map_tail, h.output q]
    · simp [Crossbar.dequeue, hq, h.output q]

theorem pop_ok {n t : SimpleInterconnect} {nid : ℕ} (h : n.pop config nid = .ok t) :
    (nid < dramOffset config ∧ n.outBuffers nid ≠ []) ∧ t =
      { n with outBuffers := Function.update n.outBuffers nid (n.outBuffers nid).tail } := by
  unfold pop at h
  split_ifs at h with hnid hempty
  cases h
  exact ⟨⟨hnid, by simpa [isEmpty] using hempty⟩, rfl⟩

theorem memreqPop1_ok {n t : SimpleInterconnect} {cid : ℕ}
    (h : n.memreqPop1 config cid = .ok t) :
    (cid < config.dramChannels ∧ n.memReqQueue1 cid ≠ []) ∧ t =
      { n with memReqQueue1 := Function.update n.memReqQueue1 cid (n.memReqQueue1 cid).tail } := by
  unfold memreqPop1 at h
  split_ifs at h with hcid hhas
  cases h
  exact ⟨⟨hcid, by simpa [hasMemreq1] using hhas⟩, rfl⟩

theorem memreqPop2_ok {n t : SimpleInterconnect} {cid : ℕ}
    (h : n.memreqPop2 config cid = .ok t) :
    (cid < config.dramChannels ∧ n.memReqQueue2 cid ≠ []) ∧ t =
      { n with memReqQueue2 := Function.update n.memReqQueue2 cid (n.memReqQueue2 cid).tail } := by
  unfold memreqPop2 at h
  split_ifs at h with hcid hhas
  cases h
  exact ⟨⟨hcid, by simpa [hasMemreq2] using hhas⟩, rfl⟩

theorem update_out_queue (n : SimpleInterconnect) (nid : ℕ) (xs : List MemoryAccess) :
    ({ n with outBuffers := Function.update n.outBuffers nid xs } : SimpleInterconnect).queue =
      Function.update n.queue (.out nid) xs := by
  funext p
  cases p with
  | out k => by_cases hk : k = nid <;> simp [queue, hk]
  | mem1 k => simp [queue]
  | mem2 k => simp [queue]

theorem update_mem1_queue (n : SimpleInterconnect) (ch : ℕ) (xs : List MemoryAccess) :
    ({ n with memReqQueue1 := Function.update n.memReqQueue1 ch xs } : SimpleInterconnect).queue =
      Function.update n.queue (.mem1 ch) xs := by
  funext p
  cases p with
  | out k => simp [queue]
  | mem1 k => by_cases hk : k = ch <;> simp [queue, hk]
  | mem2 k => simp [queue]

theorem update_mem2_queue (n : SimpleInterconnect) (ch : ℕ) (xs : List MemoryAccess) :
    ({ n with memReqQueue2 := Function.update n.memReqQueue2 ch xs } : SimpleInterconnect).queue =
      Function.update n.queue (.mem2 ch) xs := by
  funext p
  cases p with
  | out k => simp [queue]
  | mem1 k => simp [queue]
  | mem2 k => by_cases hk : k = ch <;> simp [queue, hk]

theorem accounted_pop {n t : SimpleInterconnect} {X : Crossbar ℕ Place Entity}
    (h : Accounted config n X) {nid : ℕ} (hpop : n.pop config nid = .ok t) :
    Accounted config t (X.dequeue (.out nid)) := by
  obtain ⟨-, rfl⟩ := pop_ok hpop
  exact accounted_dequeue h rfl (update_out_queue n nid _)

theorem accounted_memreqPop1 {n t : SimpleInterconnect} {X : Crossbar ℕ Place Entity}
    (h : Accounted config n X) {cid : ℕ} (hpop : n.memreqPop1 config cid = .ok t) :
    Accounted config t (X.dequeue (.mem1 cid)) := by
  obtain ⟨-, rfl⟩ := memreqPop1_ok hpop
  exact accounted_dequeue h rfl (update_mem1_queue n cid _)

theorem accounted_memreqPop2 {n t : SimpleInterconnect} {X : Crossbar ℕ Place Entity}
    (h : Accounted config n X) {cid : ℕ} (hpop : n.memreqPop2 config cid = .ok t) :
    Accounted config t (X.dequeue (.mem2 cid)) := by
  obtain ⟨-, rfl⟩ := memreqPop2_ok hpop
  exact accounted_dequeue h rfl (update_mem2_queue n cid _)

theorem accounted_init (rrStart : ℕ) : Accounted config (.init rrStart) .empty :=
  ⟨fun _ => rfl, fun p => by cases p <;> rfl, Crossbar.conserved_empty _⟩

theorem accounted_call {n t : SimpleInterconnect} {X : Crossbar ℕ Place Entity} {c : Call}
    (h : Accounted config n X) (hcall : n.call config c = .ok t) :
    Accounted config t (record config n X c) := by
  cases c with
  | push src dest request => exact accounted_push h hcall
  | cycle =>
    cases hcall
    exact accounted_cycle h
  | pop nid => exact accounted_pop h hcall
  | memreqPop1 cid => exact accounted_memreqPop1 h hcall
  | memreqPop2 cid => exact accounted_memreqPop2 h hcall

theorem transfers_pushed (X : Crossbar ℕ Place Entity) (ms : List (ℕ × Entity)) :
    (transfers config X ms).pushed = X.pushed := by
  induction ms generalizing X with
  | nil => rfl
  | cons m ms ih => exact ih _

theorem record_pushed (n : SimpleInterconnect) (X : Crossbar ℕ Place Entity) (c : Call)
    (src : ℕ) :
    ((record config n X c).pushed src).map (fun e => (e.dest, e.access)) =
      (X.pushed src).map (fun e => (e.dest, e.access)) ++ pushedAt src [c] := by
  cases c with
  | push s dest request =>
    by_cases hs : s = src
    · subst hs
      simp [record, Crossbar.enqueue, pushedAt, newEntity]
    · simp [record, Crossbar.enqueue, pushedAt, hs, Ne.symm hs]
  | cycle => simp [record, transfers_pushed, pushedAt]
  | pop nid => simp [record, Crossbar.dequeue, pushedAt]
  | memreqPop1 cid => simp [record, Crossbar.dequeue, pushedAt]
  | memreqPop2 cid => simp [record, Crossbar.dequeue, pushedAt]

/-- The history records the pushes of the calls, in the order of the calls. -/
theorem run_pushed {L M : Ledger} {calls : List Call}
    (hrun : run (Ledger.call config) L calls = .ok M) (src : ℕ) :
    (M.history.pushed src).map (fun e => (e.dest, e.access)) =
      (L.history.pushed src).map (fun e => (e.dest, e.access)) ++ pushedAt src calls := by
  induction calls generalizing L with
  | nil =>
    cases hrun
    simp [pushedAt]
  | cons c cs ih =>
    obtain ⟨m, hm, hrest⟩ := Transition.run_cons_ok.mp hrun
    obtain ⟨net, -, rfl⟩ := Transition.map_ok hm
    rw [ih hrest, record_pushed, List.append_assoc]
    congr 1
    exact (List.filterMap_append (l := [c])).symm

theorem run_accounted {rrStart : ℕ} {L : Ledger} {calls : List Call}
    (hrun : run (Ledger.call config) (.init rrStart) calls = .ok L) :
    Accounted config L.net L.history := by
  refine Transition.run_invariant (fun L => Accounted config L.net L.history) ?_
    (accounted_init rrStart) hrun
  intro s c t hs hcall
  obtain ⟨net, hnet, rfl⟩ := Transition.map_ok hcall
  exact accounted_call hs hnet

theorem visit_foldl_inBuffers (order : List ℕ) (n : SimpleInterconnect) (src : ℕ) :
    n.inBuffers src = ((n.movesFrom config order).filter (·.1 = src)).map Prod.snd ++
      (order.foldl (visit config) n).inBuffers src := by
  induction order generalizing n with
  | nil => simp [movesFrom]
  | cons s rest ih =>
    rw [movesFrom, List.foldl_cons, visit]
    cases hready : n.ready s with
    | none => exact ih n
    | some e =>
      obtain ⟨⟨tail, hin⟩, -, -⟩ := ready_some hready
      have hforward := ih (n.forward config s e)
      rw [forward_inBuffers] at hforward
      by_cases hs : s = src
      · subst hs
        rw [Function.update_self, hin, List.tail_cons] at hforward
        rw [hin, hforward]
        simp
      · rw [Function.update_of_ne (Ne.symm hs)] at hforward
        simpa [hs] using hforward

/-- One cycle takes from each input queue the messages it moves and nothing else. -/
theorem cycle_inBuffers (n : SimpleInterconnect) (src : ℕ) :
    n.inBuffers src =
      ((n.moves config).filter (·.1 = src)).map Prod.snd ++ (n.cycle config).inBuffers src :=
  visit_foldl_inBuffers (n.visitOrder config) n src

/-- Conservation, order and arbitration of the interconnect, for every run. What a source
pushed is `left`, the messages that left its input queue, followed by those still in it; a
message in `left` was popped or is queued at the place it names and at no other, once, and
in the order of the pushes. A cycle moves at most one message per source and per destination,
from the front of its input queue to the back of the queue of its place. -/
theorem interconnect_conserves (config : SimulationConfig) (rrStart : ℕ)
    (calls : List Call) (L : Ledger)
    (hrun : run (Ledger.call config) (.init rrStart) calls = .ok L) :
    (∃ left : ℕ → List Entity,
      (∀ src, (left src ++ L.net.inBuffers src).map (fun e => (e.dest, e.access)) =
        pushedAt src calls) ∧
      ∀ src p, Crossbar.fromSource src (L.history.popped p ++ L.history.output p) =
        (left src).filter (place config · = p)) ∧
    (∀ p, L.net.queue p = (L.history.output p).map fun m => delivered config m.2) ∧
    ((L.net.moves config).map Prod.fst).Nodup ∧
    ((L.net.moves config).map (·.2.dest)).Nodup ∧
    (∀ src, L.net.inBuffers src = ((L.net.moves config).filter (·.1 = src)).map Prod.snd ++
      (L.net.cycle config).inBuffers src) ∧
    ∀ p, (L.net.cycle config).queue p = L.net.queue p ++
      ((L.net.moves config).filter (fun m => place config m.2 = p)).map
        fun m => delivered config m.2 := by
  have h := run_accounted hrun
  obtain ⟨left, hpushed, harrived⟩ := h.conserved
  refine ⟨⟨left, ?_, harrived⟩, fun p => (h.output p).symm, moves_sources_nodup _,
    moves_dests_nodup _, cycle_inBuffers _, cycle_queue _⟩
  intro src
  rw [← h.input src, ← hpushed src, run_pushed hrun src]
  simp [Ledger.init, Crossbar.empty]

def sampleCalls : List Call :=
  [.push 0 2 sampleAccess, .push 3 1 sampleAccess, .push 3 0 sampleAccess, .cycle, .cycle,
    .memreqPop1 0]

/-- A request crosses to channel 0 and is popped there; two responses cross to the core. -/
theorem interconnect_conserves_sample : ∃ L : Ledger,
    run (Ledger.call sampleConfig) (.init 1) sampleCalls = .ok L ∧
      ∀ p, L.net.queue p = (L.history.output p).map fun m => delivered sampleConfig m.2 := by
  obtain ⟨L, hL⟩ := Transition.exists_ok
    (x := run (Ledger.call sampleConfig) (.init 1) sampleCalls) (by decide)
  exact ⟨L, hL, (interconnect_conserves sampleConfig 1 sampleCalls L hL).2.1⟩

end NewPims.SimpleInterconnect

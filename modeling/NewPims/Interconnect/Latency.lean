import NewPims.Interconnect.Conservation
import NewPims.Lib.Timetable

/-! How long a message stays in the input queue of its source. -/
namespace NewPims.SimpleInterconnect

open Transition

/-- A message that left its input queue, with the cycles in which it was pushed and moved. -/
structure Passage where
  entity : Entity
  pushed : ℕ
  moved : ℕ
  deriving DecidableEq, Repr

/-- The interconnect with the cycle in which each message of its input queues was pushed, and the
messages that left these queues. -/
structure Timeline where
  net : SimpleInterconnect
  waiting : ℕ → List (ℕ × Entity)
  passages : List Passage

section

variable (config : SimulationConfig)

def Timeline.init (rrStart : ℕ) : Timeline := ⟨.init rrStart, fun _ => [], []⟩

/-- The messages that one cycle takes from the input queue of `src`. -/
def movesOf (n : SimpleInterconnect) (src : ℕ) : List Entity :=
  ((n.moves config).filter (·.1 = src)).map Prod.snd

/-- A message that is not found in its queue would count as pushed in the cycle it is moved in. -/
def Timeline.passage (T : Timeline) (m : ℕ × Entity) : Passage where
  entity := m.2
  pushed := ((T.waiting m.1).head?.map Prod.fst).getD T.net.cycles
  moved := T.net.cycles

def Timeline.record (T : Timeline) (net : SimpleInterconnect) : Call → Timeline
  | .push src dest request =>
    { T with
      net
      waiting := Function.update T.waiting src
        (T.waiting src ++ [(T.net.cycles, T.net.newEntity config src dest request)]) }
  | .cycle =>
    { net
      waiting := fun src => (T.waiting src).drop (T.net.movesOf config src).length
      passages := T.passages ++ (T.net.moves config).map T.passage }
  | .pop _ | .memreqPop1 _ | .memreqPop2 _ => { T with net }

def Timeline.call (T : Timeline) (c : Call) : Except Fault Timeline :=
  (T.net.call config c).map fun net => T.record config net c

/-- The message in front of a pushed one finishes late enough, or so many are in front of it that
the latency has passed when it can move. -/
def Call.Spaced (T : Timeline) : Call → Prop
  | .push src _ _ => ∀ e ∈ (T.net.inBuffers src).getLast?,
      config.icntLatency ≤ (T.net.inBuffers src).length ∨
        T.net.cycles + config.icntLatency ≤ e.finishCycle + 1
  | .cycle | .pop _ | .memreqPop1 _ | .memreqPop2 _ => True

/-- The messages wait in the input queues, none of them can move too early and none has. -/
structure InTime (T : Timeline) : Prop where
  waiting_eq : ∀ src, (T.waiting src).map Prod.snd = T.net.inBuffers src
  keeps : ∀ src, DelayQueue.Keeps Prod.fst (·.2.finishCycle) config.icntLatency T.net.cycles
    (T.waiting src)
  passed : ∀ p ∈ T.passages, p.pushed + config.icntLatency ≤ p.moved

end

variable {config : SimulationConfig}

@[simp]
theorem forward_cycles (n : SimpleInterconnect) (src : ℕ) (e : Entity) :
    (n.forward config src e).cycles = n.cycles := by
  unfold forward deliver
  split_ifs
  · rfl
  · dsimp only
    split <;> rfl

theorem visit_cycles (n : SimpleInterconnect) (src : ℕ) :
    (n.visit config src).cycles = n.cycles := by
  unfold visit
  split
  · exact forward_cycles n src _
  · rfl

theorem cycle_cycles (n : SimpleInterconnect) : (n.cycle config).cycles = n.cycles + 1 := by
  have hvisits : ∀ order : List ℕ, ∀ n : SimpleInterconnect,
      (order.foldl (visit config) n).cycles = n.cycles := by
    intro order
    induction order with
    | nil => exact fun n => rfl
    | cons src rest ih => exact fun n => (ih _).trans (visit_cycles n src)
  exact congrArg (· + 1) (hvisits _ n)

theorem movesFrom_finished (order : List ℕ) (n : SimpleInterconnect) :
    ∀ m ∈ n.movesFrom config order, m.2.finishCycle ≤ n.cycles := by
  induction order generalizing n with
  | nil => simp [movesFrom]
  | cons src rest ih =>
    rw [movesFrom]
    cases hready : n.ready src with
    | none => exact ih n
    | some e =>
      intro m hm
      rcases List.mem_cons.mp hm with rfl | hm
      · exact (ready_some hready).2.1
      · rw [← forward_cycles n src e]
        exact ih _ m hm

theorem movesOf_length_le (n : SimpleInterconnect) (src : ℕ) :
    (n.movesOf config src).length ≤ 1 := by
  have hnodup : ((n.moves config).map Prod.fst).Nodup := moves_sources_nodup n
  have hcount := List.nodup_iff_count_le_one.mp hnodup src
  rw [List.count, List.countP_map, List.countP_eq_length_filter] at hcount
  rw [movesOf, List.length_map]
  exact hcount

namespace Timeline

variable {T T' : Timeline}

theorem inTime_init (rrStart : ℕ) : InTime config (.init rrStart) :=
  ⟨fun _ => rfl, fun _ => DelayQueue.keeps_nil, fun _ hp => absurd hp List.not_mem_nil⟩

/-- Only the clock, the input queues and the messages that have left them count. -/
theorem inTime_of_same (h : InTime config T) {net : SimpleInterconnect}
    (hin : net.inBuffers = T.net.inBuffers) (hcycles : net.cycles = T.net.cycles) :
    InTime config { T with net } := by
  refine ⟨fun src => ?_, fun src => ?_, h.passed⟩
  · rw [hin]
    exact h.waiting_eq src
  · rw [hcycles]
    exact h.keeps src

theorem inTime_push (h : InTime config T) {src dest : ℕ} {request : MemoryAccess}
    (hspaced : Call.Spaced config T (.push src dest request)) {net : SimpleInterconnect}
    (hpush : T.net.push config src dest request = .ok net) :
    InTime config (T.record config net (.push src dest request)) := by
  obtain ⟨-, rfl⟩ := push_ok hpush
  have hlen : (T.waiting src).length = (T.net.inBuffers src).length := by
    rw [← h.waiting_eq src, List.length_map]
  refine ⟨fun s => ?_, fun s => ?_, h.passed⟩
  · by_cases hs : s = src
    · rw [hs]
      dsimp only [record]
      rw [Function.update_self, Function.update_self, List.map_append, h.waiting_eq src]
      rfl
    · dsimp only [record]
      rw [Function.update_of_ne hs, Function.update_of_ne hs]
      exact h.waiting_eq s
  · by_cases hs : s = src
    · rw [hs]
      dsimp only [record]
      rw [Function.update_self]
      apply DelayQueue.keeps_concat (h.keeps src)
      rw [hlen]
      dsimp only [newEntity]
      cases hlast : (T.net.inBuffers src).getLast? with
      | none => exact Nat.le_max_right _ _
      | some e =>
        dsimp only
        rcases hspaced e hlast with hmany | hlate
        · exact Nat.le_trans (Nat.add_le_add_left hmany _) (Nat.le_max_left _ _)
        · exact Nat.le_trans hlate (Nat.le_max_right _ _)
    · dsimp only [record]
      rw [Function.update_of_ne hs]
      exact h.keeps s

/-- The messages that a cycle moves have waited for the latency. -/
theorem passage_inTime (h : InTime config T) {m : ℕ × Entity} (hm : m ∈ T.net.moves config) :
    (T.passage m).pushed + config.icntLatency ≤ (T.passage m).moved := by
  obtain ⟨rest, hin⟩ := movesFrom_heads _ T.net (visitOrder_nodup T.net) m hm
  have hfinished := movesFrom_finished _ T.net m hm
  have hwaiting := h.waiting_eq m.1
  have hkeeps := h.keeps m.1
  cases hqueue : T.waiting m.1 with
  | nil =>
    rw [hqueue, hin] at hwaiting
    cases hwaiting
  | cons first others =>
    rw [hqueue, hin, List.map_cons] at hwaiting
    obtain ⟨hfirst, -⟩ := List.cons.inj hwaiting
    rw [hqueue] at hkeeps
    rw [← hfirst] at hfinished
    unfold passage
    rw [hqueue]
    exact hkeeps.head hfinished

theorem inTime_cycle (h : InTime config T) :
    InTime config (T.record config (T.net.cycle config) .cycle) := by
  refine ⟨fun src => ?_, fun src => ?_, fun p hp => ?_⟩
  · have hsplit : T.net.inBuffers src =
        T.net.movesOf config src ++ (T.net.cycle config).inBuffers src := cycle_inBuffers T.net src
    dsimp only [record]
    rw [List.map_drop, h.waiting_eq src, hsplit]
    exact List.drop_left
  · dsimp only [record]
    rw [cycle_cycles]
    have hle : (T.net.movesOf config src).length ≤ 1 := movesOf_length_le T.net src
    rcases Nat.le_one_iff_eq_zero_or_eq_one.mp hle with hnone | hone
    · rw [hnone, List.drop_zero]
      exact DelayQueue.keeps_tick (h.keeps src)
    · rw [hone, List.drop_one]
      exact DelayQueue.keeps_tail (h.keeps src)
  · rcases List.mem_append.mp hp with hp | hp
    · exact h.passed p hp
    · obtain ⟨m, hm, rfl⟩ := List.mem_map.mp hp
      exact passage_inTime h hm

theorem inTime_call (h : InTime config T) {c : Call} (hspaced : c.Spaced config T)
    (hcall : T.call config c = .ok T') : InTime config T' := by
  obtain ⟨net, hnet, rfl⟩ := map_ok hcall
  cases c with
  | push src dest request => exact inTime_push h hspaced hnet
  | cycle =>
    cases hnet
    exact inTime_cycle h
  | pop nid =>
    obtain ⟨-, rfl⟩ := pop_ok hnet
    exact inTime_of_same h rfl rfl
  | memreqPop1 cid =>
    obtain ⟨-, rfl⟩ := memreqPop1_ok hnet
    exact inTime_of_same h rfl rfl
  | memreqPop2 cid =>
    obtain ⟨-, rfl⟩ := memreqPop2_ok hnet
    exact inTime_of_same h rfl rfl

end Timeline

/-- No message leaves its input queue before it has waited for the latency, in every run each of
whose pushes finds the message before it late enough. -/
theorem passages_inTime {rrStart : ℕ} {calls : List Call} {T : Timeline}
    (hrun : run (Timeline.call config) (.init rrStart) calls = .ok T)
    (hcalls : AllCalls (Timeline.call config) (fun T c => c.Spaced config T) (.init rrStart) calls) :
    ∀ p ∈ T.passages, p.pushed + config.icntLatency ≤ p.moved := by
  have hinv := run_invariant_of (InTime config) (fun T c => c.Spaced config T)
    (fun _ _ _ h hspaced hcall => Timeline.inTime_call h hspaced hcall)
    (Timeline.inTime_init rrStart) hcalls hrun
  exact hinv.passed

def slowConfig : SimulationConfig := { sampleConfig with icntLatency := 1 }

theorem passages_inTime_sample : ∃ T, run (Timeline.call slowConfig) (.init 0)
    [.push 0 2 sampleAccess, .push 0 2 sampleAccess, .cycle, .cycle, .cycle] = .ok T ∧
    (T.passages.map fun p => (p.pushed, p.moved)) = [(0, 1), (0, 2)] ∧
    ∀ p ∈ T.passages, p.pushed + slowConfig.icntLatency ≤ p.moved := by
  obtain ⟨T, hT⟩ := exists_ok (x := run (Timeline.call slowConfig) (.init 0)
    [.push 0 2 sampleAccess, .push 0 2 sampleAccess, .cycle, .cycle, .cycle]) (by decide)
  refine ⟨T, hT, ?_, passages_inTime hT ?_⟩
  · cases hT
    decide
  · refine allCalls_cons (by simp [Call.Spaced, Timeline.init, init]) rfl ?_
    refine allCalls_cons (fun e _ => Or.inl (by decide)) rfl ?_
    exact allCalls_cons trivial rfl (allCalls_cons trivial rfl (allCalls_cons trivial rfl trivial))

def slowerConfig : SimulationConfig := { sampleConfig with icntLatency := 5 }

/-- Pushed in cycle 4 behind a message that finishes in cycle 5, a message is moved in cycle 6. -/
theorem push_early : ∃ T, run (Timeline.call slowerConfig) (.init 0)
    [.push 0 2 sampleAccess, .cycle, .cycle, .cycle, .cycle, .push 0 2 sampleAccess,
      .cycle, .cycle, .cycle] = .ok T ∧
    (T.passages.map fun p => (p.pushed, p.moved)) = [(0, 5), (4, 6)] ∧
    ¬ ∀ p ∈ T.passages, p.pushed + slowerConfig.icntLatency ≤ p.moved := by
  refine ⟨_, rfl, by decide, by decide⟩

end NewPims.SimpleInterconnect

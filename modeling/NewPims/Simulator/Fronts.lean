import NewPims.Lib.Behavior
import NewPims.Simulator.Hops

/-! How long the front of an input queue of the interconnect waits for its move. -/
namespace NewPims.Machine

open NeuPIMSystolicWS SimpleInterconnect Transition

variable {config : SimulationConfig} {mem : NewtonSim.Config} {set : RobinHood} {M M' : Machine}
  {memory : MemoryCycle} {src w : ℕ}

/-- The front of the input queue of `src` can move in `w` cycles at the latest. -/
def FrontWithin (src w : ℕ) (M : Machine) : Prop :=
  ∃ e rest, M.icnt.inBuffers src = e :: rest ∧ e.finishCycle ≤ M.icnt.cycles + w

/-- No other node sends to where the messages of `src` go. -/
def Exclusive (config : SimulationConfig) (src : ℕ) (M : Machine) : Prop :=
  ∀ e ∈ M.icnt.inBuffers src, ∀ s < nNodes config, s ≠ src →
    ∀ e' ∈ M.icnt.inBuffers s, e'.dest ≠ e.dest

theorem exists_frontWithin (src : ℕ) (M : Machine) :
    M.icnt.inBuffers src = [] ∨ ∃ w, FrontWithin src w M := by
  cases hqueue : M.icnt.inBuffers src with
  | nil => exact Or.inl rfl
  | cons e rest => exact Or.inr ⟨e.finishCycle, e, rest, hqueue, Nat.le_add_left _ _⟩

theorem frontWithin_congr (h : M'.icnt = M.icnt) (hM : FrontWithin src w M) :
    FrontWithin src w M' := by
  unfold FrontWithin
  rw [h]
  exact hM

/-- A hop takes nothing out of an input queue. -/
theorem hop_inBuffers (hhop : Hop config mem memory M M') (src : ℕ) :
    M.icnt.inBuffers src <+: M'.icnt.inBuffers src ∧ M'.icnt.cycles = M.icnt.cycles := by
  have happend : ∀ node (e : Entity), M.icnt.inBuffers src <+: Function.update M.icnt.inBuffers node
      (M.icnt.inBuffers node ++ [e]) src := by
    intro node e
    by_cases hnode : src = node
    · subst hnode
      rw [Function.update_self]
      exact List.prefix_append _ _
    · rw [Function.update_of_ne hnode]
  cases hhop with
  | send p hcore hch hstep =>
    obtain ⟨-, rfl⟩ | ⟨front, rest, dest, -, -, rfl⟩ := sendRequest_ok hstep
    · exact ⟨List.prefix_refl _, rfl⟩
    · exact ⟨happend _ _, rfl⟩
  | receive hcore hch hstep =>
    obtain ⟨-, rfl⟩ | ⟨response, rest, c, -, -, rfl⟩ := receiveResponse_ok hstep
    · exact ⟨List.prefix_refl _, rfl⟩
    · exact ⟨List.prefix_refl _, rfl⟩
  | forward p hch hstep =>
    obtain ⟨-, rfl⟩ | ⟨request, rest, n', -, -, hpop, rfl⟩ := forwardRequest_ok hstep
    · exact ⟨List.prefix_refl _, rfl⟩
    · obtain ⟨-, hin, hcycles, -⟩ := memreqPop_ok hpop
      dsimp only
      rw [hin]
      exact ⟨List.prefix_refl _, hcycles⟩
  | take hch hstep =>
    obtain ⟨-, rfl⟩ | ⟨response, dest, -, -, -, rfl⟩ := takeResponse_ok hstep
    · exact ⟨List.prefix_refl _, rfl⟩
    · exact ⟨happend _ _, rfl⟩

theorem frontWithin_hops (hhops : Hops config mem memory M M') (hM : FrontWithin src w M) :
    FrontWithin src w M' := by
  induction hhops with
  | refl => exact hM
  | tail _ hhop ih =>
    obtain ⟨e, rest, hin, hfinish⟩ := ih
    obtain ⟨⟨more, hmore⟩, hcycles⟩ := hop_inBuffers hhop src
    refine ⟨e, rest ++ more, ?_, ?_⟩
    · rw [← hmore, hin, List.cons_append]
    · rw [hcycles]
      exact hfinish

/-- A front that the arbitration leaves behind has spent a cycle of its latency. -/
theorem frontWithin_arbitrate (hsrc : src < nNodes config)
    (hfree : ∀ node, M.icnt.busyNode node = false) (hexclusive : Exclusive config src M)
    (hnone : M.icnt.movesOf config src = []) (hM : FrontWithin src w M) :
    ∃ v, w = v + 1 ∧ FrontWithin src v (arbitrate config M) := by
  obtain ⟨e, rest, hin, hfinish⟩ := hM
  cases w with
  | zero =>
    have hmem : e ∈ M.icnt.inBuffers src := by
      rw [hin]
      exact List.mem_cons_self
    have hmoves := movesOf_head hsrc hin hfinish (hfree e.dest) (hexclusive e hmem)
    rw [hnone] at hmoves
    exact absurd hmoves.2.symm (List.cons_ne_nil e [])
  | succ v =>
    refine ⟨v, rfl, e, rest, ?_, ?_⟩
    · have hsplit : M.icnt.inBuffers src = M.icnt.movesOf config src ++
          (M.icnt.cycle config).inBuffers src := movesOf_eq M.icnt src
      rw [hnone, hin] at hsplit
      exact hsplit.symm
    · have hcycles : (M.icnt.cycle config).cycles = M.icnt.cycles + 1 := cycle_cycles M.icnt
      calc e.finishCycle ≤ M.icnt.cycles + (v + 1) := hfinish
        _ = M.icnt.cycles + 1 + v := by rw [Nat.add_comm v 1, Nat.add_assoc]
        _ = (M.icnt.cycle config).cycles + v := by rw [hcycles]

/-- The events of the core leave the interconnect and the responses alone. -/
theorem step_network {e : Event} (hstep : step config mem set M e = .ok M') :
    (∃ memory, e = .icntCycle memory) ∨
      M'.icnt = M.icnt ∧ M'.answered = M.answered ∧ M'.delivered = M.delivered := by
  cases e with
  | issue coreId tile =>
    simp only [step] at hstep
    split_ifs at hstep
    obtain ⟨c, hc, rfl⟩ := map_ok hstep
    exact Or.inr ⟨rfl, rfl, rfl⟩
  | issuePim coreId tile =>
    simp only [step] at hstep
    split_ifs at hstep
    obtain ⟨c, hc, rfl⟩ := map_ok hstep
    exact Or.inr ⟨rfl, rfl, rfl⟩
  | popFinishedTile coreId =>
    simp only [step] at hstep
    split_ifs at hstep
    cases hstep
    exact Or.inr ⟨rfl, rfl, rfl⟩
  | cycle coreId =>
    simp only [step] at hstep
    split_ifs at hstep
    obtain ⟨c, hc, rfl⟩ := map_ok hstep
    exact Or.inr ⟨rfl, rfl, rfl⟩
  | icntCycle memory => exact Or.inl ⟨memory, rfl⟩

theorem lawful_behavior (haligned : Aligned config) (hM : Lawful config mem M)
    (b : Behavior (step config mem set) M) (t : ℕ) : Lawful config mem (b.state t) :=
  Behavior.invariant (fun _ _ _ h hstep => lawful_step haligned h hstep) hM t

/-- A front waits while the core works. -/
theorem frontWithin_behavior (b : Behavior (step config mem set) M) (t : ℕ)
    (h : FrontWithin src w (b.state t)) :
    (∃ memory, b.call t = .icntCycle memory) ∨ FrontWithin src w (b.state (t + 1)) := by
  rcases step_network (b.next t) with hcycle | ⟨hsame, -⟩
  · exact Or.inl hcycle
  · exact Or.inr (frontWithin_congr hsame h)

end NewPims.Machine

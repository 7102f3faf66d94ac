import Mathlib.Data.List.Perm.Subperm
import NewPims.Interconnect.Latency

/-! What one cycle does to the messages of a source and to a place that has one source only. -/
namespace NewPims.SimpleInterconnect

variable {config : SimulationConfig} {n : SimpleInterconnect} {src : ℕ}

theorem visitOrder_mem_lt (n : SimpleInterconnect) {node : ℕ} (h : node ∈ n.visitOrder config) :
    node < nNodes config := by
  obtain ⟨i, hi, rfl⟩ := List.mem_map.mp h
  exact Nat.mod_lt _ (Nat.zero_lt_of_lt (List.mem_range.mp hi))

/-- Every node is visited once in a cycle. -/
theorem mem_visitOrder (n : SimpleInterconnect) {node : ℕ} (h : node < nNodes config) :
    node ∈ n.visitOrder config := by
  have hsub : n.visitOrder config ⊆ List.range (nNodes config) :=
    fun k hk => List.mem_range.mpr (visitOrder_mem_lt n hk)
  have hperm := (List.subperm_of_subset (visitOrder_nodup n) hsub).perm_of_length_le (by
    rw [visitOrder, List.length_map])
  exact hperm.mem_iff.mpr (List.mem_range.mpr h)

/-- A moved message comes from the input queue of a node. -/
theorem mem_moves {m : ℕ × Entity} (h : m ∈ n.moves config) :
    m.1 < nNodes config ∧ m.2 ∈ n.inBuffers m.1 := by
  obtain ⟨rest, hin⟩ := movesFrom_heads _ n (visitOrder_nodup n) m h
  have hsrc := (movesFrom_sources_sublist _ n).subset (List.mem_map_of_mem h)
  refine ⟨visitOrder_mem_lt n hsrc, ?_⟩
  rw [hin]
  exact List.mem_cons_self

theorem mem_movesOf {e : Entity} (h : e ∈ n.movesOf config src) : e ∈ n.inBuffers src := by
  obtain ⟨m, hm, rfl⟩ := List.mem_map.mp h
  obtain ⟨hm, hsrc⟩ := List.mem_filter.mp hm
  rw [← of_decide_eq_true hsrc]
  exact (mem_moves hm).2

theorem mem_cycle_inBuffers {e : Entity} (h : e ∈ (n.cycle config).inBuffers src) :
    e ∈ n.inBuffers src := by
  have hsplit : n.inBuffers src =
      n.movesOf config src ++ (n.cycle config).inBuffers src := cycle_inBuffers n src
  rw [hsplit]
  exact List.mem_append_right _ h

/-- What joins the queue of a place was in an input queue. -/
theorem mem_cycle_queue {p : Place} {a : MemoryAccess} (h : a ∈ (n.cycle config).queue p) :
    a ∈ n.queue p ∨ ∃ s < nNodes config, ∃ e ∈ n.inBuffers s,
      place config e = p ∧ a = delivered config e := by
  rw [cycle_queue] at h
  rcases List.mem_append.mp h with h | h
  · exact Or.inl h
  · obtain ⟨m, hm, rfl⟩ := List.mem_map.mp h
    obtain ⟨hm, hp⟩ := List.mem_filter.mp hm
    obtain ⟨hsrc, hin⟩ := mem_moves hm
    exact Or.inr ⟨m.1, hsrc, m.2, hin, of_decide_eq_true hp, rfl⟩

/-- A place that only one node sends to gets the messages of that node. -/
theorem cycle_queue_exclusive {p : Place}
    (h : ∀ s < nNodes config, s ≠ src → ∀ e ∈ n.inBuffers s, place config e ≠ p) :
    (n.cycle config).queue p =
      n.queue p ++ ((n.movesOf config src).filter (place config · = p)).map (delivered config) := by
  rw [cycle_queue, movesOf, List.filter_map, List.map_map, List.filter_filter]
  congr 2
  apply List.filter_congr
  intro m hm
  obtain ⟨hlt, hin⟩ := mem_moves hm
  by_cases hp : place config m.2 = p
  · have hsrc : m.1 = src := by
      by_contra hne
      exact h m.1 hlt hne m.2 hin hp
    simp [hp, hsrc]
  · simp [hp]

theorem movesOf_eq (n : SimpleInterconnect) (src : ℕ) :
    n.inBuffers src = n.movesOf config src ++ (n.cycle config).inBuffers src :=
  cycle_inBuffers n src

/-- The head of the input queue moves as soon as it has spent its latency, where no other node
sends to its destination. -/
theorem movesFrom_head {order : List ℕ} {e : Entity} {rest : List Entity} (horder : order.Nodup)
    (hmem : src ∈ order) (hin : n.inBuffers src = e :: rest) (hfinish : e.finishCycle ≤ n.cycles)
    (hbusy : n.busyNode e.dest = false)
    (hother : ∀ s ∈ order, s ≠ src → ∀ e' ∈ n.inBuffers s, e'.dest ≠ e.dest) :
    (src, e) ∈ n.movesFrom config order := by
  induction order generalizing n with
  | nil => cases hmem
  | cons s order ih =>
    obtain ⟨hs, hnodup⟩ := List.nodup_cons.mp horder
    rw [movesFrom]
    by_cases hsrc : s = src
    · subst hsrc
      have hready : n.ready s = some e := by
        rw [ready, hin]
        exact if_pos ⟨hfinish, hbusy⟩
      rw [hready]
      exact List.mem_cons_self
    · have hmem' : src ∈ order := (List.mem_cons.mp hmem).resolve_left (Ne.symm hsrc)
      cases hready : n.ready s with
      | none =>
        exact ih hnodup hmem' hin hfinish hbusy
          fun t ht => hother t (List.mem_cons_of_mem s ht)
      | some e' =>
        obtain ⟨⟨rest', hin'⟩, -, -⟩ := ready_some hready
        have hdest : e'.dest ≠ e.dest := by
          refine hother s List.mem_cons_self hsrc e' ?_
          rw [hin']
          exact List.mem_cons_self
        refine List.mem_cons_of_mem _ (ih hnodup hmem' ?_ ?_ ?_ ?_)
        · rw [forward_inBuffers, Function.update_of_ne (Ne.symm hsrc), hin]
        · rw [forward_cycles]
          exact hfinish
        · rw [forward_busyNode, Function.update_of_ne (Ne.symm hdest)]
          exact hbusy
        · intro t ht htsrc e'' he''
          refine hother t (List.mem_cons_of_mem s ht) htsrc e'' ?_
          rw [forward_inBuffers] at he''
          by_cases hts : t = s
          · rw [hts, Function.update_self] at he''
            rw [hts]
            exact List.mem_of_mem_tail he''
          · rwa [Function.update_of_ne hts] at he''

theorem movesOf_head {e : Entity} {rest : List Entity} (hsrc : src < nNodes config)
    (hin : n.inBuffers src = e :: rest) (hfinish : e.finishCycle ≤ n.cycles)
    (hbusy : n.busyNode e.dest = false)
    (hother : ∀ s < nNodes config, s ≠ src → ∀ e' ∈ n.inBuffers s, e'.dest ≠ e.dest) :
    (n.cycle config).inBuffers src = rest ∧ n.movesOf config src = [e] := by
  have hmoves : (src, e) ∈ n.moves config :=
    movesFrom_head (visitOrder_nodup n) (mem_visitOrder n hsrc) hin hfinish hbusy
      fun s hs => hother s (visitOrder_mem_lt n hs)
  have hmem : e ∈ n.movesOf config src :=
    List.mem_map.mpr ⟨(src, e), List.mem_filter.mpr ⟨hmoves, by simp⟩, rfl⟩
  have hone : n.movesOf config src = [e] := by
    have hle : (n.movesOf config src).length ≤ 1 := movesOf_length_le n src
    have hpos := List.length_pos_of_mem hmem
    obtain ⟨x, hx⟩ := List.length_eq_one_iff.mp (Nat.le_antisymm hle hpos)
    rw [hx] at hmem ⊢
    rw [List.mem_singleton.mp hmem]
  have hsplit : n.inBuffers src = n.movesOf config src ++ (n.cycle config).inBuffers src :=
    movesOf_eq n src
  rw [hin, hone] at hsplit
  exact ⟨(List.cons.inj hsplit).2.symm, hone⟩

end NewPims.SimpleInterconnect

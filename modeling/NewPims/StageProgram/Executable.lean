import Mathlib.Data.List.Nodup
import NewPims.Lib.Dataflow
import NewPims.StageProgram

/-! The executable list of a stage program is the ready set of its operation graph: at every
point it holds, once each, the unfinished operations whose inputs are all produced. -/
namespace NewPims.StageProgram

/-- The operations as a dataflow graph over the tensors. -/
def graph (p : StageProgram) : Dataflow ℕ ℕ where
  nodes := p.opMap.map (·.id)
  needs id :=
    match p.operation id with
    | some op => op.inputs
    | none => []
  makes id :=
    match p.operation id with
    | some op => op.outputs
    | none => []

/-- What is assumed of the graph of a program before its executable operations are looked
for below the tensor `start`. -/
structure WellFormed (p : StageProgram) (start : ℕ) : Prop where
  ids : (p.opMap.map (·.id)).Nodup
  registered : ∀ t, (p.tensorChildNodes t).Perm
    (p.opMap.flatMap fun op => List.replicate (op.inputs.count t) op.id)
  unfinished : ∀ op ∈ p.opMap, op.finish = false
  outputs : ∀ op ∈ p.opMap, ∀ t ∈ op.outputs, t < p.tensors.length ∧ p.getProduced t = false
  acyclic : p.graph.Acyclic
  singleProducer : ∀ a ∈ p.opMap, ∀ b ∈ p.opMap, ∀ t ∈ a.outputs, t ∈ b.outputs → a = b
  startOnce : ∀ op ∈ p.opMap, op.inputs.count start ≤ 1
  entry : ∀ op ∈ p.opMap,
    (start ∈ op.inputs ∧ ∀ t ∈ op.inputs, p.getProduced t = true) ∨
      ∃ t ∈ op.inputs, ∃ a ∈ p.opMap, t ∈ a.outputs
  idle : p.executableOperations = []

/-- Every input that no operation of the program makes is produced from the start. -/
def ExternalsProduced (p : StageProgram) : Prop :=
  ∀ op ∈ p.opMap, ∀ t ∈ op.inputs, p.getProduced t = true ∨ ∃ a ∈ p.opMap, t ∈ a.outputs

/-- The states in which `finish_operation` has only been called on executable operations. -/
inductive Reachable (p₀ : StageProgram) (start : ℕ) : StageProgram → Prop
  | init : Reachable p₀ start (p₀.findExecutableNode start)
  | finish {p q : StageProgram} {id : ℕ} : Reachable p₀ start p →
      id ∈ p.executableOperations → p.finishOperation id = .ok q → Reachable p₀ start q

def markFinished (F : List ℕ) (op : Operation) : Operation :=
  { op with finish := decide (op.id ∈ F) }

/-- The state `p` reached from the graph `p₀` once the operations of `F` are finished. -/
structure Tracks (p₀ p : StageProgram) (F : List ℕ) : Prop where
  ops : p.opMap = p₀.opMap.map (markFinished F)
  children : ∀ t, p.tensorChildNodes t = p₀.tensorChildNodes t
  heap : p.tensors.length = p₀.tensors.length
  produced : ∀ t, p.getProduced t = true ↔
    p₀.graph.Available (p₀.getProduced · = true) (· ∈ F) t
  consumed : ∀ n ∈ F, ∀ t ∈ p₀.graph.needs n,
    p₀.graph.Available (p₀.getProduced · = true) (· ∈ F) t
  nodup : p.executableOperations.Nodup
  ready : ∀ id, id ∈ p.executableOperations ↔
    p₀.graph.Ready (p₀.getProduced · = true) (· ∈ F) id

section Lookup

theorem operation_some {p : StageProgram} {id : ℕ} {op : Operation}
    (h : p.operation id = some op) : op ∈ p.opMap ∧ op.id = id := by
  unfold operation at h
  have hid := List.find?_some h
  exact ⟨List.mem_of_find?_eq_some h, by simpa using hid⟩

theorem operation_of_mem {p : StageProgram} (hids : (p.opMap.map (·.id)).Nodup)
    {op : Operation} (hop : op ∈ p.opMap) : p.operation op.id = some op := by
  cases hfind : p.operation op.id with
  | none =>
    have hnone := List.find?_eq_none.mp hfind op hop
    simp at hnone
  | some a =>
    obtain ⟨ha, haid⟩ := operation_some hfind
    rw [List.inj_on_of_nodup_map hids ha hop haid]

theorem operation_isSome {p : StageProgram} {id : ℕ} (h : id ∈ p.graph.nodes) :
    ∃ op, p.operation id = some op := by
  obtain ⟨op, hop, rfl⟩ := List.mem_map.mp h
  cases hfind : p.operation op.id with
  | none =>
    have hnone := List.find?_eq_none.mp hfind op hop
    simp at hnone
  | some a => exact ⟨a, rfl⟩

theorem graph_needs {p : StageProgram} {id : ℕ} {op : Operation}
    (h : p.operation id = some op) : p.graph.needs id = op.inputs := by
  simp only [graph, h]

theorem graph_makes {p : StageProgram} {id : ℕ} {op : Operation}
    (h : p.operation id = some op) : p.graph.makes id = op.outputs := by
  simp only [graph, h]

theorem operation_map {p q : StageProgram} {f : Operation → Operation}
    (hf : ∀ op, (f op).id = op.id) (h : q.opMap = p.opMap.map f) (id : ℕ) :
    q.operation id = (p.operation id).map f := by
  unfold operation
  rw [h, List.find?_map]
  congr 2
  funext op
  simp [hf]

theorem checkExecutable_iff {p₀ p : StageProgram} {F : List ℕ} {done : ℕ → Prop}
    (hops : p.opMap = p₀.opMap.map (markFinished F))
    (hproduced : ∀ t, p.getProduced t = true ↔
      p₀.graph.Available (p₀.getProduced · = true) done t) (id : ℕ) :
    p.checkExecutable id = true ↔ id ∈ p₀.graph.nodes ∧
      ∀ t ∈ p₀.graph.needs id, p₀.graph.Available (p₀.getProduced · = true) done t := by
  have hlookup := operation_map (f := markFinished F) (fun _ => rfl) hops id
  unfold checkExecutable
  cases hop : p₀.operation id with
  | none =>
    rw [hop] at hlookup
    rw [hlookup]
    constructor
    · intro h
      cases h
    · rintro ⟨hnode, -⟩
      obtain ⟨op, hsome⟩ := operation_isSome hnode
      rw [hop] at hsome
      cases hsome
  | some op =>
    rw [hop] at hlookup
    have hnode : id ∈ p₀.graph.nodes :=
      List.mem_map.mpr ⟨op, operation_some hop⟩
    rw [hlookup, graph_needs hop]
    simp [markFinished, hproduced, hnode]

end Lookup

section Frames

@[simp]
theorem setProduced_children (p : StageProgram) (s t : ℕ) :
    (p.setProduced s).tensorChildNodes t = p.tensorChildNodes t := by
  unfold tensorChildNodes setProduced
  rw [List.getElem?_modify]
  cases p.tensors[t]? with
  | none => rfl
  | some x => by_cases hs : s = t <;> simp [hs]

theorem setProduced_produced (p : StageProgram) (s t : ℕ) :
    (p.setProduced s).getProduced t = true ↔
      p.getProduced t = true ∨ t = s ∧ s < p.tensors.length := by
  unfold getProduced setProduced
  rw [List.getElem?_modify]
  cases hx : p.tensors[t]? with
  | none =>
    have hlen : p.tensors.length ≤ t := List.getElem?_eq_none_iff.mp hx
    have hout : ¬ (t = s ∧ s < p.tensors.length) := by omega
    simp [hout]
  | some x =>
    have hlen : t < p.tensors.length := (List.getElem?_eq_some_iff.mp hx).1
    by_cases hs : s = t
    · subst hs
      simp [hlen]
    · simp [hs, Ne.symm hs]

theorem foldl_setProduced (outs : List ℕ) (p : StageProgram) :
    (outs.foldl setProduced p).opMap = p.opMap ∧
      (outs.foldl setProduced p).executableOperations = p.executableOperations ∧
      (outs.foldl setProduced p).tensors.length = p.tensors.length ∧
      (∀ t, (outs.foldl setProduced p).tensorChildNodes t = p.tensorChildNodes t) ∧
      ∀ t, (outs.foldl setProduced p).getProduced t = true ↔
        p.getProduced t = true ∨ t ∈ outs ∧ t < p.tensors.length := by
  induction outs generalizing p with
  | nil => simp
  | cons s outs ih =>
    obtain ⟨hops, hexec, hlen, hchildren, hproduced⟩ := ih (p.setProduced s)
    have hlen' : (p.setProduced s).tensors.length = p.tensors.length := by
      simp [setProduced]
    refine ⟨hops, hexec, hlen.trans hlen', fun t => (hchildren t).trans (by simp), ?_⟩
    intro t
    rw [List.foldl_cons, hproduced t, setProduced_produced, hlen', List.mem_cons]
    constructor
    · rintro ((h | ⟨rfl, h⟩) | ⟨h, hlt⟩)
      · exact Or.inl h
      · exact Or.inr ⟨Or.inl rfl, h⟩
      · exact Or.inr ⟨Or.inr h, hlt⟩
    · rintro (h | ⟨rfl | h, hlt⟩)
      · exact Or.inl (Or.inl h)
      · exact Or.inl (Or.inr ⟨rfl, hlt⟩)
      · exact Or.inr ⟨h, hlt⟩

/-- Offering a list of operations appends those that may start and are new. -/
theorem foldl_offer (ids : List ℕ) (p : StageProgram) :
    ids.foldl offer p =
      { p with
        executableOperations :=
          Dataflow.pushNew p.checkExecutable p.executableOperations ids } := by
  induction ids generalizing p with
  | nil => rfl
  | cons id ids ih =>
    have hexist : p.checkExistInExecutable id = decide (id ∈ p.executableOperations) := by
      simp [checkExistInExecutable, List.any_eq]
    have hoffer : p.offer id =
        { p with
          executableOperations :=
            if p.checkExecutable id && !decide (id ∈ p.executableOperations) then
              p.executableOperations ++ [id]
            else p.executableOperations } := by
      unfold offer
      rw [hexist]
      split <;> rfl
    rw [List.foldl_cons, ih, hoffer]
    rfl

end Frames

section Invariant

variable {p₀ p : StageProgram} {start : ℕ} {F : List ℕ}

/-- What an unfinished operation makes is not yet available. -/
theorem makes_unavailable (hwf : p₀.WellFormed start) {a t : ℕ} (ha : a ∉ F)
    (ht : t ∈ p₀.graph.makes a) :
    ¬ p₀.graph.Available (p₀.getProduced · = true) (· ∈ F) t := by
  cases hop : p₀.operation a with
  | none =>
    have hmakes : p₀.graph.makes a = [] := by simp only [graph, hop]
    rw [hmakes] at ht
    cases ht
  | some op =>
    rw [graph_makes hop] at ht
    obtain ⟨hmem, hid⟩ := operation_some hop
    rintro (hgiven | ⟨b, hb, hbF, hbt⟩)
    · have hunproduced := (hwf.outputs op hmem t ht).2
      rw [hunproduced] at hgiven
      cases hgiven
    · obtain ⟨op', hop'⟩ := operation_isSome hb
      rw [graph_makes hop'] at hbt
      obtain ⟨hmem', hid'⟩ := operation_some hop'
      have heq := hwf.singleProducer op hmem op' hmem' t ht hbt
      apply ha
      rw [← hid, heq, hid']
      exact hbF

theorem mem_children_iff (hwf : p₀.WellFormed start) (t id : ℕ) :
    id ∈ p₀.tensorChildNodes t ↔ id ∈ p₀.graph.nodes ∧ t ∈ p₀.graph.needs id := by
  rw [(hwf.registered t).mem_iff, List.mem_flatMap]
  constructor
  · rintro ⟨op, hop, hrep⟩
    obtain ⟨hcount, rfl⟩ := List.mem_replicate.mp hrep
    refine ⟨List.mem_map_of_mem hop, ?_⟩
    rw [graph_needs (operation_of_mem hwf.ids hop)]
    exact List.count_pos_iff.mp (Nat.pos_of_ne_zero hcount)
  · rintro ⟨hnode, hneeds⟩
    obtain ⟨op, hop⟩ := operation_isSome hnode
    rw [graph_needs hop] at hneeds
    obtain ⟨hmem, rfl⟩ := operation_some hop
    have hcount : op.inputs.count t ≠ 0 := (List.count_pos_iff.mpr hneeds).ne'
    exact ⟨op, hmem, List.mem_replicate.mpr ⟨hcount, rfl⟩⟩

theorem children_start_nodup (hwf : p₀.WellFormed start) :
    (p₀.tensorChildNodes start).Nodup := by
  rw [(hwf.registered start).nodup_iff, List.nodup_flatMap]
  constructor
  · intro op hop
    exact List.nodup_replicate.mpr (hwf.startOnce op hop)
  · have hpair : p₀.opMap.Pairwise fun a b => a.id ≠ b.id := List.pairwise_map.mp hwf.ids
    refine hpair.imp ?_
    intro a b hab x hxa hxb
    exact hab ((List.eq_of_mem_replicate hxa).symm.trans (List.eq_of_mem_replicate hxb))

theorem tracks_init (hwf : p₀.WellFormed start) :
    Tracks p₀ (p₀.findExecutableNode start) [] := by
  have hops : p₀.opMap = p₀.opMap.map (markFinished []) := by
    have hsame : p₀.opMap.map (markFinished []) = p₀.opMap.map id := by
      apply List.map_congr_left
      intro op hop
      have hfinish := hwf.unfinished op hop
      cases op
      simp only [markFinished] at hfinish ⊢
      simp [hfinish]
    rw [hsame, List.map_id]
  have hproduced : ∀ t, p₀.getProduced t = true ↔
      p₀.graph.Available (p₀.getProduced · = true) (· ∈ ([] : List ℕ)) t := by
    simp [Dataflow.Available]
  have hexec : (p₀.findExecutableNode start).executableOperations =
      (p₀.tensorChildNodes start).filter p₀.checkExecutable := by
    simp [findExecutableNode, hwf.idle]
  refine ⟨hops, fun _ => rfl, rfl, hproduced, by simp, ?_, ?_⟩
  · rw [hexec]
    exact (children_start_nodup hwf).filter _
  · intro id
    rw [hexec, List.mem_filter, mem_children_iff hwf, checkExecutable_iff hops hproduced]
    constructor
    · rintro ⟨⟨hnode, -⟩, -, havailable⟩
      exact ⟨hnode, by simp, havailable⟩
    · rintro ⟨hnode, -, havailable⟩
      refine ⟨⟨hnode, ?_⟩, hnode, havailable⟩
      -- an operation fed by another one cannot start yet, so `id` is an entry operation
      obtain ⟨op, hop⟩ := operation_isSome hnode
      obtain ⟨hmem, -⟩ := operation_some hop
      rw [graph_needs hop] at havailable ⊢
      rcases hwf.entry op hmem with ⟨hstart, -⟩ | ⟨t, ht, a, ha, hat⟩
      · exact hstart
      · have hmakes : t ∈ p₀.graph.makes a.id := by
          rw [graph_makes (operation_of_mem hwf.ids ha)]
          exact hat
        exact absurd (havailable t ht) (makes_unavailable hwf (by simp) hmakes)

theorem markFinished_cons (a : ℕ) (F : List ℕ) (op : Operation) :
    (if (markFinished F op).id = a then { markFinished F op with finish := true }
      else markFinished F op) = markFinished (a :: F) op := by
  by_cases h : op.id = a
  · simp [markFinished, h]
  · simp [markFinished, h]

/-- The children of an operation are its consumers. -/
theorem mem_getChildNodes (hwf : p₀.WellFormed start) {q : StageProgram} {a : ℕ}
    {op : Operation} (hop : p₀.operation a = some op)
    (hchildren : ∀ t, q.tensorChildNodes t = p₀.tensorChildNodes t) (id : ℕ) :
    id ∈ q.getChildNodes op ↔
      id ∈ p₀.graph.nodes ∧ ∃ t ∈ p₀.graph.makes a, t ∈ p₀.graph.needs id := by
  simp only [getChildNodes, List.mem_flatMap, hchildren, mem_children_iff hwf, graph_makes hop]
  constructor
  · rintro ⟨t, ht, hnode, hneeds⟩
    exact ⟨hnode, t, ht, hneeds⟩
  · rintro ⟨hnode, t, ht, hneeds⟩
    exact ⟨t, ht, hnode, hneeds⟩

theorem setFinish_ops (op : Operation) (hops : p.opMap = p₀.opMap.map (markFinished F)) :
    (p.setFinish op).opMap = p₀.opMap.map (markFinished (op.id :: F)) := by
  have hfold := (foldl_setProduced op.outputs p).1
  simp only [setFinish, hfold, hops, List.map_map]
  apply List.map_congr_left
  intro o _
  exact markFinished_cons op.id F o

/-- What `set_finish` and the erasure leave: `a` is finished, its outputs are produced, and
the list has lost `a`. -/
theorem finished_core (hwf : p₀.WellFormed start) (h : Tracks p₀ p F) {op : Operation}
    (hop : op ∈ p₀.opMap) :
    (∀ t, (p.setFinish (markFinished F op)).tensorChildNodes t = p₀.tensorChildNodes t) ∧
      (p.setFinish (markFinished F op)).tensors.length = p₀.tensors.length ∧
      (p.setFinish (markFinished F op)).executableOperations = p.executableOperations ∧
      ∀ t, (p.setFinish (markFinished F op)).getProduced t = true ↔
        p₀.graph.Available (p₀.getProduced · = true) (fun m => m ∈ F ∨ m = op.id) t := by
  obtain ⟨-, hexec, hlen, hchildren, hproduced⟩ := foldl_setProduced op.outputs p
  have hnode : op.id ∈ p₀.graph.nodes := List.mem_map_of_mem hop
  refine ⟨fun t => (hchildren t).trans (h.children t), hlen.trans h.heap, hexec, ?_⟩
  intro t
  have hset : (p.setFinish (markFinished F op)).getProduced t =
      (op.outputs.foldl setProduced p).getProduced t := rfl
  rw [hset, hproduced t, h.produced t, h.heap, Dataflow.available_finish hnode,
    graph_makes (operation_of_mem hwf.ids hop)]
  constructor
  · rintro (havailable | ⟨hout, -⟩)
    · exact Or.inl havailable
    · exact Or.inr hout
  · rintro (havailable | hout)
    · exact Or.inl havailable
    · exact Or.inr ⟨hout, (hwf.outputs op hop t hout).1⟩

/-- Finishing an executable operation succeeds and keeps the list the ready set. -/
theorem tracks_finishOperation (hwf : p₀.WellFormed start) (h : Tracks p₀ p F) {a : ℕ}
    (ha : a ∈ p.executableOperations) :
    ∃ q, p.finishOperation a = .ok q ∧ Tracks p₀ q (a :: F) := by
  obtain ⟨hnode, haF, hneeds⟩ := (h.ready a).mp ha
  obtain ⟨op, hop⟩ := operation_isSome hnode
  obtain ⟨hmem, rfl⟩ := operation_some hop
  have hlookup : p.operation op.id = some (markFinished F op) := by
    rw [operation_map (f := markFinished F) (fun _ => rfl) h.ops, hop]
    rfl
  obtain ⟨hchildren, hlen, hexec, hproduced⟩ := finished_core hwf h hmem
  have hops := setFinish_ops (markFinished F op) h.ops
  have hdone : (fun m => m ∈ op.id :: F) = fun m => m ∈ F ∨ m = op.id := by
    funext m
    rw [List.mem_cons, or_comm]
  -- the state in which the children are offered
  generalize hq : p.setFinish (markFinished F op) = q at hchildren hlen hexec hproduced hops
  have hfinish : p.finishOperation op.id = .ok
      { q with
        executableOperations :=
          Dataflow.pushNew q.checkExecutable (p.executableOperations.erase op.id)
            (q.getChildNodes op) } := by
    simp only [finishOperation, hlookup, hq, hexec]
    rw [foldl_offer]
    rfl
  have herase : (p.executableOperations.erase op.id).Nodup := h.nodup.erase _
  refine ⟨_, hfinish, hops, hchildren, hlen, ?_, ?_, Dataflow.pushNew_nodup _ _ herase, ?_⟩
  · intro t
    rw [hdone]
    exact hproduced t
  · intro n hn t ht
    rw [hdone]
    apply Dataflow.available_mono (fun _ => Or.inl)
    rcases List.mem_cons.mp hn with rfl | hn
    · exact hneeds t ht
    · exact h.consumed n hn t ht
  · intro id
    rw [hdone, Dataflow.ready_finish, Dataflow.mem_pushNew, h.nodup.mem_erase_iff, h.ready id,
      mem_getChildNodes hwf hop hchildren, checkExecutable_iff hops hproduced]
    constructor
    · rintro (⟨hne, hready⟩ | ⟨⟨hid, t, hmakes, ht⟩, -, havailable⟩)
      · exact ⟨hne, Or.inl hready⟩
      · -- a consumer of the operation is neither finished nor the operation itself
        have hunavailable := makes_unavailable hwf haF hmakes
        have hidF : id ∉ F := fun hF => hunavailable (h.consumed id hF t ht)
        have hne : id ≠ op.id := by
          rintro rfl
          exact hunavailable (hneeds t ht)
        refine ⟨hne, Or.inr ⟨⟨t, hmakes, ht⟩, hid, ?_, havailable⟩⟩
        rintro (hF | heq)
        · exact hidF hF
        · exact hne heq
    · rintro ⟨hne, hready | ⟨hconsumes, hid, -, havailable⟩⟩
      · exact Or.inl ⟨hne, hready⟩
      · exact Or.inr ⟨⟨hid, hconsumes⟩, hid, havailable⟩

theorem reachable_tracks (hwf : p₀.WellFormed start) (h : Reachable p₀ start p) :
    ∃ F, Tracks p₀ p F := by
  induction h with
  | init => exact ⟨[], tracks_init hwf⟩
  | @finish p q id _ hid hfinish ih =>
    obtain ⟨F, hF⟩ := ih
    obtain ⟨r, hr, htracks⟩ := tracks_finishOperation hwf hF hid
    rw [hr] at hfinish
    cases hfinish
    exact ⟨id :: F, htracks⟩

theorem tracks_mem (hwf : p₀.WellFormed start) (h : Tracks p₀ p F) {op : Operation} :
    op ∈ p.opMap ↔
      ∃ a, p₀.operation a.id = some a ∧ a ∈ p₀.opMap ∧ op = markFinished F a := by
  rw [h.ops, List.mem_map]
  constructor
  · rintro ⟨a, ha, rfl⟩
    exact ⟨a, operation_of_mem hwf.ids ha, ha, rfl⟩
  · rintro ⟨a, -, ha, rfl⟩
    exact ⟨a, ha, rfl⟩

/-- The ready set in the terms of the program: unfinished, with all inputs produced. -/
theorem tracks_executable_iff (hwf : p₀.WellFormed start) (h : Tracks p₀ p F) (id : ℕ) :
    id ∈ p.executableOperations ↔ ∃ op ∈ p.opMap, op.id = id ∧ op.finish = false ∧
      ∀ t ∈ op.inputs, p.getProduced t = true := by
  rw [h.ready id]
  constructor
  · rintro ⟨hnode, hidF, hneeds⟩
    obtain ⟨op, hop⟩ := operation_isSome hnode
    obtain ⟨hmem, rfl⟩ := operation_some hop
    rw [graph_needs hop] at hneeds
    refine ⟨markFinished F op, (tracks_mem hwf h).mpr ⟨op, hop, hmem, rfl⟩, rfl, ?_, ?_⟩
    · exact decide_eq_false hidF
    · exact fun t ht => (h.produced t).mpr (hneeds t ht)
  · rintro ⟨op, hop, rfl, hfinish, hinputs⟩
    obtain ⟨a, hlookup, hmem, rfl⟩ := (tracks_mem hwf h).mp hop
    have hnode : a.id ∈ p₀.graph.nodes := List.mem_map_of_mem hmem
    refine ⟨hnode, of_decide_eq_false hfinish, ?_⟩
    have hneeds : p₀.graph.needs a.id = a.inputs := graph_needs hlookup
    intro t ht
    exact (h.produced t).mp (hinputs t (hneeds ▸ ht))

theorem tracks_producers_finished (hwf : p₀.WellFormed start) (h : Tracks p₀ p F)
    {op a : Operation} (hop : op ∈ p.opMap) (hexec : op.id ∈ p.executableOperations)
    (ha : a ∈ p.opMap) {t : ℕ} (ht : t ∈ op.inputs) (hat : t ∈ a.outputs) :
    a.finish = true := by
  obtain ⟨-, -, hneeds⟩ := (h.ready op.id).mp hexec
  obtain ⟨op₀, hlookup, -, rfl⟩ := (tracks_mem hwf h).mp hop
  obtain ⟨a₀, hlookup', -, rfl⟩ := (tracks_mem hwf h).mp ha
  have havailable := hneeds t ((graph_needs hlookup).symm ▸ ht)
  by_contra hunfinished
  have haF : a₀.id ∉ F := fun hF => hunfinished (decide_eq_true hF)
  exact makes_unavailable hwf haF ((graph_makes hlookup').symm ▸ hat) havailable

/-- Until every operation has finished some operation is executable. -/
theorem tracks_executable_ne_nil (hwf : p₀.WellFormed start) (hext : p₀.ExternalsProduced)
    (h : Tracks p₀ p F) (hcheck : p.checkFinish = false) : p.executableOperations ≠ [] := by
  obtain ⟨op, hop, hunfinished⟩ := List.all_eq_false.mp hcheck
  obtain ⟨a, hlookup, hmem, rfl⟩ := (tracks_mem hwf h).mp hop
  have haF : a.id ∉ F := fun hF => hunfinished (decide_eq_true hF)
  have hsupplied : p₀.graph.Supplied (p₀.getProduced · = true) := by
    intro n hn t ht
    obtain ⟨b, hb⟩ := operation_isSome hn
    obtain ⟨hbmem, rfl⟩ := operation_some hb
    rw [graph_needs hb] at ht
    rcases hext b hbmem t ht with hproduced | ⟨c, hc, hct⟩
    · exact Or.inl hproduced
    · refine Or.inr ⟨c.id, List.mem_map_of_mem hc, ?_⟩
      rw [graph_makes (operation_of_mem hwf.ids hc)]
      exact hct
  have hnode : a.id ∈ p₀.graph.nodes := List.mem_map_of_mem hmem
  obtain ⟨m, hm⟩ : ∃ m, p₀.graph.Ready (p₀.getProduced · = true) (· ∈ F) m :=
    Dataflow.exists_ready hwf.acyclic hsupplied hnode haF
  exact List.ne_nil_of_mem ((h.ready m).mpr hm)

/-- Finishing sets the flag of one operation and changes no other. -/
theorem finishOperation_ops {q : StageProgram} {id : ℕ} (h : p.finishOperation id = .ok q) :
    q.opMap = p.opMap.map fun op => if op.id = id then { op with finish := true } else op := by
  unfold finishOperation at h
  split at h
  next => cases h
  next op hop =>
    cases h
    rw [foldl_offer]
    have hid := (operation_some hop).2
    have hfold := (foldl_setProduced op.outputs p).1
    simp only [setFinish, hfold, hid]

end Invariant

end NewPims.StageProgram

import NewPims.StageProgram.Executable

/-! Graphs built by adding one operation after another are well formed: an operation is added
after the ones that make its inputs. -/
namespace NewPims.StageProgram

/-- The tensor is an output of an operation of the program. -/
def Made (p : StageProgram) (t : ℕ) : Prop := ∃ a ∈ p.opMap, t ∈ a.outputs

/-- A graph under construction, with the tensor `start` already in it. -/
structure Built (p : StageProgram) (start : ℕ) : Prop where
  ids : (p.opMap.map (·.id)).Nodup
  fresh : ∀ op ∈ p.opMap, op.id < p.nextId
  registered : ∀ t, p.tensorChildNodes t =
    p.opMap.flatMap fun op => List.replicate (op.inputs.count t) op.id
  unfinished : ∀ op ∈ p.opMap, op.finish = false
  inputs : ∀ op ∈ p.opMap, ∀ t ∈ op.inputs, t < p.tensors.length
  outputs : ∀ op ∈ p.opMap, ∀ t ∈ op.outputs, t < p.tensors.length ∧ p.getProduced t = false
  ordered : ∀ a ∈ p.opMap, ∀ b ∈ p.opMap, ∀ t ∈ a.outputs, t ∈ b.inputs → a.id < b.id
  singleProducer : ∀ a ∈ p.opMap, ∀ b ∈ p.opMap, ∀ t ∈ a.outputs, t ∈ b.outputs → a = b
  startProduced : p.getProduced start = true
  startOnce : ∀ op ∈ p.opMap, op.inputs.count start ≤ 1
  entry : ∀ op ∈ p.opMap,
    (start ∈ op.inputs ∧ ∀ t ∈ op.inputs, p.getProduced t = true) ∨ ∃ t ∈ op.inputs, p.Made t
  externals : ∀ op ∈ p.opMap, ∀ t ∈ op.inputs, p.getProduced t = true ∨ p.Made t
  idle : p.executableOperations = []

variable {p : StageProgram} {start : ℕ} {gen : TileGen}

theorem built_wellFormed (h : Built p start) : p.WellFormed start where
  ids := h.ids
  registered t := List.Perm.of_eq (h.registered t)
  unfinished := h.unfinished
  outputs := h.outputs
  acyclic := by
    apply Dataflow.acyclic_of_lt _ id
    rintro a b ⟨ha, hb, t, hmakes, hneeds⟩
    obtain ⟨opa, hopa⟩ := operation_isSome ha
    obtain ⟨opb, hopb⟩ := operation_isSome hb
    rw [graph_makes hopa] at hmakes
    rw [graph_needs hopb] at hneeds
    obtain ⟨hmema, rfl⟩ := operation_some hopa
    obtain ⟨hmemb, rfl⟩ := operation_some hopb
    exact h.ordered opa hmema opb hmemb t hmakes hneeds
  singleProducer := h.singleProducer
  startOnce := h.startOnce
  entry := h.entry
  idle := h.idle

theorem built_made (h : Built p start) {t : ℕ} (ht : p.Made t) :
    t < p.tensors.length ∧ t ≠ start := by
  obtain ⟨a, ha, hat⟩ := ht
  obtain ⟨hlt, hunproduced⟩ := h.outputs a ha t hat
  refine ⟨hlt, ?_⟩
  rintro rfl
  rw [h.startProduced] at hunproduced
  cases hunproduced

section Tensors

theorem produced_lt {t : ℕ} (h : p.getProduced t = true) : t < p.tensors.length := by
  unfold getProduced at h
  by_contra hlt
  rw [List.getElem?_eq_none (Nat.not_lt.mp hlt)] at h
  cases h

theorem children_out_of_range {t : ℕ} (h : p.tensors.length ≤ t) : p.tensorChildNodes t = [] := by
  unfold tensorChildNodes
  rw [List.getElem?_eq_none h]

/-- Appending tensors without children changes no child list. -/
theorem append_children (p : StageProgram) (ts : List BTensor)
    (hts : ∀ x ∈ ts, x.childNodes = []) (t : ℕ) :
    ({ p with tensors := p.tensors ++ ts } : StageProgram).tensorChildNodes t =
      p.tensorChildNodes t := by
  by_cases hlt : t < p.tensors.length
  · simp only [tensorChildNodes, List.getElem?_append_left hlt]
  · have hle := Nat.not_lt.mp hlt
    rw [children_out_of_range hle]
    simp only [tensorChildNodes, List.getElem?_append_right hle]
    cases hx : ts[t - p.tensors.length]? with
    | none => rfl
    | some x => exact hts x (List.mem_of_getElem? hx)

/-- Appending unproduced tensors changes no produced flag. -/
theorem append_produced (p : StageProgram) (ts : List BTensor)
    (hts : ∀ x ∈ ts, x.produced = false) (t : ℕ) :
    ({ p with tensors := p.tensors ++ ts } : StageProgram).getProduced t = p.getProduced t := by
  by_cases hlt : t < p.tensors.length
  · simp only [getProduced, List.getElem?_append_left hlt]
  · have hle := Nat.not_lt.mp hlt
    simp only [getProduced, List.getElem?_append_right hle, List.getElem?_eq_none hle]
    cases hx : ts[t - p.tensors.length]? with
    | none => rfl
    | some x => exact hts x (List.mem_of_getElem? hx)

@[simp]
theorem makeTensor_children (p : StageProgram) (name : String) (t : ℕ) :
    (p.makeTensor name).tensorChildNodes t = p.tensorChildNodes t :=
  append_children p _ (by simp) t

theorem makeTensor_produced (p : StageProgram) (name : String) (t : ℕ) :
    (p.makeTensor name).getProduced t = true ↔
      p.getProduced t = true ∨ t = p.tensors.length := by
  unfold makeTensor
  rcases Nat.lt_trichotomy t p.tensors.length with hlt | rfl | hgt
  · have hne : t ≠ p.tensors.length := hlt.ne
    simp [getProduced, List.getElem?_append_left hlt, hne]
  · simp [getProduced]
  · have hle : p.tensors.length ≤ t := hgt.le
    have hne : t ≠ p.tensors.length := hgt.ne'
    have hpos : t - p.tensors.length ≠ 0 := by omega
    simp [getProduced, List.getElem?_append_right hle, hne, List.getElem?_eq_none hle, hpos]

theorem setAsParentTensor_spec (id : ℕ) (inputs : List ℕ) (p : StageProgram) :
    (p.setAsParentTensor id inputs).opMap = p.opMap ∧
      (p.setAsParentTensor id inputs).executableOperations = p.executableOperations ∧
      (p.setAsParentTensor id inputs).tensors.length = p.tensors.length ∧
      (∀ t, (p.setAsParentTensor id inputs).getProduced t = p.getProduced t) ∧
      ∀ t < p.tensors.length, (p.setAsParentTensor id inputs).tensorChildNodes t =
        p.tensorChildNodes t ++ List.replicate (inputs.count t) id := by
  induction inputs generalizing p with
  | nil => simp [setAsParentTensor]
  | cons s inputs ih =>
    obtain ⟨hops, hexec, hlen, hproduced, hchildren⟩ := ih (p.addChildNode id s)
    have hlen' : (p.addChildNode id s).tensors.length = p.tensors.length := by
      simp [addChildNode]
    refine ⟨hops, hexec, hlen.trans hlen', ?_, ?_⟩
    · intro t
      refine (hproduced t).trans ?_
      simp only [getProduced, addChildNode, List.getElem?_modify]
      cases p.tensors[t]? with
      | none => rfl
      | some x => by_cases hs : s = t <;> simp [hs]
    · intro t ht
      refine (hchildren t (hlen'.symm ▸ ht)).trans ?_
      have hadd : (p.addChildNode id s).tensorChildNodes t =
          p.tensorChildNodes t ++ if s = t then [id] else [] := by
        simp only [tensorChildNodes, addChildNode, List.getElem?_modify,
          List.getElem?_eq_getElem ht]
        by_cases hs : s = t <;> simp [hs]
      rw [hadd, List.append_assoc]
      congr 1
      by_cases hs : s = t
      · subst hs
        simp [List.replicate_succ]
      · simp [hs]

end Tensors

section AddOp

theorem addOp_ops (p : StageProgram) (gen : TileGen) (name : String) (inputs : List ℕ) (n : ℕ) :
    (p.addOp gen name inputs n).opMap = p.opMap ++
      [{ id := p.nextId, name, inputs, outputs := p.nextOutputs n,
         tiles := stampTiles p.nextId (gen name) }] := by
  simp only [addOp, (setAsParentTensor_spec p.nextId inputs p).1]

@[simp]
theorem addOp_lastOutputs (p : StageProgram) (gen : TileGen) (name : String)
    (inputs : List ℕ) (n : ℕ) :
    (p.addOp gen name inputs n).lastOutputs = p.nextOutputs n := by
  simp [lastOutputs, addOp_ops]

theorem addOp_length (p : StageProgram) (gen : TileGen) (name : String) (inputs : List ℕ)
    (n : ℕ) : (p.addOp gen name inputs n).tensors.length = p.tensors.length + n := by
  simp [addOp, (setAsParentTensor_spec p.nextId inputs p).2.2.1]

theorem addOp_produced (p : StageProgram) (gen : TileGen) (name : String) (inputs : List ℕ)
    (n t : ℕ) : (p.addOp gen name inputs n).getProduced t = p.getProduced t := by
  have hparents := (setAsParentTensor_spec p.nextId inputs p).2.2.2.1 t
  have happend := append_produced (p.setAsParentTensor p.nextId inputs)
    (List.replicate n { name := name ++ "_output", produced := false }) (by simp) t
  exact happend.trans hparents

theorem addOp_children (p : StageProgram) (gen : TileGen) (name : String) {inputs : List ℕ}
    (hrange : ∀ t ∈ inputs, t < p.tensors.length) (n t : ℕ) :
    (p.addOp gen name inputs n).tensorChildNodes t =
      p.tensorChildNodes t ++ List.replicate (inputs.count t) p.nextId := by
  have hlen := (setAsParentTensor_spec p.nextId inputs p).2.2.1
  have happend := append_children (p.setAsParentTensor p.nextId inputs)
    (List.replicate n { name := name ++ "_output", produced := false }) (by simp) t
  refine happend.trans ?_
  by_cases hlt : t < p.tensors.length
  · exact (setAsParentTensor_spec p.nextId inputs p).2.2.2.2 t hlt
  · have hle := Nat.not_lt.mp hlt
    have hcount : inputs.count t = 0 :=
      List.count_eq_zero.mpr fun ht => absurd (hrange t ht) hlt
    rw [children_out_of_range hle, children_out_of_range (hlen.symm ▸ hle), hcount]
    rfl

theorem mem_nextOutputs {n t : ℕ} :
    t ∈ p.nextOutputs n ↔ p.tensors.length ≤ t ∧ t < p.tensors.length + n := by
  simp only [nextOutputs, List.mem_map, List.mem_range]
  constructor
  · rintro ⟨i, hi, rfl⟩
    omega
  · rintro ⟨hle, hlt⟩
    exact ⟨t - p.tensors.length, by omega, by omega⟩

theorem made_addOp (gen : TileGen) (name : String) (inputs : List ℕ) (n : ℕ) {t : ℕ} :
    (p.addOp gen name inputs n).Made t ↔ p.Made t ∨ t ∈ p.nextOutputs n := by
  simp only [Made, addOp_ops, List.mem_append, List.mem_singleton]
  constructor
  · rintro ⟨a, ha | rfl, hat⟩
    · exact Or.inl ⟨a, ha, hat⟩
    · exact Or.inr hat
  · rintro (⟨a, ha, hat⟩ | ht)
    · exact ⟨a, Or.inl ha, hat⟩
    · exact ⟨_, Or.inr rfl, ht⟩

/-- An operation whose inputs exist, and are given at the start or made by earlier
operations, extends the graph. -/
theorem built_addOp (h : Built p start) (gen : TileGen) (name : String) {inputs : List ℕ}
    (n : ℕ) (hrange : ∀ t ∈ inputs, t < p.tensors.length) (hcount : inputs.count start ≤ 1)
    (hentry : (start ∈ inputs ∧ ∀ t ∈ inputs, p.getProduced t = true) ∨ ∃ t ∈ inputs, p.Made t)
    (hexternals : ∀ t ∈ inputs, p.getProduced t = true ∨ p.Made t) :
    Built (p.addOp gen name inputs n) start := by
  -- the new operation, and how membership and tensors change
  obtain ⟨new, hnew⟩ : ∃ new : Operation, new =
      { id := p.nextId, name, inputs, outputs := p.nextOutputs n,
        tiles := stampTiles p.nextId (gen name) } := ⟨_, rfl⟩
  have hops : (p.addOp gen name inputs n).opMap = p.opMap ++ [new] := by
    rw [addOp_ops, hnew]
  have hid : new.id = p.nextId := by rw [hnew]
  have hin : new.inputs = inputs := by rw [hnew]
  have hout : new.outputs = p.nextOutputs n := by rw [hnew]
  have hlen := addOp_length p gen name inputs n
  have hmem : ∀ op, op ∈ (p.addOp gen name inputs n).opMap ↔ op ∈ p.opMap ∨ op = new := by
    intro op
    rw [hops, List.mem_append, List.mem_singleton]
  have hold : ∀ t, p.Made t → t < p.tensors.length := fun t ht => (built_made h ht).1
  constructor
  · rw [hops, List.map_append, List.nodup_append]
    refine ⟨h.ids, by simp, ?_⟩
    intro x hx y hy
    obtain ⟨op, hop, rfl⟩ := List.mem_map.mp hx
    have hy' : y = p.nextId := by simpa [hid] using hy
    have hlt := h.fresh op hop
    omega
  · intro op hop
    have hnext : (p.addOp gen name inputs n).nextId = p.nextId + 1 := rfl
    rw [hnext]
    rcases (hmem op).mp hop with hop | rfl
    · have hlt := h.fresh op hop
      omega
    · omega
  · intro t
    rw [addOp_children p gen name hrange, h.registered t, hops, List.flatMap_append]
    simp [hin, hid]
  · intro op hop
    rcases (hmem op).mp hop with hop | rfl
    · exact h.unfinished op hop
    · rw [hnew]
  · intro op hop t ht
    rw [hlen]
    rcases (hmem op).mp hop with hop | rfl
    · have hlt := h.inputs op hop t ht
      omega
    · rw [hin] at ht
      have hlt := hrange t ht
      omega
  · intro op hop t ht
    rw [hlen, addOp_produced]
    rcases (hmem op).mp hop with hop | rfl
    · obtain ⟨hlt, hunproduced⟩ := h.outputs op hop t ht
      exact ⟨by omega, hunproduced⟩
    · rw [hout] at ht
      obtain ⟨hle, hlt⟩ := mem_nextOutputs.mp ht
      refine ⟨hlt, ?_⟩
      cases hproduced : p.getProduced t with
      | false => rfl
      | true => exact absurd (produced_lt hproduced) (by omega)
  · intro a ha b hb t hta htb
    rcases (hmem a).mp ha with ha | rfl
    · rcases (hmem b).mp hb with hb | rfl
      · exact h.ordered a ha b hb t hta htb
      · rw [hid]
        exact h.fresh a ha
    · -- the outputs of the new operation are new, so nothing consumes them yet
      rw [hout] at hta
      have hge := (mem_nextOutputs.mp hta).1
      rcases (hmem b).mp hb with hb | rfl
      · have hlt := h.inputs b hb t htb
        omega
      · rw [hin] at htb
        have hlt := hrange t htb
        omega
  · intro a ha b hb t hta htb
    rcases (hmem a).mp ha with ha | rfl
    · rcases (hmem b).mp hb with hb | rfl
      · exact h.singleProducer a ha b hb t hta htb
      · rw [hout] at htb
        have hge := (mem_nextOutputs.mp htb).1
        have hlt := hold t ⟨a, ha, hta⟩
        omega
    · rcases (hmem b).mp hb with hb | rfl
      · rw [hout] at hta
        have hge := (mem_nextOutputs.mp hta).1
        have hlt := hold t ⟨b, hb, htb⟩
        omega
      · rfl
  · rw [addOp_produced]
    exact h.startProduced
  · intro op hop
    rcases (hmem op).mp hop with hop | rfl
    · exact h.startOnce op hop
    · rw [hin]
      exact hcount
  · intro op hop
    simp only [addOp_produced, made_addOp]
    rcases (hmem op).mp hop with hop | rfl
    · rcases h.entry op hop with hstart | ⟨t, ht, hmade⟩
      · exact Or.inl hstart
      · exact Or.inr ⟨t, ht, Or.inl hmade⟩
    · rw [hin]
      rcases hentry with hstart | ⟨t, ht, hmade⟩
      · exact Or.inl hstart
      · exact Or.inr ⟨t, ht, Or.inl hmade⟩
  · intro op hop t ht
    simp only [addOp_produced, made_addOp]
    have hsource : p.getProduced t = true ∨ p.Made t := by
      rcases (hmem op).mp hop with hop | rfl
      · exact h.externals op hop t ht
      · exact hexternals t (hin ▸ ht)
    rcases hsource with hproduced | hmade
    · exact Or.inl hproduced
    · exact Or.inr (Or.inl hmade)
  · have hexec : (p.addOp gen name inputs n).executableOperations = p.executableOperations :=
      (setAsParentTensor_spec p.nextId inputs p).2.1
    rw [hexec]
    exact h.idle

/-- The first operation of a chain takes the start tensor. -/
theorem built_addOp_start (h : Built p start) (gen : TileGen) (name : String) (n : ℕ) :
    Built (p.addOp gen name [start] n) start := by
  have hstart := h.startProduced
  apply built_addOp h
  · intro t ht
    rw [List.mem_singleton.mp ht]
    exact produced_lt hstart
  · simp
  · refine Or.inl ⟨List.mem_singleton_self start, ?_⟩
    intro t ht
    rw [List.mem_singleton.mp ht]
    exact hstart
  · intro t ht
    rw [List.mem_singleton.mp ht]
    exact Or.inl hstart

theorem lastOutputs_made {t : ℕ} (ht : t ∈ p.lastOutputs) : p.Made t := by
  unfold lastOutputs at ht
  split at ht
  next op hop => exact ⟨op, List.mem_of_getLast? hop, ht⟩
  next => cases ht

/-- A later operation takes the outputs of the operation before it, and possibly tensors that
exist already. -/
theorem built_addOp_next (h : Built p start) (gen : TileGen) (name : String) (n : ℕ)
    (extra : List ℕ) (hlast : p.lastOutputs ≠ [])
    (hextra : ∀ t ∈ extra, t ≠ start ∧ (p.getProduced t = true ∨ p.Made t)) :
    Built (p.addOp gen name (p.lastOutputs ++ extra) n) start := by
  have hsource : ∀ t ∈ p.lastOutputs ++ extra,
      t ≠ start ∧ (p.getProduced t = true ∨ p.Made t) := by
    intro t ht
    rcases List.mem_append.mp ht with ht | ht
    · have hmade := lastOutputs_made ht
      exact ⟨(built_made h hmade).2, Or.inr hmade⟩
    · exact hextra t ht
  apply built_addOp h
  · intro t ht
    rcases (hsource t ht).2 with hproduced | hmade
    · exact produced_lt hproduced
    · exact (built_made h hmade).1
  · have hnot : start ∉ p.lastOutputs ++ extra := fun hmem => (hsource start hmem).1 rfl
    rw [List.count_eq_zero.mpr hnot]
    exact Nat.zero_le 1
  · obtain ⟨t, ht⟩ := List.exists_mem_of_ne_nil _ hlast
    exact Or.inr ⟨t, List.mem_append_left _ ht, lastOutputs_made ht⟩
  · exact fun t ht => (hsource t ht).2

theorem built_makeTensor (h : Built p start) (name : String) :
    Built (p.makeTensor name) start := by
  have hops : (p.makeTensor name).opMap = p.opMap := rfl
  have hlen : (p.makeTensor name).tensors.length = p.tensors.length + 1 := by
    simp [makeTensor]
  have hmono : ∀ t, p.getProduced t = true → (p.makeTensor name).getProduced t = true :=
    fun t ht => (makeTensor_produced p name t).mpr (Or.inl ht)
  refine ⟨h.ids, h.fresh, ?_, h.unfinished, ?_, ?_, h.ordered, h.singleProducer,
    hmono start h.startProduced, h.startOnce, ?_, ?_, h.idle⟩
  · intro t
    rw [makeTensor_children]
    exact h.registered t
  · intro op hop t ht
    have hlt := h.inputs op hop t ht
    omega
  · intro op hop t ht
    obtain ⟨hlt, hunproduced⟩ := h.outputs op hop t ht
    refine ⟨by omega, ?_⟩
    cases hproduced : (p.makeTensor name).getProduced t with
    | false => rfl
    | true =>
      rcases (makeTensor_produced p name t).mp hproduced with hproduced | hnew
      · rw [hunproduced] at hproduced
        cases hproduced
      · omega
  · intro op hop
    rcases h.entry op hop with ⟨hstart, hall⟩ | hmade
    · exact Or.inl ⟨hstart, fun t ht => hmono t (hall t ht)⟩
    · exact Or.inr hmade
  · intro op hop t ht
    rcases h.externals op hop t ht with hproduced | hmade
    · exact Or.inl (hmono t hproduced)
    · exact Or.inr hmade

end AddOp

end NewPims.StageProgram

import NewPims.StageProgram.Built

/-! The programs of the stages: their graphs are well formed, so that the executable list
never runs dry before the program has finished. -/
namespace NewPims.StageProgram

variable {p : StageProgram} {start : ℕ} {gen : TileGen}

/-- A program without operations whose tensors are all produced and have no children. -/
structure Blank (p : StageProgram) : Prop where
  ops : p.opMap = []
  children : ∀ t, p.tensorChildNodes t = []
  produced : ∀ t < p.tensors.length, p.getProduced t = true
  idle : p.executableOperations = []

theorem blank_built (h : Blank p) (hstart : start < p.tensors.length) : Built p start := by
  have hnone : ∀ op, op ∉ p.opMap := by
    intro op
    rw [h.ops]
    exact List.not_mem_nil
  refine ⟨by simp [h.ops], fun op hop => absurd hop (hnone op), ?_,
    fun op hop => absurd hop (hnone op), fun op hop => absurd hop (hnone op),
    fun op hop => absurd hop (hnone op), fun op hop => absurd hop (hnone op),
    fun op hop => absurd hop (hnone op), h.produced start hstart,
    fun op hop => absurd hop (hnone op), fun op hop => absurd hop (hnone op),
    fun op hop => absurd hop (hnone op), h.idle⟩
  intro t
  rw [h.children t, h.ops]
  rfl

theorem blank_makeTensor (h : Blank p) (name : String) : Blank (p.makeTensor name) := by
  refine ⟨h.ops, fun t => (makeTensor_children p name t).trans (h.children t), ?_, h.idle⟩
  intro t ht
  rw [makeTensor_produced]
  have hlen : (p.makeTensor name).tensors.length = p.tensors.length + 1 := by
    simp [makeTensor]
  rcases Nat.lt_or_ge t p.tensors.length with hlt | hge
  · exact Or.inl (h.produced t hlt)
  · exact Or.inr (by omega)

theorem blank_makeTensors (names : List String) {p : StageProgram} (h : Blank p) :
    Blank (p.makeTensors names) ∧
      (p.makeTensors names).tensors.length = p.tensors.length + names.length := by
  induction names generalizing p with
  | nil => exact ⟨h, rfl⟩
  | cons name names ih =>
    obtain ⟨hblank, hlen⟩ := ih (blank_makeTensor h name)
    refine ⟨hblank, hlen.trans ?_⟩
    simp only [makeTensor, List.length_append, List.length_cons, List.length_nil]
    omega

theorem nextOutputs_ne_nil {n : ℕ} (hn : 0 < n) : p.nextOutputs n ≠ [] := by
  have hmem : p.tensors.length ∈ p.nextOutputs n := mem_nextOutputs.mpr ⟨le_rfl, by omega⟩
  exact List.ne_nil_of_mem hmem

theorem addOp_lastOutputs_ne_nil (gen : TileGen) (name : String) (inputs : List ℕ) :
    (p.addOp gen name inputs 1).lastOutputs ≠ [] := by
  rw [addOp_lastOutputs]
  exact nextOutputs_ne_nil Nat.one_pos

theorem made_addOp_mono (gen : TileGen) (name : String) (inputs : List ℕ) (n : ℕ) {t : ℕ}
    (ht : p.Made t) : (p.addOp gen name inputs n).Made t :=
  (made_addOp gen name inputs n).mpr (Or.inl ht)

theorem built_addOp_chain (h : Built p start) (gen : TileGen) (name : String)
    (hlast : p.lastOutputs ≠ []) : Built (p.addOp gen name p.lastOutputs 1) start := by
  have hnext := built_addOp_next h gen name 1 [] hlast (by simp)
  rwa [List.append_nil] at hnext

theorem built_projectionBlock (h : Built p start) (gen : TileGen) :
    Built (p.projectionBlock gen [start]) start ∧
      (p.projectionBlock gen [start]).lastOutputs ≠ [] := by
  have hlt := produced_lt h.startProduced
  have hbuf := built_makeTensor h "residual_buffer"
  have hproj := built_addOp_start hbuf gen (nameGen [nameGen ["layer0", "attn"], "proj"]) 1
  refine ⟨built_addOp_next hproj gen _ 1 _ (addOp_lastOutputs_ne_nil _ _ _) ?_,
    addOp_lastOutputs_ne_nil _ _ _⟩
  intro t ht
  rw [List.mem_singleton.mp ht, addOp_produced, makeTensor_produced]
  exact ⟨by omega, Or.inl (Or.inr rfl)⟩

theorem built_ffn1Block (h : Built p start) (gen : TileGen) (hlast : p.lastOutputs ≠ []) :
    Built (p.ffn1Block gen p.lastOutputs) start ∧
      (p.ffn1Block gen p.lastOutputs).lastOutputs ≠ [] := by
  have hln := built_addOp_chain h gen (nameGen [nameGen ["layer0", "ffn"], "ln"]) hlast
  have hfc1 := built_addOp_chain hln gen (nameGen [nameGen ["layer0", "ffn"], "fc1"])
    (addOp_lastOutputs_ne_nil _ _ _)
  have hgelu := built_addOp_chain hfc1 gen (nameGen [nameGen ["layer0", "ffn"], "gelu"])
    (addOp_lastOutputs_ne_nil _ _ _)
  have hfc2 := built_addOp_chain hgelu gen (nameGen [nameGen ["layer0", "ffn"], "fc2"])
    (addOp_lastOutputs_ne_nil _ _ _)
  refine ⟨built_addOp_next hfc2 gen _ 1 _ (addOp_lastOutputs_ne_nil _ _ _) ?_,
    addOp_lastOutputs_ne_nil _ _ _⟩
  -- the residual buffer is what the operation before the block made
  intro t ht
  have hmade : p.Made t := lastOutputs_made (List.mem_of_mem_take ht)
  refine ⟨(built_made h hmade).2, Or.inr ?_⟩
  exact made_addOp_mono _ _ _ _ (made_addOp_mono _ _ _ _
    (made_addOp_mono _ _ _ _ (made_addOp_mono _ _ _ _ hmade)))

theorem built_qkvGenBlock (h : Built p start) (gen : TileGen) {inputs : List ℕ}
    (hinputs : inputs = [start] ∨ inputs = p.lastOutputs ∧ p.lastOutputs ≠ []) :
    Built (p.qkvGenBlock gen inputs) start := by
  have hln : Built (p.addOp gen (nameGen [nameGen ["layer0", "attn"], "ln"]) inputs 1) start := by
    rcases hinputs with rfl | ⟨rfl, hlast⟩
    · exact built_addOp_start h gen _ 1
    · exact built_addOp_chain h gen _ hlast
  exact built_addOp_chain hln gen _ (addOp_lastOutputs_ne_nil _ _ _)

theorem built_saGraph (h : Blank p) (gen : TileGen) :
    Built (p.saGraph gen) p.tensors.length := by
  have hinput : Built (p.makeTensor "input") p.tensors.length := by
    apply blank_built (blank_makeTensor h "input")
    simp [makeTensor]
  simp only [saGraph]
  split_ifs with hproj hqkv hqkv
  · obtain ⟨hblock, hlast⟩ := built_projectionBlock hinput gen
    obtain ⟨hffn, hlast'⟩ := built_ffn1Block hblock gen hlast
    exact built_qkvGenBlock hffn gen (Or.inr ⟨rfl, hlast'⟩)
  · obtain ⟨hblock, hlast⟩ := built_projectionBlock hinput gen
    exact (built_ffn1Block hblock gen hlast).1
  · exact built_qkvGenBlock hinput gen (Or.inl rfl)
  · exact hinput

theorem built_pimGraph (h : Blank p) (gen : TileGen) {reqs : List InferRequest}
    (hreqs : reqs ≠ []) :
    Built (p.pimGraph gen reqs) (p.tensors.length + reqs.length - 1) := by
  have hpos : 0 < reqs.length := List.length_pos_of_ne_nil hreqs
  obtain ⟨hq, hqlen⟩ := blank_makeTensors (reqs.map fun _ => "query") h
  obtain ⟨hk, hklen⟩ := blank_makeTensors
    (reqs.map fun r => nameGen [toString r.id, "KEY", toString 0]) hq
  obtain ⟨hv, hvlen⟩ := blank_makeTensors
    (reqs.map fun r => nameGen [toString r.id, "VALUE", toString 0]) hk
  rw [List.length_map] at hqlen hklen hvlen
  simp only [pimGraph]
  generalize p.makeTensors (reqs.map fun _ => "query") = pq at *
  generalize pq.makeTensors (reqs.map fun r => nameGen [toString r.id, "KEY", toString 0]) = pk
    at *
  generalize pk.makeTensors (reqs.map fun r => nameGen [toString r.id, "VALUE", toString 0]) = pv
    at *
  have hproduced : ∀ t ∈ p.nextOutputs reqs.length ++ pq.nextOutputs reqs.length,
      t < pv.tensors.length ∧ pv.getProduced t = true := by
    intro t ht
    have hlt : t < pv.tensors.length := by
      rcases List.mem_append.mp ht with ht | ht
      · have hlt := (mem_nextOutputs.mp ht).2
        omega
      · have hlt := (mem_nextOutputs.mp ht).2
        omega
    exact ⟨hlt, hv.produced t hlt⟩
  have hlogit : Built (pv.addOp gen
      (nameGen [nameGen ["layer0", "attn"], "NeuPIMSLogitSoftmax"])
      (p.nextOutputs reqs.length ++ pq.nextOutputs reqs.length) reqs.length)
      (p.tensors.length + reqs.length - 1) := by
    apply built_addOp (blank_built hv (by omega))
    · exact fun t ht => (hproduced t ht).1
    · -- the queries and the keys are distinct tensors
      apply List.nodup_iff_count_le_one.mp
      rw [List.nodup_append]
      refine ⟨?_, ?_, ?_⟩
      · exact List.nodup_range.map (fun a b hab => by simpa using hab)
      · exact List.nodup_range.map (fun a b hab => by simpa using hab)
      · intro x hx y hy
        have hxlt := (mem_nextOutputs.mp hx).2
        have hyge := (mem_nextOutputs.mp hy).1
        omega
    · refine Or.inl ⟨List.mem_append_left _ ?_, fun t ht => (hproduced t ht).2⟩
      exact mem_nextOutputs.mpr ⟨by omega, by omega⟩
    · exact fun t ht => Or.inl (hproduced t ht).2
  apply built_addOp_next hlogit
  · rw [addOp_lastOutputs]
    exact nextOutputs_ne_nil hpos
  · intro t ht
    obtain ⟨hge, hlt⟩ := mem_nextOutputs.mp ht
    rw [addOp_produced]
    exact ⟨by omega, Or.inl (hv.produced t (by omega))⟩

/-- Every program the constructor makes is either without operations or the result of
looking for executable operations in a well-formed graph that needs nothing from outside. -/
theorem init_wellFormed {stagePlatform : StagePlatform} {stage : Stage}
    {reqs : List InferRequest} {nextId : ℕ}
    (h : init gen stagePlatform stage reqs nextId = .ok p) :
    (p.opMap = [] ∧ p.executableOperations = []) ∨
      ∃ (p₀ : StageProgram) (start : ℕ), p₀.WellFormed start ∧ p₀.ExternalsProduced ∧
        p = p₀.findExecutableNode start := by
  have hblank : Blank { stagePlatform, stage, nextId } :=
    ⟨rfl, fun _ => rfl, fun t ht => absurd ht (Nat.not_lt_zero t), rfl⟩
  unfold init at h
  dsimp only at h
  by_cases hstage : stage = .Finish
  · rw [if_pos hstage] at h
    cases h
  rw [if_neg hstage] at h
  by_cases hempty : reqs.isEmpty = true
  · rw [if_pos hempty] at h
    cases h
    exact Or.inl ⟨rfl, rfl⟩
  rw [if_neg hempty] at h
  have hreqs : reqs ≠ [] := fun hnil => hempty (List.isEmpty_iff.mpr hnil)
  cases stagePlatform with
  | SA =>
    cases h
    have hbuilt := built_saGraph hblank gen
    exact Or.inr ⟨_, _, built_wellFormed hbuilt, hbuilt.externals, rfl⟩
  | PIM =>
    dsimp only at h
    split_ifs at h with hskip
    · cases h
      exact Or.inl ⟨rfl, rfl⟩
    · unfold initPIMProgram at h
      split_ifs at h with hquery
      cases h
      have hbuilt := built_pimGraph hblank gen hreqs
      exact Or.inr ⟨_, _, built_wellFormed hbuilt, hbuilt.externals, rfl⟩

/-- At every point of every order of finishing, the executable list holds once each the
unfinished operations whose inputs are all produced; their producers have finished, they can
be finished, and nothing else changes when they are. If the graph needs no unproduced tensor
from outside, the list is empty only when everything has finished. The programs that the
constructor makes are such graphs. -/
theorem executable_operations_exact :
    (∀ (p₀ : StageProgram) (start : ℕ), p₀.WellFormed start → ∀ p, Reachable p₀ start p →
      p.executableOperations.Nodup ∧
      (∀ id, id ∈ p.executableOperations ↔ ∃ op ∈ p.opMap, op.id = id ∧ op.finish = false ∧
        ∀ t ∈ op.inputs, p.getProduced t = true) ∧
      (∀ op ∈ p.opMap, op.id ∈ p.executableOperations →
        ∀ a ∈ p.opMap, ∀ t ∈ op.inputs, t ∈ a.outputs → a.finish = true) ∧
      (∀ id ∈ p.executableOperations, ∃ q, p.finishOperation id = .ok q ∧
        q.opMap = p.opMap.map fun op => if op.id = id then { op with finish := true } else op) ∧
      (p₀.ExternalsProduced → p.checkFinish = false → p.executableOperations ≠ [])) ∧
    ∀ gen stagePlatform stage reqs nextId p, init gen stagePlatform stage reqs nextId = .ok p →
      (p.opMap = [] ∧ p.executableOperations = []) ∨
        ∃ (p₀ : StageProgram) (start : ℕ), p₀.WellFormed start ∧ p₀.ExternalsProduced ∧
          p = p₀.findExecutableNode start := by
  refine ⟨?_, fun gen stagePlatform stage reqs nextId p h => init_wellFormed h⟩
  intro p₀ start hwf p hreach
  obtain ⟨F, h⟩ := reachable_tracks hwf hreach
  refine ⟨h.nodup, tracks_executable_iff hwf h, ?_, ?_, ?_⟩
  · intro op hop hexec a ha t ht hat
    exact tracks_producers_finished hwf h hop hexec ha ht hat
  · intro id hid
    obtain ⟨q, hq, -⟩ := tracks_finishOperation hwf h hid
    exact ⟨q, hq, finishOperation_ops hq⟩
  · exact fun hext hcheck => tracks_executable_ne_nil hwf hext h hcheck

/-- A graph of two operations; `Y` also takes a tensor that nothing produces. -/
def starvedGraph : StageProgram where
  stagePlatform := .SA
  stage := .A
  nextId := 2
  tensors :=
    [{ name := "input", produced := true, childNodes := [0] },
      { name := "X_output", produced := false, childNodes := [1] },
      { name := "cache", produced := false, childNodes := [1] },
      { name := "Y_output", produced := false }]
  opMap :=
    [{ id := 0, name := "X", inputs := [0], outputs := [1], tiles := [] },
      { id := 1, name := "Y", inputs := [1, 2], outputs := [3], tiles := [] }]

theorem starvedGraph_wellFormed : starvedGraph.WellFormed 0 := by
  refine ⟨by decide, ?_, by decide, by decide, ?_, by decide, by decide, ?_, rfl⟩
  · intro t
    match t with
    | 0 | 1 | 2 | 3 => decide
    | t + 4 =>
      have hnone : starvedGraph.tensorChildNodes (t + 4) = [] :=
        children_out_of_range (by simp [starvedGraph])
      rw [hnone]
      simp [starvedGraph]
  · apply Dataflow.acyclic_of_lt _ id
    rintro a b ⟨ha, hb, hfeeds⟩
    have hrange : ∀ c ∈ starvedGraph.graph.nodes, c = 0 ∨ c = 1 := by decide
    rcases hrange a ha with rfl | rfl <;> rcases hrange b hb with rfl | rfl <;> revert hfeeds <;>
      decide
  · decide

/-- An input that no operation makes and that is never produced starves the program: its
list is empty although it has not finished. -/
theorem executable_list_starves : ∃ (p₀ p : StageProgram) (start : ℕ), p₀.WellFormed start ∧
    Reachable p₀ start p ∧ p.checkFinish = false ∧ p.executableOperations = [] := by
  obtain ⟨q, hq, hexec⟩ : ∃ q, (starvedGraph.findExecutableNode 0).finishOperation 0 = .ok q ∧
      q.checkFinish = false ∧ q.executableOperations = [] := ⟨_, rfl, by decide, by decide⟩
  exact ⟨starvedGraph, q, 0, starvedGraph_wellFormed,
    .finish .init (by decide) hq, hexec⟩

/-- In the program of stage A the layer norm may start first. -/
theorem executable_operations_exact_stageA :
    (({ stagePlatform := .SA, stage := .A, nextId := 0 } : StageProgram).initSAProgram
      fun _ => []).executableOperations ≠ [] := by
  have hbuilt := built_saGraph (p := { stagePlatform := .SA, stage := .A, nextId := 0 })
    ⟨rfl, fun _ => rfl, fun t ht => absurd ht (Nat.not_lt_zero t), rfl⟩ fun _ => []
  exact (executable_operations_exact.1 _ _ (built_wellFormed hbuilt) _ .init).2.2.2.2
    hbuilt.externals (by decide)

end NewPims.StageProgram

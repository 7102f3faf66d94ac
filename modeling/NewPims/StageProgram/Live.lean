import NewPims.StageProgram.Programs

/-! What the scheduler relies on: a program it holds was built by the constructor and has since
only finished executable operations. -/
namespace NewPims.StageProgram

/-- The programs that occur in a run. -/
def Live (p : StageProgram) : Prop :=
  (p.opMap = [] ∧ p.executableOperations = []) ∨
    ∃ (p₀ : StageProgram) (start : ℕ), p₀.WellFormed start ∧ p₀.ExternalsProduced ∧
      Reachable p₀ start p

variable {p q : StageProgram} {gen : TileGen}

theorem live_init {stagePlatform : StagePlatform} {stage : Stage} {reqs : List InferRequest}
    {nextId : ℕ} (h : init gen stagePlatform stage reqs nextId = .ok p) : p.Live := by
  rcases init_wellFormed h with hempty | ⟨p₀, start, hwf, hext, rfl⟩
  · exact Or.inl hempty
  · exact Or.inr ⟨p₀, start, hwf, hext, .init⟩

theorem live_ids (h : p.Live) : (p.opMap.map (·.id)).Nodup := by
  rcases h with ⟨hops, -⟩ | ⟨p₀, start, hwf, -, hreach⟩
  · rw [hops]
    exact List.nodup_nil
  · obtain ⟨F, htracks⟩ := reachable_tracks hwf hreach
    rw [htracks.ops, List.map_map]
    exact hwf.ids

theorem live_executable_unfinished (h : p.Live) {id : ℕ} (hid : id ∈ p.executableOperations) :
    ∃ op ∈ p.opMap, op.id = id ∧ op.finish = false := by
  rcases h with ⟨-, hexec⟩ | ⟨p₀, start, hwf, -, hreach⟩
  · rw [hexec] at hid
    cases hid
  · obtain ⟨F, htracks⟩ := reachable_tracks hwf hreach
    obtain ⟨op, hop, hopid, hfinish, -⟩ := (tracks_executable_iff hwf htracks id).mp hid
    exact ⟨op, hop, hopid, hfinish⟩

/-- The `front()` taken by `refresh_status` is defined unless the program has finished. -/
theorem live_front (h : p.Live) (hcheck : p.checkFinish = false) :
    ∃ op, p.executableOperations.head? = some op.id ∧ p.operation op.id = some op := by
  rcases h with ⟨hops, -⟩ | ⟨p₀, start, hwf, hext, hreach⟩
  · rw [checkFinish, hops] at hcheck
    cases hcheck
  · have hlive : p.Live := Or.inr ⟨p₀, start, hwf, hext, hreach⟩
    obtain ⟨F, htracks⟩ := reachable_tracks hwf hreach
    obtain ⟨id, rest, hexec⟩ :=
      List.exists_cons_of_ne_nil (tracks_executable_ne_nil hwf hext htracks hcheck)
    have hid : id ∈ p.executableOperations := by
      rw [hexec]
      exact List.mem_cons_self
    obtain ⟨op, hop, rfl, -⟩ := live_executable_unfinished hlive hid
    exact ⟨op, by rw [hexec]; rfl, operation_of_mem (live_ids hlive) hop⟩

theorem live_finishOperation (h : p.Live) {id : ℕ} (hid : id ∈ p.executableOperations) :
    ∃ q, p.finishOperation id = .ok q ∧ q.Live ∧
      q.opMap = p.opMap.map fun op => if op.id = id then { op with finish := true } else op := by
  rcases h with ⟨-, hexec⟩ | ⟨p₀, start, hwf, hext, hreach⟩
  · rw [hexec] at hid
    cases hid
  · obtain ⟨F, htracks⟩ := reachable_tracks hwf hreach
    obtain ⟨q, hq, -⟩ := tracks_finishOperation hwf htracks hid
    exact ⟨q, hq, Or.inr ⟨p₀, start, hwf, hext, .finish hreach hid hq⟩, finishOperation_ops hq⟩

section Construction

/-- A property that every step of the constructor keeps. -/
structure Constructive (gen : TileGen) (Inv : StageProgram → Prop) : Prop where
  makeTensor : ∀ (p : StageProgram) (name : String), Inv p → Inv (p.makeTensor name)
  addOp : ∀ (p : StageProgram) (name : String) (inputs : List ℕ) (n : ℕ),
    Inv p → Inv (p.addOp gen name inputs n)
  findExecutableNode : ∀ (p : StageProgram) (t : ℕ), Inv p → Inv (p.findExecutableNode t)

variable {Inv : StageProgram → Prop} (hinv : Constructive gen Inv)

include hinv

theorem constructive_makeTensors (names : List String) (h : Inv p) : Inv (p.makeTensors names) := by
  induction names generalizing p with
  | nil => exact h
  | cons name names ih => exact ih (hinv.makeTensor p name h)

theorem constructive_saGraph (h : Inv p) : Inv (p.saGraph gen) := by
  have hblocks {p : StageProgram} (h : Inv p) (inputs : List ℕ) :
      Inv (p.projectionBlock gen inputs) ∧ Inv (p.ffn1Block gen inputs) ∧
        Inv (p.qkvGenBlock gen inputs) := by
    refine ⟨?_, ?_, ?_⟩
    · exact hinv.addOp _ _ _ _ (hinv.addOp _ _ _ _ (hinv.makeTensor _ _ h))
    · exact hinv.addOp _ _ _ _ (hinv.addOp _ _ _ _ (hinv.addOp _ _ _ _ (hinv.addOp _ _ _ _
        (hinv.addOp _ _ _ _ h))))
    · exact hinv.addOp _ _ _ _ (hinv.addOp _ _ _ _ h)
  have hinput := hinv.makeTensor p "input" h
  simp only [saGraph]
  split_ifs
  · exact (hblocks (hblocks (hblocks hinput _).1 _).2.1 _).2.2
  · exact (hblocks (hblocks hinput _).1 _).2.1
  · exact (hblocks hinput _).2.2
  · exact hinput

theorem constructive_pimGraph (h : Inv p) (reqs : List InferRequest) : Inv (p.pimGraph gen reqs) :=
  hinv.addOp _ _ _ _ (hinv.addOp _ _ _ _ (constructive_makeTensors hinv _
    (constructive_makeTensors hinv _ (constructive_makeTensors hinv _ h))))

/-- What the steps keep holds of every program that the constructor makes. -/
theorem constructive_init {platform : StagePlatform} {stage : Stage} {reqs : List InferRequest}
    {nextId : ℕ} (hblank : Inv { stagePlatform := platform, stage := stage, nextId := nextId })
    (h : init gen platform stage reqs nextId = .ok p) : Inv p := by
  unfold init at h
  dsimp only at h
  by_cases hstage : stage = .Finish
  · rw [if_pos hstage] at h
    cases h
  rw [if_neg hstage] at h
  by_cases hempty : reqs.isEmpty = true
  · rw [if_pos hempty] at h
    cases h
    exact hblank
  rw [if_neg hempty] at h
  cases platform with
  | SA =>
    cases h
    exact hinv.findExecutableNode _ _ (constructive_saGraph hinv hblank)
  | PIM =>
    dsimp only at h
    split_ifs at h with hskip
    · cases h
      exact hblank
    · unfold initPIMProgram at h
      split_ifs at h with hquery
      cases h
      exact hinv.findExecutableNode _ _ (constructive_pimGraph hinv hblank reqs)

end Construction

section Fresh

/-- What the constructor guarantees about the operations: their ids are new, they are
unfinished, and they have stamped their tiles. -/
structure Fresh (lo : ℕ) (platform : StagePlatform) (stage : Stage) (p : StageProgram) :
    Prop where
  platform : p.stagePlatform = platform
  stage : p.stage = stage
  next : lo ≤ p.nextId
  ids : ∀ op ∈ p.opMap, lo ≤ op.id ∧ op.id < p.nextId
  unfinished : ∀ op ∈ p.opMap, op.finish = false
  stamped : ∀ op ∈ p.opMap, ∀ tile ∈ op.tiles,
    tile.operationId = op.id ∧ tile.status = .INITIALIZED

variable {lo : ℕ} {platform : StagePlatform} {stage : Stage}

theorem stampTiles_spec {id : ℕ} {tiles : List Tile} :
    ∀ tile ∈ stampTiles id tiles, tile.operationId = id ∧ tile.status = .INITIALIZED := by
  intro tile htile
  obtain ⟨_, -, rfl⟩ := List.mem_map.mp htile
  exact ⟨rfl, rfl⟩

theorem setAsParentTensor_frame (id : ℕ) (inputs : List ℕ) (p : StageProgram) :
    (p.setAsParentTensor id inputs).stagePlatform = p.stagePlatform ∧
      (p.setAsParentTensor id inputs).stage = p.stage := by
  induction inputs generalizing p with
  | nil => exact ⟨rfl, rfl⟩
  | cons s inputs ih => exact ih (p.addChildNode id s)

theorem fresh_addOp (h : Fresh lo platform stage p) (name : String) (inputs : List ℕ) (n : ℕ) :
    Fresh lo platform stage (p.addOp gen name inputs n) := by
  obtain ⟨hplatform, hstage⟩ := setAsParentTensor_frame p.nextId inputs p
  have hnext : (p.addOp gen name inputs n).nextId = p.nextId + 1 := rfl
  have hlo := h.next
  refine ⟨hplatform.trans h.platform, hstage.trans h.stage, by omega, ?_, ?_, ?_⟩
  · intro op hop
    rw [hnext]
    rw [addOp_ops] at hop
    rcases List.mem_append.mp hop with hop | hop
    · have hids := h.ids op hop
      omega
    · rw [List.mem_singleton.mp hop]
      exact ⟨hlo, Nat.lt_succ_self _⟩
  · intro op hop
    rw [addOp_ops] at hop
    rcases List.mem_append.mp hop with hop | hop
    · exact h.unfinished op hop
    · rw [List.mem_singleton.mp hop]
  · intro op hop
    rw [addOp_ops] at hop
    rcases List.mem_append.mp hop with hop | hop
    · exact h.stamped op hop
    · rw [List.mem_singleton.mp hop]
      exact stampTiles_spec

theorem fresh_constructive : Constructive gen (Fresh lo platform stage) where
  makeTensor _ _ h := ⟨h.platform, h.stage, h.next, h.ids, h.unfinished, h.stamped⟩
  addOp _ name inputs n h := fresh_addOp h name inputs n
  findExecutableNode _ _ h := ⟨h.platform, h.stage, h.next, h.ids, h.unfinished, h.stamped⟩

theorem fresh_init {reqs : List InferRequest}
    (h : init gen platform stage reqs lo = .ok p) : Fresh lo platform stage p := by
  refine constructive_init fresh_constructive ?_ h
  refine ⟨rfl, rfl, le_rfl, ?_, ?_, ?_⟩ <;>
    exact fun op hop => absurd hop List.not_mem_nil

/-- The tiles of an operation are those that its name stands for. -/
theorem init_tiles {reqs : List InferRequest} (h : init gen platform stage reqs lo = .ok p) :
    ∀ op ∈ p.opMap, op.tiles = stampTiles op.id (gen op.name) := by
  have hconstructive : Constructive gen fun p : StageProgram =>
      ∀ op ∈ p.opMap, op.tiles = stampTiles op.id (gen op.name) := by
    refine ⟨fun _ _ h => h, ?_, fun _ _ h => h⟩
    intro p name inputs n hp op hop
    rw [addOp_ops] at hop
    rcases List.mem_append.mp hop with hop | hop
    · exact hp op hop
    · rw [List.mem_singleton.mp hop]
  exact constructive_init hconstructive (fun op hop => absurd hop List.not_mem_nil) h

theorem addOp_ops_ne_nil {name : String} {inputs : List ℕ} {n : ℕ} :
    (p.addOp gen name inputs n).opMap ≠ [] := by
  rw [addOp_ops]
  exact List.append_ne_nil_of_right_ne_nil _ (List.cons_ne_nil _ _)

theorem saGraph_ops_ne_nil (hstage : p.stage ≠ .Finish) : (p.saGraph gen).opMap ≠ [] := by
  simp only [saGraph]
  split_ifs with hproj hqkv hqkv
  · exact addOp_ops_ne_nil
  · exact addOp_ops_ne_nil
  · exact addOp_ops_ne_nil
  · exfalso
    change ¬ enableProjFfns p.stage = true at hproj
    change ¬ enableQkvGen p.stage = true at hqkv
    revert hstage hproj hqkv
    cases p.stage <;> decide

/-- A new program has something to do, unless its platform pauses in the stage. -/
theorem init_unfinished {reqs : List InferRequest} (h : init gen platform stage reqs lo = .ok p)
    (hreqs : reqs ≠ []) (hskip : platform = .PIM → skipPimStage stage = false) :
    p.checkFinish = false := by
  have hfresh := fresh_init h
  have hops : p.opMap ≠ [] := by
    unfold init at h
    dsimp only at h
    by_cases hstage : stage = .Finish
    · rw [if_pos hstage] at h
      cases h
    rw [if_neg hstage, if_neg (mt List.isEmpty_iff.mp hreqs)] at h
    cases platform with
    | SA =>
      cases h
      exact saGraph_ops_ne_nil hstage
    | PIM =>
      dsimp only at h
      rw [hskip rfl, if_neg Bool.false_ne_true] at h
      unfold initPIMProgram at h
      split_ifs at h
      cases h
      exact addOp_ops_ne_nil
  obtain ⟨op, hop⟩ := List.exists_mem_of_ne_nil p.opMap hops
  refine List.all_eq_false.mpr ⟨op, hop, ?_⟩
  rw [hfresh.unfinished op hop]
  exact Bool.false_ne_true

end Fresh

end NewPims.StageProgram

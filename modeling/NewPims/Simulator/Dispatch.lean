import NewPims.NeuPIMSystolicWS.Session
import NewPims.Operations.MatMul.Coverage
import NewPims.Scheduler.Supply

/-! The part of `Simulator::cycle` that issues tiles. The cores take them from the same queues, each
when it has room: a tile that accumulates needs the core that got the tile before it. -/
namespace NewPims

open Transition

/-- The scheduler and the cores. `issued` is not part of the source: it collects the tiles that went
to the systolic arrays, each with its core. -/
structure Dispatch where
  session : Scheduler.Session
  cores : ℕ → NeuPIMSystolicWS.Session
  issued : List (ℕ × Tile)

namespace Dispatch

/-- The calls of the core cycle and of the memory, in any order. Those that take a tile from one side
and give it to the other are `finishTile` and `issueTile`. -/
inductive Event
  | scheduler (x : Scheduler.Call)
  | finishTile (coreId : ℕ) (now : CycleType)
  | issueTile (platform : StagePlatform) (coreId : ℕ)
  | core (coreId : ℕ) (x : NeuPIMSystolicWS.Session.Call)

def schedulerTakes : Scheduler.Call → Bool
  | .getTile _ | .finishTile _ _ => true
  | _ => false

def coreTakes : NeuPIMSystolicWS.Session.Call → Bool
  | .issue _ | .issuePim _ | .popFinishedTile => true
  | _ => false

section Step

variable (cfg : SchedulerConfig) (set : RobinHood)

def init : Dispatch where
  session := {}
  cores := NeuPIMSystolicWS.Session.init cfg.config
  issued := []

def setCore (D : Dispatch) (coreId : ℕ) (c : NeuPIMSCore) : Dispatch :=
  { D with cores := Function.update D.cores coreId ⟨c, (D.cores coreId).unanswered⟩ }

/-- A finished tile of the core is reported to the scheduler. -/
def finishTile (coreId : ℕ) (now : CycleType) (D : Dispatch) : Except Fault Dispatch :=
  let D' := D.setCore coreId (D.cores coreId).core.popFinishedTile.2
  match (D.cores coreId).core.popFinishedTile.1 with
  | none => .ok D'
  | some tile =>
    if tile.status = .FINISH then
      (D.session.step cfg (.finishTile now tile)).map fun session => { D' with session }
    else .ok D'

/-- `can_issue` or `can_issue_pim`. -/
def canIssue (c : NeuPIMSCore) (tile : Tile) : StagePlatform → Bool
  | .SA => c.canIssue tile
  | .PIM => c.canIssuePim

def issue (c : NeuPIMSCore) (tile : Tile) : StagePlatform → Except Fault NeuPIMSCore
  | .SA => c.issue tile
  | .PIM => c.issuePim tile

/-- The core takes the front tile of a queue if it has room. -/
def issueTile (platform : StagePlatform) (coreId : ℕ) (D : Dispatch) : Except Fault Dispatch :=
  let tile := D.session.sched.topTile platform
  if D.session.sched.modelProgram platform ≠ none ∧ tile.status = .INITIALIZED ∧
      canIssue (D.cores coreId).core tile platform then do
    let c ← issue (D.cores coreId).core tile platform
    let session ← D.session.step cfg (.getTile platform)
    .ok { D.setCore coreId c with
      session
      issued := if platform = .SA then D.issued ++ [(coreId, tile)] else D.issued }
  else .ok D

def step (D : Dispatch) : Event → Except Fault Dispatch
  | .scheduler x =>
    if schedulerTakes x then .error .illegalCall
    else (D.session.step cfg x).map fun session => { D with session }
  | .finishTile coreId now =>
    if coreId < cfg.config.numCores then D.finishTile cfg coreId now else .error .illegalCall
  | .issueTile platform coreId =>
    if coreId < cfg.config.numCores then D.issueTile cfg platform coreId else .error .illegalCall
  | .core coreId x =>
    if coreId < cfg.config.numCores ∧ ¬ coreTakes x then
      ((D.cores coreId).call cfg.config set x).map fun s =>
        { D with cores := Function.update D.cores coreId s }
    else .error .illegalCall

end Step

/-- Before a tile that accumulates, its core has got the tiles of the same output with every smaller
`K`, one after another, and nothing else after them. -/
def Accumulates (issued : List (ℕ × Tile)) : Prop :=
  ∀ pre coreId tile post, issued = pre ++ (coreId, tile) :: post → tile.accum = true →
    tile.K ≠ 0 ∧ ∃ older ts, (pre.filter fun e => e.1 = coreId).map Prod.snd = older ++ ts ∧
      ts.map (·.K) = List.range tile.K ∧ ∀ t ∈ ts, t.SameOutput tile

/-- A core that has room for a tile that accumulates is the one that got the tile before. -/
def Follows (D : Dispatch) : Event → Prop
  | .issueTile .SA coreId =>
    D.session.sched.topTile1.accum = true →
      (D.cores coreId).core.canIssue D.session.sched.topTile1 = true →
        D.issued.getLast?.map Prod.fst = some coreId
  | _ => True

instance (D : Dispatch) (x : Event) : Decidable (D.Follows x) := by
  unfold Follows
  split <;> infer_instance

/-- The tiles of a product, or tiles that do not accumulate. -/
def Generated (tiles : List Tile) : Prop :=
  (∃ config id name weights inputs a r,
    MatMul.getOutputs config id name weights inputs a = .ok r ∧ tiles = r.1.tiles.map (·.tile)) ∨
  ∀ t ∈ tiles, t.accum = false

/-- In runs: each tile that accumulates comes right after the one before it. -/
def InRuns : Option Tile → List Tile → Prop :=
  Linked (fun t => t.accum = false) Tile.Precedes

structure Ordered (cfg : SchedulerConfig) (D : Dispatch) : Prop where
  supplied : Scheduler.Supplied (InRuns none) .SA D.session.sched
  queue : InRuns (D.issued.getLast?.map Prod.snd) (D.session.sched.executableTileQueue .SA)
  cores : ∀ e ∈ D.issued, e.1 < cfg.config.numCores
  accumulates : Accumulates D.issued

variable {cfg : SchedulerConfig} {set : RobinHood} {D E : Dispatch} {coreId : ℕ} {tile t : Tile}
  {issued : List (ℕ × Tile)}

section Tiles

theorem inRuns_stampTiles {tiles : List Tile} (h : Generated tiles) (id : ℕ) :
    InRuns none (StageProgram.stampTiles id tiles) := by
  have hruns : InRuns none tiles := by
    rcases h with ⟨config, id, name, weights, inputs, a, ⟨op, a'⟩, hmade, rfl⟩ | hfresh
    · exact MatMul.linked_tiles hmade
    · exact linked_of_forall hfresh
  refine linked_map (fun t ht => ht) (fun t t' hnext => ?_) hruns
  obtain ⟨⟨-, hbatch, hrows, hcolumns⟩, hinner, hstart⟩ := hnext
  exact ⟨⟨rfl, hbatch, hrows, hcolumns⟩, hinner, hstart⟩

/-- The tile goes on from the last one, which went to the same core. -/
theorem accumulates_concat (h : Accumulates issued)
    (hlast : tile.accum = true → ∃ t, issued.getLast? = some (coreId, t) ∧ t.Precedes tile) :
    Accumulates (issued ++ [(coreId, tile)]) := by
  intro pre coreId' tile' post hsplit haccum
  rcases List.eq_nil_or_concat post with rfl | ⟨post', e, rfl⟩
  · obtain ⟨rfl, heq⟩ := List.append_inj' hsplit rfl
    cases heq
    obtain ⟨t, ht, hnext⟩ := hlast haccum
    obtain ⟨rest, rfl⟩ := List.getLast?_eq_some_iff.mp ht
    have hfilter : ((rest ++ [(coreId, t)]).filter fun e => e.1 = coreId).map Prod.snd =
        (rest.filter fun e => e.1 = coreId).map Prod.snd ++ [t] := by
      simp
    refine ⟨by rw [hnext.inner]; exact Nat.succ_ne_zero _, ?_⟩
    rw [hfilter, hnext.inner]
    rcases hnext.start with hacc | hzero
    · -- what came before the last tile comes before this one
      obtain ⟨-, older, ts, hts, hinner, hsame⟩ := h rest coreId t [] rfl hacc
      refine ⟨older, ts ++ [t], by rw [hts, List.append_assoc], ?_, ?_⟩
      · rw [List.map_append, hinner, List.range_succ]
        rfl
      · intro t' ht'
        rcases List.mem_append.mp ht' with ht' | ht'
        · have hout := hsame t' ht'
          exact ⟨hout.operationId.trans hnext.output.operationId,
            hout.batch.trans hnext.output.batch, hout.rows.trans hnext.output.rows,
            hout.columns.trans hnext.output.columns⟩
        · rw [List.mem_singleton.mp ht']
          exact hnext.output
    · refine ⟨_, [t], rfl, by rw [hzero]; simp [hzero], ?_⟩
      intro t' ht'
      rw [List.mem_singleton.mp ht']
      exact hnext.output
  · rw [List.concat_eq_append, ← List.cons_append, ← List.append_assoc] at hsplit
    exact h pre coreId' tile' post' (List.append_inj' hsplit rfl).1 haccum

end Tiles

section Scheduler

variable {s : Scheduler} {platform other : StagePlatform}

theorem getTile_modelProgram : (s.getTile platform).modelProgram = s.modelProgram := by
  unfold Scheduler.getTile
  split
  · rfl
  · dsimp only
    split_ifs <;> rfl

theorem getTile_other (hne : other ≠ platform) :
    (s.getTile platform).executableTileQueue other = s.executableTileQueue other := by
  unfold Scheduler.getTile
  split
  · rfl
  · dsimp only
    split_ifs
    · exact Function.update_of_ne hne _ _
    · rfl
    · exact Function.update_of_ne hne _ _

/-- A tile at the top is the front of its queue, marked, and `getTile` takes it. -/
theorem topTile_front (h : (s.topTile platform).status = .INITIALIZED) :
    ∃ tile rest, s.executableTileQueue platform = tile :: rest ∧
      s.topTile platform = { tile with stagePlatform := platform } ∧
      (s.getTile platform).executableTileQueue platform = rest := by
  cases hqueue : s.executableTileQueue platform with
  | nil =>
    simp only [Scheduler.topTile, hqueue, Scheduler.emptyTile] at h
    cases h
  | cons tile rest =>
    by_cases hbar : tile.status = .BAR
    · simp only [Scheduler.topTile, hqueue, if_pos hbar, Scheduler.emptyTile] at h
      cases h
    · refine ⟨tile, rest, rfl, ?_, ?_⟩
      · simp only [Scheduler.topTile, hqueue, if_neg hbar]
      · simp only [Scheduler.getTile, hqueue, if_neg hbar, Function.update_self]

end Scheduler

section Steps

variable (hgen : ∀ stage reqs name, Generated (cfg.tiles .SA stage reqs name))

theorem ordered_init : Ordered cfg (init cfg) := by
  refine ⟨fun p hp => ?_, trivial, fun e he => absurd he List.not_mem_nil, ?_⟩
  · cases hp
  · intro pre coreId tile post hsplit
    exact absurd hsplit.symm (List.append_ne_nil_of_right_ne_nil _ (List.cons_ne_nil _ _))

include hgen in
theorem ordered_call (h : Ordered cfg D) {x : Scheduler.Call} {session : Scheduler.Session}
    (hx : ∀ other, x ≠ .getTile other) (hok : D.session.step cfg x = .ok session)
    (cores : ℕ → NeuPIMSystolicWS.Session) : Ordered cfg { D with session, cores } := by
  obtain ⟨hsupplied, hrefilled⟩ := Scheduler.supplies_step
    (fun stage reqs id name => inRuns_stampTiles (hgen stage reqs name) id) hx hok h.supplied
  refine ⟨hsupplied, ?_, h.cores, h.accumulates⟩
  dsimp only
  rcases hrefilled with hsame | ⟨-, hfresh⟩
  · rw [hsame]
    exact h.queue
  · exact linked_fresh hfresh

/-- The front tile accumulates only if it goes on from the tile that went out last. -/
theorem ordered_issue (h : Ordered cfg D) {t : Tile} {rest : List Tile}
    (hcore : coreId < cfg.config.numCores)
    (hqueue : D.session.sched.executableTileQueue .SA = t :: rest)
    (hlast : t.accum = true → D.issued.getLast?.map Prod.fst = some coreId)
    {session : Scheduler.Session}
    (hprograms : session.sched.modelProgram = D.session.sched.modelProgram)
    (hrest : session.sched.executableTileQueue .SA = rest)
    (cores : ℕ → NeuPIMSystolicWS.Session) :
    Ordered cfg
      ⟨session, cores, D.issued ++ [(coreId, { t with stagePlatform := StagePlatform.SA })]⟩ := by
  have hruns := h.queue
  rw [hqueue] at hruns
  obtain ⟨hfirst, hruns⟩ := hruns
  refine ⟨?_, ?_, ?_, accumulates_concat h.accumulates fun haccum => ?_⟩
  · unfold Scheduler.Supplied
    rw [hprograms]
    exact h.supplied
  · dsimp only
    rw [hrest, List.getLast?_concat]
    refine linked_congr (fun t' hnext => ?_) hruns
    obtain ⟨⟨hid, hbatch, hrows, hcolumns⟩, hinner, hstart⟩ := hnext
    exact ⟨⟨hid, hbatch, hrows, hcolumns⟩, hinner, hstart⟩
  · intro e he
    rcases List.mem_append.mp he with he | he
    · exact h.cores e he
    · rw [List.mem_singleton.mp he]
      exact hcore
  · obtain hfresh | ⟨t', ht', hnext⟩ := hfirst
    · exact absurd (hfresh.symm.trans haccum) Bool.false_ne_true
    · obtain ⟨⟨c, t'⟩, he, rfl⟩ := Option.map_eq_some_iff.mp ht'
      have hc := hlast haccum
      rw [he] at hc
      cases hc
      obtain ⟨⟨hid, hbatch, hrows, hcolumns⟩, hinner, hstart⟩ := hnext
      exact ⟨t', he, ⟨⟨hid, hbatch, hrows, hcolumns⟩, hinner, hstart⟩⟩

/-- With one core there is no other that could have got the tile before. -/
theorem follows_single (h : Ordered cfg D) (hsingle : cfg.config.numCores ≤ 1)
    (hcore : coreId < cfg.config.numCores) {t : Tile} {rest : List Tile}
    (hqueue : D.session.sched.executableTileQueue .SA = t :: rest) (haccum : t.accum = true) :
    D.issued.getLast?.map Prod.fst = some coreId := by
  have hruns := h.queue
  rw [hqueue] at hruns
  obtain hfresh | ⟨t', ht', -⟩ := hruns.1
  · exact absurd (hfresh.symm.trans haccum) Bool.false_ne_true
  · obtain ⟨e, he, -⟩ := Option.map_eq_some_iff.mp ht'
    have hlt := h.cores e (List.mem_of_getLast? he)
    have heq : e.1 = coreId := by omega
    rw [he, Option.map_some, heq]

include hgen in
theorem ordered_step (h : Ordered cfg D) {x : Event}
    (hfollows : cfg.config.numCores ≤ 1 ∨ Follows D x) (hok : D.step cfg set x = .ok E) :
    Ordered cfg E := by
  cases x with
  | scheduler x =>
    simp only [step] at hok
    split_ifs at hok with htakes
    obtain ⟨session, hsession, rfl⟩ := map_ok hok
    refine ordered_call hgen h (fun other hx => ?_) hsession D.cores
    rw [hx] at htakes
    exact htakes rfl
  | finishTile coreId now =>
    simp only [step, finishTile] at hok
    split_ifs at hok
    split at hok
    · cases hok
      exact ⟨h.supplied, h.queue, h.cores, h.accumulates⟩
    · split_ifs at hok
      · obtain ⟨session, hsession, rfl⟩ := map_ok hok
        exact ordered_call hgen h (fun other hx => by cases hx) hsession _
      · cases hok
        exact ⟨h.supplied, h.queue, h.cores, h.accumulates⟩
  | issueTile platform coreId =>
    simp only [step] at hok
    split_ifs at hok with hcore
    unfold issueTile at hok
    dsimp only at hok
    by_cases hready : D.session.sched.modelProgram platform ≠ none ∧
        (D.session.sched.topTile platform).status = .INITIALIZED ∧
        canIssue (D.cores coreId).core (D.session.sched.topTile platform) platform
    · rw [if_pos hready] at hok
      obtain ⟨-, hstatus, hcan⟩ := hready
      obtain ⟨t, rest, hqueue, htop, hrest⟩ := topTile_front hstatus
      obtain ⟨c, -, hok⟩ := bind_ok.mp hok
      obtain ⟨session, hsession, hok⟩ := bind_ok.mp hok
      cases hsession
      cases hok
      cases platform with
      | SA =>
        rw [htop]
        refine ordered_issue h hcore hqueue (fun haccum => ?_) getTile_modelProgram hrest _
        rcases hfollows with hsingle | hfollows
        · exact follows_single h hsingle hcore hqueue haccum
        · refine hfollows ?_ hcan
          rw [Scheduler.topTile1, htop]
          exact haccum
      | PIM =>
        refine ⟨?_, ?_, h.cores, h.accumulates⟩
        · unfold Scheduler.Supplied
          rw [getTile_modelProgram]
          exact h.supplied
        · rw [getTile_other (by decide)]
          exact h.queue
    · rw [if_neg hready] at hok
      cases hok
      exact h
  | core coreId x =>
    simp only [step] at hok
    split_ifs at hok
    obtain ⟨s, -, rfl⟩ := map_ok hok
    exact ⟨h.supplied, h.queue, h.cores, h.accumulates⟩

end Steps

section Samples

/-- The tiles of a product with two parts of the inner dimension. -/
def productTiles : List Tile :=
  match MatMul.blockProduct 2 8 with
  | .ok r => r.1.tiles.map (·.tile)
  | .error _ => []

/-- The other operations have one tile without instructions. -/
def splitCfg (numCores : ℕ) : SchedulerConfig where
  config := { MatMul.blockConfig with numCores }
  tiles _ _ _ name := if name = "layer0.attn.QKVgen" then productTiles else [{}]

theorem generated_splitCfg (numCores : ℕ) (stage : Stage) (reqs : List InferRequest)
    (name : String) : Generated ((splitCfg numCores).tiles .SA stage reqs name) := by
  have hok : (MatMul.blockProduct 2 8).isOk = true := by decide +kernel
  obtain ⟨r, hr⟩ := exists_ok hok
  change Generated (if name = "layer0.attn.QKVgen" then productTiles else [{}])
  split_ifs
  · exact Or.inl ⟨_, _, _, _, _, _, r, hr, by rw [productTiles, hr]⟩
  · exact Or.inr fun t ht => by rw [List.mem_singleton.mp ht]

/-- The layer norm of stage A, and then the two tiles of the product, each to a core. -/
def splitEvents (first second : ℕ) : List Event :=
  [.scheduler (.addRequest Scheduler.sampleRequest), .scheduler (.cycle 0), .issueTile .SA 0,
    .core 0 .cycle, .finishTile 0 1, .issueTile .SA first, .issueTile .SA second]

end Samples

end Dispatch

end NewPims

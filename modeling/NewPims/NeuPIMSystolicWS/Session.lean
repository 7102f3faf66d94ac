import NewPims.NeuPIMSystolicWS.Steps

/-! A core and its surroundings: the calls the simulator makes, the requests it has taken from
the core and not answered yet, and the work a tile has outstanding. -/
namespace NewPims.NeuPIMSystolicWS

open Bank Transition

/-- `unanswered` holds the requests taken from the core and not answered; the headers among
them never are. -/
structure Session where
  core : NeuPIMSCore
  unanswered : List MemoryAccess

namespace Session

/-- The calls of `Simulator::cycle`. The interconnect may rewrite the platform of a request on
its way to the memory, and other cores move the statics. -/
inductive Call
  | issue (tile : Tile)
  | issuePim (tile : Tile)
  | cycle
  | popMemoryRequest (platform : StagePlatform) (channel : ℕ)
  | pushMemoryResponse (request : MemoryAccess) (platform : StagePlatform)
  | popFinishedTile
  | statics (constAddr : AddrType) (memAccessId : ℕ)

/-- Only `issue_pim` marks instructions, so a tile comes with none marked. -/
def unmarked (tile : Tile) : Bool := tile.instructions.all fun inst => !inst.isPimInst

def init (config : SimulationConfig) (id : ℕ) : Session := ⟨NeuPIMSCore.init config id, []⟩

section Calls

variable (config : SimulationConfig) (set : RobinHood)

/-- `Simulator::cycle` asks `can_issue` or `can_issue_pim` and asserts the platform before it
issues a tile. -/
def call (s : Session) : Call → Except Fault Session
  | .issue tile =>
    if s.core.canIssue tile ∧ tile.stagePlatform = .SA ∧ unmarked tile then
      (s.core.issue tile).map fun c => ⟨c, s.unanswered⟩
    else .error .illegalCall
  | .issuePim tile =>
    if s.core.canIssuePim ∧ tile.stagePlatform = .PIM ∧ unmarked tile then
      (s.core.issuePim tile).map fun c => ⟨c, s.unanswered⟩
    else .error .illegalCall
  | .cycle => (NeuPIMSystolicWS.cycle config set s.core).map fun c => ⟨c, s.unanswered⟩
  | .popMemoryRequest platform channel =>
    if channel < config.dramChannels then
      match s.core.popMemoryRequest platform channel with
      | none => .error .emptyBuffer
      | some (request, c) => .ok ⟨c, s.unanswered ++ [request]⟩
    else .error .outOfRange
  | .pushMemoryResponse request platform =>
    if request ∈ s.unanswered ∧ request.reqType ≠ .P_HEADER then
      (s.core.pushMemoryResponse
        { request with request := false, stagePlatform := platform }).map
          fun c => ⟨c, s.unanswered.erase request⟩
    else .error .illegalCall
  | .popFinishedTile => .ok ⟨s.core.popFinishedTile.2, s.unanswered⟩
  | .statics constAddr memAccessId =>
    .ok ⟨{ s.core with constAddr := constAddr, memAccessId := memAccessId }, s.unanswered⟩

end Calls

section Rules

variable {config : SimulationConfig} {set : RobinHood}

/-- The call, if it issues a tile, issues one that meets the condition `P` in the state of the
core before. -/
def Meets (P : NeuPIMSCore → Tile → Prop) (s : Session) : Call → Prop
  | .issue tile => P s.core tile
  | .issuePim tile => P s.core tile
  | _ => True

/-- What has to be shown of a property that every call preserves if the tiles issued meet `P`, a
cycle being taken step by step. -/
structure Preserved (config : SimulationConfig) (set : RobinHood)
    (P : NeuPIMSCore → Tile → Prop) (Inv : Session → Prop) : Prop where
  unit : ∀ c u unit c', Inv ⟨c, u⟩ → unitStep config set c unit = .ok c' → Inv ⟨c', u⟩
  issue : ∀ c u tile c', Inv ⟨c, u⟩ → c.canIssue tile → tile.stagePlatform = .SA →
    unmarked tile → P c tile → c.issue tile = .ok c' → Inv ⟨c', u⟩
  issuePim : ∀ c u tile c', Inv ⟨c, u⟩ → c.canIssuePim → tile.stagePlatform = .PIM →
    unmarked tile → P c tile → c.issuePim tile = .ok c' → Inv ⟨c', u⟩
  pop : ∀ c u platform channel request c', Inv ⟨c, u⟩ → channel < config.dramChannels →
    c.popMemoryRequest platform channel = some (request, c') → Inv ⟨c', u ++ [request]⟩
  response : ∀ c u request platform c', Inv ⟨c, u⟩ → request ∈ u →
    request.reqType ≠ .P_HEADER → c.pushMemoryResponse
      { request with request := false, stagePlatform := platform } = .ok c' →
    Inv ⟨c', u.erase request⟩
  finished : ∀ c u, Inv ⟨c, u⟩ → Inv ⟨c.popFinishedTile.2, u⟩
  statics : ∀ c u constAddr memAccessId, Inv ⟨c, u⟩ →
    Inv ⟨{ c with constAddr := constAddr, memAccessId := memAccessId }, u⟩

variable {P : NeuPIMSCore → Tile → Prop} {Inv : Session → Prop}

theorem preserved_and {J : Session → Prop} (h : Preserved config set P Inv)
    (h' : Preserved config set P J) : Preserved config set P fun s => Inv s ∧ J s where
  unit := fun c u unit c' hs hok => ⟨h.unit c u unit c' hs.1 hok, h'.unit c u unit c' hs.2 hok⟩
  issue := fun c u tile c' hs hcan hplatform hunmarked hP hok =>
    ⟨h.issue c u tile c' hs.1 hcan hplatform hunmarked hP hok,
      h'.issue c u tile c' hs.2 hcan hplatform hunmarked hP hok⟩
  issuePim := fun c u tile c' hs hcan hplatform hunmarked hP hok =>
    ⟨h.issuePim c u tile c' hs.1 hcan hplatform hunmarked hP hok,
      h'.issuePim c u tile c' hs.2 hcan hplatform hunmarked hP hok⟩
  pop := fun c u platform channel request c' hs hchannel hpop =>
    ⟨h.pop c u platform channel request c' hs.1 hchannel hpop,
      h'.pop c u platform channel request c' hs.2 hchannel hpop⟩
  response := fun c u request platform c' hs hmem hheader hok =>
    ⟨h.response c u request platform c' hs.1 hmem hheader hok,
      h'.response c u request platform c' hs.2 hmem hheader hok⟩
  finished := fun c u hs => ⟨h.finished c u hs.1, h'.finished c u hs.2⟩
  statics := fun c u constAddr memAccessId hs =>
    ⟨h.statics c u constAddr memAccessId hs.1, h'.statics c u constAddr memAccessId hs.2⟩

theorem preserved_units (h : Preserved config set P Inv) {c c' : NeuPIMSCore}
    {u : List MemoryAccess} {units : List UnitStep} (hc : Inv ⟨c, u⟩)
    (hrun : run (unitStep config set) c units = .ok c') : Inv ⟨c', u⟩ :=
  run_invariant (fun c => Inv ⟨c, u⟩)
    (fun c unit c' hc hstep => h.unit c u unit c' hc hstep) hc hrun

theorem preserved_call (h : Preserved config set P Inv) {s t : Session} {x : Call} (hs : Inv s)
    (hP : Meets P s x) (hok : call config set s x = .ok t) : Inv t := by
  cases x with
  | issue tile =>
    simp only [call] at hok
    split_ifs at hok with hguard
    obtain ⟨c', hc', rfl⟩ := map_ok hok
    exact h.issue s.core s.unanswered tile c' hs hguard.1 hguard.2.1 hguard.2.2 hP hc'
  | issuePim tile =>
    simp only [call] at hok
    split_ifs at hok with hguard
    obtain ⟨c', hc', rfl⟩ := map_ok hok
    exact h.issuePim s.core s.unanswered tile c' hs hguard.1 hguard.2.1 hguard.2.2 hP hc'
  | cycle =>
    obtain ⟨c', hc', rfl⟩ := map_ok hok
    obtain ⟨units, hunits⟩ := cycle_runs config set s.core
    exact preserved_units h hs (hunits.trans hc')
  | popMemoryRequest platform channel =>
    simp only [call] at hok
    split_ifs at hok with hchannel
    cases hpop : s.core.popMemoryRequest platform channel with
    | none => simp [hpop] at hok
    | some r =>
      simp only [hpop] at hok
      cases hok
      exact h.pop s.core s.unanswered platform channel r.1 r.2 hs hchannel hpop
  | pushMemoryResponse request platform =>
    simp only [call] at hok
    split_ifs at hok with hrequest
    obtain ⟨c', hc', rfl⟩ := map_ok hok
    exact h.response s.core s.unanswered request platform c' hs hrequest.1 hrequest.2 hc'
  | popFinishedTile =>
    cases hok
    exact h.finished s.core s.unanswered hs
  | statics constAddr memAccessId =>
    cases hok
    exact h.statics s.core s.unanswered constAddr memAccessId hs

theorem meets_true (s : Session) (x : Call) : Meets (fun _ _ => True) s x := by
  cases x <;> trivial

theorem preserved_run (h : Preserved config set (fun _ _ => True) Inv) {s t : Session}
    {calls : List Call} (hs : Inv s) (hrun : run (call config set) s calls = .ok t) : Inv t :=
  run_invariant Inv (fun s x _ hs hok => preserved_call h hs (meets_true s x) hok) hs hrun

end Rules

end Session

section Contents

variable (config : SimulationConfig)

def platforms : List StagePlatform := [.SA, .PIM]

def loading (c : NeuPIMSCore) : List Instruction :=
  contents platforms fun platform => (c.lane platform).ldInstQueue

def storing (c : NeuPIMSCore) : List Instruction :=
  contents platforms fun platform => (c.lane platform).stInstQueue

def executing (c : NeuPIMSCore) : List Instruction :=
  contents platforms fun platform => (c.lane platform).exInstQueue

/-- The instructions in the compute pipeline and the vector pipelines. -/
def piped (c : NeuPIMSCore) : List Instruction :=
  c.computePipeline ++ contents (List.range config.vectorCoreCount) c.vectorPipelines

def queuedRequests (c : NeuPIMSCore) : List MemoryAccess :=
  contents platforms fun platform =>
    contents (List.range config.dramChannels) (c.lane platform).memoryRequestQueues

/-- The requests that the core has made and nobody has answered. -/
def Session.requests (s : Session) : List MemoryAccess :=
  queuedRequests config s.core ++ s.unanswered

end Contents

section Outstanding

variable (config : SimulationConfig)

namespace Session

def instOf (ptr : TilePtr) (inst : Instruction) : Bool := inst.parentTile == ptr

def loadOf (ptr : TilePtr) (inst : Instruction) : Bool :=
  inst.parentTile == ptr && inst.opcode != .PIM_HEADER

/-- A request of the tile that is answered with data or with the end of a command. -/
def readOf (ptr : TilePtr) (r : MemoryAccess) : Bool :=
  r.parentTile == ptr && r.reqType != .WRITE && r.reqType != .P_HEADER

def isWrite (r : MemoryAccess) : Bool := r.reqType == .WRITE

def writeOf (ptr : TilePtr) (r : MemoryAccess) : Bool := r.parentTile == ptr && isWrite r

/-- The tile's instructions in the execute queues and in the pipelines. -/
def computesOf (s : Session) (ptr : TilePtr) : ℕ :=
  (executing s.core ++ piped config s.core).countP (instOf ptr)

/-- The tile's instructions that no pipeline has taken. -/
def droppedOf (s : Session) (ptr : TilePtr) : ℕ := s.core.dropped.countP (instOf ptr)

/-- The tile's instructions in the load queues, without the headers. -/
def loadsOf (s : Session) (ptr : TilePtr) : ℕ := (loading s.core).countP (loadOf ptr)

def storesOf (s : Session) (ptr : TilePtr) : ℕ := (storing s.core).countP (instOf ptr)

def readsOf (s : Session) (ptr : TilePtr) : ℕ := (s.requests config).countP (readOf ptr)

def writesOf (s : Session) (ptr : TilePtr) : ℕ := (s.requests config).countP (writeOf ptr)

def writes (s : Session) : ℕ := (s.requests config).countP isWrite

/-- Nothing of the tile is outstanding. -/
def Idle (s : Session) (ptr : TilePtr) : Prop :=
  s.computesOf config ptr = 0 ∧ s.droppedOf ptr = 0 ∧ s.loadsOf ptr = 0 ∧
    s.storesOf ptr = 0 ∧ s.readsOf config ptr = 0 ∧ s.writesOf config ptr = 0

end Session

end Outstanding

section Counts

variable {config : SimulationConfig} {set : RobinHood} {c c' : NeuPIMSCore}
  {platform : StagePlatform}

theorem platforms_nodup : platforms.Nodup := by decide

theorem mem_platforms (p : StagePlatform) : p ∈ platforms := by
  cases p <;> decide

/-- Replacing a lane changes the contents of its queues and no others. -/
theorem countP_lane {α : Type*} {l : Lane} (f : Lane → List α)
    (h : c'.lane = Function.update c.lane platform l) (P : α → Bool) :
    (contents platforms fun p => f (c'.lane p)).countP P + (f (c.lane platform)).countP P =
      (contents platforms fun p => f (c.lane p)).countP P + (f l).countP P := by
  rw [h, comp_update]
  exact countP_contents_update (q := fun p => f (c.lane p)) platforms_nodup
    (mem_platforms platform) (f l) P

theorem countP_pushMemoryRequests {queues queues' : ℕ → List MemoryAccess}
    {accesses : List MemoryAccess}
    (h : NeuPIMSCore.pushMemoryRequests config queues accesses = .ok queues')
    (P : MemoryAccess → Bool) :
    (contents (List.range config.dramChannels) queues').countP P =
      (contents (List.range config.dramChannels) queues).countP P + accesses.countP P := by
  induction accesses generalizing queues with
  | nil =>
    cases h
    simp
  | cons a as ih =>
    simp only [NeuPIMSCore.pushMemoryRequests] at h
    by_cases hchannel : AddressConfig.maskChannel config a.dramAddress < config.dramChannels
    · rw [if_pos hchannel] at h
      have hupdate := countP_contents_update (q := queues) List.nodup_range
        (List.mem_range.mpr hchannel)
        (queues (AddressConfig.maskChannel config a.dramAddress) ++ [a]) P
      rw [ih h]
      simp only [List.countP_append, List.countP_cons, List.countP_nil] at hupdate ⊢
      omega
    · rw [if_neg hchannel] at h
      cases h

/-- The accesses of an instruction belong to its tile and have the type asked for. -/
theorem mem_accessesOf {inst : Instruction} {reqType : MemoryAccessType} {a : MemoryAccess}
    (h : a ∈ (accessesOf config set c platform inst reqType).1) :
    a.parentTile = inst.parentTile ∧ a.reqType = reqType ∧ a.spadAddress = inst.destAddr ∧
      a.bufferId = inst.bufferId ∧ a.stagePlatform = platform := by
  obtain ⟨addr, -, rfl⟩ := List.mem_map.mp h
  exact ⟨rfl, rfl, rfl, rfl, rfl⟩

theorem countP_accessesOf {inst : Instruction} {reqType : MemoryAccessType}
    {P : MemoryAccess → Bool} {b : Bool}
    (h : ∀ a, a.parentTile = inst.parentTile → a.reqType = reqType →
      a.spadAddress = inst.destAddr → a.bufferId = inst.bufferId →
      a.stagePlatform = platform → P a = b) :
    (accessesOf config set c platform inst reqType).1.countP P =
      if b then (accessesOf config set c platform inst reqType).1.length else 0 := by
  have hall : ∀ a ∈ (accessesOf config set c platform inst reqType).1, P a = b := by
    intro a ha
    obtain ⟨h1, h2, h3, h4, h5⟩ := mem_accessesOf ha
    exact h a h1 h2 h3 h4 h5
  cases b with
  | true => simpa [List.countP_eq_length] using hall
  | false => simpa [List.countP_eq_zero] using hall

/-- A front instruction is the one that its pipeline loses. -/
theorem countP_front {inst : Instruction} (h : Front config c platform inst c')
    (P : Instruction → Bool) :
    (piped config c).countP P = (piped config c').countP P + if P inst then 1 else 0 := by
  cases h with
  | systolic hpipe =>
    simp only [piped, hpipe, List.countP_append, List.countP_cons]
    omega
  | @vector k _ rest hk hpipe =>
    have hupdate := countP_contents_update (q := c.vectorPipelines) List.nodup_range
      (List.mem_range.mpr hk) rest P
    rw [hpipe] at hupdate
    simp only [piped, List.countP_append, List.countP_cons] at hupdate ⊢
    omega

/-- A dispatched instruction joins a pipeline, with its times, or the dropped ones. -/
theorem countP_dispatched {inst : Instruction} (h : Dispatched config c inst platform c')
    (P : Instruction → Bool) (htimed : ∀ start finish, P (timed inst start finish) = P inst) :
    (piped config c' ++ c'.dropped).countP P =
      (piped config c ++ c.dropped).countP P + if P inst then 1 else 0 := by
  cases h with
  | gemm start finish htile hsame =>
    simp only [piped, NeuPIMSCore.setTile, List.countP_append, List.countP_cons,
      List.countP_nil, htimed]
    omega
  | @vector _ k start finish hk =>
    have hupdate := countP_contents_update (q := c.vectorPipelines) List.nodup_range
      (List.mem_range.mpr hk) (c.vectorPipelines k ++ [timed inst start finish]) P
    simp only [piped, List.countP_append, List.countP_cons, List.countP_nil, htimed]
      at hupdate ⊢
    omega
  | dropped _ =>
    simp only [piped, List.countP_append, List.countP_cons, List.countP_nil]
    omega

end Counts

end NewPims.NeuPIMSystolicWS

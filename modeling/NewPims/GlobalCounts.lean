import Mathlib.Logic.Function.Basic
import NewPims.Lib.Meter
import NewPims.Lib.Transition

/-! The counts of the loads and stores under way, and how long each kind has been busy and idle, as
`neupimrust` keeps them. -/
namespace NewPims.GlobalCounts

/-- An arithmetic overflow in a build that checks for it, or a `Vec` beyond its largest size. -/
inductive Panic
  | addOverflow
  | subOverflow
  | capacityOverflow
  deriving DecidableEq, Repr

inductive MemOp
  | load
  | store
  | compute
  | loadOrStore
  deriving DecidableEq, Repr

inductive MemStatus
  | idle (since : ℕ)
  | busy (since : ℕ)
  deriving DecidableEq, Repr

inductive RunStage
  | A
  | B
  | C
  | D
  | E
  | F
  | finished
  deriving DecidableEq, Repr

inductive EventType
  | memEventStart (op : MemOp)
  | memEventEnd (op : MemOp)
  deriving DecidableEq, Repr

structure Event where
  cycle : ℕ
  stage : RunStage
  event : EventType
  deriving DecidableEq, Repr

structure HistoEntry where
  count : ℕ
  stages : List RunStage
  deriving DecidableEq, Repr

/-- The entries of one kind in a `CycleHistogram`. -/
abbrev Histo := ℕ → Option HistoEntry

/-- The fields of the records `OpCycles`, `CurrentStatus` and `Counts` are the kinds. -/
structure GlobalCountsCtx where
  busyCycles : MemOp → ℕ := fun _ => 0
  idleCycles : MemOp → ℕ := fun _ => 0
  idleHisto : MemOp → Histo := fun _ _ => none
  busyHisto : MemOp → Histo := fun _ _ => none
  allCounts : MemOp → ℕ := fun _ => 0
  currentCounts : MemOp → ℕ := fun _ => 0
  currentStage : RunStage := .A
  currentStatus : MemOp → MemStatus := fun _ => .idle 0
  eventVec : List Event := []

section U64

variable (overflowChecks : Bool)

def addU64 (x y : ℕ) : Except Panic ℕ :=
  if x + y < 2 ^ 64 then .ok (x + y)
  else if overflowChecks then .error .addOverflow
  else .ok ((x + y) % 2 ^ 64)

def subU64 (x y : ℕ) : Except Panic ℕ :=
  if y ≤ x then .ok (x - y)
  else if overflowChecks then .error .subOverflow
  else .ok (x + 2 ^ 64 - y)

end U64

namespace GlobalCountsCtx

variable (overflowChecks : Bool)

/-- A `Vec` takes at most `isize::MAX` bytes, and a stage has four. -/
def pushStage (stages : List RunStage) (stage : RunStage) : Except Panic (List RunStage) :=
  if stages.length < (2 ^ 63 - 1) / 4 then .ok (stages ++ [stage]) else .error .capacityOverflow

/-- `entry(..).and_modify(..).or_insert(..)`. -/
def recordHisto (histo : Histo) (duration : ℕ) (stage : RunStage) : Except Panic Histo :=
  match histo duration with
  | some entry => do
    let count ← addU64 overflowChecks entry.count 1
    let stages ← pushStage entry.stages stage
    .ok (Function.update histo duration (some ⟨count, stages⟩))
  | none => .ok (Function.update histo duration (some ⟨1, [stage]⟩))

/-- The end of an idle time. -/
def recordIdle (op : MemOp) (duration : ℕ) (ctx : GlobalCountsCtx) :
    Except Panic GlobalCountsCtx :=
  if duration = 0 then .ok ctx
  else do
    let histo ← recordHisto overflowChecks (ctx.idleHisto op) duration ctx.currentStage
    let idle ← addU64 overflowChecks (ctx.idleCycles op) duration
    .ok { ctx with idleHisto := Function.update ctx.idleHisto op histo
                   idleCycles := Function.update ctx.idleCycles op idle }

/-- The end of a busy time, which is recorded even if it has no length. -/
def recordBusy (op : MemOp) (duration : ℕ) (ctx : GlobalCountsCtx) :
    Except Panic GlobalCountsCtx := do
  let histo ← recordHisto overflowChecks (ctx.busyHisto op) duration ctx.currentStage
  let busy ← addU64 overflowChecks (ctx.busyCycles op) duration
  .ok { ctx with busyHisto := Function.update ctx.busyHisto op histo
                 busyCycles := Function.update ctx.busyCycles op busy }

def setStatus (op : MemOp) (status : MemStatus) (cycle : ℕ) (event : EventType)
    (ctx : GlobalCountsCtx) : GlobalCountsCtx :=
  { ctx with currentStatus := Function.update ctx.currentStatus op status
             eventVec := ctx.eventVec ++ [⟨cycle, ctx.currentStage, event⟩] }

/-- A kind that has been idle since `start` is busy. -/
def startOp (op : MemOp) (start cycle : ℕ) (ctx : GlobalCountsCtx) :
    Except Panic GlobalCountsCtx := do
  let duration ← subU64 overflowChecks cycle start
  let ctx ← recordIdle overflowChecks op duration ctx
  .ok (ctx.setStatus op (.busy cycle) cycle (.memEventStart op))

/-- A kind that has been busy since `start` is idle. -/
def endOp (op : MemOp) (start cycle : ℕ) (ctx : GlobalCountsCtx) :
    Except Panic GlobalCountsCtx := do
  let duration ← subU64 overflowChecks cycle start
  let ctx ← recordBusy overflowChecks op duration ctx
  .ok (ctx.setStatus op (.idle cycle) cycle (.memEventEnd op))

def addCounts (op : MemOp) (amount : ℕ) (ctx : GlobalCountsCtx) :
    Except Panic GlobalCountsCtx := do
  let current ← addU64 overflowChecks (ctx.currentCounts op) amount
  let all ← addU64 overflowChecks (ctx.allCounts op) amount
  .ok { ctx with currentCounts := Function.update ctx.currentCounts op current
                 allCounts := Function.update ctx.allCounts op all }

/-- The first operations of a kind begin its busy time, and that of `load_or_stores`. -/
def startBusy (op : MemOp) (cycle : ℕ) (ctx : GlobalCountsCtx) : Except Panic GlobalCountsCtx :=
  match ctx.currentStatus op with
  | .idle start => do
    let ctx ← startOp overflowChecks op start cycle ctx
    match ctx.currentStatus .loadOrStore with
    | .idle start => startOp overflowChecks .loadOrStore start cycle ctx
    | .busy _ => .ok ctx
  | .busy _ => .ok ctx

/-- The last operations of a kind end its busy time, and that of `load_or_stores` unless the other
kind is busy. -/
def endBusy (op other : MemOp) (cycle : ℕ) (ctx : GlobalCountsCtx) :
    Except Panic GlobalCountsCtx :=
  match ctx.currentStatus op with
  | .busy start => do
    let ctx ← endOp overflowChecks op start cycle ctx
    match ctx.currentStatus .loadOrStore, ctx.currentStatus other with
    | .busy start, .idle _ => endOp overflowChecks .loadOrStore start cycle ctx
    | _, _ => .ok ctx
  | .idle _ => .ok ctx

def addOp (op : MemOp) (amount cycle : UInt64) (ctx : GlobalCountsCtx) :
    Except Panic GlobalCountsCtx := do
  let ctx ← addCounts overflowChecks op amount.toNat ctx
  if ctx.currentCounts op = amount.toNat then startBusy overflowChecks op cycle.toNat ctx
  else .ok ctx

def addLoads := addOp overflowChecks .load

def addStores := addOp overflowChecks .store

def reduceOp (op other : MemOp) (amount cycle : UInt64) (ctx : GlobalCountsCtx) :
    Except Panic (Bool × GlobalCountsCtx) :=
  if ctx.currentCounts op < amount.toNat then .ok (false, ctx)
  else
    let current := ctx.currentCounts op - amount.toNat
    let ctx := { ctx with currentCounts := Function.update ctx.currentCounts op current }
    (if current = 0 then endBusy overflowChecks op other cycle.toNat ctx
    else .ok ctx).map fun ctx => (true, ctx)

def reduceLoads := reduceOp overflowChecks .load .store

def reduceStores := reduceOp overflowChecks .store .load

end GlobalCountsCtx

inductive Call
  | addLoads (loads cycle : UInt64)
  | addStores (stores cycle : UInt64)
  | reduceLoads (loads cycle : UInt64)
  | reduceStores (stores cycle : UInt64)
  deriving DecidableEq, Repr

namespace Call

def amount : Call → UInt64
  | addLoads n _ | addStores n _ | reduceLoads n _ | reduceStores n _ => n

def cycle : Call → UInt64
  | addLoads _ c | addStores _ c | reduceLoads _ c | reduceStores _ c => c

def apply (overflowChecks : Bool) (ctx : GlobalCountsCtx) : Call → Except Panic GlobalCountsCtx
  | addLoads loads cycle => ctx.addLoads overflowChecks loads cycle
  | addStores stores cycle => ctx.addStores overflowChecks stores cycle
  | reduceLoads loads cycle => (ctx.reduceLoads overflowChecks loads cycle).map Prod.snd
  | reduceStores stores cycle => (ctx.reduceStores overflowChecks stores cycle).map Prod.snd

end Call

/-- The context, and the counts after each call. -/
structure Recorded where
  ctx : GlobalCountsCtx := {}
  trace : Timed.Trace (MemOp → ℕ) := [(0, fun _ => 0)]

def Recorded.step (overflowChecks : Bool) (r : Recorded) (c : Call) : Except Panic Recorded := do
  let ctx ← c.apply overflowChecks r.ctx
  .ok ⟨ctx, (c.cycle.toNat, ctx.currentCounts) :: r.trace⟩

end NewPims.GlobalCounts

import NewPims.Common
import NewPims.Lib.Crossbar
import NewPims.Lib.Transition

/-! `SimpleInterconnect`: an input queue per node, an output queue per core-side node and two
memory queues per channel. The memory statistics that `cycle` and `pop` also collect are left
out; nothing in the component reads them. -/
namespace NewPims

def nNodes (config : SimulationConfig) : ℕ :=
  config.numCores * config.dramChannels + config.dramChannels

/-- The nodes from here on are the memory channels. -/
def dramOffset (config : SimulationConfig) : ℕ := config.numCores * config.dramChannels

namespace SimpleInterconnect

structure Entity where
  finishCycle : CycleType
  dest : ℕ
  access : MemoryAccess
  deriving DecidableEq, Repr

end SimpleInterconnect

/-- The queues are indexed by node, the memory queues by channel. -/
structure SimpleInterconnect where
  cycles : ℕ
  rrStart : ℕ
  outBuffers : ℕ → List MemoryAccess
  inBuffers : ℕ → List SimpleInterconnect.Entity
  busyNode : ℕ → Bool
  memReqQueue1 : ℕ → List MemoryAccess
  memReqQueue2 : ℕ → List MemoryAccess

namespace SimpleInterconnect

/-- The constructor leaves `_rr_start` uninitialized; it is a parameter here. -/
def init (rrStart : ℕ) : SimpleInterconnect where
  cycles := 0
  rrStart := rrStart
  outBuffers _ := []
  inBuffers _ := []
  busyNode _ := false
  memReqQueue1 _ := []
  memReqQueue2 _ := []

section Arbitration

variable (config : SimulationConfig)

/-- The request as a memory queue receives it: with a single buffer the platform is rewritten,
so that only the first memory queue is used. -/
def memReq (access : MemoryAccess) : MemoryAccess :=
  if config.subBatchMode then access else { access with stagePlatform := .SA }

/-- The message `e` joins the queue its destination and platform select. -/
def deliver (n : SimpleInterconnect) (e : Entity) : SimpleInterconnect :=
  if e.dest < dramOffset config then
    { n with
      outBuffers :=
        Function.update n.outBuffers e.dest (n.outBuffers e.dest ++ [e.access]) }
  else
    let memCh := e.dest - dramOffset config
    let memReq := memReq config e.access
    match memReq.stagePlatform with
    | .SA =>
      { n with
        memReqQueue1 :=
          Function.update n.memReqQueue1 memCh (n.memReqQueue1 memCh ++ [memReq]) }
    | .PIM =>
      { n with
        memReqQueue2 :=
          Function.update n.memReqQueue2 memCh (n.memReqQueue2 memCh ++ [memReq]) }

/-- What one iteration of the arbitration loop does when `e`, the head of `srcNode`, may move. -/
def forward (n : SimpleInterconnect) (srcNode : ℕ) (e : Entity) : SimpleInterconnect :=
  { n.deliver config e with
    inBuffers := Function.update n.inBuffers srcNode (n.inBuffers srcNode).tail
    busyNode := Function.update n.busyNode e.dest true }

/-- The head of an input queue that has spent its latency and finds its destination free. -/
def ready (n : SimpleInterconnect) (srcNode : ℕ) : Option Entity :=
  match n.inBuffers srcNode with
  | e :: _ => if e.finishCycle ≤ n.cycles ∧ n.busyNode e.dest = false then some e else none
  | [] => none

def visit (n : SimpleInterconnect) (srcNode : ℕ) : SimpleInterconnect :=
  match n.ready srcNode with
  | some e => n.forward config srcNode e
  | none => n

/-- The nodes in the order in which one cycle visits them. -/
def visitOrder (n : SimpleInterconnect) : List ℕ :=
  (List.range (nNodes config)).map fun node => (n.rrStart + node) % nNodes config

/-- `_busy_node` is cleared and the round robin advances. -/
def endCycle (n : SimpleInterconnect) : SimpleInterconnect :=
  { n with
    busyNode := fun _ => false
    rrStart := (n.rrStart + 1) % nNodes config
    cycles := n.cycles + 1 }

def cycle (n : SimpleInterconnect) : SimpleInterconnect :=
  ((n.visitOrder config).foldl (visit config) n).endCycle config

/-- The entity that `push` appends to the input queue of `src`. -/
def newEntity (n : SimpleInterconnect) (src dest : ℕ) (request : MemoryAccess) : Entity where
  finishCycle :=
    match (n.inBuffers src).getLast? with
    | none => n.cycles + config.icntLatency
    | some e => e.finishCycle + 1
  dest := dest
  access := request

/-- A node outside the interconnect would be an access past the end of its vectors. -/
def push (n : SimpleInterconnect) (src dest : ℕ) (request : MemoryAccess) :
    Except Fault SimpleInterconnect :=
  if ¬ dest < 100 then .error .destBound
  else if ¬ (src < nNodes config ∧ dest < nNodes config) then .error .outOfRange
  else
    let entity := n.newEntity config src dest request
    .ok { n with inBuffers := Function.update n.inBuffers src (n.inBuffers src ++ [entity]) }

def isEmpty (n : SimpleInterconnect) (nid : ℕ) : Bool := (n.outBuffers nid).isEmpty

def top (n : SimpleInterconnect) (nid : ℕ) : Option MemoryAccess := (n.outBuffers nid).head?

def pop (n : SimpleInterconnect) (nid : ℕ) : Except Fault SimpleInterconnect :=
  if ¬ nid < dramOffset config then .error .outOfRange
  else if n.isEmpty nid then .error .emptyBuffer
  else .ok { n with outBuffers := Function.update n.outBuffers nid (n.outBuffers nid).tail }

def hasMemreq1 (n : SimpleInterconnect) (cid : ℕ) : Bool := !(n.memReqQueue1 cid).isEmpty
def hasMemreq2 (n : SimpleInterconnect) (cid : ℕ) : Bool := !(n.memReqQueue2 cid).isEmpty

def memreqTop1 (n : SimpleInterconnect) (cid : ℕ) : Option MemoryAccess :=
  (n.memReqQueue1 cid).head?
def memreqTop2 (n : SimpleInterconnect) (cid : ℕ) : Option MemoryAccess :=
  (n.memReqQueue2 cid).head?

def memreqPop1 (n : SimpleInterconnect) (cid : ℕ) : Except Fault SimpleInterconnect :=
  if ¬ cid < config.dramChannels then .error .outOfRange
  else if n.hasMemreq1 cid then
    .ok { n with
      memReqQueue1 := Function.update n.memReqQueue1 cid (n.memReqQueue1 cid).tail }
  else .error .emptyBuffer

def memreqPop2 (n : SimpleInterconnect) (cid : ℕ) : Except Fault SimpleInterconnect :=
  if ¬ cid < config.dramChannels then .error .outOfRange
  else if n.hasMemreq2 cid then
    .ok { n with
      memReqQueue2 := Function.update n.memReqQueue2 cid (n.memReqQueue2 cid).tail }
  else .error .emptyBuffer

/-- The calls by which the simulator drives the interconnect. -/
inductive Call
  | push (src dest : ℕ) (request : MemoryAccess)
  | cycle
  | pop (nid : ℕ)
  | memreqPop1 (cid : ℕ)
  | memreqPop2 (cid : ℕ)

def call (n : SimpleInterconnect) : Call → Except Fault SimpleInterconnect
  | .push src dest request => n.push config src dest request
  | .cycle => .ok (n.cycle config)
  | .pop nid => n.pop config nid
  | .memreqPop1 cid => n.memreqPop1 config cid
  | .memreqPop2 cid => n.memreqPop2 config cid

end Arbitration

end SimpleInterconnect

end NewPims

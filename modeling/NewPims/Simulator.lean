import NewPims.Client
import NewPims.Scheduler.Delivery

/-! The part of `Simulator::cycle` that moves requests: in every core cycle the client hands over
what waits, runs, and gets back what is completed; then the scheduler runs, and the cores take and
finish tiles in any order. -/
namespace NewPims

open Scheduler (Session Call)

inductive Phase
  | handOver
  | respond
  | tiles
  deriving DecidableEq, Repr

structure Simulator where
  client : Client
  session : Session := {}
  phase : Phase := .handOver
  /-- The requests that `receive_response` got. -/
  received : List ℕ := []

inductive SimulatorFault
  | client (f : ClientFault)
  | scheduler (f : Fault)
  /-- An event out of its order, or after `exit`. -/
  | order
  deriving DecidableEq, Repr

namespace Simulator

inductive Event
  | handOver
  | clientCycle
  | respond
  | schedulerCycle (now : CycleType)
  | getTile (platform : StagePlatform)
  | finishTile (now : CycleType) (tile : Tile)
  | nextCycle

variable (cfg : SchedulerConfig)

def start (table : List Row) : Simulator := { client := Client.new table }

/-- A call of the scheduler. -/
def call (M : Simulator) (c : Call) : Except SimulatorFault Simulator :=
  match M.session.step cfg c with
  | .ok session => .ok { M with session }
  | .error f => .error (.scheduler f)

/-- `pop_request` and `add_request`. -/
def handOver (M : Simulator) : Except SimulatorFault Simulator :=
  match M.client.popRequest with
  | .ok (x, client) => { M with client }.call cfg (.addRequest x)
  | .error f => .error (.client f)

/-- `pop_completed_request` and `receive_response`. -/
def respond (M : Simulator) : Except SimulatorFault Simulator :=
  match M.session.sched.requests.completedRequestQueue with
  | [] => .error (.scheduler .emptyBuffer)
  | r :: _ =>
    match M.client.receiveResponse (M.session.sched.requests.request r) with
    | .ok client =>
      { M with client, received := M.received ++ [r] }.call cfg .popCompletedRequest
    | .error f => .error (.client f)

/-- The loops of `cycle` run until the queue they empty is empty. -/
def Enabled (M : Simulator) : Event → Prop
  | .handOver => M.phase = .handOver ∧ M.client.hasRequest
  | .clientCycle => M.phase = .handOver ∧ ¬ M.client.hasRequest
  | .respond => M.phase = .respond ∧ M.session.sched.requests.hasCompletedRequest
  | .schedulerCycle _ => M.phase = .respond ∧ ¬ M.session.sched.requests.hasCompletedRequest
  | .getTile _ | .finishTile _ _ | .nextCycle => M.phase = .tiles

instance (M : Simulator) (e : Event) : Decidable (M.Enabled e) := by
  cases e <;> unfold Enabled <;> infer_instance

def perform (M : Simulator) : Event → Except SimulatorFault Simulator
  | .handOver => M.handOver cfg
  | .clientCycle =>
    if M.client.endless then .error (.client .endless)
    else .ok { M with client := M.client.cycle, phase := .respond }
  | .respond => M.respond cfg
  | .schedulerCycle now => { M with phase := .tiles }.call cfg (.cycle now)
  | .getTile platform => M.call cfg (.getTile platform)
  | .finishTile now tile => M.call cfg (.finishTile now tile)
  | .nextCycle => .ok { M with phase := .handOver }

def step (M : Simulator) (e : Event) : Except SimulatorFault Simulator :=
  if M.client.exited = false ∧ M.Enabled e then M.perform cfg e else .error .order

end Simulator

end NewPims

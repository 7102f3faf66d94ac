import Mathlib.Logic.Function.Basic
import NewPims.Common

/-! The request side of `Scheduler`: admitting requests to channels, dividing them into the
two sub-batches, and returning them when an iteration is done. Requests are shared objects of
the source; here they live in `heap` and the queues hold their positions. The key and value
tensors that `allocate_requests` creates are not modelled. -/
namespace NewPims

structure RequestState where
  heap : List InferRequest := []
  requestQueue : List ℕ := []
  completedRequestQueue : List ℕ := []
  /-- Indexed by channel, as are the two latency fields. -/
  activeRequestQueues : ℕ → List ℕ := fun _ => []
  activeRequestLatencyQueues : ℕ → List ℕ := fun _ => []
  activeRequestAccumLatencys : ℕ → ℕ := fun _ => 0
  activeReqs : ℕ := 0
  breq1 : List ℕ := []
  breq2 : List ℕ := []

def ceilDiv (a b : ℕ) : ℕ := (a + b - 1) / b

section Partition

/-- The entry `dp[i][j]` of `partition_lists_dp`: some of the first `i` latencies sum to `j`. -/
def dpEntry (inputList : List ℕ) : ℕ → ℕ → Bool
  | 0, j => j = 0
  | i + 1, j =>
    if j = 0 then true
    else
      let x := inputList.getD i 0
      dpEntry inputList i j || (decide (x ≤ j) && dpEntry inputList i (j - x))

/-- The reconstruction loop with `i` and `j` at the given values. -/
def reconstruct (inputList : List ℕ) : ℕ → ℕ → List ℕ × List ℕ
  | 0, _ => ([], [])
  | i + 1, j =>
    if 0 < j ∧ dpEntry inputList (i + 1) j ∧ ¬ dpEntry inputList i j then
      let rest := reconstruct inputList i (j - inputList.getD i 0)
      (i :: rest.1, rest.2)
    else
      let rest := reconstruct inputList i j
      (rest.1, i :: rest.2)

/-- The largest `j ≤ bound` with `dp[n][j]`, or 0. -/
def maxSum (inputList : List ℕ) (n : ℕ) : ℕ → ℕ
  | 0 => 0
  | j + 1 => if dpEntry inputList n (j + 1) then j + 1 else maxSum inputList n j

/-- The total of the latencies, as an `int`. -/
def totalSum (inputList : List ℕ) : ℤ := (inputList.sum : ℤ).bmod (2 ^ 32)

def targetSum (inputList : List ℕ) : ℕ := ((totalSum inputList).tdiv 2).toNat

/-- With a total below -1 the matrix `dp` has no column, or cannot be made. -/
def partitionListsDp (inputList : List ℕ) : List ℕ × List ℕ :=
  let n := inputList.length
  reconstruct inputList n (maxSum inputList n (targetSum inputList))

end Partition

namespace RequestState

variable (config : SimulationConfig)

def request (s : RequestState) (r : ℕ) : InferRequest := s.heap.getD r default

def setRequest (s : RequestState) (r : ℕ) (x : InferRequest) : RequestState :=
  { s with heap := s.heap.set r x }

def addRequest (s : RequestState) (x : InferRequest) : RequestState :=
  { s with heap := s.heap ++ [x], requestQueue := s.requestQueue ++ [s.heap.length] }

def hasCompletedRequest (s : RequestState) : Bool := !s.completedRequestQueue.isEmpty

def popCompletedRequest (s : RequestState) : Except Fault RequestState :=
  match s.completedRequestQueue with
  | [] => .error .emptyBuffer
  | _ :: rest => .ok { s with completedRequestQueue := rest }

def maxBatchSize : ℕ := 1024
def maxActiveReqs : ℕ := 1024

/-- The estimate of `estimate_mha_latency` in numbers of any size. -/
def mhaLatency (x : InferRequest) : ℕ :=
  let nh := config.modelNHead / config.nTp
  let dk := config.modelNEmbd / config.modelNHead
  let pageSize := config.dramPageSize / config.precision
  let banks := config.dramBanksPerCh
  let gwriteLatency := 100
  let gemvLatency := 184
  -- key * query
  let chunks := ceilDiv (nh * dk) pageSize
  let tiles := ceilDiv x.inputSize banks
  let keyLatency := chunks * gwriteLatency + chunks * tiles * gemvLatency
  -- logit * value
  let chunks := ceilDiv x.inputSize pageSize * nh
  let tiles := ceilDiv dk banks
  keyLatency + (chunks * gwriteLatency + chunks * tiles * gemvLatency)

/-- The queues of latencies hold it as a `uint32_t`. -/
def estimateMhaLatency (x : InferRequest) : ℕ := mhaLatency config x % 2 ^ 32

/-- A request joins the queues of its channel. -/
def activate (s : RequestState) (r : ℕ) : RequestState :=
  let x := s.request r
  let ch := x.channel
  let latency := estimateMhaLatency config x
  { s with
    heap := s.heap.set r { x with isInitiated := true }
    activeReqs := s.activeReqs + 1
    activeRequestQueues :=
      Function.update s.activeRequestQueues ch (s.activeRequestQueues ch ++ [r])
    activeRequestLatencyQueues :=
      Function.update s.activeRequestLatencyQueues ch
        (s.activeRequestLatencyQueues ch ++ [latency])
    activeRequestAccumLatencys :=
      Function.update s.activeRequestAccumLatencys ch
        ((s.activeRequestAccumLatencys ch + latency) % 2 ^ 32) }

/-- The loop of `allocate_requests` over the rest of the request queue. -/
def allocateLoop : List ℕ → ℕ → RequestState → Except Fault RequestState
  | [], _, s => .ok s
  | r :: rest, batchSize, s =>
    let x := s.request r
    if batchSize = maxBatchSize then .ok s
    else if ¬ x.generated < x.outputSize then .error .requestDone
    else if x.isInitiated then allocateLoop rest (batchSize + 1) s
    else if ¬ x.channel < config.dramChannels then .error .channelRange
    else if maxActiveReqs ≤ s.activeReqs then allocateLoop rest batchSize s
    else allocateLoop rest (batchSize + 1) (s.activate config r)

def allocateRequests (s : RequestState) : Except Fault RequestState :=
  allocateLoop config s.requestQueue 0 s

/-- The simple partition of one channel's queue; of an odd queue the larger half goes to the
first sub-batch in every other channel. -/
def groupSimple (s : RequestState) (ceilTurn : Bool) (reqQueue : List ℕ) :
    RequestState × Bool :=
  let odd := reqQueue.length % 2 ≠ 0
  let sb1Size :=
    if odd ∧ ceilTurn then ceilDiv reqQueue.length 2 else reqQueue.length / 2
  ({ s with
      breq1 := s.breq1 ++ reqQueue.take sb1Size
      breq2 := s.breq2 ++ reqQueue.drop sb1Size },
    if odd then !ceilTurn else ceilTurn)

def groupDp (s : RequestState) (reqQueue latencyQueue : List ℕ) : RequestState :=
  let lists := partitionListsDp latencyQueue
  { s with
    breq1 := s.breq1 ++ lists.1.map fun i => reqQueue.getD i 0
    breq2 := s.breq2 ++ lists.2.map fun i => reqQueue.getD i 0 }

/-- The loop of `group_sub_batches` over the channels. -/
def groupLoop : List ℕ → Bool → RequestState → Except Fault RequestState
  | [], _, s => .ok s
  | ch :: rest, ceilTurn, s =>
    let reqQueue := s.activeRequestQueues ch
    let latencyQueue := s.activeRequestLatencyQueues ch
    if reqQueue.length ≠ latencyQueue.length then .error .latencyCount
    else if config.partitionAlgSimple then
      let grouped := s.groupSimple ceilTurn reqQueue
      groupLoop rest grouped.2 grouped.1
    else if totalSum latencyQueue < -1 then .error .matrixSize
    else groupLoop rest ceilTurn (s.groupDp reqQueue latencyQueue)

def groupSubBatches (s : RequestState) : Except Fault RequestState :=
  let channels := List.range config.dramChannels
  if config.subBatchMode then groupLoop config channels true s
  else .ok { s with breq1 := s.breq1 ++ channels.flatMap s.activeRequestQueues }

def initBatches (s : RequestState) : Except Fault RequestState :=
  match s.allocateRequests config with
  | .ok t => t.groupSubBatches config
  | .error f => .error f

/-- What `cleanup_sub_batch` does to one request. -/
def cleanupRequest (s : RequestState) (r : ℕ) : RequestState :=
  let x := { s.request r with isInitiated := true, generated := (s.request r).generated + 1 }
  let s := s.setRequest r x
  if x.outputSize = x.generated then
    let same := fun q => (s.request q).id = x.id
    { s with
      completedRequestQueue := s.completedRequestQueue ++ [r]
      requestQueue := s.requestQueue.filter fun q => ¬ same q
      activeReqs := s.activeReqs - s.requestQueue.countP fun q => same q }
  else s

def cleanupSubBatch (s : RequestState) (subBatch : List ℕ) : RequestState :=
  subBatch.foldl cleanupRequest s

/-- The end of an iteration: both sub-batches are cleaned up and emptied. -/
def endIteration (s : RequestState) : RequestState :=
  let s := (s.cleanupSubBatch s.breq1).cleanupSubBatch s.breq2
  { s with breq1 := [], breq2 := [] }

end RequestState

end NewPims

import NewPims.Common

/-! `Client` with its `RequestGenerator`: the requests of a table, one for each row. -/
namespace NewPims

/-- The two cells of a row that `get_qa_length` reads. -/
abbrev Row := ℕ × ℕ

/-- `_cycles` and what it stamps on the requests are only logged, and left out with the random
distributions, which nothing uses. -/
structure Client where
  /-- `table` and `row_index` of the generator. -/
  table : List Row
  rowIndex : ℕ := 0
  /-- The next value of `generate_rid`. -/
  nextRid : ℕ := 0
  waitingQueue : List InferRequest := []
  totalCnt : ℕ
  issuedCnt : ℕ := 0
  completedCnt : ℕ := 0
  touch : Bool := false
  /-- `exit` has been called. -/
  exited : Bool := false

/-- What ends a run other than `exit`. -/
inductive ClientFault
  | emptyQueue
  /-- `ast(response->generated == response->output_size)`. -/
  | unfinishedResponse
  /-- A loop that does not end. -/
  | endless
  deriving DecidableEq, Repr

namespace Client

/-- The constructor. -/
def new (table : List Row) : Client := { table, totalCnt := table.length }

def newRequest (rid : ℕ) (row : Row) : InferRequest :=
  { id := rid, inputSize := row.1, outputSize := 1, isInitiated := false, generated := 0,
    channel := row.2 }

/-- The loop of `cycle` with the rest of the table; it takes an id before it looks for a row. -/
def issueRequests : List Row → Client → Client
  | [], c => { c with nextRid := c.nextRid + 1, touch := true }
  | row :: rest, c =>
    issueRequests rest
      { c with
        rowIndex := c.rowIndex + 1
        nextRid := c.nextRid + 1
        waitingQueue := c.waitingQueue ++ [newRequest c.nextRid row]
        issuedCnt := c.issuedCnt + 1 }

def cycle (c : Client) : Client :=
  let c := if c.touch then c else issueRequests (c.table.drop c.rowIndex) c
  { c with exited := c.exited || c.completedCnt = c.totalCnt }

/-- `row_index` is a `uint32_t`: it starts again before it has passed so many rows, and the loop of
`cycle` does not end. -/
def endless (c : Client) : Bool := !c.touch && decide (2 ^ 32 ≤ c.table.length)

def hasRequest (c : Client) : Bool := !c.waitingQueue.isEmpty

def popRequest (c : Client) : Except ClientFault (InferRequest × Client) :=
  match c.waitingQueue with
  | [] => .error .emptyQueue
  | x :: rest => .ok (x, { c with waitingQueue := rest })

def receiveResponse (c : Client) (response : InferRequest) : Except ClientFault Client :=
  if response.generated = response.outputSize then
    .ok { c with completedCnt := c.completedCnt + 1 }
  else .error .unfinishedResponse

end Client

end NewPims

import NewPims.Client

/-! `RequestGenerator`: the table that `parse` reads from a trace file, and the `Client` that takes
its requests from the rows as they are. -/
namespace NewPims

/-! `std::getline` up to the end of the input: the pieces that a delimiter ends. After the last
delimiter there is a piece only if something follows. -/
namespace Lines

variable {α : Type*} [DecidableEq α]

/-- An element at the front of the first piece. -/
def consHead (c : α) : List (List α) → List (List α)
  | [] => [[c]]
  | piece :: pieces => (c :: piece) :: pieces

/-- The pieces of all calls. -/
def getlines (delim : α) : List α → List (List α)
  | [] => []
  | c :: cs => if c = delim then [] :: getlines delim cs else consHead c (getlines delim cs)

end Lines

open Lines

inductive GeneratorFault
  /-- The exceptions of `std::stoul`. -/
  | invalidArgument
  | outOfRange
  /-- `ast(has_data())`. -/
  | noData
  /-- A cell is read that its row does not have. -/
  | cell
  /-- A loop of the client that does not end. -/
  | endless
  | emptyQueue
  /-- A call after `exit`. -/
  | exited
  deriving DecidableEq, Repr

structure RequestGenerator where
  answerIndex : ℕ
  /-- `uint32_t`. -/
  rowIndex : ℕ := 0
  columns : List (List Char) := []
  table : List (List ℕ) := []

namespace RequestGenerator

/-- `isspace` in the locale of C. -/
def isSpace (c : Char) : Bool := c = ' ' ∨ 9 ≤ c.toNat ∧ c.toNat ≤ 13

/-- `std::stoul` to the base ten: what follows the digits is ignored, and a minus sign negates in
`unsigned long`. -/
def stoul (cell : List Char) : Except GeneratorFault ℕ :=
  let text := cell.dropWhile isSpace
  let negative := text.head? = some '-'
  let digits := (if negative ∨ text.head? = some '+' then text.tail else text).takeWhile Char.isDigit
  let value := digits.foldl (fun n c => 10 * n + (c.toNat - 48)) 0
  if digits = [] then .error .invalidArgument
  else if 2 ^ 64 ≤ value then .error .outOfRange
  else .ok (if negative then (2 ^ 64 - value) % 2 ^ 64 else value)

/-- A row of the table. -/
def parseLine (line : List Char) : Except GeneratorFault (List ℕ) :=
  (getlines ',' line).mapM fun cell => (stoul cell).map (· % 2 ^ 32)

def parse (g : RequestGenerator) (text : List Char) : Except GeneratorFault RequestGenerator :=
  match getlines '\n' text with
  | [] => .ok g
  | header :: lines =>
    (lines.mapM parseLine).map fun rows =>
      { g with columns := g.columns ++ getlines ',' header, table := g.table ++ rows }

def init (text : List Char) (answerIndex : ℕ) : Except GeneratorFault RequestGenerator :=
  parse { answerIndex } text

def hasData (g : RequestGenerator) : Bool := g.rowIndex < g.table.length

def getQaLength (g : RequestGenerator) : Except GeneratorFault (Row × RequestGenerator) :=
  match g.table[g.rowIndex]? with
  | none => .error .noData
  | some row =>
    match row[0]?, row[g.answerIndex]? with
    | some input, some answer =>
      .ok ((input, answer), { g with rowIndex := (g.rowIndex + 1) % 2 ^ 32 })
    | _, _ => .error .cell

end RequestGenerator

/-- `Client` with the generator instead of rows whose cells are known to be there. -/
structure Issuer where
  generator : RequestGenerator
  nextRid : ℕ := 0
  waitingQueue : List InferRequest := []
  totalCnt : ℕ
  issuedCnt : ℕ := 0
  completedCnt : ℕ := 0
  touch : Bool := false
  exited : Bool := false
  /-- What `pop_request` has returned. -/
  popped : List InferRequest := []

namespace Issuer

/-- The constructor; the file is the trace of the configuration. -/
def create (text : List Char) : Except GeneratorFault Issuer :=
  (RequestGenerator.init text 1).map fun g => { generator := g, totalCnt := g.table.length }

/-- The loop of `cycle`, which ends when the generator has no data; with `fuel` for one turn more
than it has rows. -/
def issueLoop : ℕ → Issuer → Except GeneratorFault Issuer
  | 0, _ => .error .endless
  | fuel + 1, c =>
    let rid := c.nextRid
    if c.generator.hasData then do
      let (sizes, generator) ← c.generator.getQaLength
      issueLoop fuel
        { c with
          generator
          nextRid := rid + 1
          waitingQueue := c.waitingQueue ++ [Client.newRequest rid sizes]
          issuedCnt := c.issuedCnt + 1 }
    else .ok { c with nextRid := rid + 1, touch := true }

def cycle (c : Issuer) : Except GeneratorFault Issuer :=
  (if c.touch then .ok c else issueLoop (c.generator.table.length + 1) c).map fun c =>
    { c with exited := c.exited || c.completedCnt = c.totalCnt }

def popRequest (c : Issuer) : Except GeneratorFault Issuer :=
  match c.waitingQueue with
  | [] => .error .emptyQueue
  | x :: rest => .ok { c with waitingQueue := rest, popped := c.popped ++ [x] }

/-- For a response that is finished. -/
def receiveResponse (c : Issuer) : Issuer := { c with completedCnt := c.completedCnt + 1 }

inductive Call
  | cycle
  | popRequest
  | receiveResponse
  deriving DecidableEq

def call (c : Issuer) (e : Call) : Except GeneratorFault Issuer :=
  if c.exited then .error .exited
  else
    match e with
    | .cycle => c.cycle
    | .popRequest => c.popRequest
    | .receiveResponse => .ok c.receiveResponse

/-- The client of the rows that the generator's table holds. -/
def toClient (c : Issuer) (rows : List Row) : Client where
  table := rows
  rowIndex := c.generator.rowIndex
  nextRid := c.nextRid
  waitingQueue := c.waitingQueue
  totalCnt := c.totalCnt
  issuedCnt := c.issuedCnt
  completedCnt := c.completedCnt
  touch := c.touch
  exited := c.exited

end Issuer

end NewPims

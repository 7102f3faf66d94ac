import NewPims.Lib.Strided
import NewPims.Lib.Transition
import NewPims.RequestGenerator
import NewPims.Simulator.Exchange

/-! What the client makes of a trace file: a request for each data line, as long as every line has
the two cells that are read of it. -/
namespace NewPims.Issuer

open Lines RequestGenerator Strided Transition

variable {c d : Issuer} {e : Call} {text : List Char} {rows : List Row} {fuel : ℕ}

/-- The lines after the first one. -/
def dataLines (text : List Char) : List (List Char) := (getlines '\n' text).tail

/-- The row has the two cells that `get_qa_length` reads. -/
def HasCells (answerIndex : ℕ) (row : List ℕ) (x : Row) : Prop :=
  row[0]? = some x.1 ∧ row[answerIndex]? = some x.2

/-- The rows of the table have the cells `rows`, and `row_index` can number them. -/
structure Readable (g : RequestGenerator) (rows : List Row) : Prop where
  cells : List.Forall₂ (HasCells g.answerIndex) g.table rows
  few : rows.length < 2 ^ 32

theorem getQaLength_ok {g : RequestGenerator} (h : Readable g rows) (hlt : g.rowIndex < rows.length) :
    g.getQaLength = .ok (rows[g.rowIndex], { g with rowIndex := g.rowIndex + 1 }) := by
  have htable : g.rowIndex < g.table.length := by rwa [h.cells.length_eq]
  obtain ⟨hinput, hanswer⟩ := (List.forall₂_iff_get.mp h.cells).2 g.rowIndex htable hlt
  have hnext : (g.rowIndex + 1) % 2 ^ 32 = g.rowIndex + 1 := by
    have hfew := h.few
    exact Nat.mod_eq_of_lt (by omega)
  rw [getQaLength, List.getElem?_eq_getElem htable]
  simp only [List.get_eq_getElem] at hinput hanswer
  simp only [hinput, hanswer, hnext]

/-- The loop does what it does on the rows whose cells are there. -/
theorem issueLoop_ok (fuel : ℕ) (h : Readable c.generator rows)
    (hle : c.generator.rowIndex ≤ rows.length)
    (hfuel : rows.length - c.generator.rowIndex < fuel) :
    ∃ d, issueLoop fuel c = .ok d ∧
      d.generator = { c.generator with rowIndex := rows.length } ∧ d.popped = c.popped ∧
      d.toClient rows =
        Client.issueRequests (rows.drop c.generator.rowIndex) (c.toClient rows) := by
  induction fuel generalizing c with
  | zero => omega
  | succ fuel ih =>
    rcases Nat.lt_or_eq_of_le hle with hlt | heq
    · have hdata : c.generator.hasData = true := by
        rw [hasData, decide_eq_true_iff, h.cells.length_eq]
        exact hlt
      let next : Issuer :=
        { c with
          generator := { c.generator with rowIndex := c.generator.rowIndex + 1 }
          nextRid := c.nextRid + 1
          waitingQueue := c.waitingQueue ++
            [Client.newRequest c.nextRid rows[c.generator.rowIndex]]
          issuedCnt := c.issuedCnt + 1 }
      obtain ⟨d, hd, hg, hpopped, hclient⟩ := ih (c := next) ⟨h.cells, h.few⟩ hlt
        (by change rows.length - (c.generator.rowIndex + 1) < fuel; omega)
      refine ⟨d, ?_, hg, hpopped, ?_⟩
      · rw [issueLoop, if_pos hdata, getQaLength_ok h hlt]
        exact hd
      · rw [List.drop_eq_getElem_cons hlt, Client.issueRequests, hclient]
        rfl
    · have hdata : ¬ c.generator.hasData = true := by
        rw [hasData, decide_eq_true_iff, h.cells.length_eq, heq]
        exact Nat.lt_irrefl _
      refine ⟨{ c with nextRid := c.nextRid + 1, touch := true }, ?_, ?_, rfl, ?_⟩
      · rw [issueLoop, if_neg hdata]
      · rw [← heq]
      · rw [heq, List.drop_length, Client.issueRequests]
        rfl

/-- With as many rows as `row_index` has values, it starts again, and the loop has no end. -/
theorem issueLoop_endless (fuel : ℕ) (h : 2 ^ 32 ≤ c.generator.table.length)
    (hindex : c.generator.rowIndex < 2 ^ 32) :
    issueLoop fuel c = .error .cell ∨ issueLoop fuel c = .error .endless := by
  induction fuel generalizing c with
  | zero => exact .inr rfl
  | succ fuel ih =>
    have hlt : c.generator.rowIndex < c.generator.table.length := by omega
    have hdata : c.generator.hasData = true := by
      rw [hasData, decide_eq_true_iff]
      exact hlt
    rw [issueLoop, if_pos hdata, getQaLength, List.getElem?_eq_getElem hlt]
    dsimp only
    split
    · exact ih h (Nat.mod_lt _ (by decide))
    · exact .inl rfl

/-- `cycle` issues the requests of the client of the rows. -/
theorem cycle_ok (h : Readable c.generator rows) (hle : c.generator.rowIndex ≤ rows.length) :
    ∃ d, c.cycle = .ok d ∧ Readable d.generator rows ∧ d.generator.rowIndex ≤ rows.length ∧
      d.popped = c.popped ∧ d.toClient rows = (c.toClient rows).cycle := by
  cases htouch : c.touch with
  | true =>
    refine ⟨{ c with exited := c.exited || c.completedCnt = c.totalCnt }, ?_, h, hle, rfl, ?_⟩
    · rw [cycle, if_pos htouch]
      rfl
    · have hclient : (c.toClient rows).touch = true := htouch
      rw [Client.cycle, if_pos hclient]
      rfl
  | false =>
    have hlength := h.cells.length_eq
    obtain ⟨d, hd, hg, hpopped, hclient⟩ :=
      issueLoop_ok (c.generator.table.length + 1) h hle (by omega)
    refine ⟨{ d with exited := d.exited || d.completedCnt = d.totalCnt }, ?_, ?_, ?_, hpopped, ?_⟩
    · rw [cycle, if_neg (by rw [htouch]; exact Bool.false_ne_true), hd]
      rfl
    · change Readable d.generator rows
      rw [hg]
      exact ⟨h.cells, h.few⟩
    · change d.generator.rowIndex ≤ rows.length
      rw [hg]
    · have hfalse : ¬ (c.toClient rows).touch = true := by
        change ¬ c.touch = true
        rw [htouch]
        exact Bool.false_ne_true
      have hissue : Client.issueRequests ((c.toClient rows).table.drop (c.toClient rows).rowIndex)
          (c.toClient rows) = d.toClient rows := hclient.symm
      rw [Client.cycle, if_neg hfalse, hissue]
      rfl

section Runs

/-- Every call of `get_qa_length` with a row left reads cells that the row has. -/
def Reads (g : RequestGenerator) : Prop :=
  ∀ k < 2 ^ 32, ({ g with rowIndex := k }).hasData = true →
    ({ g with rowIndex := k }).getQaLength ≠ .error .cell

/-- The requests are one for each of the lines, in their order, with the first cells of the line. -/
def OnePerLine (lines : List (List Char)) (xs : List InferRequest) : Prop :=
  xs.length = lines.length ∧ ∀ i line x, lines[i]? = some line → xs[i]? = some x →
    ∃ cells a b, parseLine line = .ok cells ∧ cells[0]? = some a ∧ cells[1]? = some b ∧
      x = Client.newRequest i (a, b)

/-- In every run of the client the requests are those of the lines, from the first call of `cycle`
on. -/
def Serves (c : Issuer) (lines : List (List Char)) : Prop :=
  ∀ calls, run call c calls ≠ .error .cell ∧ run call c calls ≠ .error .endless ∧
    ∀ d, run call c calls = .ok d →
      if .cycle ∈ calls then OnePerLine lines (d.popped ++ d.waitingQueue)
      else d.popped ++ d.waitingQueue = []

/-- What holds of the client of the rows in every run. -/
structure Served (rows : List Row) (c : Issuer) : Prop where
  readable : Readable c.generator rows
  index : c.generator.rowIndex ≤ rows.length
  untouched : c.touch = false →
    c.generator.rowIndex = 0 ∧ c.nextRid = 0 ∧ c.popped = [] ∧ c.waitingQueue = []
  touched : c.touch = true → c.popped ++ c.waitingQueue = Client.created rows

theorem served_cycle (h : Served rows c) :
    ∃ d, c.cycle = .ok d ∧ Served rows d ∧ d.touch = true := by
  obtain ⟨d, hd, hread, hindex, hpopped, hclient⟩ := cycle_ok h.readable h.index
  cases htouch : c.touch with
  | true =>
    have htrue : (c.toClient rows).touch = true := htouch
    rw [Client.cycle, if_pos htrue] at hclient
    have hd' : d.touch = true := (congrArg Client.touch hclient).trans htouch
    have hwait : d.waitingQueue = c.waitingQueue := congrArg Client.waitingQueue hclient
    refine ⟨d, hd, ⟨hread, hindex, ?_, ?_⟩, hd'⟩
    · intro hfalse
      exact absurd (hd'.symm.trans hfalse) (by decide)
    · intro _
      rw [hpopped, hwait]
      exact h.touched htouch
  | false =>
    obtain ⟨hzero, hrid, hnone, hempty⟩ := h.untouched htouch
    have hfalse : ¬ (c.toClient rows).touch = true := by
      change ¬ c.touch = true
      rw [htouch]
      exact Bool.false_ne_true
    rw [Client.cycle, if_neg hfalse, Client.issueRequests_eq] at hclient
    have hd' : d.touch = true := congrArg Client.touch hclient
    have hwait : d.waitingQueue = Client.created rows := by
      have hqueue : d.waitingQueue = c.waitingQueue ++
          (rows.drop c.generator.rowIndex).mapIdx fun i => Client.newRequest (c.nextRid + i) :=
        congrArg Client.waitingQueue hclient
      rw [hqueue, hempty, hzero, hrid, List.nil_append, List.drop_zero]
      simp only [Nat.zero_add]
      rfl
    refine ⟨d, hd, ⟨hread, hindex, ?_, ?_⟩, hd'⟩
    · intro hcontra
      exact absurd (hd'.symm.trans hcontra) (by decide)
    · intro _
      rw [hpopped, hnone, hwait, List.nil_append]

theorem served_call (h : Served rows c) (hd : c.call e = .ok d) :
    Served rows d ∧ (d.touch = true ↔ c.touch = true ∨ e = .cycle) := by
  unfold call at hd
  split_ifs at hd with hexit
  cases e with
  | cycle =>
    obtain ⟨d', hd', hserved, htouch⟩ := served_cycle h
    cases hd'.symm.trans hd
    exact ⟨hserved, iff_of_true htouch (.inr rfl)⟩
  | popRequest =>
    dsimp only at hd
    rw [popRequest] at hd
    split at hd
    · cases hd
    next x rest hqueue =>
      cases hd
      refine ⟨⟨h.readable, h.index, ?_, ?_⟩, by simp⟩
      · intro hfalse
        have hempty := (h.untouched hfalse).2.2.2
        rw [hqueue] at hempty
        cases hempty
      · intro htrue
        have hall := h.touched htrue
        rw [hqueue] at hall
        rw [← hall, List.append_assoc]
        rfl
  | receiveResponse =>
    cases hd
    exact ⟨⟨h.readable, h.index, h.untouched, h.touched⟩, by simp [receiveResponse]⟩

theorem served_call_error {f : GeneratorFault} (h : Served rows c) (hf : c.call e = .error f) :
    f = .emptyQueue ∨ f = .exited := by
  unfold call at hf
  split_ifs at hf with hexit
  · cases hf
    exact .inr rfl
  · cases e with
    | cycle =>
      obtain ⟨d, hd, -⟩ := served_cycle h
      cases hd.symm.trans hf
    | popRequest =>
      dsimp only at hf
      rw [popRequest] at hf
      split at hf
      · cases hf
        exact .inl rfl
      · cases hf
    | receiveResponse => cases hf

end Runs

section Files

variable {lines : List (List Char)} {table : List (List ℕ)}

theorem create_ok (h : create text = .ok c) :
    (dataLines text).mapM parseLine = .ok c.generator.table ∧ c.generator.answerIndex = 1 ∧
      c.generator.rowIndex = 0 ∧ c.nextRid = 0 ∧ c.popped = [] ∧ c.waitingQueue = [] ∧
      c.touch = false ∧ c.exited = false := by
  obtain ⟨g, hg, rfl⟩ := map_ok h
  rw [init, parse] at hg
  rw [dataLines]
  split at hg
  next hnone =>
    cases hg
    rw [hnone]
    exact ⟨rfl, rfl, rfl, rfl, rfl, rfl, rfl, rfl⟩
  next header lines hlines =>
    obtain ⟨rows, hrows, rfl⟩ := map_ok hg
    rw [hlines]
    exact ⟨hrows, rfl, rfl, rfl, rfl, rfl, rfl, rfl⟩

/-- The row of a line has a number for each of its cells. -/
theorem parseLine_length {line : List Char} {cells : List ℕ} (h : parseLine line = .ok cells) :
    cells.length = (getlines ',' line).length := mapM_length h

theorem exists_cells {row : List ℕ} (h : 2 ≤ row.length) : ∃ x, HasCells 1 row x :=
  ⟨(row[0], row[1]), List.getElem?_eq_getElem (by omega), List.getElem?_eq_getElem (by omega)⟩

theorem exists_rows (h : ∀ row ∈ table, 2 ≤ row.length) :
    ∃ rows, List.Forall₂ (HasCells 1) table rows := by
  induction table with
  | nil => exact ⟨[], List.Forall₂.nil⟩
  | cons row table ih =>
    obtain ⟨x, hx⟩ := exists_cells (h row List.mem_cons_self)
    obtain ⟨rows, hrows⟩ := ih fun r hr => h r (List.mem_cons_of_mem _ hr)
    exact ⟨x :: rows, List.Forall₂.cons hx hrows⟩

/-- The requests created for the rows of the lines. -/
theorem onePerLine_created (hlines : lines.mapM parseLine = .ok table)
    (hrows : List.Forall₂ (HasCells 1) table rows) : OnePerLine lines (Client.created rows) := by
  have htable := mapM_forall₂ hlines
  constructor
  · rw [Client.created, List.length_mapIdx, ← hrows.length_eq, ← htable.length_eq]
  · intro i line x hline hx
    rw [Client.created, List.getElem?_mapIdx] at hx
    obtain ⟨row, hrow, rfl⟩ := Option.map_eq_some_iff.mp hx
    obtain ⟨hi, rfl⟩ := List.getElem?_eq_some_iff.mp hline
    obtain ⟨hi', rfl⟩ := List.getElem?_eq_some_iff.mp hrow
    have hcells := (List.forall₂_iff_get.mp htable).2 i hi (by rw [hrows.length_eq]; exact hi')
    have hpair := (List.forall₂_iff_get.mp hrows).2 i (by rw [hrows.length_eq]; exact hi') hi'
    exact ⟨_, _, _, hcells, hpair.1, hpair.2, rfl⟩

theorem serves_of_served (h : Served rows c) (htouch : c.touch = false)
    (hlines : OnePerLine lines (Client.created rows)) : Serves c lines := by
  have hstep : ∀ s e t, Served rows s → call s e = .ok t → Served rows t :=
    fun _ _ _ hs ht => (served_call hs ht).1
  intro calls
  refine ⟨?_, ?_, ?_⟩
  · apply run_ne_error (Served rows) hstep _ h
    intro s e hs hf
    rcases served_call_error hs hf with hf | hf <;> cases hf
  · apply run_ne_error (Served rows) hstep _ h
    intro s e hs hf
    rcases served_call_error hs hf with hf | hf <;> cases hf
  · intro d hd
    obtain ⟨hserved, hiff⟩ : Served rows d ∧ (d.touch = true ↔ .cycle ∈ [] ++ calls) := by
      apply run_history (fun past s => Served rows s ∧ (s.touch = true ↔ .cycle ∈ past))
        (fun _ _ => True) _ _ (allCalls_of_forall fun _ _ _ => trivial) hd
      · rintro past s e t ⟨hs, hpast⟩ - ht
        obtain ⟨hnext, htouch⟩ := served_call hs ht
        refine ⟨hnext, ?_⟩
        rw [htouch, hpast, List.mem_append, List.mem_singleton, eq_comm (a := e)]
      · exact ⟨h, by simp [htouch]⟩
    rw [List.nil_append] at hiff
    split_ifs with hcalled
    · rw [hserved.touched (hiff.mpr hcalled)]
      exact hlines
    · have hfalse : d.touch = false := by
        rw [← Bool.not_eq_true, hiff]
        exact hcalled
      obtain ⟨-, -, hpopped, hwaiting⟩ := hserved.untouched hfalse
      rw [hpopped, hwaiting, List.append_nil]

theorem reads_of_cells {g : RequestGenerator} (h : ∀ row ∈ g.table, ∃ x, HasCells g.answerIndex row x) :
    Reads g := by
  intro k _ hdata hfault
  have hk : k < g.table.length := of_decide_eq_true hdata
  obtain ⟨x, hinput, hanswer⟩ := h g.table[k] (List.getElem_mem hk)
  rw [getQaLength, List.getElem?_eq_getElem hk] at hfault
  simp only [hinput, hanswer] at hfault
  cases hfault

/-- A row that is read has two cells. -/
theorem cells_of_reads {g : RequestGenerator} (h : Reads g) (hindex : g.answerIndex = 1)
    (hfew : g.table.length < 2 ^ 32) {row : List ℕ} (hrow : row ∈ g.table) : 2 ≤ row.length := by
  obtain ⟨k, hk, rfl⟩ := List.mem_iff_getElem.mp hrow
  by_contra hshort
  apply h k (by omega) (decide_eq_true hk)
  have hnone : g.table[k][1]? = none := List.getElem?_eq_none (by omega)
  rw [getQaLength, List.getElem?_eq_getElem hk]
  simp only [hindex, hnone]
  cases g.table[k][0]? <;> rfl

/-- All the rows that are read have their cells, and the requests are those of the lines that are not
blank, exactly if every data line has two cells and `row_index` can number the lines. -/
theorem requests_per_line (text : List Char) (c : Issuer) (h : create text = .ok c) :
    (Reads c.generator ∧ Serves c ((dataLines text).filter (· ≠ []))) ↔
      (∀ line ∈ dataLines text, 2 ≤ (getlines ',' line).length) ∧
        (dataLines text).length < 2 ^ 32 := by
  obtain ⟨hparse, hanswer, hindex, hrid, hpopped, hwaiting, htouch, hexited⟩ := create_ok h
  have hlines := mapM_forall₂ hparse
  constructor
  · rintro ⟨hreads, hserves⟩
    have hfew : (dataLines text).length < 2 ^ 32 := by
      by_contra hmany
      have hlong : 2 ^ 32 ≤ c.generator.table.length := by
        rw [← hlines.length_eq]
        exact Nat.not_lt.mp hmany
      have hloop : c.cycle = .error .cell ∨ c.cycle = .error .endless := by
        rcases issueLoop_endless (c.generator.table.length + 1) hlong
          (by rw [hindex]; decide) with hf | hf
        · left
          rw [cycle, if_neg (by rw [htouch]; exact Bool.false_ne_true), hf]
          rfl
        · right
          rw [cycle, if_neg (by rw [htouch]; exact Bool.false_ne_true), hf]
          rfl
      have hcall : call c .cycle = c.cycle := by
        simp only [call, hexited, Bool.false_eq_true, if_false]
      obtain ⟨hcell, hendless, -⟩ := hserves [.cycle]
      rcases hloop with hf | hf
      · exact hcell (by simp only [run, hcall, hf])
      · exact hendless (by simp only [run, hcall, hf])
    refine ⟨?_, hfew⟩
    intro line hline
    obtain ⟨row, hrow, hcells⟩ := forall₂_left hlines line hline
    rw [← parseLine_length hcells]
    exact cells_of_reads hreads hanswer (by rwa [← hlines.length_eq]) hrow
  · rintro ⟨hcells, hfew⟩
    have hrows : ∀ row ∈ c.generator.table, 2 ≤ row.length := by
      intro row hrow
      obtain ⟨line, hline, hparse⟩ := forall₂_right hlines row hrow
      rw [parseLine_length hparse]
      exact hcells line hline
    obtain ⟨rows, hall⟩ := exists_rows hrows
    have hfilter : (dataLines text).filter (· ≠ []) = dataLines text := by
      rw [List.filter_eq_self]
      intro line hline
      rw [decide_eq_true_iff]
      rintro rfl
      have htwo := hcells [] hline
      exact absurd htwo (by decide)
    have hserved : Served rows c := by
      refine ⟨⟨by rw [hanswer]; exact hall, ?_⟩, ?_, fun _ => ⟨hindex, hrid, hpopped, hwaiting⟩, ?_⟩
      · rwa [← hall.length_eq, ← hlines.length_eq]
      · rw [hindex]
        exact Nat.zero_le _
      · rw [htouch]
        exact fun hfalse => absurd hfalse Bool.false_ne_true
    refine ⟨reads_of_cells fun row hrow => ?_, ?_⟩
    · rw [hanswer]
      exact exists_cells (hrows row hrow)
    · rw [hfilter]
      exact serves_of_served hserved htouch (onePerLine_created hparse hall)

/-- A trace of two requests, with a blank line between them. -/
def blankTrace : List Char := ['q', ',', 'a', '\n', '5', ',', '1', '\n', '\n', '7', ',', '0', '\n']

/-- The row of a blank line has no cell at all. -/
theorem requests_per_line_blank : ∃ c, create blankTrace = .ok c ∧
    ¬ (Reads c.generator ∧ Serves c ((dataLines blankTrace).filter (· ≠ []))) := by
  refine ⟨_, rfl, ?_⟩
  rintro ⟨hreads, -⟩
  exact hreads 1 (by decide) rfl rfl

/-- Without the blank line, and with the ends of lines of another system. -/
def twoLines : List Char :=
  ['q', ',', 'a', '\r', '\n', '5', ',', '1', '\r', '\n', '7', ',', '0', '\r', '\n']

theorem requests_per_line_two : ∃ c, create twoLines = .ok c ∧
    Reads c.generator ∧ Serves c ((dataLines twoLines).filter (· ≠ [])) := by
  obtain ⟨c, hc⟩ := exists_ok (x := create twoLines) rfl
  exact ⟨c, hc, (requests_per_line twoLines c hc).mpr ⟨by decide, by decide⟩⟩

end Files

end NewPims.Issuer

import NewPims.NeuPIMSystolicWS.Accounting

/-! The bytes that a tile's statistics count, against the requests that the core makes for the tile:
every request is counted as `alignment` bytes, whatever its size. -/
namespace NewPims.NeuPIMSystolicWS

open Bank Transition NeuPIMSCore Session

/-- What a tile reads from the memory, and what it writes there. -/
inductive Direction
  | reads | writes
  deriving DecidableEq

namespace Direction

def reqType : Direction → MemoryAccessType
  | .reads => .READ
  | .writes => .WRITE

/-- The instruction is turned into requests; a store without source addresses makes none. -/
def expands : Direction → Instruction → Bool
  | .reads, inst => inst.opcode == .MOVIN
  | .writes, inst => inst.opcode.isStore && !inst.srcAddrs.isEmpty

def queue : Direction → NeuPIMSCore → List Instruction
  | .reads => loading
  | .writes => storing

def bytes : Direction → TileStat → ℕ
  | .reads, stat => stat.memoryReads
  | .writes, stat => stat.memoryWrites

/-- The tile has an instruction that is turned into requests. -/
def transfers (d : Direction) (tile : Tile) : Bool := !tile.skip && tile.instructions.any d.expands

/-- A request that is made for the tile. -/
def requestOf (d : Direction) (ptr : TilePtr) (r : MemoryAccess) : Bool :=
  r.parentTile == ptr && r.reqType == d.reqType

def otherSize (d : Direction) (config : SimulationConfig) (r : MemoryAccess) : Bool :=
  r.reqType == d.reqType && r.size != config.dramReqSize

end Direction

/-- The requests taken from the core so far, and those still in its queues. -/
def madeRequests (config : SimulationConfig) (past : List MemoryAccess) (c : NeuPIMSCore) :
    List MemoryAccess := past ++ queuedRequests config c

def requestsOf (config : SimulationConfig) (past : List MemoryAccess) (c : NeuPIMSCore)
    (d : Direction) (ptr : TilePtr) : ℕ := (madeRequests config past c).countP (d.requestOf ptr)

structure Metered (config : SimulationConfig) (d : Direction) (past : List MemoryAccess)
    (c : NeuPIMSCore) : Prop where
  bytes : ∀ ptr tile, c.heap ptr = some tile →
    d.bytes tile.stat = requestsOf config past c d ptr * (AddressConfig.alignment config).toNat
  transfers : ∀ ptr tile, c.heap ptr = some tile → (d.transfers tile ↔
    0 < requestsOf config past c d ptr ∨ ∃ i ∈ d.queue c, i.parentTile = ptr ∧ d.expands i)
  fresh : ∀ ptr, c.nextTile ≤ ptr → requestsOf config past c d ptr = 0
  size : (madeRequests config past c).countP (d.otherSize config) = 0

variable {config : SimulationConfig} {set : RobinHood} {d : Direction} {c c' : NeuPIMSCore}
  {past past' u : List MemoryAccess} {platform : StagePlatform} {ptr : TilePtr} {tile tile' : Tile}

section Steps

/-- The byte count of the tile is as before, and so is whether it makes requests. -/
def SameBytes (d : Direction) (tile tile' : Tile) : Prop :=
  d.bytes tile'.stat = d.bytes tile.stat ∧ d.transfers tile' = d.transfers tile

theorem sameBytes_refl (tile : Tile) : SameBytes d tile tile := ⟨rfl, rfl⟩

theorem sameBytes_of (hreads : tile'.stat.memoryReads = tile.stat.memoryReads)
    (hwrites : tile'.stat.memoryWrites = tile.stat.memoryWrites)
    (hinsts : tile'.instructions = tile.instructions) (hskip : tile'.skip = tile.skip) :
    SameBytes d tile tile' := by
  refine ⟨?_, by rw [Direction.transfers, hinsts, hskip, Direction.transfers]⟩
  cases d with
  | reads => exact hreads
  | writes => exact hwrites

/-- The tiles of the core keep their byte counts. -/
structure KeepsBytes (d : Direction) (c c' : NeuPIMSCore) : Prop where
  next : c'.nextTile = c.nextTile
  heap : ∀ ptr tile', c'.heap ptr = some tile' →
    ∃ tile, c.heap ptr = some tile ∧ SameBytes d tile tile'

theorem keepsBytes_of_eq (hheap : c'.heap = c.heap) (hnext : c'.nextTile = c.nextTile) :
    KeepsBytes d c c' :=
  ⟨hnext, fun ptr tile' h => ⟨tile', by rw [← hheap]; exact h, sameBytes_refl tile'⟩⟩

theorem keepsBytes_trans {c₁ c₂ c₃ : NeuPIMSCore} (h : KeepsBytes d c₁ c₂) (h' : KeepsBytes d c₂ c₃) :
    KeepsBytes d c₁ c₃ := by
  refine ⟨h'.next.trans h.next, ?_⟩
  intro ptr tile₃ h₃
  obtain ⟨tile₂, h₂, hbytes₂, htransfers₂⟩ := h'.heap ptr tile₃ h₃
  obtain ⟨tile₁, h₁, hbytes₁, htransfers₁⟩ := h.heap ptr tile₂ h₂
  exact ⟨tile₁, h₁, hbytes₂.trans hbytes₁, htransfers₂.trans htransfers₁⟩

theorem keepsBytes_update (htile : c.heap ptr = some tile)
    (hheap : c'.heap = Function.update c.heap ptr (some tile')) (hnext : c'.nextTile = c.nextTile)
    (hsame : SameBytes d tile tile') : KeepsBytes d c c' := by
  refine ⟨hnext, ?_⟩
  intro q tile₁ h₁
  rw [hheap] at h₁
  by_cases hq : q = ptr
  · subst hq
    rw [Function.update_self] at h₁
    cases h₁
    exact ⟨tile, htile, hsame⟩
  · rw [Function.update_of_ne hq] at h₁
    exact ⟨tile₁, h₁, sameBytes_refl tile₁⟩

theorem keepsBytes_complete {inst : Instruction} {e : NeuPIMSCore}
    (hfront : Front config c platform inst e) (h : complete e platform inst = .ok c') :
    KeepsBytes d c c' := by
  obtain ⟨-, hheap, hnext, -, -, -⟩ := front_same hfront
  obtain ⟨-, l, tile, -, htile, hc'⟩ := complete_ok h
  rw [hheap] at htile
  obtain ⟨tile', rfl, hsame⟩ : ∃ tile', c' = (e.setLane platform l).setTile inst.parentTile tile' ∧
      SameBytes d tile tile' := ⟨_, hc', sameBytes_of rfl rfl rfl rfl⟩
  refine keepsBytes_update htile ?_ hnext hsame
  rw [← hheap]
  rfl

theorem keepsBytes_chargeCycle {pipeline : List Instruction}
    (h : chargeCycle pipeline c = .ok c') : KeepsBytes d c c' := by
  unfold chargeCycle at h
  cases pipeline with
  | nil =>
    cases h
    exact keepsBytes_of_eq rfl rfl
  | cons inst rest =>
    cases htile : c.heap inst.parentTile with
    | none => simp [htile] at h
    | some tile =>
      simp only [htile] at h
      cases h
      exact keepsBytes_update htile rfl rfl (sameBytes_of rfl rfl rfl rfl)

theorem keepsBytes_dispatch {inst : Instruction}
    (h : dispatch config platform c inst = .ok c') : KeepsBytes d c c' := by
  unfold dispatch at h
  split_ifs at h with hgemm hvector
  · cases platform with
    | PIM => cases h
    | SA =>
      change issueGemm config c inst = .ok c' at h
      unfold issueGemm at h
      cases htile : c.heap inst.parentTile with
      | none => simp [htile] at h
      | some tile =>
        simp only [htile] at h
        cases h
        exact keepsBytes_update htile rfl rfl (sameBytes_of rfl rfl rfl rfl)
  · obtain ⟨cycles, -, h⟩ := bind_ok.mp h
    cases hleast : leastFilledVpu c (List.range config.vectorCoreCount) none maxCycle with
    | mk least finish =>
      rw [hleast] at h
      cases least with
      | none => cases h
      | some k =>
        cases h
        exact keepsBytes_of_eq rfl rfl
  · cases h
    exact keepsBytes_of_eq rfl rfl

theorem keepsBytes_executeQueueCycle (h : executeQueueCycle config platform c = .ok c') :
    KeepsBytes d c c' := by
  unfold executeQueueCycle at h
  cases hqueue : (c.lane platform).exInstQueue with
  | nil =>
    simp only [hqueue] at h
    cases h
    exact keepsBytes_of_eq rfl rfl
  | cons front rest =>
    simp only [hqueue] at h
    split_ifs at h with hready hvalid
    · obtain ⟨e, he, h⟩ := bind_ok.mp h
      obtain ⟨s, -, rfl⟩ := expectResult_ok h
      have hdispatch : KeepsBytes d _ e := keepsBytes_dispatch he
      have htaken : KeepsBytes d c (c.setLane platform
          { c.lane platform with exInstQueue := rest }) := keepsBytes_of_eq rfl rfl
      exact keepsBytes_trans htaken (keepsBytes_trans hdispatch (keepsBytes_of_eq rfl rfl))
    · cases h
      exact keepsBytes_of_eq rfl rfl
    · cases h
      exact keepsBytes_of_eq rfl rfl

theorem keepsBytes_retire : KeepsBytes d c (c.retire platform) := by
  refine ⟨rfl, ?_⟩
  intro q tile' htile'
  by_cases hdrained : q ∈ (c.lane platform).tiles ∧ c.drained q = true
  · rw [heap_retire_drained hdrained] at htile'
    obtain ⟨tile, htile, rfl⟩ := Option.map_eq_some_iff.mp htile'
    exact ⟨tile, htile, sameBytes_of rfl rfl rfl rfl⟩
  · rw [heap_retire hdrained] at htile'
    exact ⟨tile', htile', sameBytes_refl tile'⟩

theorem keepsBytes_pushMemoryResponse {response : MemoryAccess}
    (h : c.pushMemoryResponse response = .ok c') : KeepsBytes d c c' := by
  obtain ⟨tile, tile', htile, hcount, hresponded⟩ := pushMemoryResponse_ok h
  have hsame : SameBytes d tile tile' := by
    unfold countResponse at hcount
    split_ifs at hcount <;> cases hcount <;> exact sameBytes_of rfl rfl rfl rfl
  cases hresponded <;> exact keepsBytes_update htile rfl rfl hsame

theorem keepsBytes_popFinishedTile : KeepsBytes d c c.popFinishedTile.2 := by
  unfold popFinishedTile
  cases c.finishedTiles with
  | nil => exact keepsBytes_of_eq rfl rfl
  | cons q rest =>
    refine ⟨rfl, ?_⟩
    intro ptr tile' htile'
    by_cases hq : ptr = q
    · subst hq
      simp at htile'
    · exact ⟨tile', by simpa [hq] using htile', sameBytes_refl tile'⟩

end Steps

section Meter

/-- Nothing of the direction is turned into requests. -/
structure Quiet (config : SimulationConfig) (d : Direction) (past past' : List MemoryAccess)
    (c c' : NeuPIMSCore) : Prop where
  keeps : KeepsBytes d c c'
  made : ∀ P : MemoryAccess → Bool, (∀ r, P r = true → r.reqType = d.reqType) →
    (madeRequests config past' c').countP P = (madeRequests config past c).countP P
  queue : ∀ i, d.expands i → (i ∈ d.queue c' ↔ i ∈ d.queue c)

theorem requestOf_reqType {r : MemoryAccess} (h : d.requestOf ptr r = true) :
    r.reqType = d.reqType := by
  rw [Direction.requestOf, Bool.and_eq_true] at h
  exact beq_iff_eq.mp h.2

theorem otherSize_reqType {r : MemoryAccess} (h : d.otherSize config r = true) :
    r.reqType = d.reqType := by
  rw [Direction.otherSize, Bool.and_eq_true] at h
  exact beq_iff_eq.mp h.1

theorem metered_quiet (h : Metered config d past c) (hquiet : Quiet config d past past' c c') :
    Metered config d past' c' := by
  have hrequests : ∀ q, requestsOf config past' c' d q = requestsOf config past c d q :=
    fun q => hquiet.made _ fun _ => requestOf_reqType
  refine ⟨?_, ?_, ?_, ?_⟩
  · intro q tile' htile'
    obtain ⟨tile, htile, hsame⟩ := hquiet.keeps.heap q tile' htile'
    rw [hsame.1, hrequests]
    exact h.bytes q tile htile
  · intro q tile' htile'
    obtain ⟨tile, htile, hsame⟩ := hquiet.keeps.heap q tile' htile'
    rw [hsame.2, hrequests, h.transfers q tile htile]
    apply or_congr_right
    constructor
    · rintro ⟨i, hi, hparent, hexpands⟩
      exact ⟨i, (hquiet.queue i hexpands).mpr hi, hparent, hexpands⟩
    · rintro ⟨i, hi, hparent, hexpands⟩
      exact ⟨i, (hquiet.queue i hexpands).mp hi, hparent, hexpands⟩
  · intro q hq
    rw [hquiet.keeps.next] at hq
    rw [hrequests]
    exact h.fresh q hq
  · rw [hquiet.made _ fun _ => otherSize_reqType]
    exact h.size

/-- The instruction `front` leaves the queue, and its requests are made. -/
structure Expanded (config : SimulationConfig) (d : Direction) (c c' : NeuPIMSCore)
    (front : Instruction) (accesses : List MemoryAccess) (tile tile' : Tile) : Prop where
  queue : ∀ i, i ∈ d.queue c ↔ i = front ∨ i ∈ d.queue c'
  made : ∀ P : MemoryAccess → Bool, (queuedRequests config c').countP P =
    (queuedRequests config c).countP P + accesses.countP P
  access : ∀ a ∈ accesses, a.parentTile = front.parentTile ∧ a.reqType = d.reqType ∧
    a.size = config.dramReqSize
  nonempty : d.expands front ↔ accesses ≠ []
  old : front.parentTile < c.nextTile
  owner : c.heap front.parentTile = some tile
  heap : c'.heap = Function.update c.heap front.parentTile (some tile')
  next : c'.nextTile = c.nextTile
  bytes : d.bytes tile'.stat =
    d.bytes tile.stat + accesses.length * (AddressConfig.alignment config).toNat
  transfers : d.transfers tile' = d.transfers tile

theorem metered_expanded {front : Instruction} {accesses : List MemoryAccess}
    (h : Metered config d past c) (hexpanded : Expanded config d c c' front accesses tile tile') :
    Metered config d past c' := by
  have hmade : ∀ P, (madeRequests config past c').countP P =
      (madeRequests config past c).countP P + accesses.countP P := by
    intro P
    rw [madeRequests, madeRequests, List.countP_append, List.countP_append, hexpanded.made,
      Nat.add_assoc]
  -- the requests made are those of the one tile
  have hown : requestsOf config past c' d front.parentTile =
      requestsOf config past c d front.parentTile + accesses.length := by
    rw [requestsOf, hmade, requestsOf, Nat.add_left_cancel_iff, List.countP_eq_length]
    intro a ha
    obtain ⟨hparent, htype, -⟩ := hexpanded.access a ha
    simp [Direction.requestOf, hparent, htype]
  have hother : ∀ q, q ≠ front.parentTile →
      requestsOf config past c' d q = requestsOf config past c d q := by
    intro q hq
    rw [requestsOf, hmade, requestsOf, Nat.add_eq_left, List.countP_eq_zero]
    intro a ha
    obtain ⟨hparent, -, -⟩ := hexpanded.access a ha
    simp [Direction.requestOf, hparent, Ne.symm hq]
  refine ⟨?_, ?_, ?_, ?_⟩
  · intro q tile₁ htile₁
    rw [hexpanded.heap] at htile₁
    by_cases hq : q = front.parentTile
    · subst hq
      rw [Function.update_self] at htile₁
      cases htile₁
      rw [hown, hexpanded.bytes, h.bytes _ tile hexpanded.owner, Nat.add_mul]
    · rw [Function.update_of_ne hq] at htile₁
      rw [hother q hq]
      exact h.bytes q tile₁ htile₁
  · intro q tile₁ htile₁
    rw [hexpanded.heap] at htile₁
    by_cases hq : q = front.parentTile
    · subst hq
      rw [Function.update_self] at htile₁
      cases htile₁
      rw [hexpanded.transfers, h.transfers _ tile hexpanded.owner, hown]
      constructor
      · rintro (hpos | ⟨i, hi, hparent, hexpands⟩)
        · exact Or.inl (Nat.lt_of_lt_of_le hpos (Nat.le_add_right _ _))
        · rcases (hexpanded.queue i).mp hi with rfl | hi
          · have hlength := List.length_pos_iff.mpr (hexpanded.nonempty.mp hexpands)
            exact Or.inl (Nat.lt_of_lt_of_le hlength (Nat.le_add_left _ _))
          · exact Or.inr ⟨i, hi, hparent, hexpands⟩
      · rintro (hpos | ⟨i, hi, hparent, hexpands⟩)
        · by_cases hnil : accesses = []
          · rw [hnil, List.length_nil, Nat.add_zero] at hpos
            exact Or.inl hpos
          · exact Or.inr ⟨front, (hexpanded.queue front).mpr (Or.inl rfl), rfl,
              hexpanded.nonempty.mpr hnil⟩
        · exact Or.inr ⟨i, (hexpanded.queue i).mpr (Or.inr hi), hparent, hexpands⟩
    · rw [Function.update_of_ne hq] at htile₁
      rw [hother q hq, h.transfers q tile₁ htile₁]
      apply or_congr_right
      constructor
      · rintro ⟨i, hi, hparent, hexpands⟩
        rcases (hexpanded.queue i).mp hi with rfl | hi
        · exact absurd hparent.symm hq
        · exact ⟨i, hi, hparent, hexpands⟩
      · rintro ⟨i, hi, hparent, hexpands⟩
        exact ⟨i, (hexpanded.queue i).mpr (Or.inr hi), hparent, hexpands⟩
  · intro q hq
    rw [hexpanded.next] at hq
    have hne : q ≠ front.parentTile := Nat.ne_of_gt (Nat.lt_of_lt_of_le hexpanded.old hq)
    rw [hother q hne]
    exact h.fresh q hq
  · rw [hmade, h.size, Nat.zero_add, List.countP_eq_zero]
    intro a ha
    obtain ⟨-, -, hsize⟩ := hexpanded.access a ha
    simp [Direction.otherSize, hsize]

end Meter

end NewPims.NeuPIMSystolicWS

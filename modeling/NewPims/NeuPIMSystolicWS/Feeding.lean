import NewPims.NeuPIMSystolicWS.Room

/-! A core that is given tiles of the systolic array in a fixed order. Where the tiles keep to
budgets, one for the scratchpad buffer of each tile and one for the accumulator buffer of each chain
of tiles that accumulate, no allocation check fails, however the calls of the simulator follow one
another. -/
namespace NewPims

open Transition NeuPIMSCore

section Tiles

variable {limit : ℕ}

/-- The instructions that load. -/
def Tile.loads (tile : Tile) : List Instruction :=
  tile.instructions.filter fun i => i.opcode = .MOVIN

/-- What the tile allocates in its scratchpad buffer keeps to some budget, and what it allocates in
the accumulator keeps to `g`. A tile that accumulates loads nothing to the accumulator. -/
structure Fits (g : Budget AddrType limit) (tile : Tile) : Prop where
  runs : tile.skip = false
  distinct : (tile.loads.map (·.destAddr)).Nodup
  spad : ∃ b : Budget AddrType limit, ∀ i ∈ tile.loads, ¬ ACCUM_SPAD_BASE ≤ i.destAddr →
    b.Allows i.destAddr i.size
  acc : ∀ i ∈ tile.loads, ACCUM_SPAD_BASE ≤ i.destAddr →
    tile.accum = false ∧ g.Allows i.destAddr i.size
  computes : ∀ i ∈ tile.instructions, takes .SA .compute i → g.Allows i.destAddr i.size

/-- Tiles that fit one after the other, where the accumulator buffer at hand keeps to `g`. -/
inductive Feedable : Budget AddrType limit → List Tile → Prop
  | nil {g : Budget AddrType limit} : Feedable g []
  | fresh {g g' : Budget AddrType limit} {tile : Tile} {tiles : List Tile} :
      tile.accum = false → Fits g' tile → Feedable g' tiles → Feedable g (tile :: tiles)
  | accum {g : Budget AddrType limit} {tile : Tile} {tiles : List Tile} :
      tile.accum = true → Fits g tile → Feedable g tiles → Feedable g (tile :: tiles)

theorem feedable_append {g : Budget AddrType limit} {xs ys : List Tile} (hxs : Feedable g xs)
    (hys : ∀ g : Budget AddrType limit, Feedable g ys) : Feedable g (xs ++ ys) := by
  induction hxs with
  | nil => exact hys _
  | fresh haccum hfits _ ih => exact .fresh haccum hfits ih
  | accum haccum hfits _ ih => exact .accum haccum hfits ih

/-- Operations that are fed one after the other. -/
theorem feedable_flatten {parts : List (List Tile)}
    (h : ∀ part ∈ parts, ∀ g : Budget AddrType limit, Feedable g part)
    (g : Budget AddrType limit) : Feedable g parts.flatten := by
  induction parts generalizing g with
  | nil => exact .nil
  | cons part parts ih =>
    rw [List.flatten_cons]
    refine feedable_append (h part List.mem_cons_self g) ?_
    exact ih fun part hpart => h part (List.mem_cons_of_mem _ hpart)

/-- Tiles that all fit the same budget, the first of which takes a new buffer. -/
theorem feedable_of_fits {g : Budget AddrType limit} {tiles : List Tile}
    (hfits : ∀ tile ∈ tiles, Fits g tile) (hhead : ∀ tile ∈ tiles.head?, tile.accum = false)
    (g' : Budget AddrType limit) : Feedable g' tiles := by
  have hrest : ∀ ts : List Tile, (∀ tile ∈ ts, Fits g tile) → Feedable g ts := by
    intro ts hts
    induction ts with
    | nil => exact .nil
    | cons tile ts ih =>
      have htile := hts tile List.mem_cons_self
      have hfeed := ih fun t ht => hts t (List.mem_cons_of_mem _ ht)
      cases haccum : tile.accum with
      | false => exact .fresh haccum htile hfeed
      | true => exact .accum haccum htile hfeed
  cases tiles with
  | nil => exact .nil
  | cons tile ts =>
    refine .fresh (hhead tile rfl) (hfits tile List.mem_cons_self) ?_
    exact hrest ts fun t ht => hfits t (List.mem_cons_of_mem _ ht)

theorem fits_of_prefix {g : Budget AddrType limit} {chain tiles : List Tile}
    (h : Feedable g tiles) (hchain : chain <+: tiles) (haccum : ∀ tile ∈ chain, tile.accum = true) :
    ∀ tile ∈ chain, Fits g tile := by
  induction h generalizing chain with
  | nil =>
    rw [List.prefix_nil.mp hchain]
    exact fun tile htile => absurd htile List.not_mem_nil
  | fresh hfresh _ _ _ =>
    rcases List.prefix_cons_iff.mp hchain with rfl | ⟨rest, rfl, -⟩
    · exact fun tile htile => absurd htile List.not_mem_nil
    · exact absurd (haccum _ List.mem_cons_self) (Bool.eq_false_iff.mp hfresh)
  | accum _ hfits _ ih =>
    rcases List.prefix_cons_iff.mp hchain with rfl | ⟨rest, rfl, hrest⟩
    · exact fun tile htile => absurd htile List.not_mem_nil
    · intro tile htile
      rcases List.mem_cons.mp htile with rfl | htile
      · exact hfits
      · exact ih hrest (fun t ht => haccum t (List.mem_cons_of_mem _ ht)) tile htile

/-- A chain of tiles, all but the first of which accumulate, fits one budget. -/
theorem exists_fits_chain {g : Budget AddrType limit} {chain tiles : List Tile}
    (h : Feedable g tiles) (hchain : chain <:+: tiles)
    (haccum : ∀ tile ∈ chain.tail, tile.accum = true) :
    ∃ g' : Budget AddrType limit, ∀ tile ∈ chain, Fits g' tile := by
  have hfirst : ∀ {g : Budget AddrType limit} {tile : Tile} {rest tiles : List Tile},
      Fits g tile → Feedable g tiles → rest <+: tiles → (∀ t ∈ rest, t.accum = true) →
        ∀ t ∈ tile :: rest, Fits g t := by
    intro g tile rest tiles hfits hfeed hprefix hrest t ht
    rcases List.mem_cons.mp ht with rfl | ht
    · exact hfits
    · exact fits_of_prefix hfeed hprefix hrest t ht
  induction h with
  | nil =>
    rw [List.infix_nil.mp hchain]
    exact ⟨.empty _ _, fun tile htile => absurd htile List.not_mem_nil⟩
  | fresh _ hfits hfeed ih =>
    rcases List.infix_cons_iff.mp hchain with hprefix | hinfix
    · rcases List.prefix_cons_iff.mp hprefix with rfl | ⟨rest, rfl, hrest⟩
      · exact ⟨.empty _ _, fun tile htile => absurd htile List.not_mem_nil⟩
      · exact ⟨_, hfirst hfits hfeed hrest haccum⟩
    · exact ih hinfix
  | accum _ hfits hfeed ih =>
    rcases List.infix_cons_iff.mp hchain with hprefix | hinfix
    · rcases List.prefix_cons_iff.mp hprefix with rfl | ⟨rest, rfl, hrest⟩
      · exact ⟨.empty _ _, fun tile htile => absurd htile List.not_mem_nil⟩
      · exact ⟨_, hfirst hfits hfeed hrest haccum⟩
    · exact ih hinfix

/-- The bytes that a tile loads to its scratchpad buffer. -/
def Tile.spadBytes (tile : Tile) : ℕ :=
  ((tile.loads.filter fun i => ¬ ACCUM_SPAD_BASE ≤ i.destAddr).map (·.size)).sum

theorem spadBytes_le {g : Budget AddrType limit} {tile : Tile} (h : Fits g tile) :
    tile.spadBytes ≤ limit := by
  obtain ⟨b, hb⟩ := h.spad
  refine Budget.sum_le_of_allows (b := b)
    (h.distinct.sublist (List.Sublist.map _ List.filter_sublist)) ?_
  intro i hi
  obtain ⟨hload, hside⟩ := List.mem_filter.mp hi
  exact hb i hload (of_decide_eq_true hside)

/-- The instruction makes an entry in the accumulator, unless its key has one. -/
def Instruction.accEntry (i : Instruction) : Prop :=
  (i.opcode = .MOVIN ∧ ACCUM_SPAD_BASE ≤ i.destAddr) ∨ takes .SA .compute i

/-- The entries of a chain in the accumulator, which have different keys. -/
theorem accEntries_le {g : Budget AddrType limit} {chain : List Tile}
    (h : ∀ tile ∈ chain, Fits g tile) {insts : List Instruction}
    (hinsts : ∀ i ∈ insts, i.accEntry ∧ ∃ tile ∈ chain, i ∈ tile.instructions)
    (hnodup : (insts.map (·.destAddr)).Nodup) : (insts.map (·.size)).sum ≤ limit := by
  refine Budget.sum_le_of_allows (b := g) hnodup ?_
  intro i hi
  obtain ⟨hentry, tile, htile, hmem⟩ := hinsts i hi
  rcases hentry with ⟨hopcode, hside⟩ | htakes
  · exact ((h tile htile).acc i (List.mem_filter.mpr ⟨hmem, decide_eq_true hopcode⟩) hside).2
  · exact (h tile htile).computes i hmem htakes

end Tiles

/-- New budgets for the buffers that a tile takes. -/
def RoomPlan.flip {limit : ℕ} (p : RoomPlan limit) (spadId accumSpadId : ℕ) (accum : Bool)
    (spad acc : Budget AddrType limit) : RoomPlan limit where
  spad := Function.update p.spad spadId spad
  acc := if accum then p.acc else Function.update p.acc accumSpadId acc

namespace Lane

variable {l : Lane} {limit spadId accumSpadId : ℕ} {p : RoomPlan limit} {accum : Bool}
  {b g : Budget AddrType limit} {insts : List Instruction}

/-- Nothing that is queued allocates in the buffers that are flushed. -/
structure Free (l : Lane) (spadId accumSpadId : ℕ) (accum : Bool) : Prop where
  loads : ∀ i ∈ l.ldInstQueue, i.spadId ≠ spadId ∧ (accum = false → i.accumSpadId ≠ accumSpadId)
  computes : accum = false → ∀ i ∈ l.exInstQueue, i.accumSpadId ≠ accumSpadId

theorem planned_flip (h : l.Planned p) (hfree : l.Free spadId accumSpadId accum) :
    (l.flip spadId accumSpadId accum).Planned (p.flip spadId accumSpadId accum b g) := by
  have hspad : ∀ k, (l.spad.flush spadId).Room k (Function.update p.spad spadId b k) := by
    intro k
    by_cases hk : k = spadId
    · rw [hk, Function.update_self]
      exact Sram.room_flush _ _ _
    · rw [Function.update_of_ne hk]
      exact (Sram.room_flush_ne hk).mpr (h.spad k)
  have hacc : ∀ k, (l.accSpad.flush accumSpadId).Room k (Function.update p.acc accumSpadId g k) := by
    intro k
    by_cases hk : k = accumSpadId
    · rw [hk, Function.update_self]
      exact Sram.room_flush _ _ _
    · rw [Function.update_of_ne hk]
      exact (Sram.room_flush_ne hk).mpr (h.acc k)
  have hbudget : ∀ i ∈ l.ldInstQueue,
      (p.flip spadId accumSpadId accum b g).budget i.destAddr i.bufferId =
        p.budget i.destAddr i.bufferId := by
    intro i hi
    obtain ⟨hne, hneAcc⟩ := hfree.loads i hi
    unfold RoomPlan.budget RoomPlan.flip Instruction.bufferId
    dsimp only
    split_ifs with hside haccum
    · rfl
    · exact Function.update_of_ne (hneAcc (Bool.eq_false_iff.mpr haccum)) _ _
    · exact Function.update_of_ne hne _ _
  have hvacant : ∀ i ∈ l.ldInstQueue,
      ((l.flip spadId accumSpadId accum).buffer i.destAddr).cacheTable i.bufferId i.destAddr =
        none := by
    intro i hi
    have hold := h.vacant i hi
    unfold buffer at hold ⊢
    by_cases hside : ACCUM_SPAD_BASE ≤ i.destAddr
    · rw [if_pos hside] at hold ⊢
      cases accum with
      | true => exact hold
      | false => exact Sram.none_flush hold
    · rw [if_neg hside] at hold ⊢
      exact Sram.none_flush hold
  have hloads : ∀ i ∈ l.ldInstQueue,
      ((p.flip spadId accumSpadId accum b g).budget i.destAddr i.bufferId).Allows i.destAddr
        i.size := by
    intro i hi
    rw [hbudget i hi]
    exact h.loads i hi
  have hspadLimit : (l.spad.flush spadId).Takes limit := Sram.takes_congr h.spadLimit rfl
  cases accum with
  | true =>
    exact ⟨hspadLimit, h.accLimit, hspad, h.acc, hloads, hvacant, h.distinct, h.computes⟩
  | false =>
    have haccLimit : (l.accSpad.flush accumSpadId).Takes limit := Sram.takes_congr h.accLimit rfl
    refine ⟨hspadLimit, haccLimit, hspad, hacc, hloads, hvacant, h.distinct, ?_⟩
    intro i hi
    have hsame : (p.flip spadId accumSpadId false b g).acc i.accumSpadId = p.acc i.accumSpadId :=
      Function.update_of_ne (hfree.computes rfl i hi) _ _
    rw [hsame]
    exact h.computes i hi

/-- New instructions that keep to the plan. -/
theorem planned_enqueue (h : l.Planned p) {loads computes stores : List Instruction}
    {tiles : List TilePtr}
    (hallows : ∀ i ∈ loads, (p.budget i.destAddr i.bufferId).Allows i.destAddr i.size)
    (hvacant : ∀ i ∈ loads, (l.buffer i.destAddr).cacheTable i.bufferId i.destAddr = none)
    (hdistinct : loads.Pairwise fun i j => ¬ (i.destAddr = j.destAddr ∧ i.bufferId = j.bufferId))
    (hapart : ∀ i ∈ l.ldInstQueue, ∀ j ∈ loads,
      ¬ (i.destAddr = j.destAddr ∧ i.bufferId = j.bufferId))
    (hcomputes : ∀ i ∈ computes, (p.acc i.accumSpadId).Allows i.destAddr i.size) :
    Planned { l with
      ldInstQueue := l.ldInstQueue ++ loads
      stInstQueue := stores
      exInstQueue := l.exInstQueue ++ computes
      tiles := tiles } p where
  spadLimit := h.spadLimit
  accLimit := h.accLimit
  spad := h.spad
  acc := h.acc
  loads := fun i hi => (List.mem_append.mp hi).elim (h.loads i) (hallows i)
  vacant := fun i hi => (List.mem_append.mp hi).elim (h.vacant i) (hvacant i)
  distinct := List.pairwise_append.mpr ⟨h.distinct, hdistinct, hapart⟩
  computes := fun i hi => (List.mem_append.mp hi).elim (h.computes i) (hcomputes i)

theorem admits_of_planned (h : l.Planned p) {inst : Instruction}
    (hallows : (p.budget inst.destAddr inst.bufferId).Allows inst.destAddr inst.size)
    (hvacant : (l.buffer inst.destAddr).cacheTable inst.bufferId inst.destAddr = none) :
    admits l inst = true := by
  obtain ⟨hlimit, hroom⟩ := planned_buffer h inst.destAddr inst.bufferId
  have hremain := Sram.checkRemain_room hroom hlimit hvacant hallows
  simp only [admits, Sram.checkAllocated, hvacant, hremain, Bool.and_true]
  rfl

theorem admits_congr {l l' : Lane} {inst : Instruction} (hspad : l'.spad = l.spad)
    (hacc : l'.accSpad = l.accSpad) : admits l' inst = admits l inst := by
  have hbuffer : l'.buffer inst.destAddr = l.buffer inst.destAddr := by
    rw [buffer, buffer, hspad, hacc]
  rw [admits, admits, hbuffer]

end Lane

namespace NeuPIMSystolicWS

open Session Bank

variable {config : SimulationConfig} {set : RobinHood} {c c' : NeuPIMSCore} {s t : Session}
  {u : List MemoryAccess} {limit turn accTurn : ℕ} {p : RoomPlan limit}
  {g : Budget AddrType limit} {tile : Tile}

section Issue

theorem route_eq_load {op : Opcode} : route .SA op = .load ↔ op = .MOVIN := by
  cases op <;> decide

theorem enqueue_ne_allocation (tile : Tile) {l : Lane} {inst : Instruction}
    (h : inst.opcode = .MOVIN → admits l inst = true) :
    enqueue .SA l tile inst ≠ .error .allocation ∧ ∀ r, enqueue .SA l tile inst = .ok r →
      r.1.spad = l.spad ∧ r.1.accSpad = l.accSpad := by
  unfold enqueue
  cases hroute : route .SA inst.opcode with
  | refused => exact ⟨nofun, nofun⟩
  | header => exact ⟨nofun, fun r hr => Except.ok.inj hr ▸ ⟨rfl, rfl⟩⟩
  | load =>
    dsimp only
    rw [if_pos (h (route_eq_load.mp hroute))]
    exact ⟨nofun, fun r hr => Except.ok.inj hr ▸ ⟨rfl, rfl⟩⟩
  | store => exact ⟨nofun, fun r hr => Except.ok.inj hr ▸ ⟨rfl, rfl⟩⟩
  | compute => exact ⟨nofun, fun r hr => Except.ok.inj hr ▸ ⟨rfl, rfl⟩⟩

/-- The loads find room, as no instruction of a tile changes a scratchpad when it is queued. -/
theorem enqueueAll_ne_allocation {l : Lane} {insts : List Instruction}
    (h : ∀ i ∈ insts, i.opcode = .MOVIN → admits l i = true) :
    enqueueAll .SA l tile insts ≠ .error .allocation := by
  induction insts generalizing l tile with
  | nil => exact nofun
  | cons inst insts ih =>
    obtain ⟨hne, hsame⟩ := enqueue_ne_allocation tile (h inst List.mem_cons_self)
    rw [enqueueAll]
    split
    · next l' tile' hstep =>
      obtain ⟨hspad, hacc⟩ := hsame _ hstep
      refine ih fun i hi hopcode => ?_
      rw [Lane.admits_congr hspad hacc]
      exact h i (List.mem_cons_of_mem inst hi) hopcode
    · next f hstep =>
      rw [hstep] at hne
      exact hne

/-- Whose turn it is: the loads that are queued are for the current buffers, or for the scratchpad
buffer before. -/
structure InTurn (turn accTurn : ℕ) (c : NeuPIMSCore) : Prop where
  turn_lt : turn < 2
  accTurn_lt : accTurn < 2
  loads : ∀ i ∈ (c.lane .SA).ldInstQueue,
    i.spadId = turn ∧ i.accumSpadId = accTurn ∨ i.spadId = (turn + 1) % 2

/-- The accumulator buffer of the next tile. -/
def nextAcc (accTurn : ℕ) (accum : Bool) : ℕ := if accum then accTurn else (accTurn + 1) % 2

theorem takesLoad_eq (i : Instruction) : takesLoad .SA i = decide (i.opcode = .MOVIN) := by
  unfold takesLoad takes
  cases i.opcode <;> rfl

/-- The loads of a tile that has been started. -/
theorem filter_claimInst (ptr : TilePtr) (b a : ℕ) :
    (tile.instructions.map (claimInst .SA ptr b a)).filter (takesLoad .SA) =
      tile.loads.map (claimInst .SA ptr b a) := by
  rw [List.filter_map, Tile.loads]
  refine congrArg _ (List.filter_congr fun i _ => ?_)
  exact takesLoad_eq _

/-- A started tile that fits keeps to the plan of its lane. -/
theorem planned_startTile {l : Lane} {b a : ℕ} (ptr : TilePtr) (hl : l.Planned p)
    (hspad : ∀ i ∈ tile.loads, ¬ ACCUM_SPAD_BASE ≤ i.destAddr → (p.spad b).Allows i.destAddr i.size)
    (hfits : Fits (p.acc a) tile)
    (hvacant : ∀ address, (¬ ACCUM_SPAD_BASE ≤ address ∨ tile.accum = false) →
      (l.buffer address).cacheTable (if ACCUM_SPAD_BASE ≤ address then a else b) address = none)
    (hqueue : ∀ i ∈ l.ldInstQueue, i.spadId ≠ b ∧ (tile.accum = false → i.accumSpadId ≠ a))
    (stores : List Instruction) (tiles : List TilePtr) :
    (∀ i ∈ tile.instructions.map (claimInst .SA ptr b a), i.opcode = .MOVIN → admits l i = true) ∧
      Lane.Planned { l with
        ldInstQueue := l.ldInstQueue ++
          (tile.instructions.map (claimInst .SA ptr b a)).filter (takesLoad .SA)
        stInstQueue := stores
        exInstQueue := l.exInstQueue ++
          (tile.instructions.map (claimInst .SA ptr b a)).filter (takes .SA .compute)
        tiles := tiles } p := by
  have hallows : ∀ j ∈ tile.loads.map (claimInst .SA ptr b a),
      (p.budget j.destAddr j.bufferId).Allows j.destAddr j.size := by
    intro j hj
    obtain ⟨i, hi, rfl⟩ := List.mem_map.mp hj
    by_cases hside : ACCUM_SPAD_BASE ≤ i.destAddr
    · simp only [claimInst, RoomPlan.budget, Instruction.bufferId, hside, if_true]
      exact (hfits.acc i hi hside).2
    · simp only [claimInst, RoomPlan.budget, Instruction.bufferId, hside, if_false]
      exact hspad i hi hside
  have hnone : ∀ j ∈ tile.loads.map (claimInst .SA ptr b a),
      (l.buffer j.destAddr).cacheTable j.bufferId j.destAddr = none := by
    intro j hj
    obtain ⟨i, hi, rfl⟩ := List.mem_map.mp hj
    refine hvacant i.destAddr ?_
    by_cases hside : ACCUM_SPAD_BASE ≤ i.destAddr
    · exact .inr (hfits.acc i hi hside).1
    · exact .inl hside
  constructor
  · intro j hj hopcode
    have hmem : j ∈ tile.loads.map (claimInst .SA ptr b a) := by
      rw [← filter_claimInst, List.mem_filter, takesLoad_eq]
      exact ⟨hj, decide_eq_true hopcode⟩
    exact Lane.admits_of_planned hl (hallows j hmem) (hnone j hmem)
  · rw [filter_claimInst]
    refine Lane.planned_enqueue hl hallows hnone ?_ ?_ ?_
    · rw [List.pairwise_map]
      have hdistinct := hfits.distinct
      rw [List.Nodup, List.pairwise_map] at hdistinct
      exact hdistinct.imp fun hne hsame => hne hsame.1
    · -- the loads of the tiles before are for other buffers
      rintro i hi j hj ⟨haddr, hbuffer⟩
      obtain ⟨i', hi', rfl⟩ := List.mem_map.mp hj
      obtain ⟨hne, hneAcc⟩ := hqueue i hi
      simp only [Instruction.bufferId, haddr, claimInst] at hbuffer
      by_cases hside : ACCUM_SPAD_BASE ≤ i'.destAddr
      · simp only [hside, if_true] at hbuffer
        exact hneAcc (hfits.acc i' hi' hside).1 hbuffer
      · simp only [hside, if_false] at hbuffer
        exact hne hbuffer
    · intro j hj
      obtain ⟨hj, htakes⟩ := List.mem_filter.mp hj
      obtain ⟨i, hi, rfl⟩ := List.mem_map.mp hj
      exact hfits.computes i hi htakes

/-- A tile that fits is issued without a failing check, and its budgets are those of its buffers. -/
theorem avoids_issue (h : Steady p turn accTurn c) (hturn : InTurn turn accTurn c)
    (hfree : (c.lane .SA).Free ((turn + 1) % 2) ((accTurn + 1) % 2) tile.accum)
    (hfits : Fits g tile) (hacc : tile.accum = true → g = p.acc accTurn) :
    c.issue tile ≠ .error .allocation ∧ ∀ c', c.issue tile = .ok c' →
      ∃ p' : RoomPlan limit, Steady p' ((turn + 1) % 2) (nextAcc accTurn tile.accum) c' ∧
        InTurn ((turn + 1) % 2) (nextAcc accTurn tile.accum) c' ∧
        p'.acc (nextAcc accTurn tile.accum) = g := by
  obtain ⟨b, hb⟩ := hfits.spad
  let p' := p.flip ((turn + 1) % 2) ((accTurn + 1) % 2) tile.accum b g
  let l := (c.lane .SA).flip ((turn + 1) % 2) ((accTurn + 1) % 2) tile.accum
  have hl : l.Planned p' := Lane.planned_flip h.lane hfree
  have hspad : p'.spad ((turn + 1) % 2) = b := Function.update_self _ _ _
  have hg : p'.acc (nextAcc accTurn tile.accum) = g := by
    cases haccum : tile.accum with
    | true => simp only [p', RoomPlan.flip, nextAcc, haccum, if_true, hacc haccum]
    | false => simp [p', RoomPlan.flip, nextAcc, haccum]
  have hissue : c.issue tile = (c.flipBuffers tile.accum).admitTile .SA
      ((c.flipBuffers tile.accum).startTile .SA tile ((turn + 1) % 2)
        (nextAcc accTurn tile.accum)) := by
    rw [issue, if_neg (Bool.eq_false_iff.mp hfits.runs)]
    simp only [flipBuffers, nextAcc, h.spadTurn, h.accTurn]
  have hlane : (c.flipBuffers tile.accum).lane = Function.update c.lane .SA l := by
    simp only [flipBuffers, h.spadTurn, h.accTurn]
    rfl
  have hvacant : ∀ address, (¬ ACCUM_SPAD_BASE ≤ address ∨ tile.accum = false) →
      (l.buffer address).cacheTable
        (if ACCUM_SPAD_BASE ≤ address then nextAcc accTurn tile.accum else (turn + 1) % 2)
        address = none := by
    intro address hside
    by_cases haddr : ACCUM_SPAD_BASE ≤ address
    · have haccum := hside.resolve_left (not_not_intro haddr)
      simp [Lane.buffer, haddr, l, Lane.flip, nextAcc, haccum, Sram.cacheTable_flush]
    · simp [Lane.buffer, haddr, l, Lane.flip, Sram.cacheTable_flush]
  have hqueue : ∀ i ∈ l.ldInstQueue, i.spadId ≠ (turn + 1) % 2 ∧
      (tile.accum = false → i.accumSpadId ≠ nextAcc accTurn tile.accum) := by
    intro i hi
    obtain ⟨hne, hneAcc⟩ := hfree.loads i hi
    refine ⟨hne, fun haccum => ?_⟩
    rw [nextAcc, haccum]
    exact hneAcc haccum
  have hfits' : Fits (p'.acc (nextAcc accTurn tile.accum)) tile := hg.symm ▸ hfits
  have hstarted := planned_startTile c.nextTile hl (hspad.symm ▸ hb) hfits' hvacant hqueue
  rw [hissue]
  constructor
  · unfold admitTile
    rw [hlane, Function.update_self]
    split
    · next f hf =>
      intro heq
      rw [Except.error.inj heq] at hf
      exact enqueueAll_ne_allocation (hstarted [] []).1 hf
    · exact nofun
  · intro c' hc'
    obtain ⟨l', tile', hall, rfl⟩ := admitTile_ok hc'
    rw [hlane, Function.update_self] at hall
    obtain ⟨rfl, -⟩ := enqueueAll_ok hall
    have hself : Function.update (c.flipBuffers tile.accum).lane .SA = Function.update c.lane .SA := by
      rw [hlane]
      exact funext fun L => Function.update_idem _ _ _
    refine ⟨p', steady_update h (congrFun hself _) (hstarted _ _).2 ?_ ?_,
      ⟨Nat.mod_lt _ (by decide), ?_, ?_⟩, hg⟩
    · exact congrArg (fun n => (n + 1) % 2) h.spadTurn
    · simp only [flipBuffers, nextAcc, h.accTurn]
    · have := hturn.accTurn_lt
      unfold nextAcc
      split_ifs <;> omega
    · intro i hi
      dsimp only at hi
      rw [congrFun hself, Function.update_self] at hi
      rcases List.mem_append.mp hi with hi | hi
      · -- the other buffer is the one before
        have hbefore := (hturn.loads i hi).resolve_right (hqueue i hi).1
        have := hturn.turn_lt
        right
        omega
      · obtain ⟨i', -, rfl⟩ := List.mem_map.mp (List.mem_of_mem_filter hi)
        exact .inl ⟨rfl, rfl⟩

/-- The tile of an instruction that is queued is one of the tiles of the array, and knows of the
instruction. -/
theorem parent_queued (h : Steady p turn accTurn c) (hcounted : Counted config ⟨c, u⟩)
    {i : Instruction} (htag : TaggedInst c .SA i)
    (hbusy : ¬ Session.Idle config ⟨c, u⟩ i.parentTile) :
    i.parentTile ∈ (c.lane .SA).tiles ∧ ∃ tile, c.heap i.parentTile = some tile ∧
      i.spadId = tile.spadId ∧ i.accumSpadId = tile.accumSpadId ∧
      Balanced config ⟨c, u⟩ i.parentTile tile := by
  obtain ⟨q, hq⟩ := hcounted.mem_tiles hbusy
  cases q with
  | PIM =>
    rw [h.pimTiles] at hq
    exact absurd hq List.not_mem_nil
  | SA =>
    obtain ⟨tile, htile, -, hbalanced⟩ := hcounted.live .SA _ hq
    obtain ⟨-, hspad, hacc⟩ := htag.tile tile htile
    exact ⟨hq, tile, htile, hspad, hacc, hbalanced⟩

/-- `can_issue` waits for the loads and the computations of the buffers that the tile will take. -/
theorem free_of_canIssue (h : Steady p turn accTurn c) (hturn : InTurn turn accTurn c)
    (hcounted : Counted config ⟨c, u⟩) (htagged : Tagged config ⟨c, u⟩)
    (hcan : c.canIssue tile = true) :
    (c.lane .SA).Free ((turn + 1) % 2) ((accTurn + 1) % 2) tile.accum := by
  have hxor : ∀ n < 2, n ^^^ 1 = (n + 1) % 2 := by decide
  rw [canIssue, h.spadTurn, h.accTurn, hxor turn hturn.turn_lt, hxor accTurn hturn.accTurn_lt,
    Bool.or_eq_true, Bool.and_eq_true, Bool.or_eq_true, List.isEmpty_iff, List.all_eq_true,
    List.all_eq_true] at hcan
  have hloads : ∀ i ∈ (c.lane .SA).ldInstQueue, i.spadId ≠ (turn + 1) % 2 := by
    intro i hi heq
    obtain ⟨htag, htakes⟩ := htagged.load .SA i hi
    have hcount : 0 < loadsOf ⟨c, u⟩ i.parentTile := by
      refine List.countP_pos_iff.mpr ⟨i, mem_contents.mpr ⟨.SA, mem_platforms _, hi⟩, ?_⟩
      rw [takesLoad_eq, decide_eq_true_eq] at htakes
      simp [loadOf, htakes]
    have hbusy : ¬ Session.Idle config ⟨c, u⟩ i.parentTile := by
      intro hidle
      have := (idle_iff.mp hidle).2.1
      omega
    obtain ⟨hmem, tile', htile', hspad, -, -, hbalanced, -⟩ := parent_queued h hcounted htag hbusy
    rcases hcan with hnil | ⟨hall, -⟩
    · rw [hnil] at hmem
      exact List.not_mem_nil hmem
    · have huses := hall _ hmem
      have hremains : tile'.remainingLoads ≠ 0 := by omega
      simp [usesSpad, htile', ← hspad, heq, hremains] at huses
  refine ⟨fun i hi => ⟨hloads i hi, fun _ => ?_⟩, ?_⟩
  · have hbefore := (hturn.loads i hi).resolve_right (hloads i hi)
    have := hturn.accTurn_lt
    omega
  · intro haccum i hi heq
    obtain ⟨htag, -⟩ := htagged.execute .SA i hi
    have hcount : 0 < pendingOf config ⟨c, u⟩ i.parentTile := by
      have hmem : i ∈ executing c := mem_contents.mpr ⟨.SA, mem_platforms _, hi⟩
      have hpos : 0 < (executing c).countP (instOf i.parentTile) :=
        List.countP_pos_iff.mpr ⟨i, hmem, by simp [instOf]⟩
      rw [pendingOf_eq]
      omega
    have hbusy : ¬ Session.Idle config ⟨c, u⟩ i.parentTile := by
      intro hidle
      have := (idle_iff.mp hidle).1
      omega
    obtain ⟨hmem, tile', htile', -, hacc, -, -, hbalanced⟩ := parent_queued h hcounted htag hbusy
    rcases hcan with hnil | ⟨-, hall⟩
    · rw [hnil] at hmem
      exact List.not_mem_nil hmem
    · have huses := (hall.resolve_left (by simp [haccum])) _ hmem
      have hremains : tile'.remainingAccumIo ≠ 0 := by omega
      simp [usesAccSpad, htile', ← hacc, heq, hremains] at huses

end Issue

end NeuPIMSystolicWS

end NewPims

import NewPims.Common

/-! `OperationStat`: what an operation collects from the statistics of its finished tiles. The stall
counters, which no tile changes, are left out. -/
namespace NewPims

structure OperationStat where
  opName : String
  startCycle : CycleType := 2 ^ 64 - 1
  endCycle : CycleType := 0
  computeCycles : ℕ := 0
  memoryReads : ℕ := 0
  memoryWrites : ℕ := 0
  numCalculation : ℕ := 0
  deriving DecidableEq, Repr

namespace OperationStat

def updateStat (s : OperationStat) (tileStat : TileStat) : OperationStat :=
  { s with
    startCycle := if tileStat.startCycle < s.startCycle then tileStat.startCycle else s.startCycle
    endCycle := if s.endCycle > tileStat.endCycle then s.endCycle else tileStat.endCycle
    computeCycles := s.computeCycles + tileStat.computeCycles
    memoryReads := s.memoryReads + tileStat.memoryReads
    memoryWrites := s.memoryWrites + tileStat.memoryWrites
    numCalculation := s.numCalculation + tileStat.numCalculation }

/-- The statistics after the tiles of an operation have finished, in whatever order. -/
def collect (name : String) (stats : List TileStat) : OperationStat :=
  stats.foldl updateStat { opName := name }

/-- A field that every update adds to is the sum over the tiles. -/
theorem foldl_updateStat (field : OperationStat → ℕ) (tileField : TileStat → ℕ)
    (hstep : ∀ s t, field (updateStat s t) = field s + tileField t) (s : OperationStat)
    (stats : List TileStat) :
    field (stats.foldl updateStat s) = field s + (stats.map tileField).sum := by
  induction stats generalizing s with
  | nil => rfl
  | cons t stats ih =>
    rw [List.foldl_cons, ih, hstep, List.map_cons, List.sum_cons, Nat.add_assoc]

variable {name : String} {stats : List TileStat}

theorem collect_memoryReads :
    (collect name stats).memoryReads = (stats.map TileStat.memoryReads).sum :=
  (foldl_updateStat memoryReads _ (fun _ _ => rfl) _ stats).trans (Nat.zero_add _)

theorem collect_memoryWrites :
    (collect name stats).memoryWrites = (stats.map TileStat.memoryWrites).sum :=
  (foldl_updateStat memoryWrites _ (fun _ _ => rfl) _ stats).trans (Nat.zero_add _)

theorem collect_numCalculation :
    (collect name stats).numCalculation = (stats.map TileStat.numCalculation).sum :=
  (foldl_updateStat numCalculation _ (fun _ _ => rfl) _ stats).trans (Nat.zero_add _)

end OperationStat

end NewPims

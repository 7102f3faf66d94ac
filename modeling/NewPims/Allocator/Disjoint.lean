import Mathlib.Algebra.BigOperators.Group.List.Basic
import Mathlib.Tactic.Ring
import NewPims.Allocator

/-! Which of the byte ranges that the allocators give out overlap. -/
namespace NewPims.Allocator

open Region Transition

/-- No address of the run overflows, or an overflow panics. -/
def Roomy (overflowChecks : Bool) (top unit : ℕ) (sizes : List UInt64) : Prop :=
  overflowChecks = true ∨ top + (sizes.map fun size => size.toNat + unit).sum < 2 ^ 64

variable {overflowChecks : Bool} {config : Config} {width value x y z top unit : ℕ}
  {size : UInt64} {sizes : List UInt64}

theorem fit_ok (h : fit overflowChecks width value = .ok z)
    (hfit : overflowChecks = true ∨ value < 2 ^ width) : z = value := by
  unfold fit at h
  split at h
  · cases h
    rfl
  · next hge =>
    rcases hfit with hchecks | hlt
    · rw [if_pos hchecks] at h
      cases h
    · exact absurd hlt hge

theorem sub_of_le (h : y ≤ x) : sub overflowChecks x y = .ok (x - y) := if_pos h

theorem ceilUnits_ok (hpos : 0 < x) (h : ceilUnits overflowChecks x unit = .ok z)
    (hfit : overflowChecks = true ∨ x + unit < 2 ^ 64) :
    unit ≠ 0 ∧ z = (x + unit - 1) / unit := by
  obtain ⟨sum, hsum, h⟩ := bind_ok.mp h
  rw [fit_ok hsum hfit, sub_of_le (by omega)] at h
  obtain ⟨less, hless, h⟩ := bind_ok.mp h
  cases hless
  unfold div at h
  split at h
  · cases h
  · next hunit =>
    cases h
    exact ⟨hunit, rfl⟩

/-- A product of powers of two that overflows is zero. -/
theorem weightUnit_ok (hreq : ∃ i, config.dramReqSize.toNat = 2 ^ i)
    (hch : ∃ j, config.dramChannels.toNat = 2 ^ j) (hunit : unit ≠ 0)
    (h : fit overflowChecks 32 (config.dramReqSize.toNat * config.dramChannels.toNat) = .ok unit) :
    unit = config.dramReqSize.toNat * config.dramChannels.toNat := by
  refine fit_ok h ?_
  obtain ⟨i, hi⟩ := hreq
  obtain ⟨j, hj⟩ := hch
  rw [hi, hj, ← pow_add] at h ⊢
  unfold fit at h
  split at h
  · next hlt => exact Or.inr hlt
  · next hge =>
    split at h
    · next hchecks => exact Or.inl hchecks
    · cases h
      have hexp : 32 ≤ i + j := by
        by_contra hlt
        exact hge (Nat.pow_lt_pow_right (by decide) (Nat.not_le.mp hlt))
      exact absurd (Nat.mod_eq_zero_of_dvd (pow_dvd_pow 2 hexp)) hunit

/-- The size takes as many bytes as units only if a unit is a byte or the size is. -/
theorem le_ceil_iff (hx : 0 < x) (hunit : 0 < unit) :
    x ≤ (x + unit - 1) / unit ↔ unit = 1 ∨ x = 1 := by
  obtain ⟨a, rfl⟩ := Nat.exists_eq_add_of_lt hx
  obtain ⟨b, rfl⟩ := Nat.exists_eq_add_of_lt hunit
  rw [Nat.le_div_iff_mul_le hunit]
  have hprod : (0 + a + 1) * (0 + b + 1) = a * b + a + b + 1 := by ring
  rw [hprod]
  constructor
  · intro h
    have hzero : a * b = 0 := by omega
    rcases Nat.mul_eq_zero.mp hzero with ha | hb
    · exact Or.inr (by omega)
    · exact Or.inl (by omega)
  · rintro (hb | ha)
    · have hb : b = 0 := by omega
      rw [hb, Nat.mul_zero]
      omega
    · have ha : a = 0 := by omega
      rw [ha, Nat.zero_mul]
      omega

/-- What is given out is laid out from the top address upwards. -/
theorem run_layout {α : Type} {allocate : α → UInt64 → Except Panic (ℕ × α)} (addr : α → ℕ)
    {next : ℕ → ℕ → ℕ} {g g' : Given α}
    (hnext : ∀ a size made, 0 < size.toNat → Roomy overflowChecks (addr a) unit [size] →
      allocate a size = .ok made → made.1 = addr a ∧ addr made.2 = next (addr a) size.toNat)
    (hle : ∀ top size, next top size ≤ top + (size + unit))
    (hpos : ∀ size ∈ sizes, 0 < size.toNat)
    (hroomy : Roomy overflowChecks (addr g.allocator) unit sizes)
    (hrun : run (Given.step allocate) g sizes = .ok g') :
    g'.regions = g.regions ++ layout next (addr g.allocator) (sizes.map UInt64.toNat) := by
  induction sizes generalizing g with
  | nil =>
    cases hrun
    exact (List.append_nil _).symm
  | cons size sizes ih =>
    obtain ⟨mid, hmid, hrun⟩ := run_cons_ok.mp hrun
    obtain ⟨made, hmade, rfl⟩ := map_ok hmid
    have hfirst : Roomy overflowChecks (addr g.allocator) unit [size] := by
      refine hroomy.imp_right fun h => ?_
      rw [List.map_cons, List.sum_cons] at h
      rw [List.map_cons, List.map_nil, List.sum_singleton]
      omega
    obtain ⟨hresult, htop⟩ :=
      hnext g.allocator size made (hpos size List.mem_cons_self) hfirst hmade
    have hrest : Roomy overflowChecks (addr made.2) unit sizes := by
      refine hroomy.imp_right fun h => ?_
      rw [List.map_cons, List.sum_cons] at h
      have hmoved := hle (addr g.allocator) size.toNat
      rw [htop]
      omega
    rw [ih (fun s hs => hpos s (List.mem_cons_of_mem size hs)) hrest hrun, hresult, htop,
      List.append_assoc]
    rfl

/-- The byte ranges of a run are apart if and only if a unit is a byte or all sizes but the last
are. -/
theorem units_apart_iff {α : Type} {allocate : α → UInt64 → Except Panic (ℕ × α)} (addr : α → ℕ)
    {a : α} {g : Given α} (hunit : 0 < unit)
    (hnext : ∀ a size made, 0 < size.toNat → Roomy overflowChecks (addr a) unit [size] →
      allocate a size = .ok made →
      made.1 = addr a ∧ addr made.2 = addr a + (size.toNat + unit - 1) / unit)
    (hpos : ∀ size ∈ sizes, 0 < size.toNat)
    (hroomy : Roomy overflowChecks (addr a) unit sizes)
    (hrun : run (Given.step allocate) ⟨a, []⟩ sizes = .ok g) :
    g.regions.Pairwise Apart ↔ unit = 1 ∨ ∀ size ∈ sizes.dropLast, size.toNat = 1 := by
  have hle : ∀ top size, top + (size + unit - 1) / unit ≤ top + (size + unit) := fun top size =>
    Nat.add_le_add_left (Nat.le_trans (Nat.div_le_self _ _) (Nat.sub_le _ _)) top
  rw [run_layout addr hnext hle hpos hroomy hrun, List.nil_append, layout_apart_iff,
    ← List.map_dropLast]
  · have hsizes : ∀ size ∈ sizes.dropLast, 0 < size.toNat := fun size hsize =>
      hpos size (List.dropLast_subset sizes hsize)
    rw [List.forall_mem_map]
    constructor
    · intro h
      by_cases hone : unit = 1
      · exact Or.inl hone
      · right
        intro size hsize
        exact ((le_ceil_iff (hsizes size hsize) hunit).mp (h size hsize)).resolve_left hone
    · intro h size hsize
      exact (le_ceil_iff (hsizes size hsize) hunit).mpr (h.imp_right fun hall => hall size hsize)
  · exact List.forall_mem_map.mpr hpos

theorem roomy_single (h : Roomy overflowChecks top unit [size]) :
    overflowChecks = true ∨ top + (size.toNat + unit) < 2 ^ 64 := by
  rwa [Roomy, List.map_cons, List.map_nil, List.sum_singleton] at h

theorem weight_next (hreq : ∃ i, config.dramReqSize.toNat = 2 ^ i)
    (hch : ∃ j, config.dramChannels.toNat = 2 ^ j) {a : WeightAllocator}
    {made : ℕ × WeightAllocator} (hpos : 0 < size.toNat)
    (hroomy : Roomy overflowChecks a.topAddr
      (config.dramReqSize.toNat * config.dramChannels.toNat) [size])
    (h : a.allocate overflowChecks config size = .ok made) :
    made.1 = a.topAddr ∧ made.2.topAddr = a.topAddr +
      (size.toNat + config.dramReqSize.toNat * config.dramChannels.toNat - 1) /
        (config.dramReqSize.toNat * config.dramChannels.toNat) := by
  obtain ⟨unit, hunit, h⟩ := bind_ok.mp h
  obtain ⟨units, hunits, h⟩ := bind_ok.mp h
  obtain ⟨top, htop, h⟩ := bind_ok.mp h
  cases h
  have hfit := roomy_single hroomy
  have hne : unit ≠ 0 := by
    obtain ⟨sum, -, hunits⟩ := bind_ok.mp hunits
    obtain ⟨less, -, hunits⟩ := bind_ok.mp hunits
    unfold div at hunits
    split at hunits
    · cases hunits
    · next hne => exact hne
  cases weightUnit_ok hreq hch hne hunit
  obtain ⟨-, rfl⟩ := ceilUnits_ok hpos hunits (hfit.imp_right fun hlt => by omega)
  have hle := Nat.div_le_self
    (size.toNat + config.dramReqSize.toNat * config.dramChannels.toNat - 1)
    (config.dramReqSize.toNat * config.dramChannels.toNat)
  exact ⟨rfl, fit_ok htop (hfit.imp_right fun hlt => by omega)⟩

theorem kvCache_next {a : KVCacheAllocator} {made : ℕ × KVCacheAllocator} (hpos : 0 < size.toNat)
    (hroomy : Roomy overflowChecks a.topAddr config.dramReqSize.toNat [size])
    (h : a.allocate overflowChecks config size = .ok made) :
    made.1 = a.topAddr ∧ made.2.topAddr = a.topAddr +
      (size.toNat + config.dramReqSize.toNat - 1) / config.dramReqSize.toNat := by
  obtain ⟨units, hunits, h⟩ := bind_ok.mp h
  obtain ⟨top, htop, h⟩ := bind_ok.mp h
  cases h
  have hfit := roomy_single hroomy
  obtain ⟨-, rfl⟩ := ceilUnits_ok hpos hunits (hfit.imp_right fun hlt => by omega)
  have hle := Nat.div_le_self (size.toNat + config.dramReqSize.toNat - 1) config.dramReqSize.toNat
  exact ⟨rfl, fit_ok htop (hfit.imp_right fun hlt => by omega)⟩

/-- The top address after an allocation of activations. -/
def alignedTop (alignment top size : ℕ) : ℕ :=
  if (top + size) &&& (alignment - 1) ≠ 0
  then top + size + (alignment - ((top + size) &&& (alignment - 1)))
  else top + size

theorem le_alignedTop (alignment top size : ℕ) : top + size ≤ alignedTop alignment top size := by
  unfold alignedTop
  split <;> omega

theorem alignedTop_le (alignment top size : ℕ) :
    alignedTop alignment top size ≤ top + (size + alignment) := by
  unfold alignedTop
  split <;> omega

theorem activation_next (hreq : ∃ i, config.dramReqSize.toNat = 2 ^ i) {a : ActivationAllocator}
    {made : ℕ × ActivationAllocator}
    (hroomy : Roomy overflowChecks a.topAddr config.dramReqSize.toNat [size])
    (h : a.allocate overflowChecks config size = .ok made) :
    made.1 = a.topAddr ∧
      made.2.topAddr = alignedTop config.dramReqSize.toNat a.topAddr size.toNat := by
  obtain ⟨top, htop, h⟩ := bind_ok.mp h
  have hfit := roomy_single hroomy
  obtain rfl := fit_ok htop (hfit.imp_right fun hlt => by omega)
  split at h
  · cases h
  · have hpos : 1 ≤ config.dramReqSize.toNat := by
      obtain ⟨i, hi⟩ := hreq
      rw [hi]
      exact Nat.one_le_two_pow
    obtain ⟨mask, hmask, h⟩ := bind_ok.mp h
    rw [sub_of_le hpos] at hmask
    cases hmask
    unfold alignedTop
    split at h
    · next hgap =>
      have hle : (a.topAddr + size.toNat) &&& (config.dramReqSize.toNat - 1) ≤
          config.dramReqSize.toNat :=
        Nat.le_trans Nat.and_le_right (Nat.sub_le _ _)
      obtain ⟨gap, hgapEq, h⟩ := bind_ok.mp h
      rw [sub_of_le hle] at hgapEq
      cases hgapEq
      obtain ⟨aligned, haligned, h⟩ := bind_ok.mp h
      cases h
      rw [if_pos hgap]
      exact ⟨rfl, fit_ok haligned (hfit.imp_right fun hlt => by omega)⟩
    · next hgap =>
      cases h
      rw [if_neg hgap]
      exact ⟨rfl, rfl⟩

/-- The weights and the cache entries of every run are apart if and only if their unit is a byte or
all sizes but the last are; activations always are. -/
theorem allocators_apart (overflowChecks : Bool) (config : Config)
    (hreq : ∃ i, config.dramReqSize.toNat = 2 ^ i)
    (hch : ∃ j, config.dramChannels.toNat = 2 ^ j) (sizes : List UInt64)
    (hpos : ∀ size ∈ sizes, 0 < size.toNat) :
    (∀ (a : WeightAllocator) (g : Given WeightAllocator),
      Roomy overflowChecks a.topAddr (config.dramReqSize.toNat * config.dramChannels.toNat) sizes →
      run (Given.step (WeightAllocator.allocate overflowChecks config)) ⟨a, []⟩ sizes = .ok g →
      (g.regions.Pairwise Apart ↔ config.dramReqSize.toNat * config.dramChannels.toNat = 1 ∨
        ∀ size ∈ sizes.dropLast, size.toNat = 1)) ∧
    (∀ (a : KVCacheAllocator) (g : Given KVCacheAllocator),
      Roomy overflowChecks a.topAddr config.dramReqSize.toNat sizes →
      run (Given.step (KVCacheAllocator.allocate overflowChecks config)) ⟨a, []⟩ sizes = .ok g →
      (g.regions.Pairwise Apart ↔ config.dramReqSize.toNat = 1 ∨
        ∀ size ∈ sizes.dropLast, size.toNat = 1)) ∧
    ∀ (a : ActivationAllocator) (g : Given ActivationAllocator),
      Roomy overflowChecks a.topAddr config.dramReqSize.toNat sizes →
      run (Given.step (ActivationAllocator.allocate overflowChecks config)) ⟨a, []⟩ sizes = .ok g →
      g.regions.Pairwise Apart := by
  obtain ⟨i, hi⟩ := hreq
  obtain ⟨j, hj⟩ := hch
  have hreqPos : 0 < config.dramReqSize.toNat := by
    rw [hi]
    exact Nat.two_pow_pos i
  have hchPos : 0 < config.dramChannels.toNat := by
    rw [hj]
    exact Nat.two_pow_pos j
  refine ⟨fun a g hroomy hrun => ?_, fun a g hroomy hrun => ?_, fun a g hroomy hrun => ?_⟩
  · exact units_apart_iff WeightAllocator.topAddr (Nat.mul_pos hreqPos hchPos)
      (fun a size made hsize hroom hmade => weight_next ⟨i, hi⟩ ⟨j, hj⟩ hsize hroom hmade)
      hpos hroomy hrun
  · exact units_apart_iff KVCacheAllocator.topAddr hreqPos
      (fun a size made hsize hroom hmade => kvCache_next hsize hroom hmade) hpos hroomy hrun
  · rw [run_layout ActivationAllocator.topAddr
      (fun a size made _ hroom hmade => activation_next ⟨i, hi⟩ hroom hmade) (alignedTop_le _)
      hpos hroomy hrun, List.nil_append]
    refine layout_apart (fun top size => ?_) fun size _ top => le_alignedTop _ top size
    exact Nat.le_trans (Nat.le_add_right top size) (le_alignedTop _ top size)

def blockConfig : Config := ⟨1, 64, 4096⟩

/-- Two single bytes and a block after them do not overlap. -/
theorem allocators_apart_sample : ∃ g,
    run (Given.step (WeightAllocator.allocate true blockConfig)) ⟨⟨0, 0⟩, []⟩ [1, 1, 64] = .ok g ∧
      g.regions.Pairwise Apart := by
  obtain ⟨g, hg⟩ := exists_ok (x := run (Given.step (WeightAllocator.allocate true blockConfig))
    ⟨⟨0, 0⟩, []⟩ [1, 1, 64]) (by decide)
  have h := allocators_apart true blockConfig ⟨6, rfl⟩ ⟨0, rfl⟩ [1, 1, 64] (by simp)
  exact ⟨g, hg, (h.1 ⟨0, 0⟩ g (Or.inl rfl) hg).mpr (Or.inr (by simp))⟩

/-- The second of two blocks of 64 bytes starts at the second byte of the first one. -/
theorem weights_overlap : ∃ g,
    run (Given.step (WeightAllocator.allocate true blockConfig)) ⟨⟨0, 0⟩, []⟩ [64, 64] = .ok g ∧
      g.regions = [⟨0, 64⟩, ⟨1, 64⟩] ∧ ¬ g.regions.Pairwise Apart := by
  refine ⟨_, rfl, rfl, fun h => ?_⟩
  have hfirst := (List.pairwise_cons.mp h).1 ⟨1, 64⟩ List.mem_cons_self
  exact hfirst 1 ⟨by decide, by decide⟩ ⟨by decide, by decide⟩

end NewPims.Allocator

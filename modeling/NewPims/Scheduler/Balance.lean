import NewPims.Lib.Balancing
import NewPims.Scheduler.Partition

/-! How even the division of the requests between the two sub-batches is: the dynamic program finds
the best split of the latencies, the simple partition counts the requests out. -/
namespace NewPims

open SubsetSum

section Latencies

variable {l : List ℕ} {i j : ℕ}

/-- The table entry holds exactly for the sums of some of the first `i` latencies. -/
theorem dpEntry_iff : dpEntry l i j = true ↔
    IsSubsetSum (l.getD · 0) (Finset.range i) j := by
  induction i generalizing j with
  | zero =>
    rw [Finset.range_zero, isSubsetSum_empty, dpEntry]
    exact decide_eq_true_iff
  | succ i ih =>
    rw [Finset.range_add_one, isSubsetSum_insert Finset.notMem_range_self, ← ih, ← ih]
    rcases Nat.eq_zero_or_pos j with rfl | hj
    · -- the first column is true without the recurrence
      simp only [dpEntry_zero, true_or]
    · exact dpEntry_succ hj

theorem sum_range_getD (l : List ℕ) : ∑ k ∈ Finset.range l.length, l.getD k 0 = l.sum := by
  conv_rhs => rw [← map_getD_range l]
  rfl

/-- The latencies of the selected requests together. -/
def latencySum (l idxs : List ℕ) : ℕ := (idxs.map (l.getD · 0)).sum

theorem latencySum_add (h : ((partitionListsDp l).1 ++ (partitionListsDp l).2).Perm
    (List.range l.length)) :
    latencySum l (partitionListsDp l).1 + latencySum l (partitionListsDp l).2 = l.sum := by
  have hsum := (h.map (l.getD · 0)).sum_nat
  rw [List.map_append, List.sum_append, map_getD_range] at hsum
  exact hsum

theorem latencySum_isGreatest : IsGreatest
    {j | j ≤ targetSum l ∧ IsSubsetSum (l.getD · 0) (Finset.range l.length) j}
    (latencySum l (partitionListsDp l).1) := by
  obtain ⟨hle, hentry, hmax⟩ := maxSum_spec (l := l) (i := l.length) (targetSum l)
  have hsum : latencySum l (partitionListsDp l).1 = maxSum l l.length (targetSum l) :=
    reconstruct_sum hentry
  rw [hsum]
  refine ⟨⟨hle, dpEntry_iff.mp hentry⟩, ?_⟩
  intro j hj
  exact hmax j hj.1 (dpEntry_iff.mpr hj.2)

/-- The two lists contain every index once, the first one has the largest sum of latencies up to
half of the total, and no other choice of indices splits the total more evenly. -/
theorem partitionListsDp_optimal (l : List ℕ) (htotal : l.sum < 2 ^ 31) :
    ((partitionListsDp l).1 ++ (partitionListsDp l).2).Perm (List.range l.length) ∧
      IsGreatest {j | j ≤ l.sum / 2 ∧ IsSubsetSum (l.getD · 0) (Finset.range l.length) j}
        (latencySum l (partitionListsDp l).1) ∧
      ∀ idxs ⊆ Finset.range l.length,
        Nat.dist (latencySum l (partitionListsDp l).1) (latencySum l (partitionListsDp l).2) ≤
          Nat.dist (∑ k ∈ idxs, l.getD k 0) (∑ k ∈ Finset.range l.length \ idxs, l.getD k 0) := by
  have hperm := partitionListsDp_perm (l := l)
  have hbest := latencySum_isGreatest (l := l)
  rw [targetSum_eq htotal] at hbest
  refine ⟨hperm, hbest, ?_⟩
  intro idxs hidxs
  have hadd := latencySum_add hperm
  have hsecond : latencySum l (partitionListsDp l).2 =
      (∑ k ∈ Finset.range l.length, l.getD k 0) - latencySum l (partitionListsDp l).1 := by
    rw [sum_range_getD]
    omega
  rw [← sum_range_getD] at hbest
  rw [hsecond]
  exact dist_le_of_isGreatest hbest hidxs

-- zero latencies and duplicates
example : partitionListsDp [3, 0, 3, 5, 0] = ([3], [4, 2, 1, 0]) := by decide

theorem partitionListsDp_optimal_zeros :
    ((partitionListsDp [3, 0, 3, 5, 0]).1 ++ (partitionListsDp [3, 0, 3, 5, 0]).2).Perm
        (List.range 5) ∧
      IsGreatest {j | j ≤ 5 ∧ IsSubsetSum ([3, 0, 3, 5, 0].getD · 0) (Finset.range 5) j}
        (latencySum [3, 0, 3, 5, 0] (partitionListsDp [3, 0, 3, 5, 0]).1) := by
  obtain ⟨hperm, hbest, -⟩ := partitionListsDp_optimal [3, 0, 3, 5, 0] (by decide)
  exact ⟨hperm, hbest⟩

end Latencies

namespace RequestState

variable {config : SimulationConfig} {s t : RequestState} {channels : List ℕ} {turn : Bool}

/-- The two halves of a queue, in its order, of which neither has two requests more. -/
def Halved (reqQueue : List ℕ) (half : List ℕ × List ℕ) : Prop :=
  half.1 ++ half.2 = reqQueue ∧ half.1.length ≤ half.2.length + 1 ∧
    half.2.length ≤ half.1.length + 1

/-- The halves that the simple partition makes of one queue; the turn passes on with an odd one. -/
theorem groupSimple_halved (s : RequestState) (turn : Bool) (reqQueue : List ℕ) :
    ∃ half, (s.groupSimple turn reqQueue).1 = s.join half ∧ Halved reqQueue half ∧
      half.1.length + (s.groupSimple turn reqQueue).2.toNat = half.2.length + turn.toNat := by
  let sb1Size := if reqQueue.length % 2 ≠ 0 ∧ turn then ceilDiv reqQueue.length 2
    else reqQueue.length / 2
  have hsize : sb1Size ≤ reqQueue.length ∧ 2 * sb1Size ≤ reqQueue.length + 1 ∧
      reqQueue.length ≤ 2 * sb1Size + 1 ∧
      2 * sb1Size + (s.groupSimple turn reqQueue).2.toNat = reqQueue.length + turn.toNat := by
    rw [groupSimple]
    rcases Nat.mod_two_eq_zero_or_one reqQueue.length with hmod | hmod <;> cases turn <;>
      simp [sb1Size, ceilDiv, hmod] <;> omega
  refine ⟨(reqQueue.take sb1Size, reqQueue.drop sb1Size), rfl, ⟨?_, ?_, ?_⟩, ?_⟩
  · exact List.take_append_drop sb1Size reqQueue
  all_goals
    rw [List.length_take, List.length_drop]
    omega

/-- The first sub-batch is ahead of the second one by as much as the turn has moved. -/
theorem groupLoop_halved (turn : Bool) (hsimple : config.partitionAlgSimple = true)
    (hlength : ∀ ch ∈ channels,
      (s.activeRequestQueues ch).length = (s.activeRequestLatencyQueues ch).length) :
    ∃ halves : List (List ℕ × List ℕ), ∃ turn' : Bool,
      groupLoop config channels turn s =
        .ok (s.join (halves.flatMap Prod.fst, halves.flatMap Prod.snd)) ∧
      List.Forall₂ (fun ch half => Halved (s.activeRequestQueues ch) half) channels halves ∧
      (halves.flatMap Prod.fst).length + turn'.toNat =
        (halves.flatMap Prod.snd).length + turn.toNat := by
  induction channels generalizing turn s with
  | nil =>
    refine ⟨[], turn, ?_, List.Forall₂.nil, rfl⟩
    simp only [groupLoop, join, List.flatMap_nil, List.append_nil]
  | cons ch channels ih =>
    obtain ⟨half, hjoin, hhalf, hturn⟩ := groupSimple_halved s turn (s.activeRequestQueues ch)
    obtain ⟨halves, turn', hrest, hhalves, hahead⟩ :=
      @ih (s.join half) (s.groupSimple turn (s.activeRequestQueues ch)).2
        fun c hc => hlength c (List.mem_cons_of_mem ch hc)
    refine ⟨half :: halves, turn', ?_, List.Forall₂.cons hhalf hhalves, ?_⟩
    · rw [groupLoop]
      dsimp only
      rw [if_neg (not_not.mpr (hlength ch List.mem_cons_self)), if_pos hsimple, hjoin, hrest,
        join_join]
      rfl
    · simp only [List.flatMap_cons, List.length_append]
      omega

theorem halved_divided {halves : List (List ℕ × List ℕ)}
    (h : List.Forall₂ (fun ch half => Halved (s.activeRequestQueues ch) half) channels halves) :
    Divided (channels.flatMap s.activeRequestQueues)
      (halves.flatMap Prod.fst, halves.flatMap Prod.snd) := by
  induction h with
  | nil => exact List.Perm.refl _
  | cons hhalf _ ih =>
    simp only [List.flatMap_cons]
    refine divided_append ?_ ih
    rw [Divided, hhalf.1]

/-- The simple partition puts every queued request into one sub-batch, halves every channel's
queue, and gives the first sub-batch at most one request more than the second. -/
theorem groupSubBatches_balanced (hmode : config.subBatchMode = true)
    (hsimple : config.partitionAlgSimple = true) (hempty : s.breq1 = [] ∧ s.breq2 = [])
    (hlength : ∀ ch < config.dramChannels,
      (s.activeRequestQueues ch).length = (s.activeRequestLatencyQueues ch).length) :
    ∃ t, s.groupSubBatches config = .ok t ∧
      (t.breq1 ++ t.breq2).Perm ((List.range config.dramChannels).flatMap s.activeRequestQueues) ∧
      (∃ halves : List (List ℕ × List ℕ),
        List.Forall₂ (fun ch half => Halved (s.activeRequestQueues ch) half)
          (List.range config.dramChannels) halves ∧
        t.breq1 = halves.flatMap Prod.fst ∧ t.breq2 = halves.flatMap Prod.snd) ∧
      t.breq2.length ≤ t.breq1.length ∧ t.breq1.length ≤ t.breq2.length + 1 := by
  obtain ⟨halves, turn', hloop, hhalves, hahead⟩ :=
    groupLoop_halved true hsimple fun ch hch => hlength ch (List.mem_range.mp hch)
  have hbreqs : (s.join (halves.flatMap Prod.fst, halves.flatMap Prod.snd)).breq1 =
        halves.flatMap Prod.fst ∧
      (s.join (halves.flatMap Prod.fst, halves.flatMap Prod.snd)).breq2 =
        halves.flatMap Prod.snd := by
    simp only [join, hempty.1, hempty.2, List.nil_append, and_self]
  refine ⟨_, ?_, ?_, ⟨halves, hhalves, hbreqs.1, hbreqs.2⟩, ?_⟩
  · rw [groupSubBatches, if_pos hmode]
    exact hloop
  · rw [hbreqs.1, hbreqs.2]
    exact halved_divided hhalves
  · rw [hbreqs.1, hbreqs.2]
    have := Bool.toNat_le turn'
    rw [Bool.toNat_true] at hahead
    omega

def sampleSubBatches : SimulationConfig := { sampleConfig with subBatchMode := true }

/-- Three requests on one channel and one on the other. -/
def sampleQueues : RequestState where
  activeRequestQueues := fun ch => if ch = 0 then [0, 1, 2] else [3]
  activeRequestLatencyQueues := fun ch => if ch = 0 then [5, 6, 7] else [8]

theorem groupSubBatches_balanced_sample :
    ∃ t, sampleQueues.groupSubBatches sampleSubBatches = .ok t ∧
      (t.breq1 ++ t.breq2).Perm [0, 1, 2, 3] ∧ t.breq1.length ≤ t.breq2.length + 1 := by
  have hlength : ∀ ch < sampleSubBatches.dramChannels, (sampleQueues.activeRequestQueues ch).length =
      (sampleQueues.activeRequestLatencyQueues ch).length := by decide
  obtain ⟨t, hok, hperm, -, -, hbalance⟩ :=
    groupSubBatches_balanced (s := sampleQueues) rfl rfl ⟨rfl, rfl⟩ hlength
  exact ⟨t, hok, hperm, hbalance⟩

end RequestState

end NewPims

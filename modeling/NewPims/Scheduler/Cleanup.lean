import NewPims.Scheduler.Validity

/-! What the clean-up at the end of an iteration returns to the client and removes from the queue. -/
namespace NewPims

namespace RequestState

variable {config : SimulationConfig} {s : RequestState} {r q : ℕ}

section Cleanup

/-- The next iteration completes the request. -/
def Due (x : InferRequest) : Prop := x.outputSize = x.generated + 1

theorem id_setRequest {x : InferRequest} (hx : x.fixed = (s.request r).fixed)
    (hinit : x.isInitiated = true) : ((s.setRequest r x).request q).id = (s.request q).id :=
  id_of_fixed (request_set hx hinit).1

/-- A request that is due is returned, and leaves the queue with all others of its id. -/
theorem cleanupRequest_due (hdue : Due (s.request r)) :
    s.cleanupRequest r =
      { s.setRequest r (cleaned (s.request r)) with
        completedRequestQueue := s.completedRequestQueue ++ [r]
        requestQueue := s.requestQueue.filter fun q => ¬ (s.request q).id = (s.request r).id
        activeReqs := s.activeReqs -
          s.requestQueue.countP fun q => (s.request q).id = (s.request r).id } := by
  have hid : ∀ q, ((s.setRequest r (cleaned (s.request r))).request q).id = (s.request q).id :=
    fun q => id_setRequest rfl rfl
  refine (if_pos hdue).trans ?_
  change ({ s.setRequest r (cleaned (s.request r)) with
      completedRequestQueue := s.completedRequestQueue ++ [r]
      requestQueue := s.requestQueue.filter fun q =>
        ¬ ((s.setRequest r (cleaned (s.request r))).request q).id = (s.request r).id
      activeReqs := s.activeReqs - s.requestQueue.countP fun q =>
        ((s.setRequest r (cleaned (s.request r))).request q).id = (s.request r).id } :
      RequestState) = _
  simp only [hid]

theorem cleanupRequest_not_due (hdue : ¬ Due (s.request r)) :
    s.cleanupRequest r = s.setRequest r (cleaned (s.request r)) :=
  if_neg hdue

theorem request_cleanup : (s.cleanupRequest r).request q =
    (s.setRequest r (cleaned (s.request r))).request q := by
  by_cases hdue : Due (s.request r)
  · rw [cleanupRequest_due hdue]
    rfl
  · rw [cleanupRequest_not_due hdue]

theorem request_cleanup_ne (hne : q ≠ r) : (s.cleanupRequest r).request q = s.request q :=
  request_cleanup.trans (request_setRequest_ne hne)

theorem request_cleanup_self (hr : r < s.heap.length) :
    (s.cleanupRequest r).request r = cleaned (s.request r) :=
  request_cleanup.trans (request_setRequest_self hr)

theorem heap_length_cleanup : (s.cleanupRequest r).heap.length = s.heap.length :=
  keeps_cleanupRequest.length

/-- What the clean-up of a list of requests returns and removes, where no request needs more than
one iteration. -/
theorem cleanup_spec {rs : List ℕ} (hlt : ∀ r ∈ rs, r < s.heap.length)
    (hone : ∀ q < s.heap.length, Due (s.request q) ∨ (s.request q).outputSize ≤
      (s.request q).generated) :
    ∃ returned, (s.cleanupSubBatch rs).completedRequestQueue =
        s.completedRequestQueue ++ returned ∧ returned.Nodup ∧
      (∀ r, r ∈ returned ↔ r ∈ rs ∧ Due (s.request r)) ∧
      (∀ r ∈ (s.cleanupSubBatch rs).requestQueue, r ∈ s.requestQueue ∧
        (r ∈ rs → ¬ Due (s.request r))) ∧
      ∀ q < s.heap.length,
        (Due ((s.cleanupSubBatch rs).request q) ↔ Due (s.request q) ∧ q ∉ rs) ∧
        (Due ((s.cleanupSubBatch rs).request q) ∨ ((s.cleanupSubBatch rs).request q).outputSize ≤
          ((s.cleanupSubBatch rs).request q).generated) := by
  induction rs generalizing s with
  | nil =>
    refine ⟨[], (List.append_nil _).symm, List.nodup_nil, by simp, fun r hr => ⟨hr, nofun⟩, ?_⟩
    exact fun q hq => ⟨by simp [cleanupSubBatch], hone q hq⟩
  | cons r rs ih =>
    obtain ⟨hr, hrest⟩ := List.forall_mem_cons.mp hlt
    have hself := request_cleanup_self hr
    have hne : ∀ {q}, q ≠ r → (s.cleanupRequest r).request q = s.request q := request_cleanup_ne
    have hdueself : ¬ Due ((s.cleanupRequest r).request r) := by
      rw [hself]
      rcases hone r hr with h | h <;> unfold Due at * <;> simp only [cleaned] <;> omega
    have hone' : ∀ q < (s.cleanupRequest r).heap.length, Due ((s.cleanupRequest r).request q) ∨
        ((s.cleanupRequest r).request q).outputSize ≤
          ((s.cleanupRequest r).request q).generated := by
      intro q hq
      rw [heap_length_cleanup] at hq
      by_cases hqr : q = r
      · subst hqr
        rw [hself]
        rcases hone q hr with h | h <;> unfold Due at * <;> simp only [cleaned] <;> omega
      · rw [hne hqr]
        exact hone q hq
    obtain ⟨returned, hcompleted, hnodup, hmem, hqueue, hall⟩ :=
      ih (by rwa [heap_length_cleanup]) hone'
    have hstep : (s.cleanupRequest r).cleanupSubBatch rs = s.cleanupSubBatch (r :: rs) := rfl
    rw [hstep] at hcompleted hqueue hall
    have hnot : r ∉ returned := fun h => hdueself ((hmem r).mp h).2
    have hmem' : ∀ q, q ∈ returned ↔ q ≠ r ∧ q ∈ rs ∧ Due (s.request q) := by
      intro q
      by_cases hqr : q = r
      · subst hqr
        exact ⟨fun h => absurd h hnot, fun h => absurd rfl h.1⟩
      · rw [hmem, hne hqr]
        exact ⟨fun h => ⟨hqr, h⟩, And.right⟩
    have hduerest : ∀ q < s.heap.length,
        (Due ((s.cleanupSubBatch (r :: rs)).request q) ↔ Due (s.request q) ∧ q ∉ r :: rs) := by
      intro q hq
      rw [(hall q (by rwa [heap_length_cleanup])).1]
      by_cases hqr : q = r
      · subst hqr
        exact ⟨fun h => absurd h.1 hdueself, fun h => absurd List.mem_cons_self h.2⟩
      · rw [hne hqr, List.mem_cons, not_or]
        exact ⟨fun h => ⟨h.1, hqr, h.2⟩, fun h => ⟨h.1, h.2.2⟩⟩
    by_cases hdue : Due (s.request r)
    · rw [cleanupRequest_due hdue] at hcompleted hqueue
      refine ⟨r :: returned, ?_, List.nodup_cons.mpr ⟨hnot, hnodup⟩, ?_, ?_,
        fun q hq => ⟨hduerest q hq, (hall q (by rwa [heap_length_cleanup])).2⟩⟩
      · rw [hcompleted]
        simp only [List.append_assoc, List.singleton_append]
      · intro q
        rw [List.mem_cons, hmem', List.mem_cons]
        by_cases hqr : q = r
        · subst hqr
          simp [hdue]
        · simp [hqr]
      · intro q hq
        obtain ⟨hfilter, hrest'⟩ := hqueue q hq
        obtain ⟨hq', hid⟩ := List.mem_filter.mp hfilter
        -- its id differs from that of the returned request
        have hqr : q ≠ r := by
          rintro rfl
          simp at hid
        refine ⟨hq', fun hin => ?_⟩
        have hin' := (List.mem_cons.mp hin).resolve_left hqr
        have hnotdue := hrest' hin'
        rwa [← cleanupRequest_due hdue, hne hqr] at hnotdue
    · rw [cleanupRequest_not_due hdue] at hcompleted hqueue
      refine ⟨returned, hcompleted, hnodup, ?_, ?_,
        fun q hq => ⟨hduerest q hq, (hall q (by rwa [heap_length_cleanup])).2⟩⟩
      · intro q
        rw [hmem', List.mem_cons]
        by_cases hqr : q = r
        · subst hqr
          simp [hdue]
        · simp [hqr]
      · intro q hq
        obtain ⟨hq', hrest'⟩ := hqueue q hq
        refine ⟨hq', fun hin => ?_⟩
        by_cases hqr : q = r
        · rwa [hqr]
        · have hnotdue := hrest' ((List.mem_cons.mp hin).resolve_left hqr)
          rwa [← cleanupRequest_not_due hdue, hne hqr] at hnotdue

/-- The clean-up of the list completes the request; every occurrence counts a token. -/
def Completes (s : RequestState) (rs : List ℕ) (q : ℕ) : Prop :=
  (s.request q).generated < (s.request q).outputSize ∧
    (s.request q).outputSize ≤ (s.request q).generated + rs.count q

/-- Only a completed request removes requests from the queue, those of its id. -/
theorem removed_cleanup {rs : List ℕ} (hlt : ∀ q ∈ rs, q < s.heap.length)
    (hr : r ∈ s.requestQueue) (hremoved : r ∉ (s.cleanupSubBatch rs).requestQueue) :
    ∃ q ∈ rs, (s.request q).id = (s.request r).id ∧ Completes s rs q := by
  induction rs generalizing s with
  | nil => exact absurd hr hremoved
  | cons p rs ih =>
    obtain ⟨hp, hlt⟩ := List.forall_mem_cons.mp hlt
    have hstep : (s.cleanupRequest p).cleanupSubBatch rs = s.cleanupSubBatch (p :: rs) := rfl
    by_cases hremains : r ∈ (s.cleanupRequest p).requestQueue
    · obtain ⟨q, hq, hid, hless, hcount⟩ :=
        ih (s := s.cleanupRequest p) (by rwa [heap_length_cleanup]) hremains (by rwa [hstep])
      rw [id_of_fixed (keeps_cleanupRequest.fixed q), id_of_fixed (keeps_cleanupRequest.fixed r)]
        at hid
      refine ⟨q, List.mem_cons_of_mem p hq, hid, ?_⟩
      by_cases hqp : q = p
      · subst hqp
        rw [request_cleanup_self hp, cleaned] at hless hcount
        rw [Completes, List.count_cons_self]
        dsimp only at hless hcount
        omega
      · rw [request_cleanup_ne hqp] at hless hcount
        rw [Completes, List.count_cons_of_ne (Ne.symm hqp)]
        exact ⟨hless, hcount⟩
    · -- the first request of the list removes it
      by_cases hdue : Due (s.request p)
      · refine ⟨p, List.mem_cons_self, ?_, ?_⟩
        · rw [cleanupRequest_due hdue] at hremains
          by_contra hne
          exact hremains (List.mem_filter.mpr ⟨hr, decide_eq_true fun heq => hne heq.symm⟩)
        · rw [Completes, List.count_cons_self]
          unfold Due at hdue
          omega
      · rw [cleanupRequest_not_due hdue] at hremains
        exact absurd hr hremains

/-- The end of an iteration cleans up both sub-batches in their order. -/
theorem endIteration_eq :
    s.endIteration = { s.cleanupSubBatch (s.breq1 ++ s.breq2) with breq1 := [], breq2 := [] } := by
  have hbreq2 : (s.cleanupSubBatch s.breq1).cleanupSubBatch s.breq2 =
      s.cleanupSubBatch (s.breq1 ++ s.breq2) := (List.foldl_append ..).symm
  rw [endIteration, ← hbreq2]

end Cleanup

end RequestState

end NewPims

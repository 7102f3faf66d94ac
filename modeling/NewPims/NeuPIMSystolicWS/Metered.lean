import Mathlib.Algebra.GroupWithZero.Basic
import Mathlib.Algebra.Ring.Nat
import NewPims.NeuPIMSystolicWS.Bytes
import NewPims.Stat

/-! The byte counts along a run: every call keeps them at the number of the requests made, and at the
end of a tile they are compared with the sizes of these requests. -/
namespace NewPims.NeuPIMSystolicWS

open Bank Transition NeuPIMSCore Session

variable {config : SimulationConfig} {set : RobinHood} {d : Direction} {c c' : NeuPIMSCore}
  {past past' u : List MemoryAccess} {platform : StagePlatform} {ptr : TilePtr} {tile tile' : Tile}

section Calls

theorem accessesOf_size {inst : Instruction} {reqType : MemoryAccessType} {a : MemoryAccess}
    (h : a ∈ (accessesOf config set c platform inst reqType).1) : a.size = config.dramReqSize := by
  obtain ⟨addr, -, rfl⟩ := List.mem_map.mp h
  rfl

/-- There is a request as soon as there is a source address. -/
theorem accessesOf_eq_nil {inst : Instruction} {reqType : MemoryAccessType} :
    (accessesOf config set c platform inst reqType).1 = [] ↔ inst.srcAddrs = [] := by
  have hinserted : ∀ addr srcAddrs, (MemoryAccess.insertedAddrs config addr srcAddrs).1 = [] ↔
      srcAddrs = [] := by
    intro addr srcAddrs
    cases srcAddrs <;> simp [MemoryAccess.insertedAddrs]
  rw [← hinserted c.constAddr, accessesOf, MemoryAccess.fromInstruction, List.map_eq_nil_iff,
    List.eq_nil_iff_forall_not_mem, List.eq_nil_iff_forall_not_mem]
  exact forall_congr' fun a => not_congr (set.mem_elements _ a)

/-- The queue of a lane without its front. -/
theorem mem_lanes_front {l : Lane} {front : Instruction} (f : Lane → List Instruction)
    (hlane : c'.lane = Function.update c.lane platform l)
    (hfront : f (c.lane platform) = front :: f l) (i : Instruction) :
    i ∈ (contents platforms fun p => f (c.lane p)) ↔
      i = front ∨ i ∈ (contents platforms fun p => f (c'.lane p)) := by
  have hother : ∀ p, p ≠ platform → f (c'.lane p) = f (c.lane p) := by
    intro p hp
    rw [hlane, Function.update_of_ne hp]
  have hself : f (c'.lane platform) = f l := by rw [hlane, Function.update_self]
  simp only [mem_contents]
  constructor
  · rintro ⟨p, hmem, hi⟩
    by_cases hp : p = platform
    · rw [hp, hfront] at hi
      rcases List.mem_cons.mp hi with rfl | hi
      · exact Or.inl rfl
      · exact Or.inr ⟨platform, mem_platforms _, hself ▸ hi⟩
    · exact Or.inr ⟨p, hmem, hother p hp ▸ hi⟩
  · rintro (rfl | ⟨p, hmem, hi⟩)
    · exact ⟨platform, mem_platforms _, by rw [hfront]; exact List.mem_cons_self⟩
    · by_cases hp : p = platform
      · rw [hp, hself] at hi
        exact ⟨platform, mem_platforms _, by rw [hfront]; exact List.mem_cons_of_mem _ hi⟩
      · exact ⟨p, hmem, by rw [← hother p hp]; exact hi⟩

/-- The requests after a lane has queued some more. -/
theorem countP_queued {l : Lane} {accesses : List MemoryAccess}
    (hlane : c'.lane = Function.update c.lane platform l)
    (hpush : pushMemoryRequests config (c.lane platform).memoryRequestQueues accesses =
      .ok l.memoryRequestQueues) (P : MemoryAccess → Bool) :
    (queuedRequests config c').countP P =
      (queuedRequests config c).countP P + accesses.countP P := by
  have hrequests := countP_requests (u := []) hlane hpush P
  rwa [requests, requests, List.append_nil, List.append_nil] at hrequests

/-- Requests of the other type count for nothing. -/
theorem quiet_of_pushed {l : Lane} {accesses : List MemoryAccess} (hkeeps : KeepsBytes d c c')
    (hlane : c'.lane = Function.update c.lane platform l)
    (hpush : pushMemoryRequests config (c.lane platform).memoryRequestQueues accesses =
      .ok l.memoryRequestQueues) (htype : ∀ a ∈ accesses, a.reqType ≠ d.reqType)
    (hqueue : ∀ i, d.expands i → (i ∈ d.queue c' ↔ i ∈ d.queue c)) :
    Quiet config d past past c c' := by
  refine ⟨hkeeps, ?_, hqueue⟩
  intro P hP
  have hnone : accesses.countP P = 0 :=
    List.countP_eq_zero.mpr fun a ha hPa => htype a ha (hP a hPa)
  rw [madeRequests, madeRequests, List.countP_append, List.countP_append,
    countP_queued hlane hpush, hnone, Nat.add_zero]

theorem quiet_of_sameQueues (hkeeps : KeepsBytes d c c')
    (hqueues : ∀ p, (c.lane p).SameQueues (c'.lane p)) : Quiet config d past past c c' := by
  obtain ⟨hld, hst, -, hreq⟩ := sameQueues_contents config hqueues
  refine ⟨hkeeps, ?_, ?_⟩
  · intro P _
    rw [madeRequests, madeRequests, hreq]
  · intro i _
    cases d with
    | reads => rw [Direction.queue, hld]
    | writes => rw [Direction.queue, hst]

theorem metered_ldInst (h : Metered config d past c) (htagged : Tagged config ⟨c, u⟩)
    (hok : ldInst config set c = .ok c') : Metered config d past c' := by
  rcases ldInst_ok hok with ⟨-, rfl⟩ | ⟨front, rest, l, tile, queues, hqueue, hopcode, hacc,
    hreserve, htile, hpush, hc'⟩
  · exact h
  obtain ⟨-, -, hstl, -, hreql⟩ := sameQueues_reserve hreserve
  rw [hreql] at hpush
  have hlane : c'.lane = Function.update c.lane .SA _ := congrArg NeuPIMSCore.lane hc'
  have hfront : front ∈ (c.lane .SA).ldInstQueue := by rw [hqueue]; exact List.mem_cons_self
  cases d with
  | reads =>
    refine metered_expanded h
      { queue := mem_lanes_front Lane.ldInstQueue hlane hqueue
        made := countP_queued hlane hpush
        access := fun a ha => ⟨(mem_accessesOf ha).1, (mem_accessesOf ha).2.1, accessesOf_size ha⟩
        nonempty := ?_
        old := (htagged.load .SA front hfront).1.old
        owner := htile
        heap := congrArg NeuPIMSCore.heap hc'
        next := by rw [hc']
        bytes := rfl
        transfers := rfl }
    simp [Direction.expands, hopcode, hacc]
  | writes =>
    have hkeeps : KeepsBytes .writes c c' :=
      keepsBytes_update htile (congrArg NeuPIMSCore.heap hc') (by rw [hc']) ⟨rfl, rfl⟩
    refine metered_quiet h (quiet_of_pushed hkeeps hlane hpush ?_ ?_)
    · intro a ha
      rw [(mem_accessesOf ha).2.1]
      decide
    · intro i _
      rw [Direction.queue, storing, contents_lane_same Lane.stInstQueue hlane hstl, storing]

theorem metered_pimLdInst (h : Metered config d past c) (hok : pimLdInst config c = .ok c') :
    Metered config d past c' := by
  rcases pimLdInst_ok hok with ⟨-, rfl⟩ | ⟨front, rest, request, l, queues, hqueue, hpim, hrequest,
    hreserve, hpush, hc'⟩
  · exact h
  obtain ⟨-, hldl, hstl, -, hreql⟩ := sameQueues_reserveResult hreserve
  rw [hreql] at hpush
  have hlane : c'.lane = Function.update c.lane .PIM _ := congrArg NeuPIMSCore.lane hc'
  have hkeeps : KeepsBytes d c c' := keepsBytes_of_eq (by rw [hc']) (by rw [hc'])
  obtain ⟨htype, -⟩ := transToMemoryAccess_ok hrequest
  refine metered_quiet h (quiet_of_pushed hkeeps hlane hpush ?_ ?_)
  · intro a ha
    rw [List.mem_singleton.mp ha]
    cases hopcode : front.opcode <;> rw [hopcode] at htype hpim <;> cases hpim <;>
      rw [← Except.ok.inj htype] <;> cases d <;> decide
  · intro i hexpands
    cases d with
    | reads =>
      -- the front of the queue is a command, not a load
      have hmem := mem_lanes_front Lane.ldInstQueue hlane hqueue i
      have hne : i ≠ front := by
        rintro rfl
        rw [Direction.expands, beq_iff_eq] at hexpands
        rw [hexpands] at hpim
        cases hpim
      rw [Direction.queue, loading, loading, hmem, or_iff_right hne]
    | writes =>
      rw [Direction.queue, storing, contents_lane_same Lane.stInstQueue hlane hstl, storing]

theorem metered_storeQueueCycle (h : Metered config d past c) (htagged : Tagged config ⟨c, u⟩)
    (hok : storeQueueCycle config set platform c = .ok c') : Metered config d past c' := by
  rcases storeQueueCycle_ok hok with rfl | ⟨front, rest, tile, queues, hqueue, -, hstore, htile,
    hpush, hc'⟩
  · exact h
  have hlane : c'.lane = Function.update c.lane platform _ := congrArg NeuPIMSCore.lane hc'
  have hfront : front ∈ (c.lane platform).stInstQueue := by rw [hqueue]; exact List.mem_cons_self
  cases d with
  | writes =>
    refine metered_expanded h
      { queue := mem_lanes_front Lane.stInstQueue hlane hqueue
        made := countP_queued hlane hpush
        access := fun a ha => ⟨(mem_accessesOf ha).1, (mem_accessesOf ha).2.1, accessesOf_size ha⟩
        nonempty := ?_
        old := (htagged.store platform front hfront).1.old
        owner := htile
        heap := congrArg NeuPIMSCore.heap hc'
        next := by rw [hc']
        bytes := rfl
        transfers := rfl }
    rw [Ne, accessesOf_eq_nil]
    simp [Direction.expands, hstore]
  | reads =>
    have hkeeps : KeepsBytes .reads c c' :=
      keepsBytes_update htile (congrArg NeuPIMSCore.heap hc') (by rw [hc']) ⟨rfl, rfl⟩
    refine metered_quiet h (quiet_of_pushed hkeeps hlane hpush ?_ ?_)
    · intro a ha
      rw [(mem_accessesOf ha).2.1]
      decide
    · intro i _
      rw [Direction.queue, loading, contents_lane_same Lane.ldInstQueue hlane rfl, loading]

theorem quiet_chargeCycle {pipeline : List Instruction} (h : chargeCycle pipeline c = .ok c') :
    Quiet config d past past c c' := by
  refine quiet_of_sameQueues (keepsBytes_chargeCycle h) ?_
  rcases chargeCycle_ok h with rfl | ⟨_, _, _, -, -, rfl⟩ <;> exact fun _ => sameQueues_refl _

theorem quiet_of_lane {l : Lane} (hkeeps : KeepsBytes d c c')
    (hlane : c'.lane = Function.update c.lane platform l)
    (hld : l.ldInstQueue = (c.lane platform).ldInstQueue)
    (hst : l.stInstQueue = (c.lane platform).stInstQueue)
    (hreq : l.memoryRequestQueues = (c.lane platform).memoryRequestQueues) :
    Quiet config d past past c c' := by
  refine quiet_of_pushed hkeeps hlane (by rw [hreq]; rfl) (fun a ha => absurd ha List.not_mem_nil) ?_
  intro i _
  cases d with
  | reads => rw [Direction.queue, loading, contents_lane_same Lane.ldInstQueue hlane hld, loading]
  | writes => rw [Direction.queue, storing, contents_lane_same Lane.stInstQueue hlane hst, storing]

theorem quiet_executeQueueCycle (h : executeQueueCycle config platform c = .ok c') :
    Quiet config d past past c c' := by
  have hkeeps : KeepsBytes d c c' := keepsBytes_executeQueueCycle h
  rcases executeQueueCycle_lane h with rfl | ⟨rest, s, hlane⟩
  · exact quiet_of_sameQueues hkeeps fun _ => sameQueues_refl _
  · exact quiet_of_lane hkeeps hlane rfl rfl rfl

theorem quiet_retire : Quiet config d past past c (c.retire platform) :=
  quiet_of_lane keepsBytes_retire rfl rfl rfl rfl

theorem metered_unitStep {unit : UnitStep} (h : Metered config d past c)
    (htagged : Tagged config ⟨c, u⟩) (hok : unitStep config set c unit = .ok c') :
    Metered config d past c' := by
  cases unit with
  | systolic =>
    rcases systolicCycle_ok config hok with rfl | ⟨p, inst, e, hfront, hcomplete⟩
    · exact h
    · exact metered_quiet h (quiet_of_sameQueues (keepsBytes_complete hfront hcomplete)
        (complete_sameQueues hfront hcomplete))
  | vector k =>
    simp only [unitStep] at hok
    split_ifs at hok with hk
    rcases vectorPipelineCycle_ok hk hok with rfl | ⟨p, inst, e, hfront, hcomplete⟩
    · exact h
    · exact metered_quiet h (quiet_of_sameQueues (keepsBytes_complete hfront hcomplete)
        (complete_sameQueues hfront hcomplete))
  | ld => exact metered_ldInst h htagged hok
  | st p => exact metered_storeQueueCycle h htagged hok
  | ex p => exact metered_quiet h (quiet_executeQueueCycle hok)
  | pimLd => exact metered_pimLdInst h hok
  | chargeSystolic => exact metered_quiet h (quiet_chargeCycle hok)
  | chargeVector k =>
    simp only [unitStep] at hok
    split_ifs at hok with hk
    exact metered_quiet h (quiet_chargeCycle hok)
  | core =>
    cases hok
    have htick : Metered config d past c.tick :=
      metered_quiet h (quiet_of_sameQueues (keepsBytes_of_eq rfl rfl) fun _ => sameQueues_refl _)
    exact metered_quiet (metered_quiet htick quiet_retire) quiet_retire

theorem queue_old (htagged : Tagged config ⟨c, u⟩) {i : Instruction} (hi : i ∈ d.queue c) :
    i.parentTile < c.nextTile := by
  cases d with
  | reads =>
    obtain ⟨p, -, hi⟩ := mem_contents.mp hi
    exact (htagged.load p i hi).1.old
  | writes =>
    obtain ⟨p, -, hi⟩ := mem_contents.mp hi
    exact (htagged.store p i hi).1.old

/-- The instructions that a new tile brings into the queues. -/
theorem mem_lanes_append {l : Lane} {xs : List Instruction} (f : Lane → List Instruction)
    (hlane : c'.lane = Function.update c.lane platform l)
    (hlist : f l = f (c.lane platform) ++ xs) (i : Instruction) :
    i ∈ (contents platforms fun p => f (c'.lane p)) ↔
      i ∈ (contents platforms fun p => f (c.lane p)) ∨ i ∈ xs := by
  have hcount := countP_lane f hlane (· == i)
  rw [hlist, List.countP_append] at hcount
  have hmem : ∀ ys : List Instruction, i ∈ ys ↔ 0 < ys.countP (· == i) := by
    intro ys
    rw [List.countP_pos_iff]
    constructor
    · exact fun hi => ⟨i, hi, beq_self_eq_true i⟩
    · rintro ⟨j, hj, hij⟩
      rwa [← beq_iff_eq.mp hij]
  rw [hmem, hmem, hmem]
  omega

theorem route_isStore {op : Opcode} (h : op.isStore) : route platform op = .store := by
  cases platform <;> cases op <;> first | rfl | cases h

theorem takes_of_expands {i : Instruction} :
    (Direction.reads.expands i → takesLoad platform i) ∧
      (Direction.writes.expands i → takes platform .store i) := by
  constructor
  · intro h
    rw [Direction.expands, beq_iff_eq] at h
    rw [takesLoad, takes, takes, h]
    cases platform <;> rfl
  · intro h
    rw [Direction.expands, Bool.and_eq_true] at h
    rw [takes, route_isStore h.1]
    rfl

/-- The instructions of a new tile, and no others, wait in the queues under its pointer. -/
theorem metered_admitTile (h : Metered config d past c) (htagged : Tagged config ⟨c, u⟩)
    (hbytes : d.bytes tile.stat = 0) (hskip : tile.skip = false)
    (hparent : ∀ i ∈ tile.instructions, i.parentTile = c.nextTile)
    (hok : c.admitTile platform tile = .ok c') : Metered config d past c' := by
  obtain ⟨l', tile', hall, hc'⟩ := admitTile_ok hok
  obtain ⟨hl', htile'⟩ := enqueueAll_ok hall
  have hlane : c'.lane = Function.update c.lane platform
      { l' with tiles := l'.tiles ++ [c.nextTile] } := by rw [hc']
  have hheap : c'.heap = Function.update c.heap c.nextTile (some tile') := by rw [hc']
  have hnext : c'.nextTile = c.nextTile + 1 := by rw [hc']
  have hreq : queuedRequests config c' = queuedRequests config c :=
    contents_lane_same (fun l => contents (List.range config.dramChannels) l.memoryRequestQueues)
      hlane (by rw [hl'])
  have hrequests : ∀ q, requestsOf config past c' d q = requestsOf config past c d q := by
    intro q
    rw [requestsOf, madeRequests, hreq, requestsOf, madeRequests]
  have hqueue : ∀ i, d.expands i → (i ∈ d.queue c' ↔ i ∈ d.queue c ∨ i ∈ tile.instructions) := by
    intro i hexpands
    cases d with
    | reads =>
      have hmem := mem_lanes_append Lane.ldInstQueue hlane (by rw [hl']) i
      rw [Direction.queue, loading, hmem, List.mem_filter, loading]
      exact or_congr_right (and_iff_left (takes_of_expands.1 hexpands))
    | writes =>
      have hmem := mem_lanes_append Lane.stInstQueue hlane (by rw [hl']) i
      rw [Direction.queue, storing, hmem, List.mem_filter, storing]
      exact or_congr_right (and_iff_left (takes_of_expands.2 hexpands))
  have hnew := h.fresh c.nextTile (Nat.le_refl _)
  refine ⟨?_, ?_, ?_, ?_⟩
  · intro q tile₁ htile₁
    rw [hheap] at htile₁
    rw [hrequests]
    by_cases hq : q = c.nextTile
    · subst hq
      rw [Function.update_self] at htile₁
      cases htile₁
      rw [hnew, Nat.zero_mul, htile']
      exact hbytes
    · rw [Function.update_of_ne hq] at htile₁
      exact h.bytes q tile₁ htile₁
  · intro q tile₁ htile₁
    rw [hheap] at htile₁
    rw [hrequests]
    by_cases hq : q = c.nextTile
    · subst hq
      rw [Function.update_self] at htile₁
      cases htile₁
      have htransfers : d.transfers tile' = tile.instructions.any d.expands := by
        rw [htile', Direction.transfers, hskip]
        rfl
      rw [hnew, htransfers, List.any_eq_true]
      constructor
      · rintro ⟨i, hi, hexpands⟩
        exact Or.inr ⟨i, (hqueue i hexpands).mpr (Or.inr hi), hparent i hi, hexpands⟩
      · rintro (hpos | ⟨i, hi, howner, hexpands⟩)
        · exact absurd hpos (Nat.lt_irrefl 0)
        · rcases (hqueue i hexpands).mp hi with hold | hi
          · exact absurd howner (Nat.ne_of_lt (queue_old htagged hold))
          · exact ⟨i, hi, hexpands⟩
    · rw [Function.update_of_ne hq] at htile₁
      rw [h.transfers q tile₁ htile₁]
      apply or_congr_right
      constructor
      · rintro ⟨i, hi, howner, hexpands⟩
        exact ⟨i, (hqueue i hexpands).mpr (Or.inl hi), howner, hexpands⟩
      · rintro ⟨i, hi, howner, hexpands⟩
        rcases (hqueue i hexpands).mp hi with hold | hi
        · exact ⟨i, hold, howner, hexpands⟩
        · exact absurd (howner.symm.trans (hparent i hi)) hq
  · intro q hq
    rw [hnext] at hq
    rw [hrequests]
    exact h.fresh q (Nat.le_of_succ_le hq)
  · rw [madeRequests, hreq]
    exact h.size

/-- A skipped tile makes no requests. -/
theorem metered_skipTile (h : Metered config d past c) (htagged : Tagged config ⟨c, u⟩)
    (hskip : tile.skip = true) : Metered config d past (c.skipTile tile) := by
  have hnew := h.fresh c.nextTile (Nat.le_refl _)
  have hqueue : d.queue (c.skipTile tile) = d.queue c := by cases d <;> rfl
  refine ⟨?_, ?_, ?_, h.size⟩
  · intro q tile₁ htile₁
    by_cases hq : q = c.nextTile
    · subst hq
      cases (Function.update_self c.nextTile _ c.heap).symm.trans htile₁
      change _ = requestsOf config past c d c.nextTile * _
      rw [hnew, Nat.zero_mul]
      cases d <;> rfl
    · exact h.bytes q tile₁ ((Function.update_of_ne hq _ _).symm.trans htile₁)
  · intro q tile₁ htile₁
    by_cases hq : q = c.nextTile
    · subst hq
      cases (Function.update_self c.nextTile _ c.heap).symm.trans htile₁
      change _ ↔ 0 < requestsOf config past c d c.nextTile ∨ _
      rw [hnew, Direction.transfers, hskip, hqueue]
      constructor
      · exact fun hfalse => absurd hfalse Bool.false_ne_true
      · rintro (hpos | ⟨i, hi, howner, -⟩)
        · exact absurd hpos (Nat.lt_irrefl 0)
        · exact absurd howner (Nat.ne_of_lt (queue_old htagged hi))
    · rw [hqueue]
      exact h.transfers q tile₁ ((Function.update_of_ne hq _ _).symm.trans htile₁)
  · intro q hq
    exact h.fresh q (Nat.le_of_succ_le hq)

end Calls

section Runs

/-- The request that a call takes from the core, on its way to the memory. -/
def taken (s : Session) : Call → List MemoryAccess
  | .popMemoryRequest platform channel =>
    match s.core.popMemoryRequest platform channel with
    | some (request, _) => [request]
    | none => []
  | _ => []

variable {s t : Session}

theorem metered_popMemoryRequest {channel : ℕ} {request : MemoryAccess}
    (h : Metered config d past c) (hchannel : channel < config.dramChannels)
    (hok : c.popMemoryRequest platform channel = some (request, c')) :
    Metered config d (past ++ [request]) c' := by
  obtain ⟨rest, hqueue, hc'⟩ := popMemoryRequest_some hok
  have hlane : c'.lane = Function.update c.lane platform _ := congrArg NeuPIMSCore.lane hc'
  refine metered_quiet h
    { keeps := keepsBytes_of_eq (by rw [hc']; rfl) (by rw [hc']; rfl)
      made := ?_
      queue := ?_ }
  · intro P _
    have hmoved := countP_requests_pop (u := past) hchannel hok P
    simp only [requests, List.countP_append] at hmoved
    simp only [madeRequests, List.countP_append]
    omega
  · intro i _
    cases d with
    | reads => rw [Direction.queue, loading, contents_lane_same Lane.ldInstQueue hlane rfl, loading]
    | writes => rw [Direction.queue, storing, contents_lane_same Lane.stInstQueue hlane rfl, storing]

theorem startTile_bytes (c : NeuPIMSCore) (platform : StagePlatform) (tile : Tile) (b a : ℕ) :
    d.bytes (c.startTile platform tile b a).stat = 0 := by
  cases d <;> rfl

theorem metered_issue (h : Metered config d past c) (htagged : Tagged config ⟨c, u⟩)
    (hok : c.issue tile = .ok c') : Metered config d past c' := by
  unfold issue at hok
  split_ifs at hok with hskip
  · cases hok
    exact metered_skipTile h htagged hskip
  · have hflip : Metered config d past (c.flipBuffers tile.accum) :=
      metered_quiet h (quiet_of_sameQueues (keepsBytes_of_eq rfl rfl) (sameQueues_flipBuffers _))
    have htag : Tagged config ⟨c.flipBuffers tile.accum, u⟩ :=
      tagged_kept htagged (kept_of_eq rfl rfl) (sameQueues_flipBuffers _) rfl rfl rfl
    exact metered_admitTile hflip htag (startTile_bytes _ _ _ _ _) (Bool.eq_false_iff.mpr hskip)
      (startTile_parent _ _ _ _ _) hok

theorem metered_issuePim (h : Metered config d past c) (htagged : Tagged config ⟨c, u⟩)
    (hok : c.issuePim tile = .ok c') : Metered config d past c' := by
  unfold issuePim at hok
  split_ifs at hok with hskip
  · cases hok
    exact metered_skipTile h htagged hskip
  · have hflush : Metered config d past c.flushPim :=
      metered_quiet h (quiet_of_sameQueues (keepsBytes_of_eq rfl rfl) sameQueues_flushPim)
    have htag : Tagged config ⟨c.flushPim, u⟩ :=
      tagged_kept htagged (kept_of_eq rfl rfl) sameQueues_flushPim rfl rfl rfl
    exact metered_admitTile hflush htag (startTile_bytes _ _ _ _ _) (Bool.eq_false_iff.mpr hskip)
      (startTile_parent _ _ _ _ _) hok

theorem metered_call {x : Call} (h : Metered config d past s.core) (htagged : Tagged config s)
    (hok : call config set s x = .ok t) : Metered config d (past ++ taken s x) t.core := by
  cases x with
  | popMemoryRequest platform channel =>
    simp only [call] at hok
    split_ifs at hok with hchannel
    cases hpop : s.core.popMemoryRequest platform channel with
    | none => simp [hpop] at hok
    | some r =>
      simp only [hpop] at hok
      cases hok
      simp only [taken, hpop]
      exact metered_popMemoryRequest h hchannel hpop
  | issue tile =>
    simp only [taken, List.append_nil]
    simp only [call] at hok
    split_ifs at hok
    obtain ⟨c', hc', rfl⟩ := map_ok hok
    exact metered_issue h htagged hc'
  | issuePim tile =>
    simp only [taken, List.append_nil]
    simp only [call] at hok
    split_ifs at hok
    obtain ⟨c', hc', rfl⟩ := map_ok hok
    exact metered_issuePim h htagged hc'
  | cycle =>
    simp only [taken, List.append_nil]
    obtain ⟨c', hc', rfl⟩ := map_ok hok
    obtain ⟨units, hunits⟩ := cycle_runs config set s.core
    have hsteps := run_invariant
      (fun c => Metered config d past c ∧ Tagged config ⟨c, s.unanswered⟩)
      (fun c unit c' hc hstep => ⟨metered_unitStep hc.1 hc.2 hstep,
        tagged_preserved.unit c s.unanswered unit c' hc.2 hstep⟩)
      ⟨h, htagged⟩ (hunits.trans hc')
    exact hsteps.1
  | pushMemoryResponse request platform =>
    simp only [taken, List.append_nil]
    simp only [call] at hok
    split_ifs at hok
    obtain ⟨c', hc', rfl⟩ := map_ok hok
    have hsame : ∀ p, (s.core.lane p).SameQueues (c'.lane p) := by
      obtain ⟨tile, tile', -, -, hresponded⟩ := pushMemoryResponse_ok hc'
      cases hresponded with
      | write _ => exact fun _ => sameQueues_refl _
      | unfilled _ _ => exact fun _ => sameQueues_refl _
      | filled _ _ hfill => exact sameQueues_update rfl (sameQueues_fill hfill)
    exact metered_quiet h (quiet_of_sameQueues (keepsBytes_pushMemoryResponse hc') hsame)
  | popFinishedTile =>
    simp only [taken, List.append_nil]
    cases hok
    refine metered_quiet h (quiet_of_sameQueues keepsBytes_popFinishedTile fun p => ?_)
    unfold popFinishedTile
    cases s.core.finishedTiles <;> exact sameQueues_refl _
  | statics constAddr memAccessId =>
    simp only [taken, List.append_nil]
    cases hok
    exact metered_quiet h (quiet_of_sameQueues (keepsBytes_of_eq rfl rfl) fun _ => sameQueues_refl _)

theorem metered_init (id : ℕ) : Metered config d [] (Session.init config id).core := by
  have hmade : madeRequests config [] (Session.init config id).core = [] := by
    simp [madeRequests, queuedRequests, Session.init, NeuPIMSCore.init, Lane.init, contents]
  refine ⟨fun _ _ h => ?_, fun _ _ h => ?_, fun q _ => ?_, ?_⟩
  · cases h
  · cases h
  · rw [requestsOf, hmade, List.countP_nil]
  · rw [hmade, List.countP_nil]

/-- The requests for the memory that leave the core in a run. -/
def issuedRequests (config : SimulationConfig) (set : RobinHood) (id : ℕ) (calls : List Call) :
    List MemoryAccess := trace (call config set) taken (Session.init config id) calls

theorem metered_run {id : ℕ} {calls : List Call}
    (hrun : run (call config set) (Session.init config id) calls = .ok s) :
    Metered config d (issuedRequests config set id calls) s.core ∧ Tagged config s := by
  have hall := run_trace
    (fun past s => Metered config d past s.core ∧ Tagged config s)
    (fun past s x t h hok => ⟨metered_call h.1 h.2 hok,
      preserved_call tagged_preserved h.2 (meets_true s x) hok⟩)
    ⟨metered_init id, tagged_init id⟩ hrun
  exact hall

/-- The bytes of the requests made for a tile. -/
def issuedBytes (d : Direction) (ptr : TilePtr) (issued : List MemoryAccess) : ℕ :=
  ((issued.filter (d.requestOf ptr)).map MemoryAccess.size).sum

theorem issuedBytes_eq {issued : List MemoryAccess}
    (hsize : issued.countP (d.otherSize config) = 0) :
    issuedBytes d ptr issued = issued.countP (d.requestOf ptr) * config.dramReqSize := by
  have hall : ∀ n ∈ (issued.filter (d.requestOf ptr)).map MemoryAccess.size,
      n = config.dramReqSize := by
    intro n hn
    obtain ⟨r, hr, rfl⟩ := List.mem_map.mp hn
    obtain ⟨hmem, hof⟩ := List.mem_filter.mp hr
    have hother := List.countP_eq_zero.mp hsize r hmem
    by_contra hne
    exact hother (by simp [Direction.otherSize, requestOf_reqType hof, hne])
  rw [issuedBytes, List.eq_replicate_of_mem hall, List.sum_replicate_nat, List.length_map,
    List.countP_eq_length_filter]

/-- A finished tile: the byte count, the requests that have left the core, and whether there are
any. -/
theorem finished_bytes {issued : List MemoryAccess} (h : Metered config d issued s.core)
    (hcounted : s.Counted config) (hptr : ptr ∈ s.core.finishedTiles)
    (htile : s.core.heap ptr = some tile) :
    d.bytes tile.stat =
        issued.countP (d.requestOf ptr) * (AddressConfig.alignment config).toNat ∧
      issuedBytes d ptr issued = issued.countP (d.requestOf ptr) * config.dramReqSize ∧
      (d.transfers tile ↔ 0 < issued.countP (d.requestOf ptr)) := by
  obtain ⟨-, -, hloads, hstores, hreads, hwrites⟩ :=
    hcounted.idle ptr (hcounted.finished ptr hptr)
  -- nothing of the tile waits in the core
  have hqueued : (queuedRequests config s.core).countP (d.requestOf ptr) = 0 := by
    rw [List.countP_eq_zero]
    intro r hr
    have hmem : r ∈ s.requests config := List.mem_append_left _ hr
    cases d with
    | reads =>
      have hnot := List.countP_eq_zero.mp hreads r hmem
      intro hof
      rw [Direction.requestOf, Bool.and_eq_true, beq_iff_eq, beq_iff_eq] at hof
      exact hnot (by simp [readOf, hof.1, hof.2, Direction.reqType])
    | writes =>
      have hnot := List.countP_eq_zero.mp hwrites r hmem
      intro hof
      rw [Direction.requestOf, Bool.and_eq_true, beq_iff_eq, beq_iff_eq] at hof
      exact hnot (by simp [writeOf, isWrite, hof.1, hof.2, Direction.reqType])
  have hqueue : ¬ ∃ i ∈ d.queue s.core, i.parentTile = ptr ∧ d.expands i := by
    rintro ⟨i, hi, hparent, hexpands⟩
    cases d with
    | reads =>
      have hnot := List.countP_eq_zero.mp hloads i hi
      rw [Direction.expands, beq_iff_eq] at hexpands
      exact hnot (by simp [loadOf, hparent, hexpands])
    | writes =>
      have hnot := List.countP_eq_zero.mp hstores i hi
      exact hnot (by simp [instOf, hparent])
  have hmade : requestsOf config issued s.core d ptr = issued.countP (d.requestOf ptr) := by
    rw [requestsOf, madeRequests, List.countP_append, hqueued, Nat.add_zero]
  have hsize := h.size
  rw [madeRequests, List.countP_append] at hsize
  refine ⟨?_, issuedBytes_eq (Nat.eq_zero_of_add_eq_zero_right hsize), ?_⟩
  · rw [h.bytes ptr tile htile, hmade]
  · rw [h.transfers ptr tile htile, hmade]
    exact or_iff_left hqueue

/-- Both counts of a tile are the bytes of its requests. -/
def CountsBytes (ptr : TilePtr) (tile : Tile) (issued : List MemoryAccess) : Prop :=
  tile.stat.memoryReads = issuedBytes .reads ptr issued ∧
    tile.stat.memoryWrites = issuedBytes .writes ptr issued

/-- When a tile is finished, its byte counts are those of its requests exactly if the alignment is the
size of a request, as with one channel, or if the tile makes no requests at all. The counts of an
operation are the sums over its tiles. -/
theorem bytes_of_requests {id : ℕ} {calls : List Call}
    (hrun : run (call config set) (Session.init config id) calls = .ok s) :
    (∀ ptr ∈ s.core.finishedTiles, ∀ tile, s.core.heap ptr = some tile →
      (CountsBytes ptr tile (issuedRequests config set id calls) ↔
        (AddressConfig.alignment config).toNat = config.dramReqSize ∨
          Direction.reads.transfers tile = false ∧ Direction.writes.transfers tile = false)) ∧
    ∀ (name : String) (tiles : List (TilePtr × Tile)),
      (∀ x ∈ tiles, CountsBytes x.1 x.2 (issuedRequests config set id calls)) →
      (OperationStat.collect name (tiles.map fun x => x.2.stat)).memoryReads =
          (tiles.map fun x =>
            issuedBytes .reads x.1 (issuedRequests config set id calls)).sum ∧
        (OperationStat.collect name (tiles.map fun x => x.2.stat)).memoryWrites =
          (tiles.map fun x =>
            issuedBytes .writes x.1 (issuedRequests config set id calls)).sum := by
  have hcounted := preserved_run counted_preserved (counted_init id) hrun
  refine ⟨?_, ?_⟩
  · intro ptr hptr tile htile
    obtain ⟨hr, hrissued, hrmoves⟩ :=
      finished_bytes (metered_run hrun).1 hcounted hptr htile (d := .reads)
    obtain ⟨hw, hwissued, hwmoves⟩ :=
      finished_bytes (metered_run hrun).1 hcounted hptr htile (d := .writes)
    change tile.stat.memoryReads = _ at hr
    change tile.stat.memoryWrites = _ at hw
    have hnone : ∀ {b : Bool} {n : ℕ}, (b = true ↔ 0 < n) → (b = false ↔ n = 0) := by
      intro b n h
      rw [← Bool.not_eq_true, h, Nat.not_lt, Nat.le_zero]
    rw [CountsBytes, hr, hw, hrissued, hwissued, mul_eq_mul_left_iff, mul_eq_mul_left_iff,
      hnone hrmoves, hnone hwmoves]
    exact or_and_left.symm
  · intro name tiles htiles
    rw [OperationStat.collect_memoryReads, OperationStat.collect_memoryWrites, List.map_map,
      List.map_map]
    constructor
    · exact congrArg List.sum (List.map_congr_left fun x hx => (htiles x hx).1)
    · exact congrArg List.sum (List.map_congr_left fun x hx => (htiles x hx).2)

end Runs

section Samples

def oneChannel : SimulationConfig := { sampleConfig with dramChannels := 1 }

def loadTile : Tile where
  instructions := [{ opcode := .MOVIN, destAddr := SPAD_BASE, size := 32, srcAddrs := [0] }]

/-- The load's one request is answered. -/
def loadCalls : List Call :=
  [.issue loadTile, .cycle, .popMemoryRequest .SA 0,
    .pushMemoryResponse { sampleAccess with bufferId := 1 } .SA, .cycle]

/-- With one channel, the counts are those of the requests. -/
theorem bytes_of_requests_one : ∃ s tile,
    run (call oneChannel .byInsertion) (Session.init oneChannel 0) loadCalls = .ok s ∧
      0 ∈ s.core.finishedTiles ∧ s.core.heap 0 = some tile ∧
      CountsBytes 0 tile (issuedRequests oneChannel .byInsertion 0 loadCalls) := by
  have hend : (run (call oneChannel .byInsertion) (Session.init oneChannel 0) loadCalls).map
      (fun s => (decide (0 ∈ s.core.finishedTiles), (s.core.heap 0).isSome)) =
        .ok (true, true) := by
    decide +kernel
  obtain ⟨s, hs, hview⟩ := map_ok hend
  obtain ⟨hfinished, hsome⟩ := Prod.ext_iff.mp hview
  obtain ⟨tile, htile⟩ := Option.isSome_iff_exists.mp hsome
  have hmem := of_decide_eq_true hfinished
  have halign : (AddressConfig.alignment oneChannel).toNat = oneChannel.dramReqSize := by decide
  exact ⟨s, tile, hs, hmem, htile,
    ((bytes_of_requests hs).1 0 hmem tile htile).mpr (Or.inl halign)⟩

/-- With two channels, the one request of 64 bytes counts as 128. -/
theorem bytes_of_requests_two : ∃ s tile,
    run (call sampleConfig .byInsertion) (Session.init sampleConfig 0) loadCalls = .ok s ∧
      0 ∈ s.core.finishedTiles ∧ s.core.heap 0 = some tile ∧ tile.stat.memoryReads = 128 ∧
      ¬ CountsBytes 0 tile (issuedRequests sampleConfig .byInsertion 0 loadCalls) := by
  have hend : (run (call sampleConfig .byInsertion) (Session.init sampleConfig 0) loadCalls).map
      (fun s => (decide (0 ∈ s.core.finishedTiles), (s.core.heap 0).map (·.stat.memoryReads))) =
        .ok (true, some 128) := by
    decide +kernel
  obtain ⟨s, hs, hview⟩ := map_ok hend
  obtain ⟨hfinished, hreads⟩ := Prod.ext_iff.mp hview
  obtain ⟨tile, htile, hcount⟩ := Option.map_eq_some_iff.mp hreads
  have hissued : issuedBytes .reads 0 (issuedRequests sampleConfig .byInsertion 0 loadCalls) =
      64 := by
    decide +kernel
  refine ⟨s, tile, hs, of_decide_eq_true hfinished, htile, hcount, ?_⟩
  rintro ⟨hbytes, -⟩
  rw [hcount, hissued] at hbytes
  exact absurd hbytes (by decide)

end Samples

end NewPims.NeuPIMSystolicWS

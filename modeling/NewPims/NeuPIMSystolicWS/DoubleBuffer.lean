import NewPims.NeuPIMSystolicWS.Owed

/-! The double buffers along a run: what `issue` and `issue_pim` flush is out of use, and every
response and every result finds its entry. -/
namespace NewPims

open Transition

namespace Lane

variable {l : Lane} {a : AddrType} {b spadId accumSpadId : ℕ} {accum : Bool}

theorem settled_flip (h : l.Settled) : (l.flip spadId accumSpadId accum).Settled := by
  refine ⟨Sram.settled_flush h.1, ?_⟩
  cases accum with
  | true => exact h.2
  | false => exact Sram.settled_flush h.2

/-- Only what the flushed buffers waited for is lost. -/
theorem remain_flip (h : l.remain a b ≠ (l.flip spadId accumSpadId accum).remain a b) :
    ¬ ACCUM_SPAD_BASE ≤ a ∧ b = spadId ∨
      ACCUM_SPAD_BASE ≤ a ∧ accum = false ∧ b = accumSpadId := by
  unfold remain buffer flip at h
  by_cases hside : ACCUM_SPAD_BASE ≤ a
  · right
    cases accum with
    | true => simp [hside] at h
    | false =>
      simp only [hside, if_true, Bool.false_eq_true, if_false, Sram.remain_flush] at h
      by_cases hb : b = accumSpadId
      · exact ⟨hside, rfl, hb⟩
      · rw [if_neg hb] at h
        exact absurd rfl h
  · left
    simp only [hside, if_false, Sram.remain_flush] at h
    by_cases hb : b = spadId
    · exact ⟨hside, hb⟩
    · rw [if_neg hb] at h
      exact absurd rfl h

end Lane

namespace NeuPIMSystolicWS

open Bank NeuPIMSCore Session

structure Buffered (config : SimulationConfig) (s : Session) : Prop where
  counted : Counted config s
  tagged : Tagged config s
  turned : Turned s.core
  owed : Owed config s

variable {config : SimulationConfig} {set : RobinHood} {c c' d : NeuPIMSCore} {s t : Session}
  {u u' : List MemoryAccess} {platform p : StagePlatform} {a : AddrType} {b : ℕ}
  {inst : Instruction} {tile : Tile}

section Steps

theorem instPlatform_front (h : Tagged config ⟨c, u⟩) (hfront : Front config c p inst d) :
    instPlatform inst = p := by
  cases hfront with
  | systolic hpipe => exact (h.compute inst (by rw [hpipe]; exact List.mem_cons_self)).platform
  | vector hk hpipe => rfl

theorem owed_lane (h : Owed config ⟨c, u⟩)
    (hlane : ∀ p, (c'.lane p).spad = (c.lane p).spad ∧ (c'.lane p).accSpad = (c.lane p).accSpad)
    (hqueues : ∀ p, (c'.lane p).memoryRequestQueues = (c.lane p).memoryRequestQueues)
    (hpiped : piped config c' = piped config c) (hdropped : c'.dropped = c.dropped) :
    Owed config ⟨c', u⟩ := by
  have hreq : queuedRequests config c' = queuedRequests config c :=
    contents_congr fun p _ => congrArg (contents (List.range config.dramChannels)) (hqueues p)
  refine owed_same (s := ⟨c, u⟩) h hlane fun p a b => ?_
  exact Nat.le_of_eq (owing_congr (requests_congr hreq) hpiped hdropped p a b)

theorem owed_retire (h : Owed config ⟨c, u⟩) : Owed config ⟨c.retire platform, u⟩ := by
  have hlane : (c.retire platform).lane = Function.update c.lane platform _ := rfl
  refine owed_lane h ?_ ?_ rfl rfl
  · exact fun p => ⟨lane_same Lane.spad hlane rfl p, lane_same Lane.accSpad hlane rfl p⟩
  · exact fun p => lane_same Lane.memoryRequestQueues hlane rfl p

theorem owed_chargeCycle {pipeline : List Instruction} (h : Owed config ⟨c, u⟩)
    (hok : chargeCycle pipeline c = .ok c') : Owed config ⟨c', u⟩ := by
  rcases chargeCycle_ok hok with rfl | ⟨_, _, _, -, -, rfl⟩
  · exact h
  · exact owed_lane h (fun _ => ⟨rfl, rfl⟩) (fun _ => rfl) rfl rfl

theorem owed_unitStep {unit : UnitStep} (h : Owed config ⟨c, u⟩) (htagged : Tagged config ⟨c, u⟩)
    (hok : unitStep config set c unit = .ok c') : Owed config ⟨c', u⟩ := by
  cases unit with
  | systolic =>
    rcases systolicCycle_ok config hok with rfl | ⟨p, inst, d, hfront, hcomplete⟩
    · exact h
    · exact owed_complete h (instPlatform_front htagged hfront) hfront hcomplete
  | vector k =>
    simp only [unitStep] at hok
    split_ifs at hok with hk
    rcases vectorPipelineCycle_ok hk hok with rfl | ⟨p, inst, d, hfront, hcomplete⟩
    · exact h
    · exact owed_complete h (instPlatform_front htagged hfront) hfront hcomplete
  | ld => exact owed_ldInst h hok
  | st p => exact owed_storeQueueCycle h hok
  | ex p => exact owed_executeQueueCycle h (fun i hi => (htagged.execute p i hi).1.platform) hok
  | pimLd => exact owed_pimLdInst h hok
  | chargeSystolic => exact owed_chargeCycle h hok
  | chargeVector k =>
    simp only [unitStep] at hok
    split_ifs at hok with hk
    exact owed_chargeCycle h hok
  | core =>
    cases hok
    have htick : Owed config ⟨c.tick, u⟩ := owed_lane h (fun _ => ⟨rfl, rfl⟩) (fun _ => rfl) rfl rfl
    exact owed_retire (owed_retire htick)

theorem owed_popMemoryRequest {channel : ℕ} {request : MemoryAccess} (h : Owed config ⟨c, u⟩)
    (hchannel : channel < config.dramChannels)
    (hpop : c.popMemoryRequest platform channel = some (request, c')) :
    Owed config ⟨c', u ++ [request]⟩ := by
  have hrequests := countP_requests_pop (u := u) hchannel hpop
  obtain ⟨rest, -, hc'⟩ := popMemoryRequest_some hpop
  have hlane := congrArg NeuPIMSCore.lane hc'
  refine owed_same (s := ⟨c, u⟩) h ?_ ?_
  · exact fun p => ⟨lane_same Lane.spad hlane rfl p, lane_same Lane.accSpad hlane rfl p⟩
  · intro p a b
    have hresults : owedResults config c' p a b = owedResults config c p a b := by
      rw [hc']
      rfl
    simp only [owing, hrequests, hresults]
    exact Nat.le_refl _

/-- A response that arrives. -/
theorem owed_pushMemoryResponse {request response : MemoryAccess} (h : Owed config ⟨c, u⟩)
    (htag : TaggedReq c request) (hmem : request ∈ u) (htype : response.reqType = request.reqType)
    (hparent : response.parentTile = request.parentTile)
    (hspad : response.spadAddress = request.spadAddress)
    (hbuffer : response.bufferId = request.bufferId)
    (hok : c.pushMemoryResponse response = .ok c') : Owed config ⟨c', u.erase request⟩ := by
  obtain ⟨tile, tile', htile, -, hresponded⟩ := pushMemoryResponse_ok hok
  have hcount : ∀ {c' : NeuPIMSCore}, (∀ p, (c.lane p).SameQueues (c'.lane p)) →
      piped config c' = piped config c → c'.dropped = c.dropped → ∀ p a b,
      owing config ⟨c', u.erase request⟩ p a b +
        (if responseFor p a b request then 1 else 0) = owing config ⟨c, u⟩ p a b := by
    intro c' hqueues hpiped hdropped p a b
    obtain ⟨-, -, -, hreq⟩ := sameQueues_contents config hqueues
    have := countP_requests_erase hreq hmem (responseFor p a b)
    simp only [owing, owedResults, hpiped, hdropped]
    omega
  cases hresponded with
  | write _ =>
    refine owed_same (s := ⟨c, u⟩) h (fun _ => ⟨rfl, rfl⟩) fun p a b => ?_
    have hle := hcount (fun _ => sameQueues_refl _) rfl rfl p a b
    exact Nat.le_trans (Nat.le_add_right _ _) (Nat.le_of_eq hle)
  | unfilled _ _ =>
    refine owed_same (s := ⟨c, u⟩) h (fun _ => ⟨rfl, rfl⟩) fun p a b => ?_
    have hle := hcount (fun _ => sameQueues_refl _) rfl rfl p a b
    exact Nat.le_trans (Nat.le_add_right _ _) (Nat.le_of_eq hle)
  | @filled l hwrite hunfilled hfill =>
    rw [hspad, hbuffer] at hfill
    have hqueues : ∀ p, (c.lane p).SameQueues
        (((c.setTile response.parentTile tile').setLane tile.stagePlatform l).lane p) :=
      sameQueues_update rfl (sameQueues_fill hfill)
    have howing := hcount hqueues rfl rfl
    refine owed_update (s := ⟨c, u⟩) h rfl (Lane.settled_fill (h.settled _) hfill) ?_ ?_
    · intro a b
      have hcounts := howing tile.stagePlatform a b
      have hremain := Lane.remain_fill (a := a) (b := b) hfill
      have hiff : responseFor tile.stagePlatform a b request = true ↔
          b = request.bufferId ∧ a = request.spadAddress := by
        rw [responseFor_iff]
        constructor
        · exact fun hfor => ⟨hfor.2.2.2.symm, hfor.2.2.1.symm⟩
        · intro hsame
          refine ⟨?_, ?_, hsame.2.symm, hsame.1.symm⟩
          · exact ((htag.tile tile (hparent ▸ htile)).1).symm
          · rw [MemoryAccessType.fills, ← htype]
            simp [hwrite, hunfilled]
      simp only [hiff] at hcounts
      dsimp only
      omega
    · intro p _ a b
      exact Nat.le_trans (Nat.le_add_right _ _) (Nat.le_of_eq (howing p a b))

end Steps

section Issue

/-- Buffers that are released are flushed. -/
theorem owed_flip {spadId accumSpadId : ℕ} {accum : Bool} (h : Owed config ⟨c, u⟩)
    (hlane : c'.lane =
      Function.update c.lane platform ((c.lane platform).flip spadId accumSpadId accum))
    (hpiped : piped config c' = piped config c) (hdropped : c'.dropped = c.dropped)
    (hspad : Released config ⟨c, u⟩ platform false spadId)
    (hacc : accum = false → Released config ⟨c, u⟩ platform true accumSpadId) :
    Owed config ⟨c', u⟩ := by
  have hreq : queuedRequests config c' = queuedRequests config c :=
    contents_lane_same (fun l => contents (List.range config.dramChannels)
      l.memoryRequestQueues) hlane rfl
  have howing := owing_congr (s := ⟨c, u⟩) (t := ⟨c', u⟩) (requests_congr hreq) hpiped hdropped
  refine ⟨?_, ?_⟩
  · intro p
    rw [hlane]
    by_cases hp : p = platform
    · subst hp
      rw [Function.update_self]
      exact Lane.settled_flip (h.settled p)
    · rw [Function.update_of_ne hp]
      exact h.settled p
  · intro p a b
    rw [howing, hlane]
    by_cases hp : p = platform
    · subst hp
      rw [Function.update_self]
      by_cases hsame : (c.lane p).remain a b =
          ((c.lane p).flip spadId accumSpadId accum).remain a b
      · rw [← hsame]
        exact h.owed p a b
      · have hnone : owing config ⟨c, u⟩ p a b = 0 := by
          rcases Lane.remain_flip hsame with ⟨hside, rfl⟩ | ⟨hside, haccum, rfl⟩
          · exact owing_released hspad (iff_of_false hside Bool.false_ne_true)
          · exact owing_released (hacc haccum) (iff_of_true hside rfl)
        rw [hnone]
        exact Nat.zero_le _
    · rw [Function.update_of_ne hp]
      exact h.owed p a b

theorem owed_admitTile (h : Owed config ⟨c, u⟩) (hok : c.admitTile platform tile = .ok c') :
    Owed config ⟨c', u⟩ := by
  obtain ⟨l', tile', hall, hc'⟩ := admitTile_ok hok
  obtain ⟨hl', -⟩ := enqueueAll_ok hall
  have hlane : c'.lane = Function.update c.lane platform
      { l' with tiles := l'.tiles ++ [c.nextTile] } := by rw [hc']
  refine owed_lane h ?_ ?_ (by rw [hc']; rfl) (by rw [hc'])
  · intro p
    exact ⟨lane_same Lane.spad hlane (by rw [hl']) p, lane_same Lane.accSpad hlane (by rw [hl']) p⟩
  · exact fun p => lane_same Lane.memoryRequestQueues hlane (by rw [hl']) p

theorem owed_skipTile (h : Owed config ⟨c, u⟩) (tile : Tile) : Owed config ⟨c.skipTile tile, u⟩ :=
  owed_lane h (fun _ => ⟨rfl, rfl⟩) (fun _ => rfl) rfl rfl

theorem owed_issue (h : Buffered config ⟨c, u⟩) (hcan : c.canIssue tile = true)
    (hok : c.issue tile = .ok c') : Owed config ⟨c', u⟩ := by
  unfold issue at hok
  split_ifs at hok with hskip
  · cases hok
    exact owed_skipTile h.owed tile
  · have hflip : Owed config ⟨c.flipBuffers tile.accum, u⟩ := by
      refine owed_flip h.owed (?_ : _ = Function.update c.lane .SA
        ((c.lane .SA).flip ((c.currentSpad + 1) % 2) ((c.currentAccSpad + 1) % 2) tile.accum))
        rfl rfl (released_spad h.counted h.tagged h.turned hcan) fun haccum =>
          (released_acc h.counted h.tagged h.turned hcan haccum).1
      rfl
    exact owed_admitTile hflip hok

theorem owed_issuePim (h : Buffered config ⟨c, u⟩) (hcan : c.canIssuePim = true)
    (hok : c.issuePim tile = .ok c') : Owed config ⟨c', u⟩ := by
  have hreleased := released_pim h.counted h.tagged h.turned hcan
  unfold issuePim at hok
  split_ifs at hok with hskip
  · cases hok
    exact owed_skipTile h.owed tile
  · have hflush : Owed config ⟨c.flushPim, u⟩ := by
      refine owed_flip h.owed (?_ : _ = Function.update c.lane .PIM
        ((c.lane .PIM).flip 0 0 false)) rfl rfl (hreleased false).1 fun _ => (hreleased true).1
      rfl
    exact owed_admitTile hflush hok

end Issue

/-- Every call keeps the buffers in order. -/
theorem buffered_preserved : Preserved config set (fun _ _ => True) (Buffered config) := by
  have hbase := preserved_and (@turned_preserved config set) tagged_preserved
  refine ⟨?_, ?_, ?_, ?_, ?_, ?_, ?_⟩
  · intro c u unit c' h hok
    obtain ⟨⟨hcounted, hturned⟩, htagged⟩ :=
      hbase.unit c u unit c' ⟨⟨h.counted, h.turned⟩, h.tagged⟩ hok
    exact ⟨hcounted, htagged, hturned, owed_unitStep h.owed h.tagged hok⟩
  · intro c u tile c' h hcan hplatform hunmarked hP hok
    obtain ⟨⟨hcounted, hturned⟩, htagged⟩ := hbase.issue c u tile c'
      ⟨⟨h.counted, h.turned⟩, h.tagged⟩ hcan hplatform hunmarked hP hok
    exact ⟨hcounted, htagged, hturned, owed_issue h hcan hok⟩
  · intro c u tile c' h hcan hplatform hunmarked hP hok
    obtain ⟨⟨hcounted, hturned⟩, htagged⟩ := hbase.issuePim c u tile c'
      ⟨⟨h.counted, h.turned⟩, h.tagged⟩ hcan hplatform hunmarked hP hok
    exact ⟨hcounted, htagged, hturned, owed_issuePim h hcan hok⟩
  · intro c u platform channel request c' h hchannel hpop
    obtain ⟨⟨hcounted, hturned⟩, htagged⟩ := hbase.pop c u platform channel request c'
      ⟨⟨h.counted, h.turned⟩, h.tagged⟩ hchannel hpop
    exact ⟨hcounted, htagged, hturned, owed_popMemoryRequest h.owed hchannel hpop⟩
  · intro c u request platform c' h hmem hheader hok
    obtain ⟨⟨hcounted, hturned⟩, htagged⟩ := hbase.response c u request platform c'
      ⟨⟨h.counted, h.turned⟩, h.tagged⟩ hmem hheader hok
    refine ⟨hcounted, htagged, hturned, ?_⟩
    refine owed_pushMemoryResponse h.owed (h.tagged.unanswered request hmem) hmem ?_ ?_ ?_ ?_ hok
      <;> rfl
  · intro c u h
    obtain ⟨⟨hcounted, hturned⟩, htagged⟩ :=
      hbase.finished c u ⟨⟨h.counted, h.turned⟩, h.tagged⟩
    refine ⟨hcounted, htagged, hturned, ?_⟩
    unfold popFinishedTile
    cases c.finishedTiles with
    | nil => exact h.owed
    | cons ptr rest => exact owed_lane h.owed (fun _ => ⟨rfl, rfl⟩) (fun _ => rfl) rfl rfl
  · intro c u constAddr memAccessId h
    obtain ⟨⟨hcounted, hturned⟩, htagged⟩ :=
      hbase.statics c u constAddr memAccessId ⟨⟨h.counted, h.turned⟩, h.tagged⟩
    exact ⟨hcounted, htagged, hturned,
      owed_lane h.owed (fun _ => ⟨rfl, rfl⟩) (fun _ => rfl) rfl rfl⟩

theorem owed_init (id : ℕ) : Owed config (Session.init config id) := by
  refine ⟨fun _ => ⟨Sram.settled_init config false, Sram.settled_init config true⟩, ?_⟩
  intro p a b
  have hpiped : piped config (NeuPIMSCore.init config id) = [] := by
    simp [piped, NeuPIMSCore.init, contents]
  have hrequests : requests config (Session.init config id) = [] := by
    simp [requests, queuedRequests, Session.init, NeuPIMSCore.init, Lane.init, contents]
  have hresults : owedResults config (NeuPIMSCore.init config id) p a b = 0 := by
    rw [owedResults, hpiped]
    rfl
  have hcore : (Session.init config id).core = NeuPIMSCore.init config id := rfl
  rw [owing, hrequests, hcore, hresults]
  exact Nat.zero_le _

theorem buffered_init (id : ℕ) : Buffered config (Session.init config id) :=
  ⟨counted_init id, tagged_init id, turned_init id, owed_init id⟩

theorem buffered_run {id : ℕ} {calls : List Session.Call}
    (hrun : run (call config set) (Session.init config id) calls = .ok s) : Buffered config s :=
  preserved_run buffered_preserved (buffered_init id) hrun

section Faults

theorem reserve_ne_fill {l : Lane} {address : AddrType} {bufferId size count : ℕ} :
    l.reserve address bufferId size count ≠ .error .fill := by
  refine map_ne_error ?_
  unfold Sram.reserve
  split_ifs <;> simp

theorem countUp_ne_fill {s : Sram} {address : AddrType} {bufferId : ℕ} :
    s.countUp address bufferId ≠ .error .fill := by
  unfold Sram.countUp
  split <;> simp

/-- A result finds its entry. -/
theorem complete_ne_fill (h : Buffered config ⟨c, u⟩) (hfront : Front config c p inst d) :
    complete d p inst ≠ .error .fill := by
  unfold complete
  split_ifs with hdest
  · have hmem : 0 < (piped config c).countP (resultFor p inst.destAddr inst.accumSpadId) := by
      rw [countP_front hfront]
      have hfor : resultFor p inst.destAddr inst.accumSpadId inst = true :=
        resultFor_iff.mpr ⟨hdest, instPlatform_front h.tagged hfront, rfl, rfl⟩
      rw [if_pos hfor]
      exact Nat.succ_pos _
    have howed := h.owed.owed p inst.destAddr inst.accumSpadId
    have hremain : 0 < (c.lane p).remain inst.destAddr inst.accumSpadId := by
      refine Nat.lt_of_lt_of_le ?_ howed
      rw [owing, owedResults]
      dsimp only
      omega
    obtain ⟨l, hl⟩ := Lane.exists_fill (h.owed.settled p) hremain
    rw [(front_same hfront).1, hl]
    cases d.heap inst.parentTile with
    | none => simp
    | some tile => simp
  · simp

theorem ldInst_ne_fill : ldInst config set c ≠ .error .fill := by
  unfold ldInst
  split
  · simp
  · split_ifs
    · simp
    · simp
    · refine bind_ne_error reserve_ne_fill fun l _ => ?_
      split
      · simp
      · split_ifs
        · simp
        · exact bind_ne_error (pushMemoryRequests_ne_ofSram rfl) fun _ _ => by simp

theorem pimLdInst_ne_fill : pimLdInst config c ≠ .error .fill := by
  unfold pimLdInst
  split
  · simp
  · split_ifs
    · refine bind_ne_error (transToMemoryAccess_ne_ofSram rfl) fun request _ => ?_
      refine bind_ne_error ?_ fun l _ => ?_
      · unfold reserveResult
        split_ifs
        · exact reserve_ne_fill
        · simp
      · exact bind_ne_error (pushMemoryRequests_ne_ofSram rfl) fun _ _ => by simp
    · simp

theorem executeQueueCycle_ne_fill : executeQueueCycle config platform c ≠ .error .fill := by
  unfold executeQueueCycle
  dsimp only
  split
  · simp
  · split
    · split
      · refine bind_ne_error (dispatch_ne_ofSram rfl) fun d _ => ?_
        refine map_ne_error ?_
        split_ifs
        · exact countUp_ne_fill
        · unfold Sram.reserve
          split_ifs <;> simp
      · simp
    · simp

theorem unitStep_ne_fill (h : Buffered config ⟨c, u⟩) (unit : UnitStep) :
    unitStep config set c unit ≠ .error .fill := by
  cases unit with
  | systolic =>
    change systolicCycle c ≠ _
    unfold systolicCycle
    cases hpipe : c.computePipeline with
    | nil => simp
    | cons inst rest =>
      dsimp only
      split_ifs
      · exact complete_ne_fill h (.systolic hpipe)
      · simp
  | vector k =>
    rw [unitStep]
    split_ifs with hk
    · unfold vectorPipelineCycle
      cases hpipe : c.vectorPipelines k with
      | nil => simp
      | cons inst rest =>
        dsimp only
        split_ifs
        · exact complete_ne_fill h (.vector hk hpipe)
        · simp
    · simp
  | ld => exact ldInst_ne_fill
  | st p => exact storeQueueCycle_ne_ofSram rfl
  | ex p => exact executeQueueCycle_ne_fill
  | pimLd => exact pimLdInst_ne_fill
  | chargeSystolic => exact chargeCycle_ne_ofSram rfl
  | chargeVector k =>
    rw [unitStep]
    split_ifs
    · exact chargeCycle_ne_ofSram rfl
    · simp
  | core => simp [unitStep]

/-- A response finds its entry. -/
theorem pushMemoryResponse_ne_fill {request response : MemoryAccess}
    (h : Buffered config ⟨c, u⟩) (hmem : request ∈ u)
    (htype : response.reqType = request.reqType)
    (hparent : response.parentTile = request.parentTile)
    (hspad : response.spadAddress = request.spadAddress)
    (hbuffer : response.bufferId = request.bufferId) :
    c.pushMemoryResponse response ≠ .error .fill := by
  refine pushMemoryResponse_ne_ofSram rfl fun tile htile hfills => ?_
  have htag := h.tagged.unanswered request hmem
  have hplatform := (htag.tile tile (hparent ▸ htile)).1
  have hfor : responseFor tile.stagePlatform request.spadAddress request.bufferId request =
      true :=
    responseFor_iff.mpr ⟨hplatform.symm, htype ▸ hfills, rfl, rfl⟩
  have hmem' : request ∈ requests config ⟨c, u⟩ := List.mem_append_right _ hmem
  have hpos := List.countP_pos_iff.mpr ⟨request, hmem', hfor⟩
  have howed := h.owed.owed tile.stagePlatform request.spadAddress request.bufferId
  have hremain : 0 < (c.lane tile.stagePlatform).remain request.spadAddress request.bufferId := by
    refine Nat.lt_of_lt_of_le ?_ howed
    rw [owing]
    exact Nat.add_pos_left hpos _
  obtain ⟨l, hl⟩ := Lane.exists_fill (h.owed.settled tile.stagePlatform) hremain
  rw [hspad, hbuffer, hl]
  simp

theorem admitTile_ne_fill : c.admitTile platform tile ≠ .error .fill := by
  have hall : ∀ insts l tile, enqueueAll platform l tile insts ≠ .error .fill := by
    intro insts
    induction insts with
    | nil => simp [enqueueAll]
    | cons i insts ih =>
      intro l tile
      rw [enqueueAll]
      split
      · exact ih _ _
      · next f hf =>
        unfold enqueue at hf
        split at hf
        · cases hf
          simp
        · cases hf
        · split_ifs at hf
          cases hf
          simp
        · cases hf
        · cases hf
  unfold admitTile
  split
  · next f hf =>
    intro heq
    rw [Except.error.inj heq] at hf
    exact hall _ _ _ hf
  · simp

/-- No call fails an assertion of `Sram::fill`. -/
theorem call_ne_fill (h : Buffered config s) (x : Session.Call) :
    call config set s x ≠ .error .fill := by
  cases x with
  | issue tile =>
    rw [call]
    split_ifs
    · refine map_ne_error ?_
      unfold issue
      split_ifs
      · simp
      · exact admitTile_ne_fill
    · simp
  | issuePim tile =>
    rw [call]
    split_ifs
    · refine map_ne_error ?_
      unfold issuePim
      split_ifs
      · simp
      · exact admitTile_ne_fill
    · simp
  | cycle =>
    refine map_ne_error ?_
    obtain ⟨units, hunits⟩ := cycle_runs config set s.core
    rw [← hunits]
    refine run_ne_error (fun c => Buffered config ⟨c, s.unanswered⟩) ?_ ?_ h
    · exact fun c unit c' hc hstep => buffered_preserved.unit c s.unanswered unit c' hc hstep
    · exact fun c unit hc => unitStep_ne_fill hc unit
  | popMemoryRequest platform channel =>
    rw [call]
    split_ifs
    · split <;> simp
    · simp
  | pushMemoryResponse request platform =>
    rw [call]
    split_ifs with hrequest
    · refine map_ne_error (pushMemoryResponse_ne_fill h hrequest.1 ?_ ?_ ?_ ?_) <;> rfl
    · simp
  | popFinishedTile => simp [call]
  | statics constAddr memAccessId => simp [call]

end Faults

/-- In every state of every run, the buffers that the next tile will have are out of use: the
scratchpad, the accumulator unless the tile accumulates, and both buffers of the PIM. From the
accumulator and for the PIM all stores are done, too. So no call ever fails an assertion of
`Sram::fill`. -/
theorem flushed_buffers_released {id : ℕ} {calls : List Session.Call}
    (hrun : run (call config set) (Session.init config id) calls = .ok s) :
    (∀ tile, s.core.canIssue tile = true →
      Released config s .SA false ((s.core.currentSpad + 1) % 2) ∧
      (tile.accum = false → Released config s .SA true ((s.core.currentAccSpad + 1) % 2) ∧
        Stored config s .SA true ((s.core.currentAccSpad + 1) % 2))) ∧
    (s.core.canIssuePim = true → ∀ accum,
      Released config s .PIM accum 0 ∧ Stored config s .PIM accum 0) ∧
    ∀ x, call config set s x ≠ .error .fill := by
  have h := buffered_run hrun
  refine ⟨?_, ?_, call_ne_fill h⟩
  · intro tile hcan
    refine ⟨released_spad h.counted h.tagged h.turned hcan, ?_⟩
    exact released_acc h.counted h.tagged h.turned hcan
  · exact released_pim h.counted h.tagged h.turned

section Samples

/-- A tile that stores twice what it has loaded to the scratchpad. -/
def copyTile : Tile where
  operationId := 1
  instructions := [
    { opcode := .MOVIN, destAddr := SPAD_BASE, size := 32, srcAddrs := [0] },
    { opcode := .MOVOUT, destAddr := SPAD_BASE, size := 32, srcAddrs := [64] },
    { opcode := .MOVOUT, destAddr := SPAD_BASE, size := 32, srcAddrs := [64] }]

/-- A tile without instructions that keeps the accumulator. -/
def idleTile : Tile where
  operationId := 2
  accum := true

/-- The copy has its data and has sent its first store when the second tile after it comes. -/
def copyCalls : List Session.Call :=
  [.issue copyTile, .cycle, .popMemoryRequest .SA 0,
    .pushMemoryResponse { sampleAccess with bufferId := 1 } .SA, .issue idleTile, .cycle]

theorem flushed_buffers_released_copy :
    ∃ s, run (call sampleConfig .byInsertion) (Session.init sampleConfig 0) copyCalls = .ok s ∧
      Released sampleConfig s .SA false ((s.core.currentSpad + 1) % 2) := by
  obtain ⟨s, hs⟩ := exists_ok (x := run (call sampleConfig .byInsertion)
    (Session.init sampleConfig 0) copyCalls) (by decide +kernel)
  have hcan : (run (call sampleConfig .byInsertion) (Session.init sampleConfig 0) copyCalls).map
      (fun s => s.core.canIssue idleTile) = .ok true := by decide +kernel
  rw [hs] at hcan
  exact ⟨s, hs, ((flushed_buffers_released hs).1 idleTile (Except.ok.inj hcan)).1⟩

/-- The scratchpad is flushed although a store from it is still queued, which loses its entry. -/
theorem queued_store_flushed :
    ∃ s c', run (call sampleConfig .byInsertion) (Session.init sampleConfig 0) copyCalls = .ok s ∧
      s.core.canIssue idleTile = true ∧ s.core.issue idleTile = .ok c' ∧
      ¬ Stored sampleConfig s .SA false ((s.core.currentSpad + 1) % 2) ∧
      ∃ i ∈ (s.core.lane .SA).stInstQueue,
        (s.core.lane .SA).spad.checkHit i.destAddr i.spadId = true ∧
        (c'.lane .SA).spad.checkHit i.destAddr i.spadId = false := by
  obtain ⟨s, hs⟩ := exists_ok (x := run (call sampleConfig .byInsertion)
    (Session.init sampleConfig 0) copyCalls) (by decide +kernel)
  have hstate : (run (call sampleConfig .byInsertion) (Session.init sampleConfig 0) copyCalls).map
      (fun s => (s.core.canIssue idleTile, s.core.currentSpad,
        (s.core.lane .SA).stInstQueue.map fun i => (i.destAddr, i.spadId))) =
      .ok (true, 0, [(SPAD_BASE, 1)]) := by decide +kernel
  have hentry : (run (call sampleConfig .byInsertion) (Session.init sampleConfig 0) copyCalls).map
      (fun s => ((s.core.lane .SA).spad.checkHit SPAD_BASE 1,
        (s.core.issue idleTile).toOption.map fun c' =>
          (c'.lane .SA).spad.checkHit SPAD_BASE 1)) = .ok (true, some false) := by decide +kernel
  rw [hs] at hstate hentry
  simp only [Except.map, Except.ok.injEq, Prod.mk.injEq, Option.map_eq_some_iff] at hstate hentry
  obtain ⟨hcan, hspad, hstores⟩ := hstate
  obtain ⟨hhit, c', hissue, hlost⟩ := hentry
  have hc' : s.core.issue idleTile = .ok c' := by
    cases hok : s.core.issue idleTile with
    | error f =>
      rw [hok] at hissue
      cases hissue
    | ok d =>
      rw [hok] at hissue
      exact congrArg Except.ok (Option.some.inj hissue)
  have hmem : (SPAD_BASE, 1) ∈ (s.core.lane .SA).stInstQueue.map fun i => (i.destAddr, i.spadId) := by
    rw [hstores]
    exact List.mem_singleton_self _
  obtain ⟨i, hi, hkey⟩ := List.mem_map.mp hmem
  obtain ⟨hdest, hbuffer⟩ := Prod.mk.inj hkey
  refine ⟨s, c', hs, hcan, hc', ?_, i, hi, ?_, ?_⟩
  · intro hstored
    refine hstored.stores i hi ?_ ?_
    · rw [InBuffer, hdest]
      decide
    · rw [Instruction.bufferId, hdest, hspad, hbuffer, if_neg (by decide)]
  · rw [hdest, hbuffer, hhit]
  · rw [hdest, hbuffer, hlost]

end Samples

end NeuPIMSystolicWS

end NewPims

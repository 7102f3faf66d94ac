import NewPims.NeuPIMSystolicWS.Moves

/-! The requests that leave a core and the responses that come back to it. -/
namespace NewPims

open NeuPIMSystolicWS Bank Transition

namespace NeuPIMSCore

variable {config : SimulationConfig} {c c' : NeuPIMSCore} {response : MemoryAccess}

/-- What a response does to the rest of the core once its tile has counted it. -/
inductive Responded (c : NeuPIMSCore) (response : MemoryAccess) (tile tile' : Tile) :
    NeuPIMSCore → Prop
  | write : response.reqType = .WRITE →
      Responded c response tile tile' { c.setTile response.parentTile tile' with
        waitingWriteReqs := c.waitingWriteReqs - 1 }
  | unfilled : response.reqType ≠ .WRITE → response.reqType.unfilled →
      Responded c response tile tile' (c.setTile response.parentTile tile')
  | filled {l : Lane} : response.reqType ≠ .WRITE → ¬ response.reqType.unfilled →
      (c.lane tile.stagePlatform).fill response.spadAddress response.bufferId = .ok l →
      Responded c response tile tile'
        ((c.setTile response.parentTile tile').setLane tile.stagePlatform l)

theorem pushMemoryResponse_ok (h : c.pushMemoryResponse response = .ok c') :
    ∃ tile tile', c.heap response.parentTile = some tile ∧
      countResponse tile response.reqType = .ok tile' ∧ Responded c response tile tile' c' := by
  unfold pushMemoryResponse at h
  by_cases hrequest : response.request
  · rw [if_pos hrequest] at h
    cases h
  rw [if_neg hrequest] at h
  cases htile : c.heap response.parentTile with
  | none => simp [htile] at h
  | some tile =>
    simp only [htile] at h
    cases hcount : countResponse tile response.reqType with
    | error f => simp [hcount] at h
    | ok tile' =>
      simp only [hcount] at h
      refine ⟨tile, tile', rfl, hcount, ?_⟩
      by_cases hwrite : response.reqType = .WRITE
      · rw [if_pos hwrite] at h
        cases h
        exact .write hwrite
      rw [if_neg hwrite] at h
      by_cases hunfilled : response.reqType.unfilled
      · rw [if_pos hunfilled] at h
        cases h
        exact .unfilled hwrite hunfilled
      rw [if_neg hunfilled] at h
      cases hfill : (c.lane tile.stagePlatform).fill response.spadAddress response.bufferId with
      | error f => simp [hfill] at h
      | ok l =>
        simp only [hfill] at h
        cases h
        exact .filled hwrite hunfilled hfill

theorem popMemoryRequest_some {platform : StagePlatform} {channel : ℕ} {request : MemoryAccess}
    (h : c.popMemoryRequest platform channel = some (request, c')) :
    ∃ rest, (c.lane platform).memoryRequestQueues channel = request :: rest ∧
      c' = c.setLane platform { c.lane platform with
        memoryRequestQueues :=
          Function.update (c.lane platform).memoryRequestQueues channel rest } := by
  unfold popMemoryRequest at h
  cases hqueue : (c.lane platform).memoryRequestQueues channel with
  | nil => simp [hqueue] at h
  | cons r rest =>
    simp only [hqueue, Option.some.injEq, Prod.mk.injEq] at h
    obtain ⟨rfl, rfl⟩ := h
    exact ⟨rest, rfl, rfl⟩

end NeuPIMSCore

namespace NeuPIMSystolicWS.Session

variable {config : SimulationConfig} {set : RobinHood} {s t : Session} {c c' : NeuPIMSCore}
  {u : List MemoryAccess}

/-- The requests without one that has been answered. -/
theorem countP_requests_erase (hqueued : queuedRequests config c' = queuedRequests config c)
    {r : MemoryAccess} (hr : r ∈ u) (P : MemoryAccess → Bool) :
    (requests config ⟨c, u⟩).countP P =
      (requests config ⟨c', u.erase r⟩).countP P + if P r then 1 else 0 := by
  have hperm := (List.perm_cons_erase hr).countP_eq P
  simp only [requests, hqueued, List.countP_append, List.countP_cons] at hperm ⊢
  omega

/-- A request that is taken from the core waits for its answer. -/
theorem countP_requests_pop {platform : StagePlatform} {channel : ℕ} {request : MemoryAccess}
    (hchannel : channel < config.dramChannels)
    (h : c.popMemoryRequest platform channel = some (request, c')) (P : MemoryAccess → Bool) :
    (requests config ⟨c', u ++ [request]⟩).countP P = (requests config ⟨c, u⟩).countP P := by
  obtain ⟨rest, hqueue, hc'⟩ := NeuPIMSCore.popMemoryRequest_some h
  have hlane := countP_lane
    (fun l => contents (List.range config.dramChannels) l.memoryRequestQueues)
    (congrArg NeuPIMSCore.lane hc') P
  have hupdate := countP_contents_update (q := (c.lane platform).memoryRequestQueues)
    List.nodup_range (List.mem_range.mpr hchannel) rest P
  rw [hqueue] at hupdate
  simp only [requests, queuedRequests, List.countP_append, List.countP_cons,
    List.countP_nil] at hlane hupdate ⊢
  omega

theorem moves_popMemoryRequest {platform : StagePlatform} {channel : ℕ}
    {request : MemoryAccess} (hchannel : channel < config.dramChannels)
    (h : c.popMemoryRequest platform channel = some (request, c')) :
    Moves config ⟨c, u⟩ ⟨c', u ++ [request]⟩ 0 0 0 0 0 0 := by
  have hrequests := countP_requests_pop (u := u) hchannel h
  obtain ⟨rest, hqueue, rfl⟩ := NeuPIMSCore.popMemoryRequest_some h
  refine
    { tiles := lane_same Lane.tiles rfl rfl
      next := rfl
      finished := rfl
      pending := fun q => pending_same (contents_lane_same Lane.exInstQueue rfl rfl) rfl rfl
      loads := fun q => loads_same (contents_lane_same Lane.ldInstQueue rfl rfl)
      stores := fun q => stores_same (contents_lane_same Lane.stInstQueue rfl rfl)
      reads := ?_
      writes := ?_
      allWrites := ?_
      waiting := (Int.add_zero _).symm
      heap := fun _ _ => rfl
      tile := ?_
      gone := id
      busy := ⟨fun _ => rfl, fun _ => ⟨rfl, rfl⟩, fun _ => ⟨rfl, rfl⟩⟩ }
  · intro q
    simp only [readsOf, hrequests, ite_self, Int.add_zero]
  · intro q
    simp only [writesOf, hrequests, ite_self, Int.add_zero]
  · simp only [writes, hrequests, Int.add_zero]
  · intro tile htile
    exact ⟨tile, htile, shifted_zero ⟨tile.stat, rfl⟩⟩

section Answer

variable {r : MemoryAccess}

theorem readOf_count (hheader : r.reqType ≠ .P_HEADER) (q : TilePtr) :
    ((if readOf q r = true then 1 else 0 : ℕ) : ℤ) =
      if q = r.parentTile then (if r.reqType = .WRITE then 0 else 1) else 0 := by
  by_cases hparent : q = r.parentTile
  · by_cases hwrite : r.reqType = .WRITE
    · simp [readOf, hparent, hwrite]
    · simp [readOf, hparent, hwrite, hheader]
  · simp [readOf, hparent, Ne.symm hparent]

theorem writeOf_count (q : TilePtr) :
    ((if writeOf q r = true then 1 else 0 : ℕ) : ℤ) =
      if q = r.parentTile then (if r.reqType = .WRITE then 1 else 0) else 0 := by
  by_cases hparent : q = r.parentTile
  · by_cases hwrite : r.reqType = .WRITE <;> simp [writeOf, isWrite, hparent, hwrite]
  · simp [writeOf, hparent, Ne.symm hparent]

end Answer

/-- A response to a request other than a header. -/
theorem moves_pushMemoryResponse {request response : MemoryAccess} (hmem : request ∈ u)
    (hheader : request.reqType ≠ .P_HEADER) (htype : response.reqType = request.reqType)
    (hparent : response.parentTile = request.parentTile)
    (h : c.pushMemoryResponse response = .ok c') :
    ∃ dr dw, Moves config ⟨c, u⟩ ⟨c', u.erase request⟩ request.parentTile 0 0 0 dr dw := by
  obtain ⟨tile, tile', htile, hcount, hresponded⟩ := NeuPIMSCore.pushMemoryResponse_ok h
  rw [hparent] at htile
  rw [htype] at hcount
  have hsame : (∀ p, (c.lane p).SameQueues (c'.lane p)) ∧ c'.nextTile = c.nextTile ∧
      c'.finishedTiles = c.finishedTiles ∧ c'.computePipeline = c.computePipeline ∧
      c'.vectorPipelines = c.vectorPipelines ∧ c'.dropped = c.dropped ∧
      c'.heap = Function.update c.heap request.parentTile (some tile') := by
    have hrefl : ∀ p, (c.lane p).SameQueues (c.lane p) := fun p => ⟨rfl, rfl, rfl, rfl, rfl⟩
    cases hresponded with
    | write _ => exact ⟨hrefl, rfl, rfl, rfl, rfl, rfl, by rw [← hparent]; rfl⟩
    | unfilled _ _ => exact ⟨hrefl, rfl, rfl, rfl, rfl, rfl, by rw [← hparent]; rfl⟩
    | filled _ _ hfill =>
      exact ⟨sameQueues_update rfl (sameQueues_fill hfill), rfl, rfl, rfl, rfl, rfl,
        by rw [← hparent]; rfl⟩
  obtain ⟨hqueues, hnext, hfinished, hcompute, hvector, hdropped, hheap⟩ := hsame
  obtain ⟨hld, hst, hex, hreq⟩ := sameQueues_contents config hqueues
  have hrequests := countP_requests_erase hreq hmem
  have hpiped : piped config c' = piped config c := by simp only [piped, hcompute, hvector]
  have hcounts : ∃ dr dw : ℤ, Shifted tile tile' 0 0 0 dr dw ∧
      c'.waitingWriteReqs = c.waitingWriteReqs + dw ∧
      dr = -(if request.reqType = .WRITE then 0 else 1) ∧
      dw = -(if request.reqType = .WRITE then 1 else 0) := by
    unfold NeuPIMSCore.countResponse at hcount
    by_cases hwrite : request.reqType = .WRITE
    · simp only [hwrite, if_true] at hcount ⊢
      cases hcount
      refine ⟨0, -1, ⟨rfl, by simp, by simp, by dsimp only; omega⟩, ?_, rfl, rfl⟩
      cases hresponded with
      | write _ => rfl
      | unfilled hne _ => exact absurd (htype.trans hwrite) hne
      | filled hne _ _ => exact absurd (htype.trans hwrite) hne
    · simp only [hwrite, if_false] at hcount ⊢
      split_ifs at hcount
      cases hcount
      refine ⟨-1, 0, ⟨rfl, by simp, by dsimp only; omega, by simp⟩, ?_, rfl, rfl⟩
      cases hresponded with
      | write hw => exact absurd (htype.symm.trans hw) hwrite
      | unfilled _ _ => exact (Int.add_zero _).symm
      | filled _ _ _ => exact (Int.add_zero _).symm
  obtain ⟨dr, dw, hshifted, hwaiting, hdr, hdw⟩ := hcounts
  refine ⟨dr, dw,
    { tiles := fun p => (hqueues p).1
      next := hnext
      finished := hfinished
      pending := fun q => pending_same hex hpiped hdropped
      loads := fun q => loads_same hld
      stores := fun q => stores_same hst
      reads := ?_
      writes := ?_
      allWrites := ?_
      waiting := hwaiting
      heap := fun q hq => by rw [hheap]; exact Function.update_of_ne hq _ _
      tile := ?_
      gone := fun hgone => by cases htile.symm.trans hgone
      busy := ?_ }⟩
  · intro q
    have hq := hrequests (readOf q)
    have hr := readOf_count hheader q
    rw [hdr]
    simp only [readsOf]
    split_ifs at hr hq ⊢ <;> omega
  · intro q
    have hq := hrequests (writeOf q)
    have hr := writeOf_count (r := request) q
    rw [hdw]
    simp only [writesOf]
    split_ifs at hr hq ⊢ <;> omega
  · have hq := hrequests isWrite
    rw [hdw]
    simp only [isWrite, beq_iff_eq] at hq
    simp only [writes]
    split_ifs at hq ⊢ <;> omega
  · intro tile₁ htile₁
    cases htile.symm.trans htile₁
    exact ⟨tile', by rw [hheap]; exact Function.update_self _ _ _, hshifted⟩
  · refine ⟨fun _ => rfl, fun hidle => ⟨rfl, ?_⟩, fun hidle => ⟨rfl, ?_⟩⟩ <;>
      obtain ⟨-, hzero⟩ := hidle
    · have hq := hrequests (readOf request.parentTile)
      have hr := readOf_count hheader request.parentTile
      simp only [readsOf] at hzero
      rw [if_pos rfl] at hr
      omega
    · have hq := hrequests (writeOf request.parentTile)
      have hr := writeOf_count (r := request) request.parentTile
      simp only [writesOf] at hzero
      rw [if_pos rfl] at hr
      omega

end NeuPIMSystolicWS.Session

end NewPims

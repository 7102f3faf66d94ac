import NewPims.NeuPIMSystolicWS.Feeding

/-! The runs of a core that is given its tiles in their order. -/
namespace NewPims

open Transition NeuPIMSCore

namespace NeuPIMSystolicWS

open Session Bank

variable {config : SimulationConfig} {set : RobinHood} {c c' : NeuPIMSCore} {s : Session}
  {limit turn accTurn : ℕ} {p : RoomPlan limit} {tile : Tile}

/-- A session, and the tiles that it will be given. -/
structure Fed where
  tiles : List Tile
  session : Session

namespace Fed

def init (config : SimulationConfig) (id : ℕ) (tiles : List Tile) : Fed :=
  ⟨tiles, Session.init config id⟩

/-- The calls of a session that is given its tiles in their order, and none for the PIM. -/
def call (config : SimulationConfig) (set : RobinHood) (f : Fed) : Session.Call → Except Fault Fed
  | .issue tile =>
    if f.tiles.head? = some tile then
      (f.session.call config set (.issue tile)).map fun s => ⟨f.tiles.tail, s⟩
    else .error .illegalCall
  | .issuePim _ => .error .illegalCall
  | x => (f.session.call config set x).map fun s => ⟨f.tiles, s⟩

/-- The core keeps to a plan for its buffers, and the tiles to come keep to it, too. -/
structure Keeps (config : SimulationConfig) (limit : ℕ) (f : Fed) : Prop where
  planned : ∃ (p : RoomPlan limit) (turn accTurn : ℕ), Steady p turn accTurn f.session.core ∧
    InTurn turn accTurn f.session.core ∧ Feedable (p.acc accTurn) f.tiles
  counted : f.session.Counted config
  tagged : Tagged config f.session

section Calls

variable {f f' : Fed}

theorem inTurn_calm (h : InTurn turn accTurn c) (hcalm : Calm c c') : InTurn turn accTurn c' := by
  refine ⟨h.turn_lt, h.accTurn_lt, ?_⟩
  rw [(hcalm.lane .SA).loads]
  exact h.loads

theorem calm_popMemoryRequest {platform : StagePlatform} {channel : ℕ} {request : MemoryAccess}
    (h : c.popMemoryRequest platform channel = some (request, c')) : Calm c c' := by
  obtain ⟨rest, -, rfl⟩ := popMemoryRequest_some h
  refine calm_update rfl ?_ (fun _ hptr => hptr) rfl rfl
  exact ⟨Sram.sameRoom_refl _, Sram.sameRoom_refl _, rfl, fun _ hi => hi⟩

theorem calm_pushMemoryResponse {response : MemoryAccess}
    (h : c.pushMemoryResponse response = .ok c') : Calm c c' := by
  obtain ⟨tile, tile', -, -, hresponded⟩ := pushMemoryResponse_ok h
  cases hresponded with
  | write _ => exact calm_same rfl rfl rfl
  | unfilled _ _ => exact calm_same rfl rfl rfl
  | filled _ _ hfill =>
    refine calm_update rfl (Lane.calm_fill hfill) (fun ptr hptr => ?_) rfl rfl
    exact (sameQueues_fill hfill).1 ▸ hptr

theorem calm_popFinishedTile : Calm c c.popFinishedTile.2 := by
  unfold popFinishedTile
  split <;> exact calm_same rfl rfl rfl

/-- The next tile is issued. -/
theorem keeps_issue (set : RobinHood) (h : Keeps config limit f) (htile : f.tiles.head? = some tile) :
    f.session.call config set (.issue tile) ≠ .error .allocation ∧
      ∀ s, f.session.call config set (.issue tile) = .ok s →
        Keeps config limit ⟨f.tiles.tail, s⟩ := by
  obtain ⟨p, turn, accTurn, hsteady, hturn, hfeed⟩ := h.planned
  obtain ⟨rest, htiles⟩ := List.head?_eq_some_iff.mp htile
  -- the budget that the tile keeps to, which is the one at hand if the tile accumulates
  have hfits : ∃ g : Budget AddrType limit, Fits g tile ∧ Feedable g rest ∧
      (tile.accum = true → g = p.acc accTurn) := by
    rw [htiles] at hfeed
    cases hfeed with
    | fresh haccum hfits hrest =>
      exact ⟨_, hfits, hrest, fun htrue => absurd htrue (Bool.eq_false_iff.mp haccum)⟩
    | accum _ hfits hrest => exact ⟨_, hfits, hrest, fun _ => rfl⟩
  obtain ⟨g, hfits, hrest, hg⟩ := hfits
  have hissue : f.session.core.canIssue tile = true →
      f.session.core.issue tile ≠ .error .allocation ∧
        ∀ c', f.session.core.issue tile = .ok c' → ∃ p' : RoomPlan limit,
          Steady p' ((turn + 1) % 2) (nextAcc accTurn tile.accum) c' ∧
            InTurn ((turn + 1) % 2) (nextAcc accTurn tile.accum) c' ∧
            p'.acc (nextAcc accTurn tile.accum) = g := by
    intro hcan
    have hfree := free_of_canIssue hsteady hturn h.counted h.tagged hcan
    exact avoids_issue hsteady hturn hfree hfits hg
  constructor
  · simp only [Session.call]
    split_ifs with hguard
    · exact map_ne_error (hissue hguard.1).1
    · simp
  · intro s hs
    have hcounted := preserved_call counted_preserved h.counted (meets_true _ _) hs
    have htagged := preserved_call tagged_preserved h.tagged (meets_true _ _) hs
    refine ⟨?_, hcounted, htagged⟩
    simp only [Session.call] at hs
    split_ifs at hs with hguard
    obtain ⟨c', hc', rfl⟩ := map_ok hs
    obtain ⟨p', hsteady', hturn', hg'⟩ := (hissue hguard.1).2 c' hc'
    refine ⟨p', _, _, hsteady', hturn', ?_⟩
    rw [hg', htiles]
    exact hrest

/-- A call that issues no tile and allocates nothing. -/
theorem keeps_calm {x : Session.Call} (h : Keeps config limit f)
    (hs : f.session.call config set x = .ok s) (hcalm : Calm f.session.core s.core) :
    Keeps config limit ⟨f.tiles, s⟩ := by
  obtain ⟨p, turn, accTurn, hsteady, hturn, hfeed⟩ := h.planned
  exact ⟨⟨p, turn, accTurn, steady_calm hsteady hcalm, inTurn_calm hturn hcalm, hfeed⟩,
    preserved_call counted_preserved h.counted (meets_true _ _) hs,
    preserved_call tagged_preserved h.tagged (meets_true _ _) hs⟩

theorem keeps_cycle (set : RobinHood) (h : Keeps config limit f) :
    f.session.call config set .cycle ≠ .error .allocation ∧
      ∀ s, f.session.call config set .cycle = .ok s → Keeps config limit ⟨f.tiles, s⟩ := by
  obtain ⟨p, turn, accTurn, hsteady, hturn, hfeed⟩ := h.planned
  have havoids : Avoids .allocation (Steady p turn accTurn) (cycle config set)
    (Loaded p turn accTurn) := avoids_cycle
  obtain ⟨hne, hok⟩ := havoids f.session.core hsteady
  refine ⟨map_ne_error hne, ?_⟩
  intro s hs
  have hcounted := preserved_call counted_preserved h.counted (meets_true _ _) hs
  have htagged := preserved_call tagged_preserved h.tagged (meets_true _ _) hs
  obtain ⟨c', hc', rfl⟩ := map_ok hs
  obtain ⟨hsteady', hempty⟩ := hok c' hc'
  refine ⟨⟨p, turn, accTurn, hsteady', ⟨hturn.turn_lt, hturn.accTurn_lt, ?_⟩, hfeed⟩, hcounted,
    htagged⟩
  dsimp only
  rw [hempty]
  exact fun i hi => absurd hi List.not_mem_nil

theorem keeps_call (x : Session.Call) :
    Avoids .allocation (Keeps config limit) (fun f => f.call config set x)
      (Keeps config limit) := by
  intro f h
  have hsession : ∀ x : Session.Call, f.session.call config set x ≠ .error .allocation →
      (∀ s, f.session.call config set x = .ok s → Calm f.session.core s.core) →
      (f.session.call config set x).map (fun s => (⟨f.tiles, s⟩ : Fed)) ≠ .error .allocation ∧
        ∀ f', (f.session.call config set x).map (fun s => (⟨f.tiles, s⟩ : Fed)) = .ok f' →
          Keeps config limit f' := by
    intro x hne hcalm
    refine ⟨map_ne_error hne, ?_⟩
    intro f' hf'
    obtain ⟨s, hs, rfl⟩ := map_ok hf'
    exact keeps_calm h hs (hcalm s hs)
  cases x with
  | issue tile =>
    simp only [call]
    split_ifs with htile
    · obtain ⟨hne, hok⟩ := keeps_issue set h htile
      refine ⟨map_ne_error hne, ?_⟩
      intro f' hf'
      obtain ⟨s, hs, rfl⟩ := map_ok hf'
      exact hok s hs
    · exact ⟨by simp, by simp⟩
  | issuePim tile => exact ⟨by simp [call], by simp [call]⟩
  | cycle =>
    obtain ⟨hne, hok⟩ := keeps_cycle set h
    refine ⟨map_ne_error hne, ?_⟩
    intro f' hf'
    obtain ⟨s, hs, rfl⟩ := map_ok hf'
    exact hok s hs
  | popMemoryRequest platform channel =>
    apply hsession
    · simp only [Session.call]
      split_ifs
      · split <;> simp
      · simp
    · intro s hs
      simp only [Session.call] at hs
      split_ifs at hs
      cases hpop : f.session.core.popMemoryRequest platform channel with
      | none => simp [hpop] at hs
      | some r =>
        simp only [hpop] at hs
        cases hs
        exact calm_popMemoryRequest hpop
  | pushMemoryResponse request platform =>
    apply hsession
    · simp only [Session.call]
      split_ifs
      · exact map_ne_error (pushMemoryResponse_ne_ofSram rfl fun _ _ _ =>
          map_ne_error (fill_ne_allocation _ _ _))
      · simp
    · intro s hs
      simp only [Session.call] at hs
      split_ifs at hs
      obtain ⟨c', hc', rfl⟩ := map_ok hs
      exact calm_pushMemoryResponse hc'
  | popFinishedTile =>
    refine hsession .popFinishedTile (by simp [Session.call]) fun s hs => ?_
    cases hs
    exact calm_popFinishedTile
  | statics constAddr memAccessId =>
    refine hsession (.statics constAddr memAccessId) (by simp [Session.call]) fun s hs => ?_
    cases hs
    exact calm_same rfl rfl rfl

theorem keeps_init (hspad : (Sram.init config false).Takes limit)
    (hacc : (Sram.init config true).Takes limit) (id : ℕ) {tiles : List Tile}
    (hfeed : ∀ g : Budget AddrType limit, Feedable g tiles) :
    Keeps config limit (init config id tiles) where
  planned := by
    have hempty : ∀ accum b, (Sram.init config accum).Room b (.empty AddrType limit) :=
      fun accum b => ⟨0, rfl, Budget.within_empty _⟩
    refine ⟨⟨fun _ => .empty _ _, fun _ => .empty _ _⟩, 0, 0, ?_, ?_, hfeed _⟩
    · refine ⟨⟨hspad, hacc, hempty false, hempty true,
        fun _ hi => ?_, fun _ hi => ?_, List.Pairwise.nil, fun _ hi => ?_⟩, rfl, rfl, rfl, rfl, rfl⟩
      · exact absurd hi List.not_mem_nil
      · exact absurd hi List.not_mem_nil
      · exact absurd hi List.not_mem_nil
    · exact ⟨Nat.zero_lt_two, Nat.zero_lt_two, fun _ hi => absurd hi List.not_mem_nil⟩
  counted := counted_init id
  tagged := tagged_init id

/-- No run fails an allocation check, and no buffer holds more than its half of the scratchpad. -/
theorem run_keeps (hspad : (Sram.init config false).Takes limit)
    (hacc : (Sram.init config true).Takes limit) (id : ℕ) {tiles : List Tile}
    (hfeed : ∀ g : Budget AddrType limit, Feedable g tiles) (calls : List Session.Call) :
    run (call config set) (init config id tiles) calls ≠ .error .allocation ∧
      ∀ f, run (call config set) (init config id tiles) calls = .ok f → ∀ b,
        (f.session.core.lane .SA).spad.currentSize b ≤ limit ∧
          (f.session.core.lane .SA).accSpad.currentSize b ≤ limit := by
  have hinit := keeps_init hspad hacc id hfeed
  constructor
  · exact run_ne_error (Keeps config limit) (fun f x f' h hok => (keeps_call x f h).2 f' hok)
      (fun f x h => (keeps_call x f h).1) hinit
  · intro f hf b
    have hkeeps := run_invariant (Keeps config limit)
      (fun f x f' h hok => (keeps_call x f h).2 f' hok) hinit hf
    obtain ⟨p, turn, accTurn, hsteady, -, -⟩ := hkeeps.planned
    exact ⟨Sram.currentSize_le (hsteady.lane.spad b), Sram.currentSize_le (hsteady.lane.acc b)⟩

end Calls

end Fed

end NeuPIMSystolicWS

end NewPims

import NewPims.NeuPIMSystolicWS.Phases
import NewPims.NeuPIMSystolicWS.Unwritten
import NewPims.Operations.MatMul

/-! The stores against the computations of their keys: a store is sent once its entry is valid,
that is once everything that the entry waits for has come. The computations that are still queued are
not waited for. -/
namespace NewPims.NeuPIMSystolicWS

open Bank Transition NeuPIMSCore Session

section States

variable (config : SimulationConfig) (set : RobinHood)

/-- The state in which `st_queue_cycle` or `pim_st_queue_cycle` runs. -/
def storeState : StagePlatform → NeuPIMSCore → Except Fault NeuPIMSCore
  | .SA, c => do
    let c ← systolicCycle c
    let c ← vectorUnitCycle config c
    ldQueueCycle config set c
  | .PIM, c => do
    let c ← exState config set c
    let c ← exQueueCycle config c
    pimLdQueueCycle config c

/-- The store whose requests the queue sends in this state: its entry is valid. -/
def sending (platform : StagePlatform) (c : NeuPIMSCore) : Option Instruction :=
  match (c.lane platform).stInstQueue with
  | [] => none
  | front :: _ =>
    if ((c.lane platform).buffer front.destAddr).checkHit front.destAddr front.bufferId ∧
        front.opcode.isStore then some front
    else none

/-- The instruction is of the tile of the store and has its key. -/
def SameKey (store inst : Instruction) : Prop :=
  inst.parentTile = store.parentTile ∧ inst.destAddr = store.destAddr

instance (store inst : Instruction) : Decidable (SameKey store inst) := instDecidableAnd

/-- Every computation of the tile with the key has been issued and has completed: none is in an
execute queue, in a pipeline, or taken from a queue by no pipeline. -/
def Completed (c : NeuPIMSCore) (store : Instruction) : Prop :=
  ∀ i ∈ executing c ++ (piped config c ++ c.dropped), ¬ SameKey store i

/-- No computation of the tile with the key is in an execute queue or has left it without being
issued, and one that has been issued has a key of the accumulator. -/
structure AllIssued (c : NeuPIMSCore) (store : Instruction) : Prop where
  queued : ∀ i ∈ executing c, ¬ SameKey store i
  invalid : ∀ i ∈ c.dropped, i.valid = false → ¬ SameKey store i
  spad : ¬ ACCUM_SPAD_BASE ≤ store.destAddr →
    ∀ i ∈ piped config c ++ c.dropped, ¬ SameKey store i

/-- What the cycle stores is final: its computations have completed. -/
def StoresFinal (s : Session) : Session.Call → Prop
  | .cycle => ∀ platform m store, storeState config set platform s.core = .ok m →
      sending platform m = some store → Completed config m store
  | _ => True

def StoresIssued (s : Session) : Session.Call → Prop
  | .cycle => ∀ platform m store, storeState config set platform s.core = .ok m →
      sending platform m = some store → AllIssued config m store
  | _ => True

end States

variable {config : SimulationConfig} {set : RobinHood} {c m : NeuPIMSCore} {s t : Session}
  {u : List MemoryAccess} {platform : StagePlatform} {inst store : Instruction}

theorem exState_eq (c : NeuPIMSCore) :
    exState config set c = storeState config set .SA c >>= stQueueCycle config set := by
  simp only [exState, storeState, bind_assoc]

theorem storeState_runs (platform : StagePlatform) (c : NeuPIMSCore) :
    Runs (unitStep config set) c (storeState config set platform c) := by
  have hsa : Runs (unitStep config set) c (storeState config set .SA c) := by
    refine runs_bind (unitStep_runs c .systolic) fun c _ => ?_
    exact runs_bind (vectorUnitCycle_runs c) fun c _ => ldQueueCycle_runs c
  cases platform with
  | SA => exact hsa
  | PIM =>
    have hex : Runs (unitStep config set) c (exState config set c) := by
      rw [exState_eq]
      exact runs_bind hsa fun c _ => unitStep_runs c (.st .SA)
    refine runs_bind hex fun c _ => ?_
    exact runs_bind (unitStep_runs c (.ex .SA)) fun c _ => pimLdQueueCycle_runs set c

/-- The queue gives up the store it sends, and no other. -/
theorem storeQueueCycle_sending (h : storeQueueCycle config set platform c = .ok m) :
    (c.lane platform).stInstQueue =
      (sending platform c).toList ++ (m.lane platform).stInstQueue := by
  unfold storeQueueCycle at h
  cases hqueue : (c.lane platform).stInstQueue with
  | nil =>
    simp only [hqueue] at h
    cases h
    simp only [sending, hqueue, Option.toList_none, List.nil_append]
  | cons front rest =>
    simp only [hqueue] at h
    by_cases hhit : ((c.lane platform).buffer front.destAddr).checkHit front.destAddr
        front.bufferId = true ∧ front.opcode.isStore = true
    · rw [if_pos hhit] at h
      have hsending : sending platform c = some front := by
        simp only [sending, hqueue, if_pos hhit]
      cases htile : c.heap front.parentTile with
      | none =>
        simp only [htile] at h
        cases h
      | some tile =>
        simp only [htile] at h
        by_cases hacc : platform = .SA ∧ (accessesOf config set c platform front .WRITE).1 = []
        · rw [if_pos hacc] at h
          cases h
        · rw [if_neg hacc] at h
          obtain ⟨queues, -, h⟩ := bind_ok.mp h
          cases h
          simp only [hsending, Function.update_self]
          rfl
    · rw [if_neg hhit] at h
      cases h
      have hsending : sending platform c = none := by
        simp only [sending, hqueue, if_neg hhit]
      rw [hsending, hqueue]
      rfl

theorem sending_some (h : sending platform c = some store) :
    store ∈ (c.lane platform).stInstQueue ∧
      ((c.lane platform).buffer store.destAddr).checkHit store.destAddr store.bufferId := by
  unfold sending at h
  cases hqueue : (c.lane platform).stInstQueue with
  | nil =>
    rw [hqueue] at h
    cases h
  | cons front rest =>
    rw [hqueue] at h
    dsimp only at h
    split_ifs at h with hhit
    cases h
    exact ⟨List.mem_cons_self, hhit.1⟩

/-- A valid entry waits for nothing, so nothing is owed to it. -/
theorem owing_valid (h : Owed config s) {a : AddrType} {b : ℕ}
    (hhit : ((s.core.lane platform).buffer a).checkHit a b) : owing config s platform a b = 0 := by
  have hremain : (s.core.lane platform).remain a b = 0 := by
    unfold Sram.checkHit at hhit
    rw [Lane.remain, Sram.remain]
    cases hentry : ((s.core.lane platform).buffer a).cacheTable b a with
    | none => rfl
    | some e =>
      rw [hentry] at hhit
      exact Lane.settled_buffer (h.settled platform) a a b e hentry hhit
  exact Nat.le_zero.mp (hremain ▸ h.owed platform a b)

/-- What a tile has in the core carries the buffers of its stores. -/
theorem tagged_store (h : Buffered config ⟨c, u⟩) {p : StagePlatform}
    (hstore : store ∈ (c.lane platform).stInstQueue) (htag : TaggedInst c p inst)
    (hkey : SameKey store inst) :
    instPlatform inst = platform ∧ inst.accumSpadId = store.accumSpadId := by
  have hcount : 0 < storesOf ⟨c, u⟩ store.parentTile :=
    List.countP_pos_iff.mpr ⟨store, mem_contents.mpr ⟨platform, mem_platforms _, hstore⟩,
      by simp [instOf]⟩
  have hbusy : ¬ Session.Idle config ⟨c, u⟩ store.parentTile := by
    intro hidle
    have := (idle_iff.mp hidle).2.2.1
    omega
  obtain ⟨q, hq⟩ := h.counted.mem_tiles hbusy
  obtain ⟨tile, htile, -⟩ := h.counted.live q _ hq
  obtain ⟨hplatform, -, hacc⟩ := (h.tagged.store platform store hstore).1.tile tile htile
  obtain ⟨hplatform', -, hacc'⟩ := htag.tile tile (hkey.1 ▸ htile)
  exact ⟨htag.platform.trans (hplatform'.symm.trans hplatform), hacc'.trans hacc.symm⟩

/-- A store is sent when the results that its entry waits for have come. -/
theorem completed_iff (h : Buffered config ⟨c, u⟩) (hsending : sending platform c = some store) :
    Completed config c store ↔ AllIssued config c store := by
  obtain ⟨hstore, hhit⟩ := sending_some hsending
  constructor
  · intro hdone
    refine ⟨fun i hi => hdone i (List.mem_append_left _ hi), fun i hi _ => ?_, fun _ i hi => ?_⟩
    · exact hdone i (List.mem_append_right _ (List.mem_append_right _ hi))
    · exact hdone i (List.mem_append_right _ hi)
  · intro hissued i hi hkey
    by_cases hdest : ACCUM_SPAD_BASE ≤ store.destAddr
    · have howing := owing_valid h.owed hhit
      rw [Instruction.bufferId, if_pos hdest, owing, owedResults] at howing
      have hfor : ∀ {p}, TaggedInst c p i →
          resultFor platform store.destAddr store.accumSpadId i = true := by
        intro p htag
        obtain ⟨hplatform, hacc⟩ := tagged_store h hstore htag hkey
        exact resultFor_iff.mpr ⟨hkey.2 ▸ hdest, hplatform, hkey.2, hacc⟩
      rcases List.mem_append.mp hi with hi | hi
      · exact hissued.queued i hi hkey
      rcases List.mem_append.mp hi with hi | hi
      · have htag : ∃ p, TaggedInst c p i := by
          rcases List.mem_append.mp hi with hi | hi
          · exact ⟨_, h.tagged.compute i hi⟩
          · exact ⟨_, h.tagged.vector i hi⟩
        obtain ⟨p, htag⟩ := htag
        have hcount := List.countP_pos_iff.mpr ⟨i, hi, hfor htag⟩
        dsimp only at howing
        omega
      · -- an instruction that no pipeline has taken has announced its result if it is valid
        obtain ⟨p, htag, -⟩ := h.tagged.dropped i hi
        cases hvalid : i.valid with
        | false => exact hissued.invalid i hi hvalid hkey
        | true =>
          have hcount : 0 < c.dropped.countP fun i =>
              resultFor platform store.destAddr store.accumSpadId i && i.valid :=
            List.countP_pos_iff.mpr ⟨i, hi, Bool.and_eq_true_iff.mpr ⟨hfor htag, hvalid⟩⟩
          dsimp only at howing
          omega
    · rcases List.mem_append.mp hi with hi | hi
      · exact hissued.queued i hi hkey
      · exact hissued.spad hdest i hi hkey

/-- A store whose entry is valid: its key has been written, so nothing that writes it is queued. -/
theorem allIssued_of_unwritten (h : Buffered config ⟨c, u⟩) (hunwritten : Unwritten c)
    {store : Instruction} (hsending : sending platform c = some store) :
    AllIssued config c store := by
  obtain ⟨hstore, hhit⟩ := sending_some hsending
  have hacc := (hunwritten.lane platform).stores store hstore
  refine ⟨fun i hi hkey => ?_, fun i hi hinvalid => ?_, fun hspad => absurd hacc hspad⟩
  · obtain ⟨q, -, hi⟩ := mem_contents.mp hi
    obtain ⟨htag, -⟩ := h.tagged.execute q i hi
    obtain ⟨hplatform, haccum⟩ := tagged_store h hstore htag hkey
    cases htag.platform.symm.trans hplatform
    have hnone := (hunwritten.lane platform).entry i hi
    rw [Instruction.bufferId, if_pos hacc, Lane.buffer_accSpad hacc, ← haccum, ← hkey.2,
      Sram.checkHit, hnone] at hhit
    cases hhit
  · exact absurd ((hunwritten.dropped i hi).symm.trans hinvalid) (by decide)

theorem storesFinal_iff (h : Buffered config s) (x : Session.Call) :
    StoresFinal config set s x ↔ StoresIssued config set s x := by
  cases x with
  | cycle =>
    have hstate : ∀ platform m, storeState config set platform s.core = .ok m →
        Buffered config ⟨m, s.unanswered⟩ := by
      intro platform m hm
      obtain ⟨units, hunits⟩ : Runs (unitStep config set) s.core _ :=
        storeState_runs platform s.core
      exact preserved_units buffered_preserved h (hunits.trans hm)
    constructor
    · exact fun hfinal platform m store hm hsending =>
        (completed_iff (hstate platform m hm) hsending).mp (hfinal platform m store hm hsending)
    · exact fun hissued platform m store hm hsending =>
        (completed_iff (hstate platform m hm) hsending).mpr (hissued platform m store hm hsending)
  | _ => exact Iff.rfl

theorem storesFinal_of_unwritten (h : Buffered config s ∧ Unwritten s.core) (x : Session.Call) :
    StoresFinal config set s x := by
  refine (storesFinal_iff h.1 x).mpr ?_
  cases x with
  | cycle =>
    intro platform m store hm hsending
    obtain ⟨units, hunits⟩ : Runs (unitStep config set) s.core _ :=
      storeState_runs platform s.core
    obtain ⟨hbuffered, hunwritten⟩ :=
      preserved_units (u := s.unanswered) unwritten_preserved h (hunits.trans hm)
    exact allIssued_of_unwritten hbuffered hunwritten hsending
  | _ => trivial

section Samples

/-- A memory access has two elements. -/
def pairedConfig : SimulationConfig := { MatMul.blockConfig with dramReqSize := 32 }

/-- One block of a product. -/
def plainProduct : Except Fault (MatMul × ActAlloc) :=
  MatMul.getOutputs pairedConfig 0 "matmul" []
    [MatMul.blockTensor 0 [2, 2], MatMul.blockTensor 4096 [2, 2]] ⟨16384, 65536⟩

/-- The tile is issued, and loads its operands. -/
def plainCalls (tile : Tile) : List Session.Call :=
  [.issue tile, .cycle, .popMemoryRequest .SA 0, .cycle]

/-- One block of a product, and a bias. -/
def biasProduct : Except Fault (MatMul × ActAlloc) :=
  MatMul.getOutputs pairedConfig 0 "matmul"
    [MatMul.blockTensor 4096 [2, 2], MatMul.blockTensor 8192 [2]] [MatMul.blockTensor 0 [2, 2]]
    ⟨16384, 65536⟩

def biasAccess : MemoryAccess :=
  { sampleAccess with spadAddress := ACCUM_SPAD_BASE, size := 32, bufferId := 1 }

/-- The bias comes before the operands. -/
def biasCalls (tile : Tile) : List Session.Call :=
  [.issue tile, .cycle, .popMemoryRequest .SA 0, .pushMemoryResponse biasAccess .SA]

/-- The next cycle sends the store of a tile while a computation with its key waits. -/
def storesEarly (s : Session) : Except Fault Bool :=
  (storeState pairedConfig .byInsertion .SA s.core).map fun m =>
    (sending .SA m).any fun store => (executing m).any fun i => decide (SameKey store i)

theorem not_storesFinal (h : storesEarly s = .ok true) :
    ¬ StoresFinal pairedConfig .byInsertion s .cycle := by
  obtain ⟨m, hm, hstores⟩ := map_ok h
  obtain ⟨store, hstore, hwaits⟩ := (Option.any_eq_true _ _).mp hstores
  obtain ⟨i, hi, hkey⟩ := List.any_eq_true.mp hwaits
  exact fun hfinal =>
    hfinal .SA m store hm hstore i (List.mem_append_left _ hi) (of_decide_eq_true hkey)

end Samples

end NewPims.NeuPIMSystolicWS

import NewPims.NewtonSim.Codec
import NewPims.NewtonSim.Issue
import NewPims.NewtonSim.Select

/-! A channel under any sequence of calls: transactions that are added, cycles, and transactions
that are taken back when they are done. -/
namespace NewPims.NewtonSim

open Transition BitField

/-- A configuration of the memory with two row buffers. Where self-refresh is enabled, the channel
exits as soon as a rank has been idle long enough, and the slack of a refresh is only known where
the ranks take turns. -/
structure Regular (config : DramConfig) : Prop extends Countable config where
  dual : config.enableDualBuffer = true
  staggered : config.refreshPolicy = .RANK_LEVEL_STAGGERED
  noSelfRefresh : config.enableSelfRefresh = false
  someRank : 0 < config.ranks
  someBankgroup : 0 < config.bankgroups
  someBank : 0 < config.banksPerGroup
  rows : config.rows < 2 ^ 31

/-- A configuration with which no assertion on it fails, and no division by one of its values. -/
structure Operable (config : DramConfig) : Prop where
  interval : 0 < Refresh.refreshInterval config
  openPage : config.rowBufPolicy = .OPEN_PAGE
  epochPeriod : config.epochPeriod ≠ 0

/-- A memory of two banks with eight rows. -/
def smallMemory : DramConfig where
  channels := 1
  ranks := 1
  bankgroups := 1
  banksPerGroup := 2
  rows := 8
  columns := 2
  BL := 1
  busWidth := 8
  addressMapping := "rorabgbachco"
  protocol := .HBM
  enableDualBuffer := true
  queueStructure := .PER_BANK
  refreshPolicy := .RANK_LEVEL_STAGGERED
  cmdQueueSize := 128
  transQueueSize := 8
  enableSelfRefresh := false
  srefThreshold := 0
  burstCycle := 1
  AL := 0
  CL := 1
  CWL := 1
  tCCD_L := 1
  tCCD_S := 1
  tRTRS := 1
  tRTP := 1
  tWTR_L := 1
  tWTR_S := 1
  tWR := 1
  tRP := 1
  tRRD_L := 1
  tRRD_S := 1
  tRAS := 1
  tRCD := 1
  tRFC := 1
  tCKESR := 1
  tXS := 1
  tRFCb := 1
  tREFI := 100
  tREFIb := 100
  tFAW := 18
  tPPD := 1
  t32AW := 1
  tRCDRD := 3
  tRCDWR := 1

theorem regular_smallMemory : Regular smallMemory := by
  refine ⟨⟨?_, ?_, ?_⟩, rfl, rfl, rfl, ?_, ?_, ?_, ?_⟩ <;> decide

theorem operable_smallMemory : Operable smallMemory := by
  refine ⟨?_, rfl, ?_⟩ <;> decide

variable {config : DramConfig}

section Decode

theorem two_pow_logBase2_le {n : ℕ} (h : 0 < n) : 2 ^ logBase2 n ≤ n := by
  induction n using Nat.strong_induction_on with
  | _ n ih =>
    rw [logBase2]
    split
    · have := ih (n / 2) (by omega) (by omega)
      rw [Nat.pow_succ]
      omega
    · simp only [Nat.pow_zero]
      omega

theorem fieldOf_lt {mem : Config} {token : String} {n : ℕ} (hexAddr : AddrType)
    (hwidth : mem.fieldWidths token = logBase2 n) (hn : n < 2 ^ 31) :
    (mem.fieldOf hexAddr token).toNat < 2 ^ logBase2 n := by
  have hlt : logBase2 n < 31 := logBase2_lt hn
  have hpow : 2 ^ logBase2 n < 2 ^ 31 := Nat.pow_lt_pow_right (by decide) hlt
  have hmod := Nat.mod_lt (hexAddr.toNat / 2 ^ mem.pos token) (Nat.two_pow_pos (logBase2 n))
  rw [Config.fieldOf, hwidth, BitVec.toNat_setWidth, toNat_field (by omega),
    Nat.mod_eq_of_lt (by omega)]
  exact hmod

theorem addressOf_inRange (h : Regular config) (hexAddr : AddrType) :
    (config.addressOf hexAddr).bankId.InRange config := by
  refine ⟨?_, ?_, ?_⟩
  · exact Nat.lt_of_lt_of_le (fieldOf_lt _ rfl h.ranks) (two_pow_logBase2_le h.someRank)
  · exact Nat.lt_of_lt_of_le (fieldOf_lt _ rfl h.bankgroups) (two_pow_logBase2_le h.someBankgroup)
  · exact Nat.lt_of_lt_of_le (fieldOf_lt _ rfl h.banksPerGroup) (two_pow_logBase2_le h.someBank)

theorem ne_neg_one_of_lt {x : BitVec 32} (h : x.toNat < 2 ^ 31) : x ≠ -1 := by
  rintro rfl
  exact absurd h (by decide)

theorem addressOf_row (h : Regular config) (hexAddr : AddrType) :
    (config.addressOf hexAddr).row ≠ -1 := by
  refine ne_neg_one_of_lt (Nat.lt_trans (fieldOf_lt _ rfl h.rows) ?_)
  exact Nat.pow_lt_pow_right (by decide) (logBase2_lt h.rows)

theorem addressOf_rank (h : Regular config) (hexAddr : AddrType) :
    (config.addressOf hexAddr).rank ≠ -1 :=
  ne_neg_one_of_lt (Nat.lt_trans (addressOf_inRange h hexAddr).1 h.ranks)

/-- What every decoded header has. -/
theorem decodePIMHeader_ok {mem : Config} {hexAddr : AddrType} {cmd : Command}
    (h : decodePIMHeader mem hexAddr = .ok cmd) :
    cmd.hexAddr = hexAddr ∧ cmd.forGwrite = false ∧ cmd.addr.rank = -1 := by
  simp only [decodePIMHeader] at h
  split at h
  · cases h
  · cases h
    exact ⟨rfl, rfl, rfl⟩

end Decode

namespace Controller

/-- A transaction that a channel with two row buffers supports: a read, a write or a PIM
transaction, whose header is none of the deprecated ones. -/
def Supported (config : DramConfig) (addr : AddrType) (reqType : TransactionType) : Prop :=
  match reqType with
  | .READ | .WRITE | .GWRITE | .COMPS_READRES => True
  | .P_HEADER => (decodePIMHeader config.toConfig addr).isOk
  | _ => False

instance (config : DramConfig) (addr : AddrType) (reqType : TransactionType) :
    Decidable (Supported config addr reqType) := by
  cases reqType <;> unfold Supported <;> infer_instance

/-- `AddTransaction` is that of the system, which asserts that the transaction is accepted. -/
inductive Call
  | addTransaction (addr : AddrType) (reqType : TransactionType)
  | returnDoneTrans
  | clockTick
  deriving DecidableEq, Repr

def step (config : DramConfig) (c : Controller) : Call → Except MemoryFault Controller
  | .addTransaction addr reqType => do
    let ok ← c.willAcceptTransaction config reqType
    if ok then .ok (c.addTransaction { addr, reqType }) else .error .rejected
  | .returnDoneTrans => .ok (c.returnDoneTrans c.clk).2
  | .clockTick => c.clockTick config

/-- The client adds supported transactions, where they are accepted. -/
def Meets (config : DramConfig) (c : Controller) : Call → Prop
  | .addTransaction addr reqType =>
    Supported config addr reqType ∧ c.willAcceptTransaction config reqType = .ok true
  | _ => True

instance (config : DramConfig) (c : Controller) (call : Call) : Decidable (Meets config c call) := by
  cases call <;> unfold Meets <;> infer_instance

section Translate

variable {t : Transaction}

/-- The command of a transaction. -/
def commandType : TransactionType → CommandType
  | .READ => .READ
  | .WRITE => .WRITE
  | .GWRITE => .GWRITE
  | .COMP => .COMP
  | .READRES => .READRES
  | .P_HEADER => .P_HEADER
  | .COMPS_READRES => .COMPS_READRES
  | .PWRITE => .PWRITE

theorem transToCommand_ok (hopen : config.rowBufPolicy = .OPEN_PAGE)
    (h : Supported config t.addr t.reqType) : ∃ cmd, transToCommand config t = .ok cmd := by
  simp only [transToCommand, if_pos hopen]
  cases ht : t.reqType <;> rw [ht] at h
  case READ | WRITE | GWRITE | COMPS_READRES => exact ⟨_, rfl⟩
  case P_HEADER =>
    have hdecoded : (decodePIMHeader config.toConfig t.addr).isOk := h
    cases hcase : decodePIMHeader config.toConfig t.addr with
    | ok cmd => exact ⟨_, rfl⟩
    | error e =>
      rw [hcase] at hdecoded
      cases hdecoded
  all_goals exact absurd h (by simp [Supported])

theorem transToCommand_spec (hregular : Regular config) (h : Supported config t.addr t.reqType)
    {cmd : TypedCommand} (hcmd : transToCommand config t = .ok cmd) :
    Wanted config cmd ∧ cmd.cmdType = commandType t.reqType ∧ cmd.hexAddr = t.addr ∧
      (t.reqType = .READ ∨ t.reqType = .WRITE ∨ t.reqType = .GWRITE →
        cmd.addr = config.addressOf t.addr) ∧
      (t.reqType = .P_HEADER ∨ t.reqType = .COMPS_READRES → cmd.addr.rank = -1) := by
  have hplain : ∀ ct, ct = .READ ∨ ct = .WRITE ∨ ct = .GWRITE →
      Wanted config (.plain ct (config.addressOf t.addr) t.addr) := by
    intro ct hct
    refine ⟨?_, fun _ => addressOf_inRange hregular t.addr, ?_⟩
    · rcases hct with rfl | rfl | rfl <;> simp [Asked, TypedCommand.plain]
    · rcases hct with rfl | rfl | rfl <;> simp [TypedCommand.plain]
  unfold transToCommand at hcmd
  split at hcmd
  · cases ht : t.reqType <;> rw [ht] at h <;> simp only [ht] at hcmd
    case READ =>
      cases hcmd
      exact ⟨hplain .READ (.inl rfl), rfl, rfl, fun _ => rfl, by simp⟩
    case WRITE =>
      cases hcmd
      exact ⟨hplain .WRITE (.inr (.inl rfl)), rfl, rfl, fun _ => rfl, by simp⟩
    case GWRITE =>
      cases hcmd
      exact ⟨hplain .GWRITE (.inr (.inr rfl)), rfl, rfl, fun _ => rfl, by simp⟩
    case P_HEADER =>
      obtain ⟨header, hheader, heq⟩ := bind_ok.mp hcmd
      obtain ⟨haddr, hfor, hrank⟩ := decodePIMHeader_ok hheader
      cases heq
      refine ⟨⟨?_, by simp, by simp⟩, rfl, haddr, by simp, fun _ => hrank⟩
      simp [Asked, hfor]
    case COMPS_READRES =>
      cases hcmd
      refine ⟨⟨?_, by simp, by simp⟩, rfl, rfl, by simp, fun _ => rfl⟩
      simp [Asked]
    all_goals exact absurd h (by simp [Supported])
  · cases hcmd

end Translate

section Select

/-- The first half of `FinishRefresh`. -/
def startRefresh (config : DramConfig) (q : CommandQueue) (ref : TypedCommand) : CommandQueue :=
  if q.isInRef then q
  else
    { q with
      refQIndices := q.refQIndices ++ CommandQueue.getRefQIndices config ref, isInRef := true }

/-- The command of a cycle and the queues after it. While a refresh waits, its own commands come
first, and the others spare its banks. -/
inductive Chosen (config : DramConfig) (ch : ChannelState) (q : CommandQueue) :
    Option TypedCommand → CommandQueue → Prop
  | refresh (ref : TypedCommand) (rest : List TypedCommand) (cmd : TypedCommand)
      (q' : CommandQueue) :
      ch.refreshQ = ref :: rest → Leads config ch q.clk ref cmd → q'.queues = q.queues →
      q'.pimQueue = q.pimQueue → q'.clk = q.clk →
      (cmd.cmdType = .REFRESH → q'.isInRef = false ∧ q'.refQIndices = []) →
      (cmd.cmdType ≠ .REFRESH → q'.isInRef = true ∧
        q'.refQIndices = (startRefresh config q ref).refQIndices) →
      Chosen config ch q (some cmd) q'
  | spare (ref : TypedCommand) (rest : List TypedCommand) (o : Option TypedCommand)
      (q' : CommandQueue) :
      ch.refreshQ = ref :: rest → ch.getReadyCommand config ref q.clk = .ok none →
      CommandQueue.Picked config ch (startRefresh config q ref) o q' → Chosen config ch q o q'
  | free (o : Option TypedCommand) (q' : CommandQueue) :
      ch.refreshQ = [] → CommandQueue.Picked config ch q o q' → Chosen config ch q o q'

theorem filled_startRefresh {q : CommandQueue} (h : q.Filled config) (ref : TypedCommand) :
    (startRefresh config q ref).Filled config := by
  unfold startRefresh
  split
  · exact h
  · exact ⟨h.queued, h.pim⟩

theorem clk_startRefresh (q : CommandQueue) (ref : TypedCommand) :
    (startRefresh config q ref).clk = q.clk := by
  unfold startRefresh
  split <;> rfl

variable {c : Controller}

theorem selectCommand_spec (hregular : Regular config)
    (hinterval : Refresh.refreshInterval config ≠ 0) (hawake : AllAwake c.channelState)
    (hfilled : c.cmdQueue.Filled config)
    (hrefs : ∀ ref ∈ c.channelState.refreshQ, ref.cmdType = .REFRESH ∧ Wanted config ref) :
    c.selectCommand config = .error .otherCommand ∧
        CommandQueue.Clash c.channelState c.cmdQueue ∨
      ∃ o q', c.selectCommand config = .ok (o, q') ∧
        Chosen config c.channelState c.cmdQueue o q' := by
  have hslack : ∃ slack, c.refresh.getRefreshSlack config = .ok slack := by
    rw [Refresh.getRefreshSlack, if_pos hregular.staggered, if_neg hinterval]
    exact ⟨_, rfl⟩
  obtain ⟨slack, hslack⟩ := hslack
  rw [selectCommand, refreshCommand]
  cases hqueue : c.channelState.refreshQ with
  | nil =>
    simp only [ok_bind, hslack]
    rcases @CommandQueue.getCommandToIssue_spec config _ _ slack hregular.toCountable hregular.dual
      hawake hfilled with herr | ⟨o, q', hok, hpicked⟩
    · exact .inl herr
    · exact .inr ⟨o, q', hok, .free o q' hqueue hpicked⟩
  | cons ref rest =>
    obtain ⟨htype, hwanted⟩ := hrefs ref (by rw [hqueue]; exact List.mem_cons_self)
    obtain ⟨o, ho, hleads⟩ := @getReadyCommand_leads config _ _ c.cmdQueue.clk hregular.toCountable
      hregular.dual hawake hwanted
    have hstart : c.cmdQueue.finishRefresh config c.channelState ref =
        c.channelState.getReadyCommand config ref (startRefresh config c.cmdQueue ref).clk >>=
          fun o => o.elim (.ok (none, startRefresh config c.cmdQueue ref)) fun cmd =>
            if cmd.cmdType.isRefresh then
              .ok (some cmd,
                { startRefresh config c.cmdQueue ref with
                  refQIndices := [], isInRef := false, skipPim := false, remainSlack := 0
                  reservedRowForPim := -1 })
            else .ok (some cmd, startRefresh config c.cmdQueue ref) := by
      refine bind_congr fun o => ?_
      cases o <;> rfl
    have hqueues : (startRefresh config c.cmdQueue ref).queues = c.cmdQueue.queues ∧
        (startRefresh config c.cmdQueue ref).pimQueue = c.cmdQueue.pimQueue := by
      unfold startRefresh
      split <;> exact ⟨rfl, rfl⟩
    dsimp only
    rw [hstart, clk_startRefresh, ho, ok_bind]
    cases o with
    | none =>
      simp only [Option.elim_none, ok_bind, hslack]
      rcases @CommandQueue.getCommandToIssue_spec config _ _ slack hregular.toCountable hregular.dual
        hawake (filled_startRefresh hfilled ref) with ⟨herr, hclash⟩ | ⟨o, q', hok, hpicked⟩
      · refine .inl ⟨herr, ?_⟩
        unfold CommandQueue.Clash at hclash ⊢
        rwa [hqueues.1] at hclash
      · exact .inr ⟨o, q', hok, .spare ref rest o q' hqueue ho hpicked⟩
    | some cmd =>
      have hlead := hleads cmd rfl
      have hneeded := hlead.needed
      rw [htype] at hneeded
      rw [Option.elim_some]
      split
      · rename_i hrefresh
        refine .inr ⟨some cmd, _, rfl, .refresh ref rest cmd _ hqueue hlead hqueues.1 hqueues.2
          (clk_startRefresh _ _) (fun _ => ⟨rfl, rfl⟩) ?_⟩
        intro hne
        simp [needs, hne] at hneeded
        rcases hneeded with h | h <;> rw [h] at hrefresh <;> cases hrefresh
      · rename_i hrefresh
        refine .inr ⟨some cmd, _, rfl, .refresh ref rest cmd _ hqueue hlead hqueues.1 hqueues.2
          (clk_startRefresh _ _) ?_ fun _ => ⟨?_, rfl⟩⟩
        · intro h
          exact absurd (by rw [h]; rfl) hrefresh
        · unfold startRefresh
          split
          · assumption
          · rfl

end Select

end Controller

end NewPims.NewtonSim

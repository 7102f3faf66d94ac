import NewPims.NewtonSim.Leads

/-! What a command that fits does to a channel. -/
namespace NewPims.NewtonSim

open Transition

variable {config : DramConfig} {ch ch' : ChannelState} {s : BankState} {cmd : TypedCommand}
  {b : BankId} {clk : ℕ}

/-- The types of the commands that change the memory. -/
def Issuable (t : CommandType) : Prop :=
  t = .READ ∨ t = .WRITE ∨ t = .GWRITE ∨ t = .ACTIVATE ∨ t = .PRECHARGE ∨ t = .PIM_PRECHARGE ∨
    t = .REFRESH ∨ t = .G_ACT ∨ t = .COMPS_READRES

theorem issuable_of_needs {t u : CommandType} (h : t ∈ needs u) : t = .P_HEADER ∨ Issuable t := by
  unfold Issuable
  cases u <;> simp only [needs, List.mem_cons, List.not_mem_nil, or_false] at h <;> grind

section Bank

theorem updateTimings_append (l l' : List (CommandType × ℤ)) :
    s.updateTimings clk (l ++ l') = (s.updateTimings clk l).updateTimings clk l' :=
  List.foldl_append

/-- Delays change the times alone. -/
theorem updateTimings_eq (l : List (CommandType × ℤ)) :
    s.updateTimings clk l = { s with cmdTiming := (s.updateTimings clk l).cmdTiming } := by
  induction l generalizing s with
  | nil => rfl
  | cons e l ih => exact ih

theorem view_updateTimings (l : List (CommandType × ℤ)) :
    (s.updateTimings clk l).view = s.view := by
  rw [updateTimings_eq]
  rfl

theorem awake_updateTimings {l : List (CommandType × ℤ)} :
    (s.updateTimings clk l).Awake ↔ s.Awake := by
  rw [updateTimings_eq]
  exact Iff.rfl

theorem updateTiming_self (t u : CommandType) (time : ℕ) : (s.updateTiming t time).cmdTiming u =
    if u = t then max (s.cmdTiming u) time else s.cmdTiming u := by
  refine (Function.update_apply _ _ _ _).trans ?_
  split
  · rename_i h
    rw [h]
  · rfl

theorem le_updateTimings (l : List (CommandType × ℤ)) (t : CommandType) :
    s.cmdTiming t ≤ (s.updateTimings clk l).cmdTiming t := by
  induction l generalizing s with
  | nil => exact Nat.le_refl _
  | cons e l ih =>
    refine Nat.le_trans ?_ (ih (s := s.updateTiming e.1 (stamp clk e.2)))
    rw [updateTiming_self]
    split
    · exact Nat.le_max_left _ _
    · exact Nat.le_refl _

theorem stamp_le_updateTimings {l : List (CommandType × ℤ)} {t : CommandType} {d : ℤ}
    (h : (t, d) ∈ l) : stamp clk d ≤ (s.updateTimings clk l).cmdTiming t := by
  induction l generalizing s with
  | nil => exact absurd h List.not_mem_nil
  | cons e l ih =>
    rcases List.mem_cons.mp h with rfl | h
    · refine Nat.le_trans ?_ (le_updateTimings (s := s.updateTiming t (stamp clk d)) l t)
      rw [updateTiming_self, if_pos rfl]
      exact Nat.le_max_right _ _
    · exact ih h

/-- A time is what it was, or comes from one of the delays. -/
theorem updateTimings_cases (l : List (CommandType × ℤ)) (t : CommandType) :
    (s.updateTimings clk l).cmdTiming t = s.cmdTiming t ∨
      ∃ d, (t, d) ∈ l ∧ (s.updateTimings clk l).cmdTiming t = stamp clk d := by
  induction l generalizing s with
  | nil => exact .inl rfl
  | cons e l ih =>
    rcases ih (s := s.updateTiming e.1 (stamp clk e.2)) with h | ⟨d, hd, h⟩
    · rw [updateTiming_self] at h
      split at h
      · rename_i ht
        rcases Nat.le_total (s.cmdTiming t) (stamp clk e.2) with hle | hle
        · refine .inr ⟨e.2, ?_, h.trans (Nat.max_eq_right hle)⟩
          rw [ht]
          exact List.mem_cons_self
        · exact .inl (h.trans (Nat.max_eq_left hle))
      · exact .inl h
    · exact .inr ⟨d, List.mem_cons_of_mem _ hd, h⟩

/-- The bank after a command that it takes. -/
def BankState.updated (s : BankState) (cmd : TypedCommand) : BankState :=
  match s.updateState cmd true with
  | .ok s => s
  | .error _ => s

/-- A bank takes a command that it admits, and a `G_ACT` in any case. -/
theorem updateState_bank (hs : s.Awake) (hissue : Issuable cmd.cmdType)
    (h : cmd.cmdType = .G_ACT ∨ s.view.Admits cmd) :
    s.updateState cmd true = .ok (s.updated cmd) ∧ (s.updated cmd).view = s.view.after cmd ∧
      (s.updated cmd).Awake ∧ (s.updated cmd).cmdTiming = s.cmdTiming := by
  have hok : ∀ s', s.updateState cmd true = .ok s' → s'.view = s.view.after cmd → s'.Awake →
      s'.cmdTiming = s.cmdTiming → s.updateState cmd true = .ok (s.updated cmd) ∧
        (s.updated cmd).view = s.view.after cmd ∧ (s.updated cmd).Awake ∧
        (s.updated cmd).cmdTiming = s.cmdTiming := by
    intro s' hs' hview hawake htiming
    rw [BankState.updated, hs']
    exact ⟨rfl, hview, hawake, htiming⟩
  obtain ⟨hstate, hpim⟩ := hs
  have hopen : ∀ r, s.view.row = some r → s.state = .OPEN := by
    intro r hr
    by_contra hne
    simp [BankState.view, hne] at hr
  have hrow : s.view.row ≠ none → s.state = .OPEN := by
    intro hne
    by_contra hnot
    simp [BankState.view, hnot] at hne
  have hclosed : s.view.row = none → s.state = .CLOSED := by
    intro hnone
    rcases BankState.state_cases ⟨hstate, hpim⟩ with ho | hc
    · simp [BankState.view, ho] at hnone
    · exact hc
  have hpimOpen : s.view.pimRow ≠ none → s.pimState = .OPEN := by
    intro hne
    by_contra hnot
    simp [BankState.view, hnot] at hne
  have hpimClosed : s.view.pimRow = none → s.pimState = .CLOSED := by
    intro hnone
    rcases BankState.pimState_cases ⟨hstate, hpim⟩ with ho | hc
    · simp [BankState.view, ho] at hnone
    · exact hc
  have hgact : cmd.cmdType = .G_ACT → s.updateState cmd true = .ok { s with
      pimState := .OPEN, pimOpenRow := cmd.addr.row } := by
    intro ht
    rcases BankState.pimState_cases ⟨hstate, hpim⟩ with ho | hc
    · simp only [BankState.updateState, TypedCommand.isPIMBufferCommand, BankState.updatePIMState, ht,
        ho]
      simp
    · simp only [BankState.updateState, TypedCommand.isPIMBufferCommand, BankState.updatePIMState, ht,
        hc]
      simp
  rcases h with ht | hadmits
  · refine hok _ (hgact ht) ?_ ⟨hstate, by simp⟩ rfl
    simp [BankState.view, Buffers.after, ht]
  rcases hissue with ht | ht | ht | ht | ht | ht | ht | ht | ht <;>
    simp only [Buffers.Admits, ht] at hadmits
  · have ho := hopen _ hadmits
    refine hok { s with rowHitCount := s.rowHitCount + 1 } ?_ ?_ ⟨hstate, hpim⟩ rfl
    · simp [BankState.updateState, TypedCommand.isPIMBufferCommand,
        TypedCommand.isNormalBufferCommand, BankState.updateNormalState, ht, ho]
    · simp [BankState.view, Buffers.after, ht]
  · have ho := hopen _ hadmits
    refine hok { s with rowHitCount := s.rowHitCount + 1 } ?_ ?_ ⟨hstate, hpim⟩ rfl
    · simp [BankState.updateState, TypedCommand.isPIMBufferCommand,
        TypedCommand.isNormalBufferCommand, BankState.updateNormalState, ht, ho]
    · simp [BankState.view, Buffers.after, ht]
  · have ho := hopen _ hadmits
    refine hok s ?_ ?_ ⟨hstate, hpim⟩ rfl
    · simp [BankState.updateState, TypedCommand.isPIMBufferCommand,
        TypedCommand.isNormalBufferCommand, BankState.updateNormalState, ht, ho]
    · simp [BankState.view, Buffers.after, ht]
  · have hc := hclosed hadmits.1
    refine hok { s with state := .OPEN, openRow := cmd.addr.row } ?_ ?_ ⟨by simp, hpim⟩ rfl
    · simp [BankState.updateState, TypedCommand.isPIMBufferCommand,
        TypedCommand.isNormalBufferCommand, BankState.updateNormalState, ht, hc]
    · simp [BankState.view, Buffers.after, ht]
  · have ho := hrow hadmits
    refine hok { s with state := .CLOSED, openRow := -1, rowHitCount := 0 } ?_ ?_ ⟨by simp, hpim⟩ rfl
    · simp [BankState.updateState, TypedCommand.isPIMBufferCommand,
        TypedCommand.isNormalBufferCommand, BankState.updateNormalState, ht, ho]
    · simp [BankState.view, Buffers.after, ht]
  · have ho := hpimOpen hadmits
    refine hok { s with pimState := .CLOSED, pimOpenRow := -1 } ?_ ?_ ⟨hstate, by simp⟩ rfl
    · simp [BankState.updateState, TypedCommand.isPIMBufferCommand, BankState.updatePIMState, ht, ho]
    · simp [BankState.view, Buffers.after, ht]
  · have hc := hclosed hadmits.1
    have hpc := hpimClosed hadmits.2
    refine hok s ?_ ?_ ⟨hstate, hpim⟩ rfl
    · simp [BankState.updateState, TypedCommand.isPIMBufferCommand,
        TypedCommand.isNormalBufferCommand, BankState.updateNormalState, ht, hc, hpc]
    · simp [BankState.view, Buffers.after, ht]
  · refine hok _ (hgact ht) ?_ ⟨hstate, by simp⟩ rfl
    simp [BankState.view, Buffers.after, ht]
  · have ho := hpimOpen hadmits
    refine hok s ?_ ?_ ⟨hstate, hpim⟩ rfl
    · simp [BankState.updateState, TypedCommand.isPIMBufferCommand, BankState.updatePIMState, ht, ho]
    · simp [BankState.view, Buffers.after, ht]

end Bank

section State

/-- A loop over banks changes each of them once. -/
theorem updateBanks_ok {f : BankState → Except MemoryFault BankState} {g : BankState → BankState}
    {l : List BankId} (hnodup : l.Nodup)
    (hf : ∀ b ∈ l, f (ch.bankStates b) = .ok (g (ch.bankStates b))) :
    ChannelState.updateBanks f l ch = .ok { ch with
      bankStates := fun b => if b ∈ l then g (ch.bankStates b) else ch.bankStates b } := by
  induction l generalizing ch with
  | nil => simp [ChannelState.updateBanks]
  | cons b rest ih =>
    rw [List.nodup_cons] at hnodup
    rw [ChannelState.updateBanks, hf b List.mem_cons_self]
    have hne : ∀ b' ∈ rest, b' ≠ b := by
      rintro b' hb' rfl
      exact hnodup.1 hb'
    have hrest : ∀ b' ∈ rest, f (Function.update ch.bankStates b (g (ch.bankStates b)) b') =
        .ok (g (Function.update ch.bankStates b (g (ch.bankStates b)) b')) := by
      intro b' hb'
      rw [Function.update_of_ne (hne b' hb')]
      exact hf b' (List.mem_cons_of_mem _ hb')
    refine (@ih { ch with
      bankStates := Function.update ch.bankStates b (g (ch.bankStates b)) } hnodup.2 hrest).trans ?_
    congr 2
    funext b'
    by_cases hb' : b' = b
    · subst hb'
      simp [hnodup.1]
    · simp [hb']

/-- The banks after the first half of `UpdateTimingAndStates`. -/
def touchBanks (config : DramConfig) (ch : ChannelState) (cmd : TypedCommand) : ChannelState :=
  { ch with
    bankStates := fun b =>
      if b ∈ cmd.touched config then (ch.bankStates b).updated cmd else ch.bankStates b }

theorem updateState_fit (hcount : Countable config) (hdual : config.enableDualBuffer = true)
    (hawake : AllAwake ch) (hissue : Issuable cmd.cmdType) (hfit : Fit config ch clk cmd) :
    ch.updateState config cmd =
      .ok (if cmd.cmdType = .REFRESH then
        (touchBanks config ch cmd).rankNeedRefresh cmd.addr.rank false
      else touchBanks config ch cmd) := by
  have hbanks : ∀ b ∈ cmd.touched config, (ch.bankStates b).updateState cmd config.enableDualBuffer =
      .ok ((ch.bankStates b).updated cmd) := by
    intro b hb
    rw [hdual]
    refine (updateState_bank (hawake b) hissue ?_).1
    by_cases ht : cmd.cmdType = .G_ACT
    · exact .inl ht
    · refine .inr (hfit.admits b ?_)
      unfold TypedCommand.touched at hb
      split at hb
      · exact absurd ‹_› ht
      · exact hb
  have hloop := @updateBanks_ok ch (fun s => s.updateState cmd config.enableDualBuffer)
    (fun s => s.updated cmd) _ (nodup_touched hcount cmd) hbanks
  have hsingle : cmd.cmdType ≠ .REFRESH → cmd.cmdType ≠ .COMPS_READRES → cmd.cmdType ≠ .G_ACT →
      cmd.cmdType ≠ .P_HEADER → cmd.touched config = [cmd.addr.bankId] := by
    intro h1 h2 h3 h4
    unfold TypedCommand.touched
    split
    · exact absurd ‹_› h3
    · exact checked_single ⟨h4, h1, h2⟩
  rcases hissue with ht | ht | ht | ht | ht | ht | ht | ht | ht
  case inr.inr.inr.inr.inr.inr.inl =>
    have hlist : cmd.touched config = BankId.ofRank config cmd.addr.rank.toNat := by
      rw [TypedCommand.touched, ht, TypedCommand.checked, ht]
    rw [hlist] at hloop
    simp only [ChannelState.updateState, ht, CommandType.isChannelCMD, CommandType.isRankCMD,
      CommandType.isRefresh]
    refine (congrArg (· >>= _) hloop).trans ?_
    simp only [if_true, touchBanks, hlist]
    rfl
  case inr.inr.inr.inr.inr.inr.inr.inl =>
    have hlist : cmd.touched config =
        BankId.ofBankgroup config cmd.addr.rank.toNat cmd.addr.bankgroup.toNat := by
      rw [TypedCommand.touched, ht]
    rw [hlist] at hloop
    simp only [ChannelState.updateState, ht, CommandType.isChannelCMD, CommandType.isRankCMD]
    refine hloop.trans ?_
    rw [if_neg (by simp), touchBanks, hlist]
  case inr.inr.inr.inr.inr.inr.inr.inr =>
    have hlist : cmd.touched config = BankId.all config := by
      rw [TypedCommand.touched, ht, TypedCommand.checked, ht]
    rw [hlist] at hloop
    simp only [ChannelState.updateState, ht, CommandType.isChannelCMD]
    refine hloop.trans ?_
    rw [if_neg (by simp), touchBanks, hlist]
  all_goals
    have hlist := hsingle (by simp [ht]) (by simp [ht]) (by simp [ht]) (by simp [ht])
    rw [hlist] at hloop
    simp only [ChannelState.updateState, ht, CommandType.isChannelCMD, CommandType.isRankCMD,
      CommandType.isRefresh]
    refine (congrArg (· >>= _) hloop).trans ?_
    rw [if_neg (by simp), touchBanks, hlist]
    rfl

end State

section Timing

/-- The delays that a command puts on the commands of a bank. -/
def delaysAt (config : DramConfig) (cmd : TypedCommand) (b : BankId) : List (CommandType × ℤ) :=
  match cmd.cmdType with
  | .REFRESH => if b.rank = cmd.addr.rank then Timing.sameRank config .REFRESH else []
  | .G_ACT =>
    if b.rank = cmd.addr.rank then
      (if b.bankgroup = cmd.addr.bankgroup then Timing.otherBanksSameBankgroup config .G_ACT
        else []) ++ Timing.sameRank config .G_ACT
    else []
  | .COMPS_READRES =>
    Timing.sameRank config .COMPS_READRES ++
      [(.COMPS_READRES, ChannelState.compsReadresDelay config cmd)]
  | t =>
    if b = cmd.addr.bankId then Timing.sameBank config t
    else if b.rank = cmd.addr.rank then
      if b.bankgroup = cmd.addr.bankgroup then Timing.otherBanksSameBankgroup config t
      else Timing.otherBankgroupsSameRank config t
    else Timing.otherRanks config t

/-- The banks after the second half of `UpdateTimingAndStates`. -/
def delayBanks (config : DramConfig) (ch : ChannelState) (cmd : TypedCommand) (clk : ℕ) :
    ChannelState :=
  { ch with
    bankStates := fun b =>
      if b.InRange config then (ch.bankStates b).updateTimings clk (delaysAt config cmd b)
      else ch.bankStates b }

theorem delay_delay (p p' : BankId → Bool) (l l' : List (CommandType × ℤ)) :
    ((ch.delay config p clk l).delay config p' clk l') = { ch with
      bankStates := fun b =>
        if b.InRange config then
          (ch.bankStates b).updateTimings clk ((if p b then l else []) ++ if p' b then l' else [])
        else ch.bankStates b } := by
  simp only [ChannelState.delay]
  congr 1
  funext b
  by_cases hin : b.InRange config <;> by_cases hp : p b <;> by_cases hp' : p' b <;>
    simp [hin, hp, hp', updateTimings_append]
  all_goals rfl

theorem updateBankTiming_eq (h : delaysAt config cmd = fun b =>
    if b = cmd.addr.bankId then Timing.sameBank config cmd.cmdType
    else if b.rank = cmd.addr.rank then
      if b.bankgroup = cmd.addr.bankgroup then
        Timing.otherBanksSameBankgroup config cmd.cmdType
      else Timing.otherBankgroupsSameRank config cmd.cmdType
    else Timing.otherRanks config cmd.cmdType) :
    ch.updateBankTiming config cmd clk = delayBanks config ch cmd clk := by
  rw [delayBanks, h]
  simp only [ChannelState.updateBankTiming, ChannelState.updateSameBankTiming,
    ChannelState.updateOtherBanksSameBankgroupTiming,
    ChannelState.updateOtherBankgroupsSameRankTiming, ChannelState.updateOtherRanksTiming,
    ChannelState.delay]
  congr 1
  funext b
  obtain ⟨rank, bankgroup, bank⟩ := b
  by_cases hin : BankId.InRange config ⟨rank, bankgroup, bank⟩ <;>
    by_cases hr : rank = cmd.addr.rank <;> by_cases hg : bankgroup = cmd.addr.bankgroup <;>
    by_cases hb : bank = cmd.addr.bank <;>
    simp [hin, hr, hg, hb, Address.bankId]

theorem updateTiming_issuable (hissue : Issuable cmd.cmdType) :
    ch.updateTiming config cmd clk = .ok (delayBanks config
      (if cmd.cmdType = .ACTIVATE then ch.updateActivationTimes config cmd.addr.rank clk else ch)
      cmd clk) := by
  have hbank : cmd.cmdType = .READ ∨ cmd.cmdType = .WRITE ∨ cmd.cmdType = .ACTIVATE ∨
      cmd.cmdType = .PRECHARGE → delaysAt config cmd = fun b =>
        if b = cmd.addr.bankId then Timing.sameBank config cmd.cmdType
        else if b.rank = cmd.addr.rank then
          if b.bankgroup = cmd.addr.bankgroup then
            Timing.otherBanksSameBankgroup config cmd.cmdType
          else Timing.otherBankgroupsSameRank config cmd.cmdType
        else Timing.otherRanks config cmd.cmdType := by
    intro h
    funext b
    rcases h with h | h | h | h <;> simp only [delaysAt, h]
  rcases hissue with ht | ht | ht | ht | ht | ht | ht | ht | ht
  · rw [← updateBankTiming_eq (hbank (.inl ht)), if_neg (by simp [ht])]
    simp only [ChannelState.updateTiming, ht]
  · rw [← updateBankTiming_eq (hbank (.inr (.inl ht))), if_neg (by simp [ht])]
    simp only [ChannelState.updateTiming, ht]
  · rw [if_neg (by simp [ht])]
    simp only [ChannelState.updateTiming, ht, ChannelState.updateOtherBanksSameBankgroupTiming,
      ChannelState.updateOtherBankgroupsSameRankTiming, ChannelState.updateSameBankTiming,
      ChannelState.delay, delayBanks, delaysAt, Timing.otherRanks]
    congr 2
    funext b
    obtain ⟨rank, bankgroup, bank⟩ := b
    by_cases hin : BankId.InRange config ⟨rank, bankgroup, bank⟩ <;>
      by_cases hr : rank = cmd.addr.rank <;> by_cases hg : bankgroup = cmd.addr.bankgroup <;>
      by_cases hb : bank = cmd.addr.bank <;>
      simp [hin, hr, hg, hb, Address.bankId, BankState.updateTimings]
  · rw [← updateBankTiming_eq (hbank (.inr (.inr (.inl ht)))), if_pos ht]
    simp only [ChannelState.updateTiming, ht]
  · rw [← updateBankTiming_eq (hbank (.inr (.inr (.inr ht)))), if_neg (by simp [ht])]
    simp only [ChannelState.updateTiming, ht]
  · rw [if_neg (by simp [ht])]
    simp only [ChannelState.updateTiming, ht, ChannelState.updateSameBankTiming,
      ChannelState.delay, delayBanks, delaysAt, Timing.otherRanks,
      Timing.otherBanksSameBankgroup, Timing.otherBankgroupsSameRank]
    congr 2
    funext b
    by_cases hin : b.InRange config <;> by_cases hb : b = cmd.addr.bankId <;>
      simp [hin, hb, BankState.updateTimings]
  · rw [if_neg (by simp [ht])]
    simp only [ChannelState.updateTiming, ht, ChannelState.updateSameRankTiming,
      ChannelState.delay, delayBanks, delaysAt]
    congr 2
    funext b
    by_cases hin : b.InRange config <;> by_cases hr : b.rank = cmd.addr.rank <;>
      simp [hin, hr, BankState.updateTimings]
  · rw [if_neg (by simp [ht])]
    simp only [ChannelState.updateTiming, ht, ChannelState.updateSameBankgroupTiming,
      ChannelState.updateSameRankTiming, delay_delay, delayBanks, delaysAt]
    congr 2
    funext b
    by_cases hin : b.InRange config <;> by_cases hr : b.rank = cmd.addr.rank <;>
      by_cases hg : b.bankgroup = cmd.addr.bankgroup <;>
      simp [hin, hr, hg, BankState.updateTimings]
  · rw [if_neg (by simp [ht])]
    simp only [ChannelState.updateTiming, ht, ChannelState.updateChannelTiming,
      ChannelState.delay, delayBanks, delaysAt]
    congr 2
    funext b
    by_cases hin : b.InRange config <;> simp [hin]

end Timing

section Issued

/-- The channel after a command. -/
structure Issued (config : DramConfig) (ch : ChannelState) (clk : ℕ) (cmd : TypedCommand)
    (ch' : ChannelState) : Prop where
  view : (fun b => (ch'.bankStates b).view) =
    Device.after config (fun b => (ch.bankStates b).view) cmd
  awake : AllAwake ch'
  cmdTiming : ∀ b, (ch'.bankStates b).cmdTiming =
    if b.InRange config then
      ((ch.bankStates b).updateTimings clk (delaysAt config cmd b)).cmdTiming
    else (ch.bankStates b).cmdTiming
  refreshQ : ch'.refreshQ = if cmd.cmdType = .REFRESH then
    ch.refreshQ.eraseP fun r => r.addr.rank == cmd.addr.rank else ch.refreshQ
  rankIsSref : ch'.rankIsSref = ch.rankIsSref
  fourAw : ch'.fourAw = if cmd.cmdType = .ACTIVATE then
    Function.update ch.fourAw cmd.addr.rank
      (ChannelState.slide (ch.fourAw cmd.addr.rank) clk config.tFAW) else ch.fourAw

theorem cmdTiming_updateTimings {s' : BankState} (h : s'.cmdTiming = s.cmdTiming)
    (l : List (CommandType × ℤ)) :
    (s'.updateTimings clk l).cmdTiming = (s.updateTimings clk l).cmdTiming := by
  induction l generalizing s s' with
  | nil => exact h
  | cons e l ih =>
    refine ih ?_
    change Function.update s'.cmdTiming e.1 (max (s'.cmdTiming e.1) (stamp clk e.2)) =
      Function.update s.cmdTiming e.1 (max (s.cmdTiming e.1) (stamp clk e.2))
    rw [h]

theorem view_touchBanks (hawake : AllAwake ch) (hissue : Issuable cmd.cmdType)
    (hfit : Fit config ch clk cmd) (b : BankId) :
    let s := (touchBanks config ch cmd).bankStates b
    s.view = Device.after config (fun b => (ch.bankStates b).view) cmd b ∧ s.Awake ∧
      s.cmdTiming = (ch.bankStates b).cmdTiming := by
  simp only [touchBanks, Device.after]
  by_cases hb : b ∈ cmd.touched config
  · rw [if_pos hb, if_pos hb]
    refine (updateState_bank (hawake b) hissue ?_).2
    by_cases ht : cmd.cmdType = .G_ACT
    · exact .inl ht
    · refine .inr (hfit.admits b ?_)
      unfold TypedCommand.touched at hb
      split at hb
      · exact absurd ‹_› ht
      · exact hb
  · rw [if_neg hb, if_neg hb]
    exact ⟨rfl, hawake b, rfl⟩

/-- A command that fits is taken. -/
theorem updateTimingAndStates_fit (hcount : Countable config)
    (hdual : config.enableDualBuffer = true) (hawake : AllAwake ch)
    (hissue : Issuable cmd.cmdType) (hfit : Fit config ch clk cmd) :
    ∃ ch', ch.updateTimingAndStates config cmd clk = .ok ch' ∧ Issued config ch clk cmd ch' := by
  refine ⟨_, bind_ok.mpr ⟨_, updateState_fit hcount hdual hawake hissue hfit,
    updateTiming_issuable hissue⟩, ?_⟩
  have hview := view_touchBanks hawake hissue hfit
  -- what the rest of the step does to the banks of the middle state
  have hrest : ∀ m : ChannelState, m.bankStates = (touchBanks config ch cmd).bankStates →
      ∀ b, ((delayBanks config m cmd clk).bankStates b).view =
          Device.after config (fun b => (ch.bankStates b).view) cmd b ∧
        ((delayBanks config m cmd clk).bankStates b).Awake ∧
        ((delayBanks config m cmd clk).bankStates b).cmdTiming = if b.InRange config then
          ((ch.bankStates b).updateTimings clk (delaysAt config cmd b)).cmdTiming
          else (ch.bankStates b).cmdTiming := by
    intro m hm b
    obtain ⟨hv, ha, ht⟩ := hview b
    rw [← hm] at hv ha ht
    simp only [delayBanks]
    by_cases hin : b.InRange config
    · rw [if_pos hin, if_pos hin, view_updateTimings, awake_updateTimings]
      exact ⟨hv, ha, cmdTiming_updateTimings ht _⟩
    · rw [if_neg hin, if_neg hin]
      exact ⟨hv, ha, ht⟩
  by_cases hactivate : cmd.cmdType = .ACTIVATE
  · have hrefresh : cmd.cmdType ≠ .REFRESH := by simp [hactivate]
    simp only [if_pos hactivate, if_neg hrefresh]
    set m := (touchBanks config ch cmd).updateActivationTimes config cmd.addr.rank clk with hm
    have hbanks : m.bankStates = (touchBanks config ch cmd).bankStates ∧
        m.refreshQ = ch.refreshQ ∧ m.rankIsSref = ch.rankIsSref ∧ m.fourAw =
          Function.update ch.fourAw cmd.addr.rank
            (ChannelState.slide (ch.fourAw cmd.addr.rank) clk config.tFAW) := by
      rw [hm, ChannelState.updateActivationTimes]
      split
      · exact ⟨rfl, rfl, rfl, rfl⟩
      · exact ⟨rfl, rfl, rfl, rfl⟩
    have h := hrest m hbanks.1
    refine ⟨funext fun b => (h b).1, fun b => (h b).2.1, fun b => (h b).2.2, ?_, hbanks.2.2.1, ?_⟩
    · rw [if_neg hrefresh]
      exact hbanks.2.1
    · rw [if_pos hactivate]
      exact hbanks.2.2.2
  · simp only [if_neg hactivate]
    by_cases hrefresh : cmd.cmdType = .REFRESH
    · simp only [if_pos hrefresh]
      have h := hrest ((touchBanks config ch cmd).rankNeedRefresh cmd.addr.rank false) rfl
      refine ⟨funext fun b => (h b).1, fun b => (h b).2.1, fun b => (h b).2.2, ?_, rfl, ?_⟩
      · rw [if_pos hrefresh]
        rfl
      · rw [if_neg hactivate]
        rfl
    · simp only [if_neg hrefresh]
      have h := hrest (touchBanks config ch cmd) rfl
      refine ⟨funext fun b => (h b).1, fun b => (h b).2.1, fun b => (h b).2.2, ?_, rfl, ?_⟩
      · rw [if_neg hrefresh]
        rfl
      · rw [if_neg hactivate]
        rfl

end Issued

end NewPims.NewtonSim

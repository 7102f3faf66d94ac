import NewPims.NewtonSim.Ready

/-! What `GetReadyCommand` gives for the commands that the controller of a memory with two row
buffers asks for: a command that the banks can take, and whose time has come. -/
namespace NewPims.NewtonSim

open Transition

variable {config : DramConfig} {ch : ChannelState} {src cmd : TypedCommand} {b : BankId} {clk : ℕ}

section Channel

/-- A command that is asked for, of a bank or rank that there is. -/
structure Wanted (config : DramConfig) (cmd : TypedCommand) : Prop where
  asked : Asked cmd
  bank : cmd.cmdType = .READ ∨ cmd.cmdType = .WRITE ∨ cmd.cmdType = .GWRITE →
    cmd.addr.bankId.InRange config
  rank : cmd.cmdType = .REFRESH → cmd.addr.rank.toNat < config.ranks

/-- A command that can be issued. -/
structure Fit (config : DramConfig) (ch : ChannelState) (clk : ℕ) (cmd : TypedCommand) : Prop where
  admits : ∀ b ∈ cmd.checked config, (ch.bankStates b).view.Admits cmd
  timing : ∀ b ∈ cmd.checked config, (ch.bankStates b).cmdTiming cmd.cmdType ≤ clk
  inRange : ∀ b ∈ cmd.checked config, b.InRange config
  window : cmd.cmdType = .ACTIVATE → ch.activationWindowOk config cmd.addr.rank clk = true

/-- What becomes of a command that is asked for. -/
structure Leads (config : DramConfig) (ch : ChannelState) (clk : ℕ) (src cmd : TypedCommand) :
    Prop where
  fit : Fit config ch clk cmd
  needed : cmd.cmdType ∈ needs src.cmdType
  hexAddr : cmd.hexAddr = src.hexAddr
  addr : cmd.cmdType = src.cmdType → cmd.addr = src.addr
  access : src.cmdType = .READ ∨ src.cmdType = .WRITE ∨ src.cmdType = .GWRITE → cmd.addr = src.addr
  row : cmd.cmdType = .G_ACT ∨ cmd.cmdType = .ACTIVATE → cmd.addr.row = src.addr.row
  rank : src.cmdType ≠ .P_HEADER → src.cmdType ≠ .COMPS_READRES → cmd.addr.rank = src.addr.rank
  header : cmd.cmdType = .P_HEADER → ∀ b, b.InRange config → (ch.bankStates b).view.Admits cmd
  closes : cmd.cmdType = .PIM_PRECHARGE → (ch.bankStates cmd.addr.bankId).view.Closes src

theorem checked_single (h : cmd.cmdType ≠ .P_HEADER ∧ cmd.cmdType ≠ .REFRESH ∧
    cmd.cmdType ≠ .COMPS_READRES) : cmd.checked config = [cmd.addr.bankId] := by
  unfold TypedCommand.checked
  split
  · exact absurd ‹_› h.1
  · exact absurd ‹_› h.2.1
  · exact absurd ‹_› h.2.2
  · rfl

theorem length_ofBankgroup (rank bankgroup : ℕ) :
    (BankId.ofBankgroup config rank bankgroup).length = config.banksPerGroup := by
  rw [BankId.ofBankgroup, List.length_map, List.length_range]

theorem length_flatMap_range {α : Type*} {f : ℕ → List α} {n k : ℕ} (h : ∀ i, (f i).length = k) :
    ((List.range n).flatMap f).length = n * k := by
  induction n with
  | zero => rw [List.range_zero, List.flatMap_nil, List.length_nil, Nat.zero_mul]
  | succ n ih =>
    rw [List.range_succ, List.flatMap_append, List.length_append, ih, List.flatMap_singleton, h,
      Nat.succ_mul]

theorem length_ofRank (rank : ℕ) : (BankId.ofRank config rank).length = config.banks :=
  length_flatMap_range (length_ofBankgroup rank)

theorem length_all : (BankId.all config).length =
    config.ranks * config.bankgroups * config.banksPerGroup := by
  rw [BankId.all, length_flatMap_range length_ofRank, DramConfig.banks, Nat.mul_assoc]

/-- A bank's answer of another type than that asked for, addressed to that bank. -/
theorem fit_aimed {r : TypedCommand} (hanswers : Answers (ch.bankStates b) src clk r)
    (hin : b.InRange config) (hbank : cmd.addr.bankId = b) (hrow : cmd.addr.row = r.addr.row)
    (htype : cmd.cmdType = r.cmdType) (hactivate : r.cmdType ≠ .ACTIVATE)
    (hsingle : r.cmdType ≠ .P_HEADER ∧ r.cmdType ≠ .REFRESH ∧ r.cmdType ≠ .COMPS_READRES) :
    Fit config ch clk cmd := by
  have hchecked : cmd.checked config = [b] := by
    rw [checked_single (by rwa [htype]), hbank]
  refine ⟨?_, ?_, ?_, fun h => absurd (htype.symm.trans h) hactivate⟩
  · intro b' hb'
    rw [hchecked, List.mem_singleton] at hb'
    subst hb'
    have hadmits := hanswers.admits
    simp only [Buffers.Admits, htype, hrow] at hadmits ⊢
    exact hadmits
  · intro b' hb'
    rw [hchecked, List.mem_singleton] at hb'
    subst hb'
    rw [htype]
    exact hanswers.timing hsingle.1
  · intro b' hb'
    rw [hchecked, List.mem_singleton] at hb'
    subst hb'
    exact hin

theorem admits_congr {x : Buffers} {r : TypedCommand} (htype : cmd.cmdType = r.cmdType)
    (hrow : cmd.addr.row = r.addr.row) : x.Admits cmd ↔ x.Admits r := by
  simp only [Buffers.Admits, htype, hrow]

theorem readyBank_leads (hdual : config.enableDualBuffer = true) (hawake : AllAwake ch)
    (hwanted : Wanted config src)
    (htype : src.cmdType = .READ ∨ src.cmdType = .WRITE ∨ src.cmdType = .GWRITE) :
    ∃ o, ch.readyBank config src clk = .ok o ∧ ∀ cmd, o = some cmd → Leads config ch clk src cmd := by
  obtain ⟨o, ho, hanswers⟩ :=
    @getReadyCommand_bank _ _ clk (hawake src.addr.bankId) hwanted.asked
  rw [ChannelState.readyBank, hdual, ho]
  cases o with
  | none =>
    refine ⟨none, rfl, ?_⟩
    intro cmd h
    cases h
  | some r =>
    have hr := hanswers r rfl
    have hneeded := hr.needed
    have hsingle : r.cmdType ≠ .P_HEADER ∧ r.cmdType ≠ .REFRESH ∧ r.cmdType ≠ .COMPS_READRES := by
      rcases htype with h | h | h <;> rw [h] at hneeded <;> simp [needs] at hneeded <;>
        rcases hneeded with h | h | h | h <;> simp [h]
    have hchecked : r.checked config = [src.addr.bankId] := by rw [checked_single hsingle, hr.addr]
    by_cases hwindow : r.cmdType = .ACTIVATE ∧ (!ch.activationWindowOk config r.addr.rank clk) = true
    · refine ⟨none, if_pos hwindow, ?_⟩
      intro cmd h
      cases h
    · refine ⟨some r, if_neg hwindow, ?_⟩
      rintro cmd ⟨rfl⟩
      refine ⟨⟨?_, ?_, ?_, ?_⟩, hneeded, hr.hexAddr, fun _ => hr.addr, fun _ => hr.addr,
        fun _ => by rw [hr.addr], fun _ _ => by rw [hr.addr], fun h => absurd h hsingle.1, ?_⟩
      · intro b hb
        rw [hchecked, List.mem_singleton] at hb
        subst hb
        exact hr.admits
      · intro b hb
        rw [hchecked, List.mem_singleton] at hb
        subst hb
        exact hr.timing hsingle.1
      · intro b hb
        rw [hchecked, List.mem_singleton] at hb
        subst hb
        exact hwanted.bank htype
      · intro hactivate
        simpa [hactivate] using hwindow
      · intro hclose
        rw [hr.addr]
        exact hr.closes hclose

theorem readyRank_leads (hcount : Countable config) (hdual : config.enableDualBuffer = true)
    (hawake : AllAwake ch) (hwanted : Wanted config src) (htype : src.cmdType = .REFRESH) :
    ∃ o, ch.readyRank config src clk = .ok o ∧ ∀ cmd, o = some cmd → Leads config ch clk src cmd := by
  obtain ⟨o, ho⟩ := @exists_scan config ch src clk
    (fun b r => .ok { r with addr := ⟨-1, b.rank, b.bankgroup, b.bank, -1, -1⟩ })
    config.banks 0 (BankId.ofRank config src.addr.rank.toNat) none hdual hawake hwanted.asked
    fun b r _ _ => ⟨_, rfl⟩
  refine ⟨o, ho, ?_⟩
  rintro cmd rfl
  have hin : ∀ b ∈ BankId.ofRank config src.addr.rank.toNat, b.InRange config := by
    intro b hb
    obtain ⟨hrank, hgroup, hbank⟩ := (mem_ofRank hcount).mp hb
    rw [BitVec.ofNat_toNat, BitVec.setWidth_eq] at hrank
    exact ⟨by rw [hrank]; exact hwanted.rank htype, hgroup, hbank⟩
  rcases scan_cases hdual hawake hwanted.asked (by rw [length_ofRank]; omega) ho with
    ⟨b, hb, r, hr, hne, haim⟩ | ⟨-, hall, hlast | ⟨b, hb, hr, hcmd⟩⟩
  · cases haim
    have hneeded := hr.needed
    rw [htype] at hneeded hne
    have hcases : r.cmdType = .PRECHARGE ∨ r.cmdType = .PIM_PRECHARGE := by
      simpa [needs, hne] using hneeded
    -- the row plays no part in closing a buffer
    have hfit :
        Fit config ch clk { r with addr := ⟨-1, b.rank, b.bankgroup, b.bank, r.addr.row, -1⟩ } :=
      fit_aimed hr (hin b hb) rfl rfl rfl (by rcases hcases with h | h <;> simp [h])
        (by rcases hcases with h | h <;> simp [h])
    refine ⟨⟨?_, ?_, ?_, ?_⟩, ?_, hr.hexAddr, ?_, ?_, ?_, ?_, ?_, hr.closes⟩
    · intro b' hb'
      have hadmits := hfit.admits b' (by simpa [TypedCommand.checked, Address.bankId] using hb')
      rcases hcases with h | h <;> simpa [Buffers.Admits, h] using hadmits
    · exact fun b' hb' =>
        hfit.timing b' (by simpa [TypedCommand.checked, Address.bankId] using hb')
    · exact fun b' hb' =>
        hfit.inRange b' (by simpa [TypedCommand.checked, Address.bankId] using hb')
    · intro h
      rcases hcases with h' | h' <;> simp [h'] at h
    · rw [htype]
      exact hneeded
    · intro h
      exact absurd (h.trans htype) hne
    · intro h
      simp [htype] at h
    · intro h
      rcases hcases with h' | h' <;> simp [h'] at h
    · intro _ _
      have hrank := ((mem_ofRank hcount).mp hb).1
      rwa [BitVec.ofNat_toNat, BitVec.setWidth_eq] at hrank
    · intro h
      rcases hcases with h' | h' <;> simp [h'] at h
  · cases hlast
  · have hchecked : cmd.checked config = BankId.ofRank config src.addr.rank.toNat := by
      rw [TypedCommand.checked, hcmd, htype, hr.addr]
    refine ⟨⟨?_, ?_, ?_, ?_⟩, hr.needed, hr.hexAddr, fun _ => hr.addr, fun _ => hr.addr,
      fun _ => by rw [hr.addr], fun _ _ => by rw [hr.addr], fun h => ?_, fun h => ?_⟩
    · intro b' hb'
      rw [hchecked] at hb'
      obtain ⟨r', hr', hr'type⟩ := hall b' hb'
      refine (admits_congr (hcmd.trans hr'type.symm) ?_).mpr hr'.admits
      rw [hr.addr, hr'.addr]
    · intro b' hb'
      rw [hchecked] at hb'
      obtain ⟨r', hr', hr'type⟩ := hall b' hb'
      rw [hcmd, ← hr'type]
      exact hr'.timing (by rw [hr'type, htype]; simp)
    · exact fun b' hb' => hin b' (by rwa [hchecked] at hb')
    · intro h
      rw [hcmd, htype] at h
      cases h
    · rw [hcmd, htype] at h
      cases h
    · rw [hcmd, htype] at h
      cases h

theorem readyChannel_leads (hcount : Countable config) (hdual : config.enableDualBuffer = true)
    (hawake : AllAwake ch) (hwanted : Wanted config src)
    (htype : src.cmdType = .P_HEADER ∨ src.cmdType = .COMPS_READRES) :
    ∃ o, ch.readyChannel config src clk = .ok o ∧
      ∀ cmd, o = some cmd → Leads config ch clk src cmd := by
  have hchannel : ∀ r : TypedCommand, r.cmdType ∈ needs src.cmdType → r.cmdType ≠ src.cmdType →
      ¬ (src.cmdType.isChannelCMD ∧ r.cmdType ≠ .G_ACT) := by
    intro r hneeded hne
    rcases htype with h | h <;> rw [h] at hneeded hne ⊢ <;> simp [needs, hne] at hneeded <;>
      simp [CommandType.isChannelCMD, hneeded]
  obtain ⟨o, ho⟩ := @exists_scan config ch src clk
    (fun b r =>
      if src.cmdType.isChannelCMD ∧ r.cmdType ≠ .G_ACT then .error .abruptExit
      else .ok { r with addr := ⟨-1, b.rank, b.bankgroup, b.bank, r.addr.row, -1⟩ })
    (config.ranks * config.bankgroups * config.banksPerGroup) 0 (BankId.all config) none hdual
    hawake hwanted.asked
    fun b r hr hne => ⟨_, if_neg (hchannel r hr.needed hne)⟩
  refine ⟨o, ho, ?_⟩
  rintro cmd rfl
  rcases scan_cases hdual hawake hwanted.asked (by rw [length_all]; omega) ho with
    ⟨b, hb, r, hr, hne, haim⟩ | ⟨-, hall, hlast | ⟨b, hb, hr, hcmd⟩⟩
  · rw [if_neg (hchannel r hr.needed hne)] at haim
    cases haim
    have hneeded := hr.needed
    have hcases : r.cmdType = .PRECHARGE ∨ r.cmdType = .PIM_PRECHARGE ∨ r.cmdType = .G_ACT := by
      rcases htype with h | h <;> rw [h] at hneeded hne <;> simp [needs, hne] at hneeded
      · rcases hneeded with h | h <;> simp [h]
      · simp [hneeded]
    refine ⟨?_, hneeded, hr.hexAddr, fun h => absurd h hne, ?_, fun _ => by rw [← hr.addr], ?_, ?_,
      hr.closes⟩
    rotate_left
    · intro h
      rcases htype with h' | h' <;> simp [h'] at h
    · intro h1 h2
      rcases htype with h | h
      · exact absurd h h1
      · exact absurd h h2
    · intro h
      rcases hcases with h' | h' | h' <;> simp [h'] at h
    refine fit_aimed hr ((mem_all hcount).mp hb) rfl rfl rfl ?_ ?_
    · rcases hcases with h | h | h <;> simp [h]
    · rcases hcases with h | h | h <;> simp [h]
  · cases hlast
  · refine ⟨⟨?_, ?_, ?_, ?_⟩, hr.needed, hr.hexAddr, fun _ => hr.addr, fun _ => hr.addr,
      fun _ => by rw [hr.addr], fun _ _ => by rw [hr.addr], fun _ => ?_, fun h => ?_⟩
    · intro b' hb'
      rcases htype with h | h
      · simp [TypedCommand.checked, hcmd, h] at hb'
      · simp only [TypedCommand.checked, hcmd, h] at hb'
        obtain ⟨r', hr', hr'type⟩ := hall b' hb'
        refine (admits_congr (hcmd.trans hr'type.symm) ?_).mpr hr'.admits
        rw [hr.addr, hr'.addr]
    · intro b' hb'
      rcases htype with h | h
      · simp [TypedCommand.checked, hcmd, h] at hb'
      · simp only [TypedCommand.checked, hcmd, h] at hb'
        obtain ⟨r', hr', hr'type⟩ := hall b' hb'
        rw [hcmd, ← hr'type]
        exact hr'.timing (by rw [hr'type, h]; simp)
    · intro b' hb'
      rcases htype with h | h
      · simp [TypedCommand.checked, hcmd, h] at hb'
      · simp only [TypedCommand.checked, hcmd, h] at hb'
        exact (mem_all hcount).mp hb'
    · intro h
      rw [hcmd] at h
      rcases htype with h' | h' <;> rw [h'] at h <;> cases h
    · intro b' hb'
      obtain ⟨r', hr', hr'type⟩ := hall b' ((mem_all hcount).mpr hb')
      refine (admits_congr (hcmd.trans hr'type.symm) ?_).mpr hr'.admits
      rw [hr.addr, hr'.addr]
    · rw [hcmd] at h
      rcases htype with h' | h' <;> rw [h'] at h <;> cases h

/-- What is asked for is answered, and an answer can be issued. -/
theorem getReadyCommand_leads (hcount : Countable config) (hdual : config.enableDualBuffer = true)
    (hawake : AllAwake ch) (hwanted : Wanted config src) :
    ∃ o, ch.getReadyCommand config src clk = .ok o ∧
      ∀ cmd, o = some cmd → Leads config ch clk src cmd := by
  have haccess : src.cmdType = .READ ∨ src.cmdType = .WRITE ∨ src.cmdType = .GWRITE →
      ch.getReadyCommand config src clk = ch.readyBank config src clk := by
    rintro (h | h | h) <;>
      simp [ChannelState.getReadyCommand, CommandType.isChannelCMD, CommandType.isRankCMD, h]
  rcases hwanted.asked with h | h | h | h | h | h
  · rw [haccess (.inl h)]
    exact readyBank_leads hdual hawake hwanted (.inl h)
  · rw [haccess (.inr (.inl h))]
    exact readyBank_leads hdual hawake hwanted (.inr (.inl h))
  · rw [haccess (.inr (.inr h))]
    exact readyBank_leads hdual hawake hwanted (.inr (.inr h))
  · rw [ChannelState.getReadyCommand, if_neg (by simp [h]),
      if_neg (by simp [h, CommandType.isChannelCMD]),
      if_pos (by simp [h, CommandType.isRankCMD])]
    exact readyRank_leads hcount hdual hawake hwanted h
  · rw [ChannelState.getReadyCommand, if_neg (by simp [h]), if_pos (.inr h.1)]
    exact readyChannel_leads hcount hdual hawake hwanted (.inl h.1)
  · rw [ChannelState.getReadyCommand, if_neg (by simp [h]),
      if_pos (.inl (by simp [h, CommandType.isChannelCMD]))]
    exact readyChannel_leads hcount hdual hawake hwanted (.inr h)

/-- The other buffer is closed for a read or a write only where it holds the same row. -/
theorem pimRow_of_leads (htype : src.cmdType.isReadWrite = true) (hasked : Asked src)
    (h : Leads config ch clk src cmd) (hcmd : cmd.cmdType = .PIM_PRECHARGE) :
    (ch.bankStates src.addr.bankId).view.pimRow = some src.addr.row := by
  have hsrc : src.cmdType = .READ ∨ src.cmdType = .WRITE := by
    rcases hasked with h | h | h | h | h | h
    · exact .inl h
    · exact .inr h
    all_goals simp [h, CommandType.isReadWrite, CommandType.isRead, CommandType.isWrite] at htype
  have hcloses := h.closes hcmd
  rw [h.access (hsrc.imp_right .inl)] at hcloses
  rcases hsrc with hs | hs <;> simpa only [Buffers.Closes, hs] using hcloses

end Channel

end NewPims.NewtonSim

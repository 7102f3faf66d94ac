import NewPims.NewtonSim.Steps

/-! A refresh closes the buffers of its rank one after the other, and is ready itself as soon as all
of them are closed and the delays are over. -/
namespace NewPims.NewtonSim

open Transition

variable {config : DramConfig} {ch ch' : ChannelState} {cmd ref : TypedCommand} {b : BankId}
  {clk : ℕ} {t : CommandType} {d : ℤ}

/-- The commands of a refresh. -/
def Closing (t : CommandType) : Prop := t = .PRECHARGE ∨ t = .PIM_PRECHARGE ∨ t = .REFRESH

section Delays

/-- The delays that the commands of a refresh put on each other. -/
def closeDelays (config : DramConfig) : List ℤ :=
  [config.prechargeToActivate, config.prechargeToPrecharge]

/-- The delays of the commands of a refresh. -/
def refreshDelays (config : DramConfig) : List ℤ :=
  closeDelays config ++ [config.readToPrecharge, config.writeToPrecharge,
    config.activateToPrecharge, config.gwriteDelay, config.pimToPrecharge, config.refreshToActivate]

/-- `wait` bounds all delays of the commands of a refresh, and `close` those that they put on each
other. -/
structure RefreshDelays (config : DramConfig) (wait close : ℕ) : Prop where
  nonneg : ∀ d ∈ refreshDelays config, 0 ≤ d
  wait : ∀ d ∈ refreshDelays config, d ≤ wait
  close : ∀ d ∈ closeDelays config, d ≤ close

theorem delaysAt_closing (hissue : Issuable cmd.cmdType) (ht : Closing t)
    (h : (t, d) ∈ delaysAt config cmd b) : d ∈ refreshDelays config := by
  rcases hissue with hc | hc | hc | hc | hc | hc | hc | hc | hc <;>
    simp only [delaysAt, hc] at h <;> (repeat' split at h) <;>
    rcases ht with rfl | rfl | rfl <;>
    simp [Timing.sameBank, Timing.otherBanksSameBankgroup, Timing.otherBankgroupsSameRank,
      Timing.otherRanks, Timing.sameRank] at h <;>
    simp [refreshDelays, closeDelays, h]

theorem delaysAt_close (hcmd : cmd.cmdType = .PRECHARGE ∨ cmd.cmdType = .PIM_PRECHARGE)
    (ht : Closing t) (h : (t, d) ∈ delaysAt config cmd b) : d ∈ closeDelays config := by
  rcases hcmd with hc | hc <;>
    simp only [delaysAt, hc] at h <;> (repeat' split at h) <;>
    rcases ht with rfl | rfl | rfl <;>
    simp [Timing.sameBank, Timing.otherBanksSameBankgroup, Timing.otherBankgroupsSameRank,
      Timing.otherRanks] at h <;>
    simp [closeDelays, h]

/-- Accesses to a rank do not delay the refresh of another one. -/
theorem delaysAt_elsewhere (hcmd : cmd.cmdType = .READ ∨ cmd.cmdType = .WRITE ∨
      cmd.cmdType = .ACTIVATE ∨ cmd.cmdType = .PRECHARGE ∨ cmd.cmdType = .PIM_PRECHARGE)
    (ht : Closing t) (hrank : b.rank ≠ cmd.addr.rank) : (t, d) ∉ delaysAt config cmd b := by
  have hbank : b ≠ cmd.addr.bankId := by
    rintro rfl
    exact hrank rfl
  intro h
  rcases hcmd with hc | hc | hc | hc | hc <;>
    simp only [delaysAt, hc, if_neg hbank, if_neg hrank] at h <;>
    rcases ht with rfl | rfl | rfl <;> simp [Timing.otherRanks] at h

theorem stamp_le {n : ℕ} (h : 0 ≤ d) (hle : d ≤ n) : stamp clk d ≤ clk + n := by
  rw [stamp]
  omega

theorem cmdTiming_issued (h : Issued config ch clk cmd ch') (b : BankId) (t : CommandType) :
    (ch'.bankStates b).cmdTiming t = (ch.bankStates b).cmdTiming t ∨
      ∃ d, (t, d) ∈ delaysAt config cmd b ∧ (ch'.bankStates b).cmdTiming t = stamp clk d := by
  rw [h.cmdTiming]
  split
  · exact updateTimings_cases _ _
  · exact .inl rfl

end Delays

section Buffers

/-- How many row buffers of a rank are open. -/
def openBuffers (config : DramConfig) (device : Device) (rank : BitVec 32) : ℕ :=
  ((BankId.ofRank config rank.toNat).countP fun b => (device b).row.isSome) +
    (BankId.ofRank config rank.toNat).countP fun b => (device b).pimRow.isSome

variable {device : Device} {rank : BitVec 32}

theorem openBuffers_le : openBuffers config device rank ≤ 2 * config.banks := by
  have h (p : BankId → Bool) : (BankId.ofRank config rank.toNat).countP p ≤ config.banks := by
    rw [← length_ofRank rank.toNat]
    exact List.countP_le_length
  unfold openBuffers
  have h1 := h fun b => (device b).row.isSome
  have h2 := h fun b => (device b).pimRow.isSome
  omega

theorem countP_unset {α : Type*} {p q : α → Bool} {l : List α} {x : α} (hnodup : l.Nodup)
    (hx : x ∈ l) (hp : p x = true) (hq : q x = false) (hsame : ∀ y, y ≠ x → q y = p y) :
    l.countP p = l.countP q + 1 := by
  induction l with
  | nil => exact absurd hx List.not_mem_nil
  | cons y l ih =>
    rw [List.nodup_cons] at hnodup
    rw [List.countP_cons, List.countP_cons]
    rcases List.mem_cons.mp hx with rfl | hx
    · have hrest : l.countP p = l.countP q := by
        refine List.countP_congr fun z hz => ?_
        rw [hsame z (by rintro rfl; exact hnodup.1 hz)]
      rw [hp, hq, hrest]
      simp
    · have hne : y ≠ x := by
        rintro rfl
        exact hnodup.1 hx
      rw [ih hnodup.2 hx, hsame y hne]
      omega

/-- A bank that is told to close one of its buffers has one less that is open. -/
theorem openBuffers_close (hcount : Countable config)
    (hcmd : cmd.cmdType = .PRECHARGE ∨ cmd.cmdType = .PIM_PRECHARGE)
    (hmem : cmd.addr.bankId ∈ BankId.ofRank config rank.toNat)
    (hadmits : (device cmd.addr.bankId).Admits cmd) :
    openBuffers config device rank = openBuffers config (device.after config cmd) rank + 1 := by
  have hnodup := @nodup_ofRank config rank.toNat hcount
  have htouched : cmd.touched config = [cmd.addr.bankId] := by
    rcases hcmd with h | h <;> simp [TypedCommand.touched, TypedCommand.checked, h]
  have hself : device.after config cmd cmd.addr.bankId = (device cmd.addr.bankId).after cmd := by
    simp [Device.after, htouched]
  have hother : ∀ b, b ≠ cmd.addr.bankId → device.after config cmd b = device b := by
    intro b hb
    simp [Device.after, htouched, hb]
  unfold openBuffers
  rcases hcmd with h | h
  · have hopen : (device cmd.addr.bankId).row.isSome = true := by
      simp only [Buffers.Admits, h] at hadmits
      exact Option.isSome_iff_ne_none.mpr hadmits
    have hrow := countP_unset (p := fun b => (device b).row.isSome)
      (q := fun b => (device.after config cmd b).row.isSome) hnodup hmem hopen
      (by simp [hself, Buffers.after, h]) (fun b hb => by rw [hother b hb])
    have hpim : ((BankId.ofRank config rank.toNat).countP fun b => (device b).pimRow.isSome) =
        (BankId.ofRank config rank.toNat).countP fun b =>
          (device.after config cmd b).pimRow.isSome := by
      refine List.countP_congr fun b _ => ?_
      by_cases hb : b = cmd.addr.bankId
      · rw [hb, hself]
        simp [Buffers.after, h]
      · rw [hother b hb]
    omega
  · have hopen : (device cmd.addr.bankId).pimRow.isSome = true := by
      simp only [Buffers.Admits, h] at hadmits
      exact Option.isSome_iff_ne_none.mpr hadmits
    have hpim := countP_unset (p := fun b => (device b).pimRow.isSome)
      (q := fun b => (device.after config cmd b).pimRow.isSome) hnodup hmem hopen
      (by simp [hself, Buffers.after, h]) (fun b hb => by rw [hother b hb])
    have hrow : ((BankId.ofRank config rank.toNat).countP fun b => (device b).row.isSome) =
        (BankId.ofRank config rank.toNat).countP fun b =>
          (device.after config cmd b).row.isSome := by
      refine List.countP_congr fun b _ => ?_
      by_cases hb : b = cmd.addr.bankId
      · rw [hb, hself]
        simp [Buffers.after, h]
      · rw [hother b hb]
    omega

/-- What happens at the banks of one rank leaves the buffers of another one alone. -/
theorem openBuffers_elsewhere (hcount : Countable config)
    (h : ∀ b ∈ cmd.touched config, b.rank ≠ rank) :
    openBuffers config (device.after config cmd) rank = openBuffers config device rank := by
  have hsame : ∀ b ∈ BankId.ofRank config rank.toNat, device.after config cmd b = device b := by
    intro b hb
    have hrank := ((mem_ofRank hcount).mp hb).1
    rw [BitVec.ofNat_toNat, BitVec.setWidth_eq] at hrank
    exact if_neg fun hmem => h b hmem hrank
  unfold openBuffers
  congr 1 <;>
  · refine List.countP_congr fun b hb => ?_
    rw [hsame b hb]

end Buffers

section Progress

/-- The loop finds a command, where every bank has an answer. -/
theorem scan_ne_none {aim : BankId → TypedCommand → Except MemoryFault TypedCommand}
    {total n : ℕ} {l : List BankId} {last : Option TypedCommand}
    (hall : ∀ b ∈ l, ∃ r, (ch.bankStates b).getReadyCommand ref config.enableDualBuffer clk =
      .ok (some r)) (htotal : n + l.length = total) (hlast : l = [] → last ≠ none) :
    ch.scan config ref clk aim total l n last ≠ .ok none := by
  induction l generalizing n last with
  | nil =>
    rw [ChannelState.scan, if_pos (by simpa using htotal)]
    intro h
    exact hlast rfl (Except.ok.inj h)
  | cons b rest ih =>
    obtain ⟨r, hr⟩ := hall b List.mem_cons_self
    intro h
    rw [ChannelState.scan, hr] at h
    obtain ⟨o, ho, h⟩ := bind_ok.mp h
    cases ho
    simp only at h
    split at h
    · refine ih (fun b' hb' => hall b' (List.mem_cons_of_mem _ hb')) ?_ (fun _ => by simp) h
      rw [List.length_cons] at htotal
      omega
    · obtain ⟨aimed, -, h⟩ := bind_ok.mp h
      cases h

/-- A refresh has a command that is ready, where all its delays are over. -/
theorem getReadyCommand_refresh (hdual : config.enableDualBuffer = true) (hawake : AllAwake ch)
    (hbanks : 0 < config.banks) (htype : ref.cmdType = .REFRESH)
    (htime : ∀ b ∈ BankId.ofRank config ref.addr.rank.toNat, ∀ t, Closing t →
      (ch.bankStates b).cmdTiming t ≤ clk) : ch.getReadyCommand config ref clk ≠ .ok none := by
  rw [ChannelState.getReadyCommand, if_neg (by simp [htype]),
    if_neg (by simp [htype, CommandType.isChannelCMD]),
    if_pos (by simp [htype, CommandType.isRankCMD]), ChannelState.readyRank]
  refine scan_ne_none ?_ (by rw [length_ofRank, Nat.zero_add]) ?_
  · intro b hb
    obtain ⟨t, hneed, hneeded, -⟩ := requiredNormal_refresh (hawake b) htype
    have hclosing : Closing t := by
      rw [htype] at hneeded
      simp only [needs, List.mem_cons, List.not_mem_nil, or_false] at hneeded
      unfold Closing
      rcases hneeded with h | h | h <;> simp [h]
    refine ⟨.plain t ref.addr ref.hexAddr, ?_⟩
    have hnormal : (ch.bankStates b).getReadyCommand ref true clk =
        (ch.bankStates b).getReadyNormalCommand ref clk := by
      simp [BankState.getReadyCommand, TypedCommand.isPIMBufferCommand,
        TypedCommand.isNormalBufferCommand, htype]
    rw [hdual, hnormal, BankState.getReadyNormalCommand, hneed]
    simp only [Except.map, BankState.ready, if_pos (htime b hb t hclosing)]
  · intro hnil
    have hlength := @length_ofRank config ref.addr.rank.toNat
    rw [hnil, List.length_nil] at hlength
    omega

end Progress

end NewPims.NewtonSim

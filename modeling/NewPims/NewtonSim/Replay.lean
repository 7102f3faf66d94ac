import NewPims.NewtonSim.KernelRows

/-! A memory takes all the commands that a controller issues, each at every bank that it uses. -/
namespace NewPims.NewtonSim.Controller

open Transition CommandQueue

variable {config : DramConfig} {P : BitVec 32 → Prop} {c m s t : Controller}
  {o : Option TypedCommand} {q : CommandQueue} {cmd : TypedCommand} {calls : List Call}

/-- The memory has taken everything that was issued, and its rows are those of the banks. -/
def Replayed (config : DramConfig) (c : Controller) : Prop :=
  Device.Replays config (fun _ => {}) (c.log.map Prod.snd) c.device

theorem headed_logged (log : List (ℕ × TypedCommand)) (clk : ℕ) :
    headed config (issuedPIM (log ++ [(clk, cmd)])) =
      if cmd.cmdType = .P_HEADER then some (config.addressOf cmd.hexAddr).row
      else headed config (issuedPIM log) := by
  rw [issuedPIM_append]
  by_cases hpim : cmd.cmdType.pimQCommand = true
  · rw [if_pos hpim, headed_append]
    rfl
  · rw [if_neg hpim, List.append_nil, if_neg]
    intro htype
    rw [htype] at hpim
    exact hpim rfl

theorem row_transToCommand {u : Transaction} (h : transToCommand config u = .ok cmd) :
    cmd.addr.row = (config.addressOf u.addr).row := by
  unfold transToCommand at h
  split at h
  · cases ht : u.reqType <;> simp only [ht] at h
    case P_HEADER =>
      obtain ⟨header, hheader, heq⟩ := bind_ok.mp h
      cases heq
      simp only [decodePIMHeader] at hheader
      split at hheader
      · cases hheader
      · cases hheader
        rfl
    all_goals
      cases h
      try rfl
  · cases h

theorem prepared_effect (hcount : Countable config) (hsound : Sound config c)
    (h : Prepared config P c) (hchosen : Chosen config c.channelState c.cmdQueue o q)
    (heffect : Effect config { c with cmdQueue := q } o m) : Prepared config P m := by
  have hseparated := separated_effect hsound h.separated hchosen heffect
  have hannounced : Announced config P (pimLine m) := by
    rw [pimLine_effect hsound hchosen heffect]
    exact h.announced
  cases heffect with
  | nothing =>
    obtain ⟨-, hpim, -⟩ := chosen_none hchosen
    refine ⟨hseparated, ?_, hannounced, ?_⟩ <;> dsimp only <;> rw [hpim]
    · exact h.decoded
    · exact h.opened
  | header cmd htype =>
    obtain ⟨-, -, hdrawn⟩ := chosen_some hsound.filled hsound.refreshes hchosen
    obtain ⟨src, hleads, hsource⟩ := chosen_source hsound hchosen
    refine ⟨hseparated, fun u hu => h.decoded u (mem_pimQueue_drawn hdrawn hu), hannounced, ?_⟩
    have hheader : src.cmdType = .P_HEADER :=
      (type_of_needs hleads.needed (by rw [htype]; rfl)).symm.trans htype
    change Opened config P c.device c.channelState.refreshQ q.pimQueue
      (headed config (issuedPIM (c.log ++ [(c.clk, cmd)])))
    cases hsource with
    | refresh ref rest hqueue ht => cases hheader.symm.trans ht
    | queue i src hmem ht =>
      rcases ht with ht | ht
      · cases hheader.symm.trans ht
      · cases hheader.symm.trans ht
    | pim front rest hnone hqueue ht =>
      have hopened := h.opened
      rw [hqueue] at hopened
      have hq : q.pimQueue = rest := by
        rw [hdrawn.pimQueue, pimQueue_taken, if_pos (by rw [htype]; rfl), hqueue,
          List.eraseP_cons_of_pos]
        exact alike_iff.mpr ⟨hleads.hexAddr.symm, hheader.trans htype.symm⟩
      have hrow : (config.addressOf cmd.hexAddr).row = src.addr.row := by
        rw [hleads.hexAddr]
        exact (h.decoded src (by rw [hqueue]; exact List.mem_cons_self)).symm
      rw [headed_logged, if_pos htype, hrow, hq]
      refine opened_header hopened ?_
      intro b hb
      have hready := hleads.header htype b hb
      simp only [Buffers.Admits, htype] at hready
      rw [hleads.addr (htype.trans hheader.symm)] at hready
      exact hready
  | command cmd m ch hissue hfit hcompleted hissued =>
    obtain ⟨-, -, hdrawn⟩ := chosen_some hsound.filled hsound.refreshes hchosen
    obtain ⟨src, hleads, hsource⟩ := chosen_source hsound hchosen
    obtain ⟨returns, rd, wr, pim, rfl⟩ := completed_same hcompleted
    have hheader : cmd.cmdType ≠ .P_HEADER := by
      rcases hissue with h | h | h | h | h | h | h | h | h <;> simp [h]
    refine ⟨hseparated, fun u hu => h.decoded u (mem_pimQueue_drawn hdrawn hu), hannounced, ?_⟩
    have hopened := opened_command hcount h hleads hsource hheader
    rw [← @pimQueue_taken config c.cmdQueue cmd, ← hdrawn.pimQueue] at hopened
    change Opened config P (fun b => (ch.bankStates b).view) ch.refreshQ q.pimQueue
      (headed config (issuedPIM (c.log ++ [(c.clk, cmd)])))
    rw [headed_logged, if_neg hheader, hissued.view, hissued.refreshQ]
    exact hopened

theorem replayed_effect (hcount : Countable config) (hsound : Sound config c)
    (h : Prepared config P c) (hreplayed : Replayed config c)
    (hchosen : Chosen config c.channelState c.cmdQueue o q)
    (heffect : Effect config { c with cmdQueue := q } o m) : Replayed config m := by
  cases heffect with
  | nothing => exact hreplayed
  | header cmd htype =>
    have happend := Device.replays_append hreplayed (takes_chosen hcount hsound h hchosen)
    have hsame : c.device.after config cmd = c.device := by
      funext b
      simp [Device.after, TypedCommand.touched, TypedCommand.checked, htype]
    rw [hsame] at happend
    change Device.Replays config (fun _ => {}) ((c.log ++ [(c.clk, cmd)]).map Prod.snd) c.device
    rw [List.map_append]
    exact happend
  | command cmd m ch hissue hfit hcompleted hissued =>
    have happend := Device.replays_append hreplayed (takes_chosen hcount hsound h hchosen)
    obtain ⟨returns, rd, wr, pim, rfl⟩ := completed_same hcompleted
    change Device.Replays config (fun _ => {}) ((c.log ++ [(c.clk, cmd)]).map Prod.snd)
      fun b => (ch.bankStates b).view
    rw [List.map_append, hissued.view]
    exact happend

theorem prepared_scheduled (hregular : Regular config)
    (hsize : pimCmdQueueSize ≤ config.cmdQueueSize) (hsound : Sound config c)
    (h : Prepared config P c) (hscheduled : Scheduled config c s) : Prepared config P s := by
  have hseparated := separated_scheduled hregular hsound h.separated hscheduled
  have hannounced : Announced config P (pimLine s) := by
    rw [(pimLine_scheduled hregular hsound hscheduled).2 hsize]
    exact h.announced
  cases hscheduled with
  | stay lock addr draining => exact ⟨hseparated, h.decoded, hannounced, h.opened⟩
  | move which before u after cmd lock addr draining hqueue hbefore hcmd hroom hwait =>
    have hmem : u ∈ c.queueOf which := by
      rw [hqueue]
      exact List.mem_append_right _ List.mem_cons_self
    obtain ⟨-, -, hhex, -⟩ :=
      transToCommand_spec hregular (supported_queueOf hsound hmem) hcmd
    have hdecoded : ∀ v ∈ (c.cmdQueue.addCommand config cmd).pimQueue,
        v.addr.row = (config.addressOf v.hexAddr).row := by
      intro v hv
      rcases mem_pimQueue_addCommand hv with hv | ⟨rfl, -⟩
      · exact h.decoded v hv
      · rw [row_transToCommand hcmd, hhex]
    have hgrown : c.cmdQueue.pimQueue <+: (c.cmdQueue.addCommand config cmd).pimQueue := by
      by_cases hpim : cmd.cmdType.pimQCommand = true
      · rcases @addCommand_pim config _ c.cmdQueue hpim with ⟨-, e, hadd⟩ | ⟨-, hadd⟩
        · rw [hadd]
          exact List.prefix_append _ _
        · exact ⟨[], by rw [hadd, List.append_nil]⟩
      · exact ⟨[], by rw [pimQueue_addCommand ((Bool.not_eq_true _).mp hpim), List.append_nil]⟩
    have hopened := opened_grown h.opened (List.prefix_refl _) hgrown
    cases which <;> exact ⟨hseparated, hdecoded, hannounced, hopened⟩

theorem prepared_refreshed (hregular : Regular config) (hsound : Sound config c)
    (h : Prepared config P c) : Prepared config P (refreshed config c) := by
  obtain ⟨refreshQ, r, heq, -, hqueue⟩ := refreshed_cases hregular hsound
  have hsep := h.separated
  rw [heq]
  refine ⟨⟨hsep.banks, hsep.queued, hsep.pimQueued, hsep.reads, hsep.writes, hsep.pims⟩, h.decoded,
    h.announced, opened_grown h.opened ?_ (List.prefix_refl _)⟩
  rcases hqueue with rfl | rfl
  · exact List.prefix_refl _
  · exact List.prefix_append _ _

theorem replayed_ticked (hregular : Regular config) (hsize : pimCmdQueueSize ≤ config.cmdQueueSize)
    (htidy : Tidy config c) (h : Prepared config P c) (hreplayed : Replayed config c)
    (htick : Ticked config c t) : Prepared config P t ∧ Replayed config t := by
  cases htick with
  | mk o q m s hchosen heffect hscheduled =>
    have hcount := hregular.toCountable
    have hsound := sound_refreshed hregular htidy.sound
    have hstart := prepared_refreshed hregular htidy.sound h
    have hreplayedStart : Replayed config (refreshed config c) := by
      obtain ⟨refreshQ, r, heq, -⟩ := refreshed_cases hregular htidy.sound
      rw [heq]
      exact hreplayed
    have hm := sound_effect hsound hchosen heffect
    have hprepared := prepared_effect hcount hsound hstart hchosen heffect
    have hreplayedMiddle := replayed_effect hcount hsound hstart hreplayedStart hchosen heffect
    have hsep := hprepared.separated
    have hs := prepared_scheduled (c := m.countIdle config) hregular hsize
      ⟨hm.clk, hm.awake, hm.refreshes, hm.sref, hm.nextRank, hm.filled, hm.reads, hm.writes, hm.pims⟩
      ⟨⟨hsep.banks, hsep.queued, hsep.pimQueued, hsep.reads, hsep.writes, hsep.pims⟩,
        hprepared.decoded, hprepared.announced, hprepared.opened⟩ hscheduled
    have hssep := hs.separated
    refine ⟨⟨⟨hssep.banks, hssep.queued, hssep.pimQueued, hssep.reads, hssep.writes, hssep.pims⟩,
      hs.decoded, hs.announced, hs.opened⟩, ?_⟩
    obtain ⟨-, -, -, -, hlog, -, hchannel, -⟩ := scheduled_same hscheduled
    change Device.Replays config (fun _ => {}) (s.log.map Prod.snd)
      fun b => (s.channelState.bankStates b).view
    rw [hlog, hchannel]
    exact hreplayedMiddle

theorem prepared_addTransaction {addr : AddrType} {reqType : TransactionType}
    (h : Prepared config P c) (hsupported : Supported config addr reqType)
    (hannounces : Announces config P c (.addTransaction addr reqType)) :
    Prepared config P (c.addTransaction { addr, reqType }) ∧
      (c.addTransaction { addr, reqType }).log = c.log ∧
      (c.addTransaction { addr, reqType }).device = c.device := by
  have hsame : (c.addTransaction { addr, reqType }).cmdQueue = c.cmdQueue ∧
      (c.addTransaction { addr, reqType }).channelState = c.channelState ∧
      (c.addTransaction { addr, reqType }).log = c.log := by
    unfold addTransaction
    cases reqType <;> dsimp only
    case READ => split <;> [exact ⟨rfl, rfl, rfl⟩; (split <;> exact ⟨rfl, rfl, rfl⟩)]
    case WRITE => split <;> exact ⟨rfl, rfl, rfl⟩
    all_goals exact ⟨rfl, rfl, rfl⟩
  have hannounced : Announced config P (pimLine (c.addTransaction { addr, reqType })) := by
    rw [pimLine_addTransaction hsupported]
    by_cases hpim : (commandType reqType).pimQCommand = true
    · have hone : acceptedPIM [.addTransaction addr reqType] = [(commandType reqType, addr)] := by
        simp [acceptedPIM, hpim]
      have hfollows := hannounces.2
      rw [hone] at hfollows ⊢
      exact announced_append h.announced (hfollows _ (List.mem_singleton.mpr rfl))
    · have hnone : acceptedPIM [.addTransaction addr reqType] = [] := by
        simp [acceptedPIM, hpim]
      rw [hnone, List.append_nil]
      exact h.announced
  have hseparated := separated_addTransaction h.separated hannounces.1
  obtain ⟨hqueue, hchannel, hlog⟩ := hsame
  have hdevice : (c.addTransaction { addr, reqType }).device = c.device := by
    unfold device
    rw [hchannel]
  refine ⟨⟨hseparated, ?_, hannounced, ?_⟩, hlog, hdevice⟩
  · rw [hqueue]
    exact h.decoded
  · rw [hdevice, hchannel, hqueue, hlog]
    exact h.opened

theorem prepared_returnDoneTrans (h : Prepared config P c) (clk : ℕ) :
    Prepared config P (c.returnDoneTrans clk).2 ∧ (c.returnDoneTrans clk).2.log = c.log ∧
      (c.returnDoneTrans clk).2.device = c.device := by
  have hseparated := separated_returnDoneTrans h.separated clk
  have hannounced : Announced config P (pimLine (c.returnDoneTrans clk).2) := by
    rw [pimLine_returnDoneTrans]
    exact h.announced
  have hsame : (c.returnDoneTrans clk).2.cmdQueue.pimQueue = c.cmdQueue.pimQueue ∧
      (c.returnDoneTrans clk).2.channelState = c.channelState ∧
      (c.returnDoneTrans clk).2.log = c.log := by
    unfold returnDoneTrans
    split
    · exact ⟨rfl, rfl, rfl⟩
    · dsimp only
      split <;> exact ⟨rfl, rfl, rfl⟩
  obtain ⟨hqueue, hchannel, hlog⟩ := hsame
  have hdevice : (c.returnDoneTrans clk).2.device = c.device := by
    unfold device
    rw [hchannel]
  refine ⟨⟨hseparated, ?_, hannounced, ?_⟩, hlog, hdevice⟩
  · rw [hqueue]
    exact h.decoded
  · rw [hdevice, hchannel, hqueue, hlog]
    exact h.opened

theorem prepared_initial : Prepared config P {} := by
  refine ⟨separated_initial, fun u hu => absurd hu List.not_mem_nil, ?_, ?_, ?_, ?_⟩
  · intro before k after heq
    simp [pimLine, issuedPIM] at heq
  · intro b r hr
    simp [device, BankState.view] at hr
  · intro b hb r hr
    simp [device, BankState.view] at hr
  · exact fun b b' _ _ _ _ => .inl rfl

/-- The memory takes every command of a run when it comes, and is in the end as the controller has
noted, where the rows of kernels hold nothing else and each is announced by a header. -/
theorem run_replays (hregular : Regular config) (hsize : pimCmdQueueSize ≤ config.cmdQueueSize)
    (hcalls : AllCalls (step config)
      (fun c call => Meets config c call ∧ Announces config P c call) {} calls)
    (hrun : run (step config) {} calls = .ok t) :
    Device.Replays config (fun _ => {}) (t.log.map Prod.snd)
      fun b => (t.channelState.bankStates b).view := by
  refine (run_invariant_of (fun c => Tidy config c ∧ Prepared config P c ∧ Replayed config c) _ ?_
    ⟨tidy_initial hregular, prepared_initial, rfl⟩ hcalls hrun).2.2
  rintro c call t ⟨htidy, hprepared, hreplayed⟩ ⟨hmeets, hannounces⟩ hstep
  obtain ⟨hafter, htidy'⟩ := step_after hregular htidy hmeets hstep
  refine ⟨htidy', ?_⟩
  cases call with
  | addTransaction addr reqType =>
    rw [After] at hafter
    obtain ⟨hprepared', hlog, hdevice⟩ := prepared_addTransaction hprepared hmeets.1 hannounces
    rw [hafter]
    refine ⟨hprepared', ?_⟩
    rw [Replayed, hlog, hdevice]
    exact hreplayed
  | returnDoneTrans =>
    rw [After] at hafter
    obtain ⟨hprepared', hlog, hdevice⟩ := prepared_returnDoneTrans hprepared c.clk
    rw [hafter]
    refine ⟨hprepared', ?_⟩
    rw [Replayed, hlog, hdevice]
    exact hreplayed
  | clockTick => exact replayed_ticked hregular hsize htidy hprepared hreplayed hafter

/-- Rows below 4 are for kernels: a kernel on row 1 and two computations on row 2, with a refresh and
some data between. -/
def announcedCalls : List Call :=
  [.addTransaction 20 .GWRITE, .addTransaction 4 .P_HEADER, .addTransaction 4 .COMPS_READRES,
    .addTransaction 16 .READ, .addTransaction 18 .WRITE] ++ cycles 90 ++
  [.addTransaction 8 .P_HEADER, .addTransaction 8 .COMPS_READRES, .addTransaction 8 .COMPS_READRES,
    .addTransaction 18 .READ] ++ cycles 40

theorem run_replays_announcedCalls : ∃ t, run (step smallMemory) {} announcedCalls = .ok t ∧
    (t.log.countP fun e => e.2.cmdType == .COMPS_READRES) = 3 ∧
    Device.Replays smallMemory (fun _ => {}) (t.log.map Prod.snd)
      fun b => (t.channelState.bankStates b).view := by
  have hcount : (run (step smallMemory) {} announcedCalls).map
      (fun t => t.log.countP fun e => e.2.cmdType == .COMPS_READRES) = .ok 3 := by decide +kernel
  obtain ⟨t, ht, hthree⟩ := map_ok hcount
  exact ⟨t, ht, hthree, run_replays (P := fun row => row.toNat < 4) regular_smallMemory (by decide)
    (by decide +kernel) ht⟩

end NewPims.NewtonSim.Controller

import NewPims.NewtonSim.Steps

/-! Where the rows of kernels hold nothing else, a channel never stops. -/
namespace NewPims.NewtonSim

open Transition

variable {config : DramConfig}

namespace CommandQueue

variable {q : CommandQueue} {cmd u : TypedCommand}

theorem addCommand_cases (q : CommandQueue) (cmd : TypedCommand) :
    q.addCommand config cmd = q ∨ ∃ e, q.addCommand config cmd =
      { q.setQueue config cmd (q.getQueue config cmd ++ [cmd]) with rankQEmpty := e } := by
  unfold addCommand
  dsimp only
  split
  · refine .inr ?_
    split <;> exact ⟨_, rfl⟩
  · exact .inl rfl

theorem mem_queues_addCommand {i : ℕ} (h : u ∈ (q.addCommand config cmd).queues i) :
    u ∈ q.queues i ∨ u = cmd ∧ cmd.cmdType.pimQCommand = false := by
  have hset : u ∈ (q.setQueue config cmd (q.getQueue config cmd ++ [cmd])).queues i →
      u ∈ q.queues i ∨ u = cmd ∧ cmd.cmdType.pimQCommand = false := by
    unfold setQueue getQueue
    by_cases hpim : cmd.cmdType.pimQCommand = true
    · rw [if_pos hpim]
      exact .inl
    · rw [if_neg hpim, if_neg hpim]
      dsimp only
      intro hu
      by_cases hi : i = getQueueIndex config cmd.addr.rank cmd.addr.bankgroup cmd.addr.bank
      · rw [hi, Function.update_self] at hu
        rw [hi]
        rcases List.mem_append.mp hu with hu | hu
        · exact .inl hu
        · exact .inr ⟨List.mem_singleton.mp hu, by simpa using hpim⟩
      · rw [Function.update_of_ne hi] at hu
        exact .inl hu
  rcases @addCommand_cases config q cmd with heq | ⟨e, heq⟩ <;> rw [heq] at h
  · exact .inl h
  · exact hset h

theorem mem_pimQueue_addCommand (h : u ∈ (q.addCommand config cmd).pimQueue) :
    u ∈ q.pimQueue ∨ u = cmd ∧ cmd.cmdType.pimQCommand = true := by
  have hset : u ∈ (q.setQueue config cmd (q.getQueue config cmd ++ [cmd])).pimQueue →
      u ∈ q.pimQueue ∨ u = cmd ∧ cmd.cmdType.pimQCommand = true := by
    unfold setQueue getQueue
    by_cases hpim : cmd.cmdType.pimQCommand = true
    · rw [if_pos hpim, if_pos hpim]
      intro hu
      rcases List.mem_append.mp hu with hu | hu
      · exact .inl hu
      · exact .inr ⟨List.mem_singleton.mp hu, hpim⟩
    · rw [if_neg hpim]
      exact .inl
  rcases @addCommand_cases config q cmd with heq | ⟨e, heq⟩ <;> rw [heq] at h
  · exact .inl h
  · exact hset h

end CommandQueue

namespace Controller

open CommandQueue

variable {P : BitVec 32 → Prop} {c m s t : Controller} {o : Option TypedCommand} {q : CommandQueue}
  {cmd src : TypedCommand} {calls : List Call}

/-- A client that keeps the rows with `P` to the kernels. -/
def Apart (config : DramConfig) (P : BitVec 32 → Prop) : Call → Prop
  | .addTransaction addr .READ | .addTransaction addr .WRITE => ¬ P (config.addressOf addr).row
  | .addTransaction addr .COMPS_READRES =>
    P (decodePIMTransaction config.toConfig addr).addr.row
  | _ => True

instance [DecidablePred P] (call : Call) : Decidable (Apart config P call) := by
  unfold Apart
  split <;> infer_instance

/-- The rows of kernels are those with `P`, and those of reads and writes are not. -/
structure Separated (config : DramConfig) (P : BitVec 32 → Prop) (c : Controller) : Prop where
  banks : ∀ b r, (c.channelState.bankStates b).view.pimRow = some r → P r
  queued : ∀ i, ∀ u ∈ c.cmdQueue.queues i, ¬ P u.addr.row
  pimQueued : ∀ u ∈ c.cmdQueue.pimQueue, u.cmdType = .COMPS_READRES → P u.addr.row
  reads : ∀ u ∈ c.readQueue, ¬ P (config.addressOf u.addr).row
  writes : ∀ u ∈ c.writeBuffer, ¬ P (config.addressOf u.addr).row
  pims : ∀ u ∈ c.pimQueue, u.reqType = .COMPS_READRES →
    P (decodePIMTransaction config.toConfig u.addr).addr.row

theorem not_clash (h : Separated config P c) : ¬ Clash c.channelState c.cmdQueue := by
  rintro ⟨i, src, hsrc, hrow⟩
  exact h.queued i src hsrc (h.banks _ _ hrow)

/-- What a command is issued for. -/
inductive Source (c : Controller) : TypedCommand → Prop
  | refresh (ref : TypedCommand) (rest : List TypedCommand) :
      c.channelState.refreshQ = ref :: rest → ref.cmdType = .REFRESH → Source c ref
  | queue (i : ℕ) (src : TypedCommand) : src ∈ c.cmdQueue.queues i →
      src.cmdType = .READ ∨ src.cmdType = .WRITE → Source c src
  | pim (front : TypedCommand) (rest : List TypedCommand) : c.channelState.refreshQ = [] →
      c.cmdQueue.pimQueue = front :: rest →
      front.cmdType = .P_HEADER ∨ front.cmdType = .GWRITE ∨ front.cmdType = .COMPS_READRES →
      Source c front

/-- While a refresh waits, no command of a kernel is looked at. -/
theorem chosen_source (hsound : Sound config c)
    (h : Chosen config c.channelState c.cmdQueue (some cmd) q) :
    ∃ src, Leads config c.channelState c.cmdQueue.clk src cmd ∧ Source c src := by
  have hqueued : ∀ i, ∀ src ∈ c.cmdQueue.queues i, Source c src := by
    intro i src hsrc
    refine .queue i src hsrc ?_
    have hrw := (hsound.filled.queued i src hsrc).1.type
    cases ht : src.cmdType <;> rw [ht] at hrw <;>
      simp [CommandType.isReadWrite, CommandType.isRead, CommandType.isWrite] at hrw ⊢
    all_goals
      have hasked := (hsound.filled.queued i src hsrc).1.wanted.asked
      simp [Asked, ht] at hasked
  cases h with
  | refresh ref rest _ _ hqueue hleads =>
    exact ⟨ref, hleads, .refresh ref rest hqueue
      (hsound.refreshes ref (by rw [hqueue]; exact List.mem_cons_self)).1⟩
  | spare ref rest _ _ hqueue hnone hpick =>
    have hstart : (startRefresh config c.cmdQueue ref).queues = c.cmdQueue.queues ∧
        (startRefresh config c.cmdQueue ref).isInRef = true := by
      unfold startRefresh
      split
      · exact ⟨rfl, ‹_›⟩
      · exact ⟨rfl, rfl⟩
    cases hpick with
    | pim front rest _ _ hfront href hleads hheld => cases href.symm.trans hstart.2
    | queue i src _ _ hmem href hleads hheld =>
      rw [clk_startRefresh] at hleads
      rw [hstart.1] at hmem
      exact ⟨src, hleads, hqueued i src hmem⟩
  | free _ _ hqueue hpick =>
    cases hpick with
    | pim front rest _ _ hfront href hleads hheld =>
      refine ⟨front, hleads, .pim front rest hqueue hfront ?_⟩
      obtain ⟨hwanted, hpim⟩ :=
        hsound.filled.pim front (by rw [hfront]; exact List.mem_cons_self)
      rcases hwanted.asked with ht | ht | ht | ht | ht | ht
      · rw [ht] at hpim
        cases hpim
      · rw [ht] at hpim
        cases hpim
      · exact .inr (.inl ht)
      · rw [ht] at hpim
        cases hpim
      · exact .inl ht.1
      · exact .inr (.inr ht)
    | queue i src _ _ hmem href hleads hheld => exact ⟨src, hleads, hqueued i src hmem⟩

/-- Rows are opened for kernels on behalf of the computation in front. -/
theorem source_gact (hneeded : cmd.cmdType ∈ needs src.cmdType) (hsource : Source c src)
    (ht : cmd.cmdType = .G_ACT ∨ cmd.cmdType = .COMPS_READRES) :
    src.cmdType = .COMPS_READRES ∧ c.channelState.refreshQ = [] ∧
      ∃ rest, c.cmdQueue.pimQueue = src :: rest := by
  have hcomps : src.cmdType = .COMPS_READRES := by
    cases hs : src.cmdType <;> rw [hs] at hneeded <;> rcases ht with ht | ht <;> rw [ht] at hneeded <;>
      simp [needs] at hneeded ⊢
  refine ⟨hcomps, ?_⟩
  cases hsource with
  | refresh ref rest hqueue htype => cases hcomps.symm.trans htype
  | queue i src hmem htype =>
    rcases htype with htype | htype
    · cases hcomps.symm.trans htype
    · cases hcomps.symm.trans htype
  | pim front rest hnone hqueue htype => exact ⟨hnone, rest, hqueue⟩

theorem separated_effect (hsound : Sound config c) (h : Separated config P c)
    (hchosen : Chosen config c.channelState c.cmdQueue o q)
    (heffect : Effect config { c with cmdQueue := q } o m) : Separated config P m := by
  cases heffect with
  | nothing =>
    obtain ⟨hqueues, hpim, -⟩ := chosen_none hchosen
    refine ⟨h.banks, ?_, ?_, h.reads, h.writes, h.pims⟩ <;> dsimp only
    · rw [hqueues]
      exact h.queued
    · rw [hpim]
      exact h.pimQueued
  | header cmd htype =>
    obtain ⟨-, -, hdrawn⟩ := chosen_some hsound.filled hsound.refreshes hchosen
    exact ⟨h.banks, fun i u hu => h.queued i u (mem_queues_drawn hdrawn hu),
      fun u hu => h.pimQueued u (mem_pimQueue_drawn hdrawn hu), h.reads, h.writes, h.pims⟩
  | command cmd m ch hissue hfit hcompleted hissued =>
    obtain ⟨-, -, hdrawn⟩ := chosen_some hsound.filled hsound.refreshes hchosen
    obtain ⟨returns, rd, wr, pim, rfl⟩ := completed_same hcompleted
    refine ⟨?_, fun i u hu => h.queued i u (mem_queues_drawn hdrawn hu),
      fun u hu => h.pimQueued u (mem_pimQueue_drawn hdrawn hu), h.reads, h.writes, h.pims⟩
    intro b r hr
    have hview := congrFun hissued.view b
    dsimp only [logged] at hr hview
    rw [hview, Device.after] at hr
    split at hr
    · by_cases hgact : cmd.cmdType = .G_ACT
      · obtain ⟨src, hleads, hsource⟩ := chosen_source hsound hchosen
        obtain ⟨htype, -, rest, hqueue⟩ := source_gact hleads.needed hsource (.inl hgact)
        simp only [Buffers.after, hgact, Option.some.injEq] at hr
        rw [← hr, hleads.row (.inl hgact)]
        exact h.pimQueued src (by rw [hqueue]; exact List.mem_cons_self) htype
      · refine h.banks b r ?_
        unfold Buffers.after at hr
        split at hr
        · exact hr
        · exact hr
        · cases hr
        · exact absurd ‹_› hgact
        · exact hr
    · exact h.banks b r hr

theorem separated_scheduled (hregular : Regular config) (hsound : Sound config c)
    (h : Separated config P c) (hscheduled : Scheduled config c s) : Separated config P s := by
  cases hscheduled with
  | stay lock addr draining => exact ⟨h.banks, h.queued, h.pimQueued, h.reads, h.writes, h.pims⟩
  | move which before t after cmd lock addr draining hqueue hbefore hcmd hroom hwait =>
    have hmem : t ∈ c.queueOf which := by
      rw [hqueue]
      exact List.mem_append_right _ List.mem_cons_self
    have hsupported := supported_queueOf hsound hmem
    obtain ⟨-, hct, hhex, haddr, -⟩ := transToCommand_spec hregular hsupported hcmd
    have hqueued : ∀ i, ∀ u ∈ (c.cmdQueue.addCommand config cmd).queues i, ¬ P u.addr.row := by
      intro i u hu
      rcases mem_queues_addCommand hu with hu | ⟨rfl, hpim⟩
      · exact h.queued i u hu
      · rw [hct] at hpim
        cases which with
        | READ_Q =>
          rw [haddr (.inl (hsound.reads t hmem))]
          exact h.reads t hmem
        | WRITE_BUFFER =>
          rw [haddr (.inr (.inl (hsound.writes t hmem)))]
          exact h.writes t hmem
        | PIM_Q =>
          rcases (hsound.pims t hmem).1 with htype | htype | htype <;> rw [htype] at hpim <;>
            cases hpim
    have hpimQueued : ∀ u ∈ (c.cmdQueue.addCommand config cmd).pimQueue,
        u.cmdType = .COMPS_READRES → P u.addr.row := by
      intro u hu htype
      rcases mem_pimQueue_addCommand hu with hu | ⟨rfl, hpim⟩
      · exact h.pimQueued u hu htype
      · have hreq : t.reqType = .COMPS_READRES := by
          rw [hct] at htype
          cases ht : t.reqType <;> rw [ht] at htype <;> simp [commandType] at htype
        have hmemPIM : t ∈ c.pimQueue := by
          cases which with
          | READ_Q => exact absurd (hsound.reads t hmem) (by simp [hreq])
          | WRITE_BUFFER => exact absurd (hsound.writes t hmem) (by simp [hreq])
          | PIM_Q => exact hmem
        have hrow : u.addr.row = (decodePIMTransaction config.toConfig t.addr).addr.row := by
          simp only [transToCommand, hreq] at hcmd
          split at hcmd
          · rw [← Except.ok.inj hcmd]
          · cases hcmd
        rw [hrow]
        exact h.pims t hmemPIM hreq
    cases which with
    | READ_Q =>
      exact ⟨h.banks, hqueued, hpimQueued,
        fun u hu => h.reads u (by rw [show c.readQueue = _ from hqueue]; exact mem_remove hu),
        h.writes, h.pims⟩
    | WRITE_BUFFER =>
      exact ⟨h.banks, hqueued, hpimQueued, h.reads,
        fun u hu => h.writes u (by rw [show c.writeBuffer = _ from hqueue]; exact mem_remove hu),
        h.pims⟩
    | PIM_Q =>
      exact ⟨h.banks, hqueued, hpimQueued, h.reads, h.writes,
        fun u hu => h.pims u (by rw [show c.pimQueue = _ from hqueue]; exact mem_remove hu)⟩

theorem separated_ticked (hregular : Regular config) (htidy : Tidy config c)
    (h : Separated config P c) (htick : Ticked config c t) : Separated config P t := by
  cases htick with
  | mk o q m s hchosen heffect hscheduled =>
    have hsound := sound_refreshed hregular htidy.sound
    have hrefreshed : Separated config P (refreshed config c) := by
      obtain ⟨refreshQ, r, heq, -⟩ := refreshed_cases hregular htidy.sound
      rw [heq]
      exact ⟨h.banks, h.queued, h.pimQueued, h.reads, h.writes, h.pims⟩
    have hm := sound_effect hsound hchosen heffect
    have hsep := separated_effect hsound hrefreshed hchosen heffect
    have hs := separated_scheduled (c := m.countIdle config) hregular
      ⟨hm.clk, hm.awake, hm.refreshes, hm.sref, hm.nextRank, hm.filled, hm.reads, hm.writes, hm.pims⟩
      ⟨hsep.banks, hsep.queued, hsep.pimQueued, hsep.reads, hsep.writes, hsep.pims⟩ hscheduled
    exact ⟨hs.banks, hs.queued, hs.pimQueued, hs.reads, hs.writes, hs.pims⟩

theorem separated_addTransaction {addr : AddrType} {reqType : TransactionType}
    (h : Separated config P c) (hapart : Apart config P (.addTransaction addr reqType)) :
    Separated config P (c.addTransaction { addr, reqType }) := by
  have hconcat : ∀ {Q : Transaction → Prop} {l : List Transaction} {v : Transaction},
      (∀ u ∈ l, Q u) → Q v → ∀ u ∈ l ++ [v], Q u := by
    intro Q l v hl hv
    exact List.forall_mem_append.mpr ⟨hl, List.forall_mem_singleton.mpr hv⟩
  cases reqType with
  | READ =>
    unfold addTransaction
    dsimp only
    split
    · exact ⟨h.banks, h.queued, h.pimQueued, h.reads, h.writes, h.pims⟩
    · split
      · refine ⟨h.banks, h.queued, h.pimQueued, ?_, h.writes, h.pims⟩
        exact hconcat h.reads hapart
      · exact ⟨h.banks, h.queued, h.pimQueued, h.reads, h.writes, h.pims⟩
  | WRITE =>
    unfold addTransaction
    dsimp only
    split
    · refine ⟨h.banks, h.queued, h.pimQueued, h.reads, ?_, h.pims⟩
      exact hconcat h.writes hapart
    · exact ⟨h.banks, h.queued, h.pimQueued, h.reads, h.writes, h.pims⟩
  | COMPS_READRES =>
    refine ⟨h.banks, h.queued, h.pimQueued, h.reads, h.writes, ?_⟩
    exact hconcat h.pims fun _ => hapart
  | GWRITE | COMP | READRES | P_HEADER | PWRITE =>
    refine ⟨h.banks, h.queued, h.pimQueued, h.reads, h.writes, ?_⟩
    exact hconcat h.pims fun htype => by cases htype

theorem separated_returnDoneTrans (h : Separated config P c) (clk : ℕ) :
    Separated config P (c.returnDoneTrans clk).2 := by
  unfold returnDoneTrans
  split
  · exact h
  · dsimp only
    split <;> exact ⟨h.banks, h.queued, h.pimQueued, h.reads, h.writes, h.pims⟩

theorem separated_initial : Separated config P {} := by
  refine ⟨?_, fun i u hu => ?_, fun u hu => ?_, fun u hu => ?_, fun u hu => ?_, fun u hu => ?_⟩
  · intro b r hr
    simp [BankState.view] at hr
  all_goals exact absurd hu List.not_mem_nil

theorem separated_after {call : Call} (hregular : Regular config) (htidy : Tidy config c)
    (h : Separated config P c) (hapart : Apart config P call) (hafter : After config c call t) :
    Separated config P t := by
  cases call with
  | addTransaction addr reqType =>
    rw [After] at hafter
    rw [hafter]
    exact separated_addTransaction h hapart
  | returnDoneTrans =>
    rw [After] at hafter
    rw [hafter]
    exact separated_returnDoneTrans h c.clk
  | clockTick => exact separated_ticked hregular htidy h hafter

/-- A channel stops at no call, where the client makes supported calls and keeps the rows of kernels
to them. -/
theorem exists_run_apart (hregular : Regular config) (hoperable : Operable config)
    (hcalls : AllCalls (step config) (fun c call => Meets config c call ∧ Apart config P call) {}
      calls) : ∃ t, run (step config) {} calls = .ok t := by
  have hstep : ∀ c call, Tidy config c ∧ Separated config P c →
      Meets config c call ∧ Apart config P call →
      ∃ t, step config c call = .ok t ∧ Tidy config t ∧ Separated config P t := by
    rintro c call ⟨htidy, hsep⟩ ⟨hmeets, hapart⟩
    rcases step_spec hregular hoperable htidy hmeets with ⟨-, hclash⟩ | ⟨t, ht, htidy'⟩
    · exact absurd hclash (not_clash hsep)
    · have hafter := (step_after hregular htidy hmeets ht).1
      exact ⟨t, ht, htidy', separated_after hregular htidy hsep hapart hafter⟩
  obtain ⟨t, ht, -⟩ := exists_run _ _ hstep ⟨tidy_initial hregular, separated_initial⟩ hcalls
  exact ⟨t, ht⟩

/-- Cycles, with the transactions taken back that are done. -/
def cycles (n : ℕ) : List Call := (List.replicate n [.clockTick, .returnDoneTrans]).flatten

/-- Rows below 4 are for kernels: two kernels, and reads and writes besides. -/
def kernelCalls : List Call :=
  [.addTransaction 0 .GWRITE, .addTransaction 4 .P_HEADER, .addTransaction 4 .COMPS_READRES,
    .addTransaction 16 .READ, .addTransaction 18 .WRITE] ++ cycles 90 ++
  [.addTransaction 8 .P_HEADER, .addTransaction 8 .COMPS_READRES, .addTransaction 18 .READ] ++
    cycles 40

theorem exists_run_apart_kernelCalls : ∃ t, run (step smallMemory) {} kernelCalls = .ok t :=
  exists_run_apart (P := fun row => row.toNat < 4) regular_smallMemory operable_smallMemory
    (by decide +kernel)

/-- Where the rows of kernels hold other data as well, the one assertion that can fail is that on
the type of the command that is ready. -/
theorem run_error (hregular : Regular config) (hoperable : Operable config)
    (hmeets : AllCalls (step config) (Meets config) {} calls) {f : MemoryFault}
    (hrun : run (step config) {} calls = .error f) : f = .otherCommand := by
  by_contra hne
  -- another fault would be that of some step, and a step has only this one
  refine absurd hrun (run_ne_error_of (Tidy config) (Meets config) ?_ ?_
    (tidy_initial hregular) hmeets)
  · exact fun c call t htidy hmeets hstep => (step_after hregular htidy hmeets hstep).2
  · intro c call htidy hmeets herr
    rcases step_spec hregular hoperable htidy hmeets with ⟨hother, -⟩ | ⟨t, ht, -⟩
    · exact hne (Except.error.inj (herr.symm.trans hother))
    · cases ht.symm.trans herr

/-- A read of a row that is open for a kernel, while the vector of another one is written. -/
def clashingCalls : List Call :=
  .addTransaction 4 .COMPS_READRES :: List.replicate 10 .clockTick ++
    [.addTransaction 0 .GWRITE, .addTransaction 6 .READ] ++ List.replicate 4 .clockTick

theorem run_error_clashingCalls :
    ∃ f, run (step smallMemory) {} clashingCalls = .error f ∧ f = .otherCommand := by
  have hisError : (run (step smallMemory) {} clashingCalls).isOk = false := by decide +kernel
  cases hrun : run (step smallMemory) {} clashingCalls with
  | ok t =>
    rw [hrun] at hisError
    cases hisError
  | error f =>
    exact ⟨f, rfl, run_error regular_smallMemory operable_smallMemory (by decide +kernel) hrun⟩

end Controller

end NewPims.NewtonSim

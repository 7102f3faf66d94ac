import NewPims.NewtonSim.PIMOrder

/-! The rows that are open for kernels. Where a kernel computes on the row that its header has
announced, that row is open for it and no other one, and a bank group is opened when all its banks
are closed. -/
namespace NewPims.NewtonSim

open Transition

variable {config : DramConfig} {P : BitVec 32 → Prop}

section Announced

variable (config : DramConfig) (P : BitVec 32 → Prop) {line : List (CommandType × AddrType)}
  {k : CommandType × AddrType}

/-- The row that the last header of a line has announced. -/
def headed (line : List (CommandType × AddrType)) : Option (BitVec 32) :=
  (line.filter fun k => k.1 == .P_HEADER).getLast?.map fun k => (config.addressOf k.2).row

/-- What may come after a line: a vector is written to a row that is none of the kernels', and a
kernel computes on the row that was announced last. -/
def Follows (line : List (CommandType × AddrType)) (k : CommandType × AddrType) : Prop :=
  (k.1 = .GWRITE → ¬ P (config.addressOf k.2).row) ∧
    (k.1 = .COMPS_READRES → headed config line = some (config.addressOf k.2).row)

instance [DecidablePred P] : Decidable (Follows config P line k) := by
  unfold Follows
  infer_instance

/-- Everything in a line may come after what is before it. -/
def Announced (line : List (CommandType × AddrType)) : Prop :=
  ∀ before k after, line = before ++ k :: after → Follows config P before k

variable {config P}

theorem headed_append : headed config (line ++ [k]) =
    if k.1 = .P_HEADER then some (config.addressOf k.2).row else headed config line := by
  rw [headed, List.filter_append]
  by_cases hk : k.1 = .P_HEADER
  · simp [hk]
  · simp [hk, headed]

theorem announced_append (h : Announced config P line) (hk : Follows config P line k) :
    Announced config P (line ++ [k]) := by
  intro before k' after heq
  rcases List.eq_nil_or_concat after with rfl | ⟨rest, last, rfl⟩
  · obtain ⟨rfl, hlast⟩ := List.append_inj' heq rfl
    cases hlast
    exact hk
  · rw [List.concat_eq_append, ← List.cons_append, ← List.append_assoc] at heq
    exact h before k' rest (List.append_inj' heq rfl).1

end Announced

section Opened

variable {d e : Device} {refreshQ pimQueue : List TypedCommand} {row : Option (BitVec 32)}
  {cmd src : TypedCommand} {b b' : BankId}

/-- The rows of kernels are being closed in a rank: for a refresh of it, or for a header of another
row. -/
def BeingClosed (config : DramConfig) (d : Device) (refreshQ pimQueue : List TypedCommand)
    (rank : BitVec 32) : Prop :=
  (∃ ref, refreshQ.head? = some ref ∧ ref.addr.rank = rank) ∨
    ∃ front, pimQueue.head? = some front ∧ front.cmdType = .P_HEADER ∧
      ∀ b, b.InRange config → (d b).pimRow ≠ some front.addr.row

/-- What is open: no row of a kernel for data, none but `row` for kernels, and that at all banks of
a bank group or at none, unless the rows of kernels are being closed. -/
structure Opened (config : DramConfig) (P : BitVec 32 → Prop) (d : Device)
    (refreshQ pimQueue : List TypedCommand) (row : Option (BitVec 32)) : Prop where
  data : ∀ b r, (d b).row = some r → ¬ P r
  kernel : ∀ b, b.InRange config → ∀ r, (d b).pimRow = some r → row = some r
  grouped : ∀ b b', b.InRange config → b'.InRange config → b.rank = b'.rank →
    b.bankgroup = b'.bankgroup →
      (d b).pimRow = (d b').pimRow ∨ BeingClosed config d refreshQ pimQueue b.rank

/-- Queues that grow at their ends keep what is in front. -/
theorem opened_grown {refreshQ' pimQueue' : List TypedCommand}
    (h : Opened config P d refreshQ pimQueue row) (hrefresh : refreshQ <+: refreshQ')
    (hpim : pimQueue <+: pimQueue') : Opened config P d refreshQ' pimQueue' row := by
  have hhead : ∀ {l l' : List TypedCommand} {x : TypedCommand}, l <+: l' → l.head? = some x →
      l'.head? = some x := by
    rintro l _ x ⟨s, rfl⟩ hx
    rw [List.head?_append, hx]
    rfl
  refine ⟨h.data, h.kernel, ?_⟩
  intro b b' hb hb' hrank hgroup
  rcases h.grouped b b' hb hb' hrank hgroup with heq | ⟨ref, href, hr⟩ | ⟨front, hfront, hrest⟩
  · exact .inl heq
  · exact .inr (.inl ⟨ref, hhead hrefresh href, hr⟩)
  · exact .inr (.inr ⟨front, hhead hpim hfront, hrest⟩)

/-- A header is issued when no other row is open for kernels. -/
theorem opened_header {rest : List TypedCommand}
    (h : Opened config P d refreshQ (src :: rest) row)
    (hready : ∀ b, b.InRange config → (d b).pimRow = none ∨ (d b).pimRow = some src.addr.row) :
    Opened config P d refreshQ rest (some src.addr.row) := by
  refine ⟨h.data, ?_, ?_⟩
  · intro b hb r hr
    rcases hready b hb with hnone | hsome
    · cases hnone.symm.trans hr
    · exact hsome.symm.trans hr
  · intro b b' hb hb' hrank hgroup
    rcases h.grouped b b' hb hb' hrank hgroup with heq | href | ⟨front, hfront, htype, hother⟩
    · exact .inl heq
    · exact .inr (.inl href)
    · -- it is this header that the rows were closed for, so none is open
      cases hfront
      have hnone : ∀ b, b.InRange config → (d b).pimRow = none :=
        fun b hb => (hready b hb).resolve_right (hother b hb)
      exact .inl ((hnone b hb).trans (hnone b' hb').symm)

/-- A command that leaves the rows of kernels as they are, and the header in front where it is. -/
theorem opened_same {pimQueue' : List TypedCommand}
    (h : Opened config P d refreshQ pimQueue row) (hpim : ∀ b, (e b).pimRow = (d b).pimRow)
    (hdata : ∀ b r, (e b).row = some r → ¬ P r)
    (hfront : ∀ front, pimQueue.head? = some front → front.cmdType = .P_HEADER →
      pimQueue'.head? = some front) : Opened config P e refreshQ pimQueue' row := by
  refine ⟨hdata, ?_, ?_⟩
  · intro b hb r hr
    exact h.kernel b hb r ((hpim b).symm.trans hr)
  · intro b b' hb hb' hrank hgroup
    rw [hpim, hpim]
    rcases h.grouped b b' hb hb' hrank hgroup with heq | href | ⟨front, hhead, htype, hother⟩
    · exact .inl heq
    · exact .inr (.inl href)
    · refine .inr (.inr ⟨front, hfront front hhead htype, htype, ?_⟩)
      intro b hb
      rw [hpim]
      exact hother b hb

/-- The banks of a rank that was refreshed are closed. -/
theorem opened_refresh {ref : TypedCommand} {rest : List TypedCommand}
    (h : Opened config P d (ref :: rest) pimQueue row)
    (hclosed : ∀ b, b.InRange config → b.rank = ref.addr.rank → (d b).pimRow = none) :
    Opened config P d rest pimQueue row := by
  refine ⟨h.data, h.kernel, ?_⟩
  intro b b' hb hb' hrank hgroup
  rcases h.grouped b b' hb hb' hrank hgroup with heq | ⟨front, hfront, hsame⟩ | hheader
  · exact .inl heq
  · cases hfront
    exact .inl ((hclosed b hb hsame.symm).trans (hclosed b' hb' (hrank.symm.trans hsame.symm)).symm)
  · exact .inr (.inr hheader)

/-- A row of a kernel is closed, for the refresh or the header in front. -/
theorem opened_close (h : Opened config P d refreshQ pimQueue row)
    (hclose : cmd.cmdType = .PIM_PRECHARGE)
    (hopen : (d cmd.addr.bankId).pimRow ≠ none) (hin : cmd.addr.bankId.InRange config)
    (hfor : (∃ ref, refreshQ.head? = some ref ∧ ref.addr.rank = cmd.addr.rank) ∨
      ∃ front, pimQueue.head? = some front ∧ front.cmdType = .P_HEADER ∧
        (d cmd.addr.bankId).pimRow ≠ some front.addr.row) :
    Opened config P (d.after config cmd) refreshQ pimQueue row := by
  have htouched : cmd.touched config = [cmd.addr.bankId] := by
    simp [TypedCommand.touched, TypedCommand.checked, hclose]
  have hafter : ∀ b, (d.after config cmd b).row = (d b).row ∧ (d.after config cmd b).pimRow =
      if b = cmd.addr.bankId then none else (d b).pimRow := by
    intro b
    simp only [Device.after, htouched, List.mem_singleton]
    split
    · simp [Buffers.after, hclose]
    · exact ⟨rfl, rfl⟩
  have hless : ∀ b r, (d.after config cmd b).pimRow = some r → (d b).pimRow = some r := by
    intro b r hr
    rw [(hafter b).2] at hr
    split at hr
    · cases hr
    · exact hr
  refine ⟨?_, fun b hb r hr => h.kernel b hb r (hless b r hr), ?_⟩
  · intro b r hr
    rw [(hafter b).1] at hr
    exact h.data b r hr
  intro b b' hb hb' hrank hgroup
  rcases hfor with ⟨ref, href, hsame⟩ | ⟨front, hfront, htype, hne⟩
  · by_cases hbank : b.rank = cmd.addr.rank
    · exact .inr (.inl ⟨ref, href, hsame.trans hbank.symm⟩)
    · -- the other ranks are as they were
      have hother : b ≠ cmd.addr.bankId ∧ b' ≠ cmd.addr.bankId := by
        refine ⟨?_, ?_⟩
        · rintro rfl
          exact hbank rfl
        · rintro rfl
          exact hbank hrank
      rw [(hafter b).2, (hafter b').2, if_neg hother.1, if_neg hother.2]
      rcases h.grouped b b' hb hb' hrank hgroup with heq | href | ⟨front, hfront, htype, hne⟩
      · exact .inl heq
      · exact .inr (.inl href)
      · exact .inr (.inr ⟨front, hfront, htype, fun b hb hr => hne b hb (hless b _ hr)⟩)
  · -- whatever is open is the row that is closed here, and that is not the row of the header
    obtain ⟨r, hr⟩ := Option.ne_none_iff_exists'.mp hopen
    refine .inr (.inr ⟨front, hfront, htype, ?_⟩)
    intro b hb hrow
    have hlast := h.kernel b hb _ (hless b _ hrow)
    have hthis := h.kernel _ hin r hr
    exact hne (hr.trans (hthis.symm.trans hlast))

/-- A row is opened at a whole bank group. -/
theorem opened_gact (hcount : Countable config) (h : Opened config P d [] (src :: pimQueue) row)
    (htype : src.cmdType ≠ .P_HEADER) (hgact : cmd.cmdType = .G_ACT)
    (hrow : row = some cmd.addr.row) :
    Opened config P (d.after config cmd) [] (src :: pimQueue) row := by
  have hgrouped : ∀ b b', b.InRange config → b'.InRange config → b.rank = b'.rank →
      b.bankgroup = b'.bankgroup → (d b).pimRow = (d b').pimRow := by
    intro b b' hb hb' hrank hgroup
    rcases h.grouped b b' hb hb' hrank hgroup with heq | ⟨ref, href, -⟩ |
      ⟨front, hfront, hheader, -⟩
    · exact heq
    · cases href
    · cases hfront
      exact absurd hheader htype
  have htouched : ∀ b, b ∈ cmd.touched config ↔ b.rank = cmd.addr.rank ∧
      b.bankgroup = cmd.addr.bankgroup ∧ b.bank.toNat < config.banksPerGroup := by
    intro b
    simp only [TypedCommand.touched, hgact, mem_ofBankgroup hcount, BitVec.ofNat_toNat,
      BitVec.setWidth_eq]
  have hafter : ∀ b, (d.after config cmd b).row = (d b).row ∧ (d.after config cmd b).pimRow =
      if b ∈ cmd.touched config then some cmd.addr.row else (d b).pimRow := by
    intro b
    simp only [Device.after]
    split
    · simp [Buffers.after, hgact]
    · exact ⟨rfl, rfl⟩
  refine ⟨?_, ?_, ?_⟩
  · intro b r hr
    rw [(hafter b).1] at hr
    exact h.data b r hr
  · intro b hb r hr
    rw [(hafter b).2] at hr
    split at hr
    · exact hrow.trans hr
    · exact h.kernel b hb r hr
  · intro b b' hb hb' hrank hgroup
    refine .inl ?_
    have hboth : b ∈ cmd.touched config ↔ b' ∈ cmd.touched config := by
      rw [htouched, htouched, hrank, hgroup]
      exact and_congr_right fun _ => and_congr_right fun _ => iff_of_true hb.2.2 hb'.2.2
    rw [(hafter b).2, (hafter b').2]
    by_cases hmem : b ∈ cmd.touched config
    · rw [if_pos hmem, if_pos (hboth.mp hmem)]
    · rw [if_neg hmem, if_neg fun h => hmem (hboth.mpr h)]
      exact hgrouped b b' hb hb' hrank hgroup

end Opened

namespace Controller

open CommandQueue

variable {c m s t : Controller} {o : Option TypedCommand} {q : CommandQueue}
  {cmd src front : TypedCommand} {rest : List TypedCommand} {call : Call} {calls : List Call}

/-- A client that keeps the rows with `P` to the kernels, and announces the row of each. -/
def Announces (config : DramConfig) (P : BitVec 32 → Prop) (c : Controller) (call : Call) : Prop :=
  Apart config P call ∧ ∀ k ∈ acceptedPIM [call], Follows config P (pimLine c) k

instance [DecidablePred P] : Decidable (Announces config P c call) := by
  unfold Announces
  infer_instance

/-- The rows of the banks. -/
def device (c : Controller) : Device := fun b => (c.channelState.bankStates b).view

/-- Kernels have rows of their own, the row of each is announced before it, and no other one is open
for it. -/
structure Prepared (config : DramConfig) (P : BitVec 32 → Prop) (c : Controller) : Prop where
  separated : Separated config P c
  decoded : ∀ u ∈ c.cmdQueue.pimQueue, u.addr.row = (config.addressOf u.hexAddr).row
  announced : Announced config P (pimLine c)
  opened : Opened config P c.device c.channelState.refreshQ c.cmdQueue.pimQueue
    (headed config (issuedPIM c.log))

/-- The first command of the PIM queue follows what was issued. -/
theorem follows_front (h : Prepared config P c) (hqueue : c.cmdQueue.pimQueue = front :: rest) :
    (front.cmdType = .GWRITE → ¬ P front.addr.row) ∧ (front.cmdType = .COMPS_READRES →
      headed config (issuedPIM c.log) = some front.addr.row) := by
  have hline : pimLine c = issuedPIM c.log ++ commandKey front ::
      (rest.map commandKey ++ c.pimQueue.map transactionKey) := by
    rw [pimLine, hqueue]
    simp
  rw [h.decoded front (by rw [hqueue]; exact List.mem_cons_self)]
  exact h.announced _ _ _ hline

/-- The memory takes what is chosen. -/
theorem takes_chosen (hcount : Countable config) (hsound : Sound config c)
    (h : Prepared config P c) (hchosen : Chosen config c.channelState c.cmdQueue (some cmd) q) :
    c.device.Takes config cmd := by
  obtain ⟨src, hleads, hsource⟩ := chosen_source hsound hchosen
  intro b hb
  by_cases hgact : cmd.cmdType = .G_ACT
  · obtain ⟨hcomps, hnone, rest, hqueue⟩ := source_gact hleads.needed hsource (.inl hgact)
    have hchecked : cmd.addr.bankId ∈ cmd.checked config := by
      simp [TypedCommand.checked, hgact]
    have hin := hleads.fit.inRange _ hchecked
    have hclosed : (c.device cmd.addr.bankId).pimRow = none := by
      have hadmits : (c.device cmd.addr.bankId).Admits cmd := hleads.fit.admits _ hchecked
      simpa only [Buffers.Admits, hgact] using hadmits
    simp only [TypedCommand.touched, hgact, mem_ofBankgroup hcount, BitVec.ofNat_toNat,
      BitVec.setWidth_eq] at hb
    obtain ⟨hrank, hgroup, hbank⟩ := hb
    have hinb : b.InRange config := by
      refine ⟨?_, ?_, hbank⟩
      · rw [hrank]
        exact hin.1
      · rw [hgroup]
        exact hin.2.1
    -- the banks of a group are opened and closed together
    have hb : (c.device b).pimRow = none := by
      rcases h.opened.grouped b _ hinb hin hrank hgroup with heq | ⟨ref, href, -⟩ |
        ⟨front, hfront, htype, -⟩
      · exact heq.trans hclosed
      · rw [hnone] at href
        cases href
      · rw [hqueue] at hfront
        cases hfront
        cases hcomps.symm.trans htype
    simp only [Buffers.Takes, hgact]
    refine ⟨hb, fun hrow => h.opened.data b _ hrow ?_⟩
    rw [hleads.row (.inl hgact)]
    exact h.separated.pimQueued src (by rw [hqueue]; exact List.mem_cons_self) hcomps
  by_cases hcomps : cmd.cmdType = .COMPS_READRES
  · obtain ⟨hsrc, -, rest, hqueue⟩ := source_gact hleads.needed hsource (.inr hcomps)
    have hall : b ∈ cmd.checked config := by simpa [TypedCommand.touched, hcomps] using hb
    have hopen : (c.device b).pimRow ≠ none := by
      have hadmits : (c.device b).Admits cmd := hleads.fit.admits b hall
      simpa only [Buffers.Admits, hcomps] using hadmits
    obtain ⟨r, hr⟩ := Option.ne_none_iff_exists'.mp hopen
    have hlast := h.opened.kernel b (hleads.fit.inRange b hall) r hr
    have hfront := (follows_front h hqueue).2 hsrc
    simp only [Buffers.Takes, hcomps]
    rw [hr, hleads.addr (hcomps.trans hsrc.symm)]
    exact hlast.symm.trans hfront
  · refine Buffers.takes_of_admits hgact hcomps (hleads.fit.admits b ?_)
    unfold TypedCommand.touched at hb
    split at hb
    · exact absurd ‹_› hgact
    · exact hb

section Effect

theorem after_pimRow {d : Device} (hclose : cmd.cmdType ≠ .PIM_PRECHARGE)
    (hgact : cmd.cmdType ≠ .G_ACT) (b : BankId) : (d.after config cmd b).pimRow = (d b).pimRow := by
  simp only [Device.after]
  split
  · unfold Buffers.after
    split <;> first | rfl | contradiction
  · rfl

theorem after_row {d : Device} {b : BankId} {r : BitVec 32}
    (h : (d.after config cmd b).row = some r) :
    (d b).row = some r ∨ cmd.cmdType = .ACTIVATE ∧ r = cmd.addr.row := by
  simp only [Device.after] at h
  split at h
  · unfold Buffers.after at h
    split at h
    · exact .inr ⟨‹_›, (Option.some.inj h).symm⟩
    · cases h
    · exact .inl h
    · exact .inl h
    · exact .inl h
  · exact .inl h

/-- No row of a kernel is opened for data. -/
theorem activate_row (h : Prepared config P c) {clk : ℕ}
    (hleads : Leads config c.channelState clk src cmd) (hsource : Source c src)
    (hactivate : cmd.cmdType = .ACTIVATE) : ¬ P cmd.addr.row := by
  rw [hleads.row (.inr hactivate)]
  have hneeded := hleads.needed
  rw [hactivate] at hneeded
  cases hsource with
  | refresh ref rest hqueue htype => simp [htype, needs] at hneeded
  | queue i src hmem htype => exact h.separated.queued i src hmem
  | pim front rest hnone hqueue htype =>
    rcases htype with htype | htype | htype
    · simp [htype, needs] at hneeded
    · exact (follows_front h hqueue).1 htype
    · simp [htype, needs] at hneeded

/-- A row of a kernel is closed for a refresh of its rank, or for a header of another row. -/
theorem close_source (h : Prepared config P c) {clk : ℕ}
    (hleads : Leads config c.channelState clk src cmd) (hsource : Source c src)
    (hclose : cmd.cmdType = .PIM_PRECHARGE) :
    (∃ ref, c.channelState.refreshQ.head? = some ref ∧ ref.addr.rank = cmd.addr.rank) ∨
      ∃ front, c.cmdQueue.pimQueue.head? = some front ∧ front.cmdType = .P_HEADER ∧
        (c.device cmd.addr.bankId).pimRow ≠ some front.addr.row := by
  have hcloses : (c.device cmd.addr.bankId).Closes src := hleads.closes hclose
  have hneeded := hleads.needed
  rw [hclose] at hneeded
  cases hsource with
  | refresh ref rest hqueue htype =>
    refine .inl ⟨src, by rw [hqueue]; rfl, ?_⟩
    exact (hleads.rank (by simp [htype]) (by simp [htype])).symm
  | queue i src hmem htype =>
    -- the row of data would be open for kernels
    have hrow : (c.device cmd.addr.bankId).pimRow = some src.addr.row := by
      rcases htype with htype | htype <;> simpa only [Buffers.Closes, htype] using hcloses
    exact absurd (h.separated.banks _ _ hrow) (h.separated.queued i src hmem)
  | pim front rest hnone hqueue htype =>
    rcases htype with htype | htype | htype
    · refine .inr ⟨src, by rw [hqueue]; rfl, htype, ?_⟩
      simpa only [Buffers.Closes, htype] using hcloses
    · have hrow : (c.device cmd.addr.bankId).pimRow = some src.addr.row := by
        simpa only [Buffers.Closes, htype] using hcloses
      exact absurd (h.separated.banks _ _ hrow) ((follows_front h hqueue).1 htype)
    · simp [htype, needs] at hneeded

/-- What is open after a command other than a header. -/
theorem opened_command (hcount : Countable config) (h : Prepared config P c) {clk : ℕ}
    (hleads : Leads config c.channelState clk src cmd) (hsource : Source c src)
    (hissue : cmd.cmdType ≠ .P_HEADER) : Opened config P (c.device.after config cmd)
      (if cmd.cmdType = .REFRESH then
        c.channelState.refreshQ.eraseP fun r => r.addr.rank == cmd.addr.rank
      else c.channelState.refreshQ)
      (if cmd.cmdType.pimQCommand = true then c.cmdQueue.pimQueue.eraseP (alike cmd)
        else c.cmdQueue.pimQueue) (headed config (issuedPIM c.log)) := by
  by_cases hgact : cmd.cmdType = .G_ACT
  · obtain ⟨hcomps, hnone, rest, hqueue⟩ := source_gact hleads.needed hsource (.inl hgact)
    have hopened := h.opened
    rw [hnone, hqueue] at hopened
    simp only [hgact, hnone, hqueue, reduceCtorEq, if_false, CommandType.pimQCommand]
    refine opened_gact hcount hopened (by simp [hcomps]) hgact ?_
    rw [hleads.row (.inl hgact)]
    exact (follows_front h hqueue).2 hcomps
  by_cases hclose : cmd.cmdType = .PIM_PRECHARGE
  · have hchecked : cmd.addr.bankId ∈ cmd.checked config := by
      simp [TypedCommand.checked, hclose]
    have hopen := hleads.fit.admits _ hchecked
    simp only [Buffers.Admits, hclose] at hopen
    have hopened := opened_close h.opened hclose hopen (hleads.fit.inRange _ hchecked)
      (close_source h hleads hsource hclose)
    simpa only [hclose, reduceCtorEq, if_false, CommandType.pimQCommand] using hopened
  have hpim : ∀ b, (c.device.after config cmd b).pimRow = (c.device b).pimRow :=
    after_pimRow hclose hgact
  by_cases hrefresh : cmd.cmdType = .REFRESH
  · have hneeded := hleads.needed
    rw [hrefresh] at hneeded
    cases hsource with
    | refresh ref rest hqueue htype =>
      have haddr := hleads.addr (hrefresh.trans htype.symm)
      have hsame : c.device.after config cmd = c.device := by
        funext b
        simp [Device.after, Buffers.after, hrefresh]
      have hopened := h.opened
      rw [hqueue] at hopened
      simp only [hrefresh, if_true, reduceCtorEq, if_false, CommandType.pimQCommand, hqueue, hsame]
      rw [List.eraseP_cons_of_pos (by simp [haddr])]
      refine opened_refresh hopened ?_
      intro b hb hrank
      have hadmits := hleads.fit.admits b (by
        simp only [TypedCommand.checked, hrefresh, mem_ofRank hcount, BitVec.ofNat_toNat,
          BitVec.setWidth_eq]
        exact ⟨by rw [hrank, haddr], hb.2⟩)
      simp only [Buffers.Admits, hrefresh] at hadmits
      exact hadmits.2
    | queue i src hmem htype => rcases htype with htype | htype <;> simp [htype, needs] at hneeded
    | pim front rest hnone hqueue htype =>
      rcases htype with htype | htype | htype <;> simp [htype, needs] at hneeded
  · rw [if_neg hrefresh]
    refine opened_same h.opened hpim ?_ ?_
    · intro b r hr
      rcases after_row hr with hold | ⟨hactivate, rfl⟩
      · exact h.opened.data b r hold
      · exact activate_row h hleads hsource hactivate
    · intro front hfront htype
      split
      · -- the header in front is not what was issued
        obtain ⟨rest, hqueue⟩ : ∃ rest, c.cmdQueue.pimQueue = front :: rest :=
          List.head?_eq_some_iff.mp hfront
        rw [hqueue, List.eraseP_cons_of_neg]
        · rfl
        · intro halike
          exact hissue ((alike_iff.mp halike).2.symm.trans htype)
      · exact hfront

end Effect

end Controller

end NewPims.NewtonSim

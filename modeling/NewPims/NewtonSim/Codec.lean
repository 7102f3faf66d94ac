import NewPims.NewtonSim

/-! The memory model reads back what `make_address` and the two PIM encoders put into an
address. -/
namespace NewPims

open BitField

section Log

theorem logBase2_two_pow (k : ℕ) : logBase2 (2 ^ k) = k := by
  induction k with
  | zero =>
    rw [logBase2]
    simp
  | succ k ih =>
    have hbig : 1 < 2 ^ (k + 1) := Nat.one_lt_two_pow (Nat.succ_ne_zero k)
    rw [logBase2, if_pos hbig, Nat.pow_succ, Nat.mul_div_cancel _ (by decide), ih]

theorem logBase2_sixteen_mul {n : ℕ} (hn : 0 < n) : logBase2 (16 * n) = logBase2 n + 4 := by
  have hstep : ∀ m, 0 < m → logBase2 (2 * m) = logBase2 m + 1 := by
    intro m hm
    rw [logBase2, if_pos (by omega), Nat.mul_div_cancel_left m (by decide)]
  have h16 : 16 * n = 2 * (2 * (2 * (2 * n))) := by omega
  rw [h16, hstep _ (by omega), hstep _ (by omega), hstep _ (by omega), hstep _ hn]

/-- An `int` that is a power of two. -/
theorem logBase2Int_two_pow {k : ℕ} (hk : k < 31) :
    logBase2Int (BitVec.ofNat 32 (2 ^ k)) = k := by
  have hlt : 2 ^ k < 2 ^ 31 := Nat.pow_lt_pow_right (by decide) hk
  have hint : (BitVec.ofNat 32 (2 ^ k)).toInt = (2 ^ k : ℕ) := by
    rw [BitVec.toInt_eq_toNat_of_lt] <;> rw [BitVec.toNat_ofNat, Nat.mod_eq_of_lt] <;> omega
  rw [logBase2Int, hint, Int.toNat_natCast, logBase2_two_pow]

end Log

namespace NewtonSim

/-- The simulator and the memory model describe the same memory: `2 ^ k` channels of 32768 rows,
two ranks, four bank groups, four banks in each and 16 column units of 64 bytes. -/
structure Shared (config : SimulationConfig) (mem : Config) (k : ℕ) : Prop where
  few : k < 31
  dramChannels : config.dramChannels = 2 ^ k
  channels : mem.channels = 2 ^ k
  ranks : mem.ranks = 2
  bankgroups : mem.bankgroups = 4
  banksPerGroup : mem.banksPerGroup = 4
  rows : mem.rows = 32768
  columns : mem.columns = 16 * mem.BL
  request : mem.busWidth / 8 * mem.BL = 64
  mapping : mem.addressMapping = "rorabgbachco"

variable {config : SimulationConfig} {mem : Config} {k : ℕ}

section Layout

variable {channel rank bankgroup bank row col : BitVec 32}

theorem toNat_wide {x : BitVec 32} (hx : x.toNat < 2 ^ 31) : (x.signExtend 64).toNat = x.toNat := by
  have hmsb : x.msb = false := BitVec.msb_eq_false_iff_two_mul_lt.mpr (by omega)
  rw [BitVec.signExtend_eq_setWidth_of_msb_false hmsb, BitVec.toNat_setWidth, Nat.mod_eq_of_lt]
  omega

theorem wide_narrow {x : BitVec 32} (hx : x.toNat < 2 ^ 31) :
    (x.signExtend 64).setWidth 32 = x := by
  apply BitVec.eq_of_toNat_eq
  rw [BitVec.toNat_setWidth, toNat_wide hx, Nat.mod_eq_of_lt x.isLt]

/-- An address is its fields, one appended to the other. -/
theorem makeAddress_eq : AddressConfig.makeAddress config channel rank bankgroup bank row col =
    append (append (append (append (append (append (row.signExtend 64) 1 (rank.signExtend 64)) 2
      (bankgroup.signExtend 64)) 2 (bank.signExtend 64)) (logBase2 config.dramChannels)
      (channel.signExtend 64)) 4 ((col &&& 15).signExtend 64)) 6 0 := by
  simp [AddressConfig.makeAddress, append]

/-- The fields lie within their widths. -/
structure InRange (k : ℕ) (channel rank bankgroup bank row : BitVec 32) : Prop where
  channel : channel.toNat < 2 ^ k
  rank : rank.toNat < 2
  bankgroup : bankgroup.toNat < 4
  bank : bank.toNat < 4
  row : row.toNat < 32768

theorem column_lt (col : BitVec 32) : (col &&& 15).toNat < 2 ^ 4 := by
  rw [BitVec.toNat_and]
  exact Nat.and_lt_two_pow _ (by decide)

/-- The fields of an address, at the positions of the mapping. -/
theorem field_makeAddress (col : BitVec 32) (hk : k < 31) (hconfig : config.dramChannels = 2 ^ k)
    (h : InRange k channel rank bankgroup bank row) :
    let addr := AddressConfig.makeAddress config channel rank bankgroup bank row col
    field addr 6 4 = (col &&& 15).signExtend 64 ∧ field addr 10 k = channel.signExtend 64 ∧
      field addr (10 + k) 2 = bank.signExtend 64 ∧ field addr (12 + k) 2 = bankgroup.signExtend 64 ∧
      field addr (14 + k) 1 = rank.signExtend 64 ∧ field addr (15 + k) 15 = row.signExtend 64 := by
  have hwide : 2 ^ k < 2 ^ 31 := Nat.pow_lt_pow_right (by decide) hk
  have hch := toNat_wide (Nat.lt_trans h.channel hwide)
  have hra := toNat_wide (Nat.lt_trans h.rank (by decide))
  have hbg := toNat_wide (Nat.lt_trans h.bankgroup (by decide))
  have hba := toNat_wide (Nat.lt_trans h.bank (by decide))
  have hro := toNat_wide (Nat.lt_trans h.row (by decide))
  have hco := toNat_wide (Nat.lt_trans (column_lt col) (by decide))
  -- the bounds under which each field can be appended to those above it
  have h1 : (row.signExtend 64).toNat < 2 ^ 15 := by rw [hro]; exact h.row
  have v1 : (rank.signExtend 64).toNat < 2 ^ 1 := by rw [hra]; exact h.rank
  have v2 : (bankgroup.signExtend 64).toNat < 2 ^ 2 := by rw [hbg]; exact h.bankgroup
  have v3 : (bank.signExtend 64).toNat < 2 ^ 2 := by rw [hba]; exact h.bank
  have v4 : (channel.signExtend 64).toNat < 2 ^ k := by rw [hch]; exact h.channel
  have v5 : ((col &&& 15).signExtend 64).toNat < 2 ^ 4 := by rw [hco]; exact column_lt col
  have v6 : (0 : BitVec 64).toNat < 2 ^ 6 := by decide
  have h2 := append_lt h1 v1 (by omega)
  have h3 := append_lt h2 v2 (by omega)
  have h4 := append_lt h3 v3 (by omega)
  have h5 := append_lt h4 v4 (by omega)
  have h6 := append_lt h5 v5 (by omega)
  -- reading a field skips those below it
  have r6 := field_append_high h6 v6 (by omega)
  have r5 := field_append_high h5 v5 (by omega)
  have r4 := field_append_high h4 v4 (by omega)
  have r3 := field_append_high h3 v3 (by omega)
  have r2 := field_append_high h2 v2 (by omega)
  have r1 := field_append_high h1 v1 (by omega)
  rw [makeAddress_eq, hconfig, logBase2_two_pow]
  refine ⟨?_, ?_, ?_, ?_, ?_, ?_⟩
  · exact (r6 0 4 (by omega)).trans (field_append_low h5 v5 (by omega))
  · refine (r6 4 k (by omega)).trans ?_
    exact (r5 0 k (by omega)).trans (field_append_low h4 v4 (by omega))
  · rw [show 10 + k = 6 + (4 + (k + 0)) by omega, r6 _ 2 (by omega), r5 _ 2 (by omega),
      r4 _ 2 (by omega)]
    exact field_append_low h3 v3 (by omega)
  · rw [show 12 + k = 6 + (4 + (k + (2 + 0))) by omega, r6 _ 2 (by omega), r5 _ 2 (by omega),
      r4 _ 2 (by omega), r3 _ 2 (by omega)]
    exact field_append_low h2 v2 (by omega)
  · rw [show 14 + k = 6 + (4 + (k + (2 + (2 + 0)))) by omega, r6 _ 1 (by omega),
      r5 _ 1 (by omega), r4 _ 1 (by omega), r3 _ 1 (by omega), r2 _ 1 (by omega)]
    exact field_append_low h1 v1 (by omega)
  · rw [show 15 + k = 6 + (4 + (k + (2 + (2 + (1 + 0))))) by omega, r6 _ 15 (by omega),
      r5 _ 15 (by omega), r4 _ 15 (by omega), r3 _ 15 (by omega), r2 _ 15 (by omega),
      r1 _ 15 (by omega)]
    exact field_of_lt h1 (by omega)

end Layout

section Mapping

theorem fields_mapping :
    Config.fields "rorabgbachco".toList = ["ro", "ra", "bg", "ba", "ch", "co"] := by
  decide

theorem fieldWidths_shared (h : Shared config mem k) :
    mem.fieldWidths "ch" = k ∧ mem.fieldWidths "ra" = 1 ∧ mem.fieldWidths "bg" = 2 ∧
      mem.fieldWidths "ba" = 2 ∧ mem.fieldWidths "ro" = 15 ∧ mem.fieldWidths "co" = 4 := by
  have hBL : 0 < mem.BL := by
    apply Nat.pos_of_ne_zero
    intro hzero
    have := h.request
    rw [hzero] at this
    omega
  refine ⟨?_, ?_, ?_, ?_, ?_, ?_⟩
  · exact (congrArg logBase2 h.channels).trans (logBase2_two_pow k)
  · exact (congrArg logBase2 h.ranks).trans (logBase2_two_pow 1)
  · exact (congrArg logBase2 h.bankgroups).trans (logBase2_two_pow 2)
  · exact (congrArg logBase2 h.banksPerGroup).trans (logBase2_two_pow 2)
  · exact (congrArg logBase2 h.rows).trans (logBase2_two_pow 15)
  · change logBase2 mem.columns - logBase2 mem.BL = 4
    rw [h.columns, logBase2_sixteen_mul hBL]
    omega

theorem shiftBits_shared (h : Shared config mem k) : mem.shiftBits = 6 :=
  (congrArg logBase2 h.request).trans (logBase2_two_pow 6)

theorem pos_shared (h : Shared config mem k) :
    mem.pos "co" = 0 ∧ mem.pos "ch" = 4 ∧ mem.pos "ba" = 4 + k ∧ mem.pos "bg" = 6 + k ∧
      mem.pos "ra" = 8 + k ∧ mem.pos "ro" = 9 + k := by
  obtain ⟨hch, hra, hbg, hba, -, hco⟩ := fieldWidths_shared h
  simp only [Config.pos, h.mapping, fields_mapping, Config.fieldPos]
  refine ⟨?_, ?_, ?_, ?_, ?_, ?_⟩ <;> simp [hch, hra, hbg, hba, hco] <;> omega

variable {channel rank bankgroup bank row col : BitVec 32}

/-- The memory model reads an address as `make_address` put it together. -/
theorem addressOf_makeAddress (col : BitVec 32) (h : Shared config mem k)
    (hrange : InRange k channel rank bankgroup bank row) :
    mem.addressOf (AddressConfig.makeAddress config channel rank bankgroup bank row col) =
      ⟨channel, rank, bankgroup, bank, row, col &&& 15⟩ := by
  obtain ⟨fco, fch, fba, fbg, fra, fro⟩ := field_makeAddress col h.few h.dramChannels hrange
  obtain ⟨wch, wra, wbg, wba, wro, wco⟩ := fieldWidths_shared h
  obtain ⟨pco, pch, pba, pbg, pra, pro⟩ := pos_shared h
  have hwide : 2 ^ k < 2 ^ 31 := Nat.pow_lt_pow_right (by decide) h.few
  simp only [Config.addressOf, Config.fieldOf, shiftBits_shared h, field_shiftRight, wch, wra, wbg,
    wba, wro, wco, pco, pch, pba, pbg, pra, pro]
  rw [show 6 + (4 + k) = 10 + k by omega, show 6 + (6 + k) = 12 + k by omega,
    show 6 + (8 + k) = 14 + k by omega, show 6 + (9 + k) = 15 + k by omega]
  rw [fco, fch, fba, fbg, fra, fro, wide_narrow (Nat.lt_trans (column_lt col) (by decide)),
    wide_narrow (Nat.lt_trans hrange.channel hwide),
    wide_narrow (Nat.lt_trans hrange.rank (by decide)),
    wide_narrow (Nat.lt_trans hrange.bankgroup (by decide)),
    wide_narrow (Nat.lt_trans hrange.bank (by decide)),
    wide_narrow (Nat.lt_trans hrange.row (by decide))]

/-- The simulator's own channel mask agrees. -/
theorem maskChannel_makeAddress (hk : k < 31) (hconfig : config.dramChannels = 2 ^ k)
    (hrange : InRange k channel rank bankgroup bank row) :
    AddressConfig.maskChannel config
      (AddressConfig.makeAddress config channel rank bankgroup bank row col) = channel.toNat := by
  have hwide : 2 ^ k < 2 ^ 31 := Nat.pow_lt_pow_right (by decide) hk
  have hfield := (field_makeAddress col hk hconfig hrange).2.1
  unfold AddressConfig.maskChannel AddressConfig.channelMask
  rw [hconfig]
  exact (congrArg BitVec.toNat hfield).trans (toNat_wide (Nat.lt_trans hrange.channel hwide))

end Mapping

section Numbers

theorem logBase2_lt {n m : ℕ} (h : n < 2 ^ (m + 1)) : logBase2 n < m + 1 := by
  induction m generalizing n with
  | zero =>
    rw [logBase2, if_neg (by omega)]
    omega
  | succ m ih =>
    rw [logBase2]
    split_ifs with hbig
    · have : n / 2 < 2 ^ (m + 1) := by
        rw [Nat.pow_succ] at h
        omega
      have := ih this
      omega
    · omega

theorem logBase2Int_lt_of_lt {c : BitVec 32} (h : c.toInt < 256) : logBase2Int c < 8 :=
  logBase2_lt (m := 7) (by omega)

theorem logBase2Int_lt (r : BitVec 32) : logBase2Int r < 31 := by
  have := BitVec.toInt_lt (x := r)
  exact logBase2_lt (m := 30) (by omega)

/-- The four parts of a number of computations, and the number that they make up. -/
theorem comps_parts (m : Fin 32) :
    let n : BitVec 32 := BitVec.ofNat 32 (m + 1) - 1
    n.slt (1 <<< 5) ∧ (n.sshiftRight 4).toNat < 2 ∧ (n.sshiftRight 2 &&& 3).toNat < 4 ∧
      (n &&& 3).toNat < 4 ∧
      n.sshiftRight 4 * BitVec.ofNat 32 4 * BitVec.ofNat 32 4 +
        (n.sshiftRight 2 &&& 3) * BitVec.ofNat 32 4 + (n &&& 3) + 1 = BitVec.ofNat 32 (m + 1) := by
  revert m
  decide

/-- The parts of the logarithm of a number of results. -/
theorem readres_parts (j : Fin 31) :
    (BitVec.ofNat 32 (j / 16)).toNat < 2 ∧ (BitVec.ofNat 32 (j / 4) &&& 3).toNat < 4 ∧
      (BitVec.ofNat 32 (j % 4)).toNat < 4 ∧
      BitVec.ofNat 32 (j / 16) * BitVec.ofNat 32 4 * BitVec.ofNat 32 4 +
        (BitVec.ofNat 32 (j / 4) &&& 3) * BitVec.ofNat 32 4 + BitVec.ofNat 32 (j % 4) =
        BitVec.ofNat 32 j ∧
      (1 : BitVec 32) <<< BitVec.ofNat 32 j = BitVec.ofNat 32 (2 ^ (j : ℕ)) := by
  revert j
  decide

/-- The column of a header. -/
def headerColumn (forGwrite : Bool) (i : ℕ) : BitVec 32 :=
  ((if forGwrite then 1 else 0 : BitVec 32) <<< 3) + BitVec.ofNat 32 i

theorem headerColumn_parts (i : Fin 8) (g : Bool) :
    headerColumn g i &&& 15 = headerColumn g i ∧
      ((headerColumn g i).sshiftRight 3 = 1 ↔ g = true) ∧
      (g = false → (1 : BitVec 32) <<< (headerColumn g i &&& ~~~ ((-1 : BitVec 32) <<< 3)) =
        BitVec.ofNat 32 (2 ^ (i : ℕ))) := by
  revert i g
  decide

theorem headerColumn_inj {i j : Fin 8} {g g' : Bool} (h : headerColumn g i = headerColumn g' j) :
    g = g' ∧ i = j := by
  revert i j g g'
  decide

end Numbers

section Decode

variable {channel row : BitVec 32}

/-- The address of a header, read by the memory model. -/
theorem addressOf_encodePimHeader (h : Shared config mem k) (hch : channel.toNat < 2 ^ k)
    (hrow : row.toNat < 32768) (g : Bool) {c : BitVec 32} (hc : c.toInt < 256) (r : BitVec 32) :
    mem.addressOf (AddressConfig.encodePimHeader config channel row g c r) =
      ⟨channel, BitVec.ofNat 32 (logBase2Int r / 16), BitVec.ofNat 32 (logBase2Int r / 4) &&& 3,
        BitVec.ofNat 32 (logBase2Int r % 4), row, headerColumn g (logBase2Int c)⟩ := by
  obtain ⟨hrank, hbankgroup, hbank, -, -⟩ := readres_parts ⟨logBase2Int r, logBase2Int_lt r⟩
  have hcolumn := (headerColumn_parts ⟨logBase2Int c, logBase2Int_lt_of_lt hc⟩ g).1
  refine (addressOf_makeAddress _ h ⟨hch, hrank, hbankgroup, hbank, hrow⟩).trans ?_
  exact congrArg (Address.mk _ _ _ _ _) hcolumn

theorem decodePIMHeader_encode (h : Shared config mem k) (hch : channel.toNat < 2 ^ k)
    (hrow : row.toNat < 32768) {c : BitVec 32} (hc : c.toInt < 256) (r : BitVec 32) :
    ∃ cmd, decodePIMHeader mem (AddressConfig.encodePimHeader config channel row false c r) = .ok cmd ∧
      cmd.addr.channel = channel ∧ cmd.addr.row = row ∧ cmd.forGwrite = false ∧
      cmd.numComps = BitVec.ofNat 32 (2 ^ logBase2Int c) ∧
      cmd.numReadres = some (BitVec.ofNat 32 (2 ^ logBase2Int r)) := by
  have haddr := addressOf_encodePimHeader h hch hrow false hc r
  obtain ⟨-, hflag, hcomps⟩ := headerColumn_parts ⟨logBase2Int c, logBase2Int_lt_of_lt hc⟩ false
  obtain ⟨-, -, -, hindex, hshift⟩ := readres_parts ⟨logBase2Int r, logBase2Int_lt r⟩
  have hcol : mem.actualColBits - 1 = 3 := by
    rw [show mem.actualColBits = 4 from (fieldWidths_shared h).2.2.2.2.2]
  simp only at hflag hcomps hindex hshift
  simp only [decodePIMHeader, haddr, hcol]
  rw [if_neg fun hone => absurd (hflag.mp hone) (by decide)]
  refine ⟨_, rfl, rfl, rfl, rfl, hcomps trivial, ?_⟩
  simp only [bankIndex, h.bankgroups, h.banksPerGroup, hindex, hshift]

/-- The header of a gwrite is refused. -/
theorem decodePIMHeader_gwrite (h : Shared config mem k) (hch : channel.toNat < 2 ^ k)
    (hrow : row.toNat < 32768) {c : BitVec 32} (hc : c.toInt < 256) (r : BitVec 32) :
    decodePIMHeader mem (AddressConfig.encodePimHeader config channel row true c r) =
      .error .abruptExit := by
  have haddr := addressOf_encodePimHeader h hch hrow true hc r
  obtain ⟨-, hflag, -⟩ := headerColumn_parts ⟨logBase2Int c, logBase2Int_lt_of_lt hc⟩ true
  have hcol : mem.actualColBits - 1 = 3 := by
    rw [show mem.actualColBits = 4 from (fieldWidths_shared h).2.2.2.2.2]
  simp only at hflag
  simp only [decodePIMHeader, haddr, hcol]
  exact if_pos (hflag.mpr trivial)

theorem decodePIMTransaction_encode (h : Shared config mem k) (hch : channel.toNat < 2 ^ k)
    (hrow : row.toNat < 32768) {n : BitVec 32} (hpos : 1 ≤ n.toNat) (hn : n.toNat ≤ 32)
    (last : Bool) :
    ∃ addr, AddressConfig.encodePimCompsReadres config channel row n last = .ok addr ∧
      let cmd := decodePIMTransaction mem addr
      cmd.addr.channel = channel ∧ cmd.addr.row = row ∧ cmd.numComps = n ∧
        cmd.isLastComps = last := by
  obtain ⟨hless, hrank, hbankgroup, hbank, hindex⟩ := comps_parts ⟨n.toNat - 1, by omega⟩
  have hofNat : BitVec.ofNat 32 (n.toNat - 1 + 1) = n := by
    rw [Nat.sub_add_cancel hpos, BitVec.ofNat_toNat, BitVec.setWidth_eq]
  simp only [hofNat] at hless hrank hbankgroup hbank hindex
  have haddr := addressOf_makeAddress (if last then 1 else 0) h
    ⟨hch, hrank, hbankgroup, hbank, hrow⟩
  refine ⟨_, if_pos hless, ?_⟩
  simp only [decodePIMTransaction]
  erw [haddr]
  refine ⟨rfl, rfl, ?_, ?_⟩
  · simp only [bankIndex, h.bankgroups, h.banksPerGroup]
    exact hindex
  · cases last <;> rfl

end Decode

section Codec

variable {channel channel' row row' : BitVec 32}

/-- Commands of numbers that are powers of two. -/
theorem encodePimHeader_inj (h : Shared config mem k) (hch : channel.toNat < 2 ^ k)
    (hrow : row.toNat < 32768) (hch' : channel'.toNat < 2 ^ k) (hrow' : row'.toNat < 32768)
    {g g' : Bool} {i j i' j' : ℕ} (hi : i ≤ 7) (hj : j ≤ 30) (hi' : i' ≤ 7) (hj' : j' ≤ 30)
    (heq : AddressConfig.encodePimHeader config channel row g (BitVec.ofNat 32 (2 ^ i))
        (BitVec.ofNat 32 (2 ^ j)) =
      AddressConfig.encodePimHeader config channel' row' g' (BitVec.ofNat 32 (2 ^ i'))
        (BitVec.ofNat 32 (2 ^ j'))) :
    channel = channel' ∧ row = row' ∧ g = g' ∧ i = i' ∧ j = j' := by
  have hsmall : ∀ {a}, a ≤ 7 → (BitVec.ofNat 32 (2 ^ a)).toInt < 256 := by
    intro a ha
    have hpow : 2 ^ a ≤ 2 ^ 7 := Nat.pow_le_pow_right (by decide) ha
    rw [BitVec.toInt_eq_toNat_of_lt] <;> rw [BitVec.toNat_ofNat, Nat.mod_eq_of_lt] <;> omega
  have haddr := congrArg mem.addressOf heq
  rw [addressOf_encodePimHeader h hch hrow g (hsmall hi),
    addressOf_encodePimHeader h hch' hrow' g' (hsmall hi'),
    logBase2Int_two_pow (by omega), logBase2Int_two_pow (by omega),
    logBase2Int_two_pow (by omega), logBase2Int_two_pow (by omega)] at haddr
  injection haddr with hchannel hrank hbankgroup hbank hrows hcolumn
  obtain ⟨hg, hcomps⟩ := headerColumn_inj (i := ⟨i, by omega⟩) (j := ⟨i', by omega⟩) hcolumn
  have hindex := (readres_parts ⟨j, by omega⟩).2.2.2.1
  simp only [hrank, hbankgroup, hbank, (readres_parts ⟨j', by omega⟩).2.2.2.1] at hindex
  have hreadres := congrArg BitVec.toNat hindex
  rw [BitVec.toNat_ofNat, BitVec.toNat_ofNat, Nat.mod_eq_of_lt (by omega),
    Nat.mod_eq_of_lt (by omega)] at hreadres
  exact ⟨hchannel, hrows, hg, congrArg Fin.val hcomps, hreadres.symm⟩

/-- The memory model inverts the addresses and the PIM commands of the simulator, but for the
headers of gwrites, and two different commands of one kind have different addresses. -/
theorem codec_inverts (channel row : BitVec 32) (h : Shared config mem k) (hch : channel.toNat < 2 ^ k)
    (hrow : row.toNat < 32768) :
    (∀ rank bankgroup bank col : BitVec 32, rank.toNat < 2 → bankgroup.toNat < 4 →
      bank.toNat < 4 → col.toNat < 16 →
      let addr := AddressConfig.makeAddress config channel rank bankgroup bank row col
      mem.addressOf addr = ⟨channel, rank, bankgroup, bank, row, col⟩ ∧
        AddressConfig.maskChannel config addr = channel.toNat) ∧
    (∀ (n : BitVec 32) (last : Bool), 1 ≤ n.toNat → n.toNat ≤ 32 →
      ∃ addr, AddressConfig.encodePimCompsReadres config channel row n last = .ok addr ∧
        let cmd := decodePIMTransaction mem addr
        cmd.addr.channel = channel ∧ cmd.addr.row = row ∧ cmd.numComps = n ∧
          cmd.isLastComps = last) ∧
    (∀ c r : BitVec 32, c.toInt < 256 →
      (∃ cmd, decodePIMHeader mem (AddressConfig.encodePimHeader config channel row false c r) =
          .ok cmd ∧ cmd.addr.channel = channel ∧ cmd.addr.row = row ∧ cmd.forGwrite = false ∧
        ∀ i j, i ≤ 7 → j ≤ 30 → c = BitVec.ofNat 32 (2 ^ i) → r = BitVec.ofNat 32 (2 ^ j) →
          cmd.numComps = c ∧ cmd.numReadres = some r) ∧
      decodePIMHeader mem (AddressConfig.encodePimHeader config channel row true c r) =
        .error .abruptExit) ∧
    (∀ channel' row' : BitVec 32, channel'.toNat < 2 ^ k → row'.toNat < 32768 →
      (∀ (n n' : BitVec 32) (last last' : Bool), 1 ≤ n.toNat → n.toNat ≤ 32 → 1 ≤ n'.toNat →
        n'.toNat ≤ 32 →
        AddressConfig.encodePimCompsReadres config channel row n last =
          AddressConfig.encodePimCompsReadres config channel' row' n' last' →
        channel = channel' ∧ row = row' ∧ n = n' ∧ last = last') ∧
      ∀ (g g' : Bool) (i j i' j' : ℕ), i ≤ 7 → j ≤ 30 → i' ≤ 7 → j' ≤ 30 →
        AddressConfig.encodePimHeader config channel row g (BitVec.ofNat 32 (2 ^ i))
            (BitVec.ofNat 32 (2 ^ j)) =
          AddressConfig.encodePimHeader config channel' row' g' (BitVec.ofNat 32 (2 ^ i'))
            (BitVec.ofNat 32 (2 ^ j')) →
        channel = channel' ∧ row = row' ∧ g = g' ∧ i = i' ∧ j = j') := by
  refine ⟨?_, ?_, ?_, ?_⟩
  · intro rank bankgroup bank col hrank hbankgroup hbank hcol
    have hrange : InRange k channel rank bankgroup bank row := ⟨hch, hrank, hbankgroup, hbank, hrow⟩
    refine ⟨?_, maskChannel_makeAddress h.few h.dramChannels hrange⟩
    rw [addressOf_makeAddress col h hrange]
    refine congrArg (Address.mk _ _ _ _ _) ?_
    apply BitVec.eq_of_toNat_eq
    rw [BitVec.toNat_and]
    exact (Nat.and_two_pow_sub_one_eq_mod col.toNat 4).trans (Nat.mod_eq_of_lt hcol)
  · exact fun n last hpos hn => decodePIMTransaction_encode h hch hrow hpos hn last
  · intro c r hc
    refine ⟨?_, decodePIMHeader_gwrite h hch hrow hc r⟩
    obtain ⟨cmd, hok, hchannel, hrows, hflag, hcomps, hreadres⟩ :=
      decodePIMHeader_encode h hch hrow hc r
    refine ⟨cmd, hok, hchannel, hrows, hflag, ?_⟩
    intro i j hi hj hci hrj
    have hlogc : logBase2Int c = i := by rw [hci, logBase2Int_two_pow (by omega)]
    have hlogr : logBase2Int r = j := by rw [hrj, logBase2Int_two_pow (by omega)]
    rw [hlogc] at hcomps
    rw [hlogr] at hreadres
    exact ⟨hcomps.trans hci.symm, hreadres.trans (congrArg some hrj.symm)⟩
  · intro channel' row' hch' hrow'
    refine ⟨?_, ?_⟩
    · intro n n' last last' hpos hn hpos' hn' heq
      obtain ⟨addr, haddr, h1, h2, h3, h4⟩ := decodePIMTransaction_encode h hch hrow hpos hn last
      obtain ⟨addr', haddr', h1', h2', h3', h4'⟩ :=
        decodePIMTransaction_encode h hch' hrow' hpos' hn' last'
      rw [haddr, haddr', Except.ok.injEq] at heq
      subst heq
      exact ⟨h1.symm.trans h1', h2.symm.trans h2', h3.symm.trans h3', h4.symm.trans h4'⟩
    · intro g g' i j i' j' hi hj hi' hj' heq
      exact encodePimHeader_inj h hch hrow hch' hrow' hi hj hi' hj' heq

/-- The memory of `sampleConfig`. -/
def sampleMemory : Config where
  channels := 2
  ranks := 2
  bankgroups := 4
  banksPerGroup := 4
  rows := 32768
  columns := 64
  BL := 4
  busWidth := 128
  addressMapping := "rorabgbachco"

theorem shared_sample : Shared sampleConfig sampleMemory 1 := by
  constructor <;> decide

theorem codec_inverts_sample :
    ∃ addr, AddressConfig.encodePimCompsReadres sampleConfig 1 32767 32 true = .ok addr ∧
      (decodePIMTransaction sampleMemory addr).addr.row = 32767 := by
  have h := (codec_inverts 1 32767 shared_sample (by decide) (by decide)).2.1
  obtain ⟨addr, haddr, -, hrow, -⟩ := h 32 true (by decide) (by decide)
  exact ⟨addr, haddr, hrow⟩

/-- A header and a computation may share an address, and the header of a gwrite is not decoded. -/
theorem codec_shares_address :
    AddressConfig.encodePimCompsReadres sampleConfig 0 0 1 false =
        .ok (AddressConfig.encodePimHeader sampleConfig 0 0 false 1 1) ∧
      decodePIMHeader sampleMemory (AddressConfig.encodePimHeader sampleConfig 0 0 true 1 1) =
        .error .abruptExit := by
  have hlog : logBase2Int 1 = 0 := logBase2Int_two_pow (k := 0) (by decide)
  refine ⟨?_, ?_⟩
  · simp only [AddressConfig.encodePimCompsReadres, AddressConfig.encodePimHeader, hlog]
    rfl
  · exact decodePIMHeader_gwrite shared_sample (by decide) (by decide) (by decide) 1

end Codec

end NewtonSim

end NewPims

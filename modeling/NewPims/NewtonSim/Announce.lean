import Mathlib.Data.Nat.Log
import NewPims.NewtonSim.Codec
import NewPims.Operations.Layout

/-! How much work the header of a PIM kernel announces. The numbers go through logarithms that are
rounded down, so they come back smaller unless they are powers of two. -/
namespace NewPims.NewtonSim

open BitField

variable {config : SimulationConfig} {mem : Config} {k comps reads : ℕ} {channel row : BitVec 32}

/-- The header in an address is decoded, and announces at least the given numbers. -/
def Covers (mem : Config) (addr : AddrType) (comps reads : ℕ) : Prop :=
  ∃ cmd, decodePIMHeader mem addr = .ok cmd ∧
    comps ≤ cmd.numComps.toNat ∧ ∀ r ∈ cmd.numReadres, reads ≤ r.toNat

/-- The numbers are powers of two that the fields of a header hold, the second one within the
first 32 bits of its address. -/
def Announceable (k comps reads : ℕ) : Prop :=
  (∃ i, i ≤ 7 ∧ comps = 2 ^ i) ∧ ∃ j, reads = 2 ^ j ∧ j * 2 ^ (10 + k) < 2 ^ 32

section Fields

def columnOf (addr : AddrType) : ℕ := addr.toNat / 2 ^ 6 % 2 ^ 4

/-- Bank, bank group and rank. -/
def bankOf (k : ℕ) (addr : AddrType) : ℕ := addr.toNat / 2 ^ (10 + k) % 2 ^ 5

theorem column_decode (c : Fin 16) :
    let column : BitVec 32 := BitVec.ofNat 32 c
    (column.sshiftRight 3 = 1 ↔ 8 ≤ (c : ℕ)) ∧
      ((c : ℕ) < 8 →
        ((1 : BitVec 32) <<< (column &&& ~~~ ((-1 : BitVec 32) <<< 3))).toNat = 2 ^ (c : ℕ)) := by
  revert c
  decide

theorem bank_decode (j : Fin 32) : ((1 : BitVec 32) <<< BitVec.ofNat 32 j).toNat = 2 ^ (j : ℕ) := by
  revert j
  decide

theorem bank_encode (j : Fin 31) : (BitVec.ofNat 32 (j / 16)).toNat * 16 +
    (BitVec.ofNat 32 (j / 4) &&& 3).toNat * 4 + (BitVec.ofNat 32 (j % 4)).toNat = j := by
  revert j
  decide

theorem column_encode (j : Fin 31) :
    (((0 <<< 3 : BitVec 32) + BitVec.ofNat 32 j) &&& 15).toNat = j % 16 := by
  revert j
  decide

theorem fieldOf_toNat {x : AddrType} {token : String} {pos width : ℕ}
    (hpos : mem.pos token = pos) (hwidth : mem.fieldWidths token = width) (hle : width ≤ 32) :
    (mem.fieldOf (x >>> 6) token).toNat = x.toNat / 2 ^ (6 + pos) % 2 ^ width := by
  have hpow := Nat.pow_le_pow_right (show 0 < 2 by decide) hle
  have hlt := Nat.mod_lt (x.toNat / 2 ^ (6 + pos)) (Nat.two_pow_pos width)
  rw [Config.fieldOf, hpos, hwidth, field_shiftRight, BitVec.toNat_setWidth,
    toNat_field (by omega), Nat.mod_eq_of_lt (by omega)]

theorem bankOf_parts (addr : AddrType) : bankOf k addr =
    addr.toNat / 2 ^ (14 + k) % 2 * 16 + addr.toNat / 2 ^ (12 + k) % 4 * 4 +
      addr.toNat / 2 ^ (10 + k) % 4 := by
  have hhigh : addr.toNat / 2 ^ (14 + k) = addr.toNat / 2 ^ (10 + k) / 2 ^ 4 := by
    rw [Nat.div_div_eq_div_mul, ← Nat.pow_add, show 14 + k = 10 + k + 4 by omega]
  have hmid : addr.toNat / 2 ^ (12 + k) = addr.toNat / 2 ^ (10 + k) / 2 ^ 2 := by
    rw [Nat.div_div_eq_div_mul, ← Nat.pow_add, show 12 + k = 10 + k + 2 by omega]
  rw [bankOf, hhigh, hmid]
  omega

/-- The header in any address. -/
theorem decodePIMHeader_fields (h : Shared config mem k) (addr : AddrType) :
    (∀ cmd, decodePIMHeader mem addr = .ok cmd → columnOf addr < 8) ∧
      (columnOf addr < 8 → ∃ cmd r, decodePIMHeader mem addr = .ok cmd ∧
        cmd.numComps.toNat = 2 ^ columnOf addr ∧ cmd.numReadres = some r ∧
        r.toNat = 2 ^ bankOf k addr) := by
  obtain ⟨-, wra, wbg, wba, -, wco⟩ := fieldWidths_shared h
  obtain ⟨pco, -, pba, pbg, pra, -⟩ := pos_shared h
  have hcolumn : (mem.addressOf addr).column = BitVec.ofNat 32 (columnOf addr) := by
    have hlt := Nat.mod_lt (addr.toNat / 2 ^ 6) (Nat.two_pow_pos 4)
    apply BitVec.eq_of_toNat_eq
    rw [Config.addressOf, shiftBits_shared h, BitVec.toNat_ofNat, columnOf,
      Nat.mod_eq_of_lt (by omega)]
    exact fieldOf_toNat pco wco (by decide)
  have hbank : bankIndex mem (mem.addressOf addr) = BitVec.ofNat 32 (bankOf k addr) := by
    have hra := fieldOf_toNat (x := addr) pra wra (by decide)
    have hbg := fieldOf_toNat (x := addr) pbg wbg (by decide)
    have hba := fieldOf_toNat (x := addr) pba wba (by decide)
    rw [show 6 + (8 + k) = 14 + k by omega] at hra
    rw [show 6 + (6 + k) = 12 + k by omega] at hbg
    rw [show 6 + (4 + k) = 10 + k by omega] at hba
    have hfour : (4 : BitVec 32).toNat = 4 := rfl
    apply BitVec.eq_of_toNat_eq
    rw [bankIndex, h.bankgroups, h.banksPerGroup, Config.addressOf, shiftBits_shared h, bankOf_parts]
    simp only [BitVec.toNat_add, BitVec.toNat_mul, BitVec.toNat_ofNat, hra, hbg, hba]
    omega
  have hcol : mem.actualColBits - 1 = 3 := by
    rw [show mem.actualColBits = 4 from wco]
  obtain ⟨hflag, hcomps⟩ := column_decode ⟨columnOf addr, Nat.mod_lt _ (Nat.two_pow_pos 4)⟩
  have hreadres := bank_decode ⟨bankOf k addr, Nat.mod_lt _ (Nat.two_pow_pos 5)⟩
  simp only [decodePIMHeader, hcolumn, hcol, hbank]
  by_cases hg : 8 ≤ columnOf addr
  · rw [if_pos (hflag.mpr hg)]
    exact ⟨fun cmd hok => (by cases hok), fun hless => absurd hless (by omega)⟩
  · rw [if_neg fun hone => hg (hflag.mp hone)]
    exact ⟨fun _ _ => by omega, fun hless => ⟨_, _, rfl, hcomps hless, rfl, hreadres⟩⟩

theorem encodePimHeader_fields (h : Shared config mem k) (hch : channel.toNat < 2 ^ k)
    (hrow : row.toNat < 32768) (c r : BitVec 32) :
    let addr := AddressConfig.encodePimHeader config channel row false c r
    columnOf addr = logBase2Int c % 16 ∧ bankOf k addr = logBase2Int r := by
  obtain ⟨hrank, hbankgroup, hbank, -, -⟩ := readres_parts ⟨logBase2Int r, logBase2Int_lt r⟩
  have hbanks := bank_encode ⟨logBase2Int r, logBase2Int_lt r⟩
  have hlog := logBase2Int_lt c
  obtain ⟨fco, -, fba, fbg, fra, -⟩ := field_makeAddress
    ((0 <<< 3 : BitVec 32) + BitVec.ofNat 32 (logBase2Int c)) h.few h.dramChannels
    ⟨hch, hrank, hbankgroup, hbank, hrow⟩
  have hco := congrArg BitVec.toNat fco
  have hba := congrArg BitVec.toNat fba
  have hbg := congrArg BitVec.toNat fbg
  have hra := congrArg BitVec.toNat fra
  rw [toNat_field (by decide), toNat_wide (Nat.lt_trans (column_lt _) (by decide))] at hco
  rw [toNat_field (by decide), toNat_wide (Nat.lt_trans hbank (by decide))] at hba
  rw [toNat_field (by decide), toNat_wide (Nat.lt_trans hbankgroup (by decide))] at hbg
  rw [toNat_field (by decide), toNat_wide (Nat.lt_trans hrank (by decide))] at hra
  refine ⟨hco.trans (column_encode ⟨_, hlog⟩), ?_⟩
  rw [bankOf_parts]
  refine Eq.trans ?_ hbanks
  exact congrArg₂ (· + ·) (congrArg₂ (· + ·) (congrArg (· * 16) hra) (congrArg (· * 4) hbg)) hba

/-- What is left of the fields in 32 bits of an address. -/
theorem truncate_fields (addr : AddrType) :
    let short := (addr.setWidth 32).setWidth 64
    columnOf short = columnOf addr ∧ bankOf k short ≤ bankOf k addr ∧
      (bankOf k short = bankOf k addr ↔ bankOf k addr * 2 ^ (10 + k) < 2 ^ 32) := by
  have hshort : ((addr.setWidth 32).setWidth 64).toNat = addr.toNat % 2 ^ 32 := by
    have := Nat.mod_lt addr.toNat (Nat.two_pow_pos 32)
    rw [BitVec.toNat_setWidth, BitVec.toNat_setWidth, Nat.mod_eq_of_lt (by omega)]
  simp only [columnOf, bankOf, hshort]
  exact ⟨by omega, truncate_field_le, truncate_field_iff⟩

end Fields

section Numbers

/-- A logarithm rounded down gives the number back only if it is a power of two. -/
theorem le_two_pow_iff {n e : ℕ} (hn : n ≠ 0) (he : e ≤ Nat.log 2 n) :
    n ≤ 2 ^ e ↔ e = Nat.log 2 n ∧ n = 2 ^ Nat.log 2 n := by
  have hlow := Nat.pow_log_le_self 2 hn
  constructor
  · intro h
    have hle : Nat.log 2 n ≤ e := (Nat.pow_le_pow_iff_right (by decide)).mp (Nat.le_trans hlow h)
    have heq := Nat.le_antisymm he hle
    refine ⟨heq, Nat.le_antisymm ?_ hlow⟩
    rwa [heq] at h
  · rintro ⟨rfl, h⟩
    exact Nat.le_of_eq h

theorem logBase2Int_ofNat {n : ℕ} (h : n < 2 ^ 31) :
    logBase2Int (BitVec.ofNat 32 n) = Nat.log 2 n := by
  have htoNat : (BitVec.ofNat 32 n).toNat = n := by
    rw [BitVec.toNat_ofNat, Nat.mod_eq_of_lt (by omega)]
  rw [logBase2Int, BitVec.toInt_eq_toNat_of_lt (by omega), htoNat, Int.toNat_natCast,
    logBase2_eq_log]

end Numbers

/-- A header whose address goes through a `uint32_t` announces enough exactly where its numbers
can be announced. -/
theorem covers_truncated_iff (h : Shared config mem k) (hch : channel.toNat < 2 ^ k)
    (hrow : row.toNat < 32768) (hreads : reads ≠ 0) (hle : reads ≤ comps) :
    Covers mem (((AddressConfig.encodePimHeader config channel row false (BitVec.ofNat 32 comps)
      (BitVec.ofNat 32 reads)).setWidth 32).setWidth 64) comps reads ↔
      Announceable k comps reads := by
  set addr := AddressConfig.encodePimHeader config channel row false (BitVec.ofNat 32 comps)
    (BitVec.ofNat 32 reads) with haddr
  obtain ⟨hcolumn, hbank⟩ := encodePimHeader_fields h hch hrow (BitVec.ofNat 32 comps)
    (BitVec.ofNat 32 reads)
  obtain ⟨hcolumn', hbankLe, hbankIff⟩ := truncate_fields (k := k) addr
  obtain ⟨hgwrite, hnumbers⟩ := decodePIMHeader_fields h ((addr.setWidth 32).setWidth 64)
  rw [← haddr] at hcolumn hbank
  rw [hcolumn'] at hgwrite hnumbers
  rw [hcolumn] at hgwrite hnumbers
  rw [hbank] at hbankLe hbankIff
  constructor
  · rintro ⟨cmd, hok, hcomps, hreadres⟩
    have hless := hgwrite cmd hok
    obtain ⟨cmd', r, hok', hnum, hsome, hr⟩ := hnumbers hless
    cases hok.symm.trans hok'
    rw [hnum] at hcomps
    have hread := hreadres r hsome
    rw [hr] at hread
    have hpow : 2 ^ (logBase2Int (BitVec.ofNat 32 comps) % 16) ≤ 2 ^ 7 :=
      Nat.pow_le_pow_right (by decide) (by omega)
    have hlog := logBase2Int_ofNat (n := comps) (by omega)
    have hlog' := logBase2Int_ofNat (n := reads) (by omega)
    have hseven : Nat.log 2 comps < 8 := Nat.log_lt_of_lt_pow (by omega) (by omega)
    rw [hlog, Nat.mod_eq_of_lt (by omega)] at hcomps
    rw [hlog'] at hbankLe hbankIff
    obtain ⟨-, hcompsPow⟩ := (le_two_pow_iff (by omega) (Nat.le_refl _)).mp hcomps
    obtain ⟨heq, hreadsPow⟩ := (le_two_pow_iff hreads hbankLe).mp hread
    exact ⟨⟨_, by omega, hcompsPow⟩, _, hreadsPow, hbankIff.mp heq⟩
  · rintro ⟨⟨i, hi, rfl⟩, j, rfl, hbound⟩
    have hj : j ≤ i := (Nat.pow_le_pow_iff_right (by decide)).mp hle
    rw [logBase2Int_two_pow (by omega), Nat.mod_eq_of_lt (by omega)] at hgwrite hnumbers
    rw [logBase2Int_two_pow (by omega)] at hbankIff
    obtain ⟨cmd, r, hok, hnum, hsome, hr⟩ := hnumbers (by omega)
    refine ⟨cmd, hok, Nat.le_of_eq hnum.symm, ?_⟩
    intro r' hr'
    cases hsome.symm.trans hr'
    rw [hr, hbankIff.mpr hbound]

/-- Where the number of computations is rounded up before it is encoded, a single result. -/
theorem covers_rounded (h : Shared config mem k) (hch : channel.toNat < 2 ^ k)
    (hrow : row.toNat < 32768) {i : ℕ} (hi : i ≤ 7) (hle : comps ≤ 2 ^ i) :
    Covers mem (AddressConfig.encodePimHeader config channel row false (BitVec.ofNat 32 (2 ^ i)) 1)
      comps 1 := by
  obtain ⟨hcolumn, hbank⟩ := encodePimHeader_fields h hch hrow (BitVec.ofNat 32 (2 ^ i)) 1
  obtain ⟨hgwrite, hnumbers⟩ := decodePIMHeader_fields h
    (AddressConfig.encodePimHeader config channel row false (BitVec.ofNat 32 (2 ^ i)) 1)
  rw [hcolumn, logBase2Int_two_pow (by omega), Nat.mod_eq_of_lt (by omega)] at hgwrite hnumbers
  obtain ⟨cmd, r, hok, hnum, hsome, hr⟩ := hnumbers (by omega)
  refine ⟨cmd, hok, by rw [hnum]; exact hle, ?_⟩
  intro r' hr'
  cases hsome.symm.trans hr'
  rw [hr]
  exact Nat.one_le_two_pow

end NewPims.NewtonSim

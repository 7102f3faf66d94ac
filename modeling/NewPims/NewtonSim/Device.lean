import Mathlib.Data.List.Nodup
import NewPims.NewtonSim.ChannelState

/-! A memory of banks with two row buffers each, as the commands see it: which command a bank can
take, and which rows are open after it. This is no part of the source. -/
namespace NewPims.NewtonSim

/-- The open rows of a bank. -/
structure Buffers where
  row : Option (BitVec 32) := none
  pimRow : Option (BitVec 32) := none
  deriving DecidableEq, Repr

abbrev Device := BankId → Buffers

/-- What a channel with two row buffers looks at before it issues a command, at each bank where it
checks it. A computation is checked for some row that is open for kernels, not for its own. -/
def Buffers.Admits (x : Buffers) (cmd : TypedCommand) : Prop :=
  match cmd.cmdType with
  | .READ | .WRITE | .GWRITE => x.row = some cmd.addr.row
  | .ACTIVATE => x.row = none ∧ x.pimRow ≠ some cmd.addr.row
  | .PRECHARGE => x.row ≠ none
  | .PIM_PRECHARGE => x.pimRow ≠ none
  | .REFRESH => x.row = none ∧ x.pimRow = none
  | .G_ACT => x.pimRow = none
  | .COMPS_READRES => x.pimRow ≠ none
  | .P_HEADER => x.pimRow = none ∨ x.pimRow = some cmd.addr.row
  | _ => False

/-- What a memory asks for at each bank that a command uses; the header of a kernel is none of the
memory's. An access or a computation finds its row open, an activation finds the buffer closed and
not the same row in the other one, a refresh finds both closed. -/
def Buffers.Takes (x : Buffers) (cmd : TypedCommand) : Prop :=
  match cmd.cmdType with
  | .READ | .WRITE | .GWRITE => x.row = some cmd.addr.row
  | .ACTIVATE => x.row = none ∧ x.pimRow ≠ some cmd.addr.row
  | .PRECHARGE => x.row ≠ none
  | .PIM_PRECHARGE => x.pimRow ≠ none
  | .REFRESH => x.row = none ∧ x.pimRow = none
  | .G_ACT => x.pimRow = none ∧ x.row ≠ some cmd.addr.row
  | .COMPS_READRES => x.pimRow = some cmd.addr.row
  | .P_HEADER => True
  | _ => False

/-- Both ask for the same, but for the commands of kernels. -/
theorem Buffers.takes_of_admits {x : Buffers} {cmd : TypedCommand} (hgact : cmd.cmdType ≠ .G_ACT)
    (hcomps : cmd.cmdType ≠ .COMPS_READRES) (h : x.Admits cmd) : x.Takes cmd := by
  unfold Admits at h
  unfold Takes
  split <;> simp_all

/-- Why the row that is open for kernels is closed before a command that is asked for. -/
def Buffers.Closes (x : Buffers) (src : TypedCommand) : Prop :=
  match src.cmdType with
  | .READ | .WRITE | .GWRITE => x.pimRow = some src.addr.row
  | .P_HEADER => x.pimRow ≠ some src.addr.row
  | _ => True

def Buffers.after (x : Buffers) (cmd : TypedCommand) : Buffers :=
  match cmd.cmdType with
  | .ACTIVATE => { x with row := some cmd.addr.row }
  | .PRECHARGE => { x with row := none }
  | .PIM_PRECHARGE => { x with pimRow := none }
  | .G_ACT => { x with pimRow := some cmd.addr.row }
  | _ => x

namespace TypedCommand

variable (config : DramConfig) (cmd : TypedCommand)

/-- The banks that a command is checked at. A `G_ACT` is checked at one bank and opens the whole
bank group. -/
def checked : List BankId :=
  match cmd.cmdType with
  | .P_HEADER => []
  | .REFRESH => BankId.ofRank config cmd.addr.rank.toNat
  | .COMPS_READRES => BankId.all config
  | _ => [cmd.addr.bankId]

/-- The banks that a command uses. -/
def touched : List BankId :=
  match cmd.cmdType with
  | .G_ACT => BankId.ofBankgroup config cmd.addr.rank.toNat cmd.addr.bankgroup.toNat
  | _ => cmd.checked config

end TypedCommand

namespace Device

variable (config : DramConfig)

/-- The device takes a command, at all banks that it uses. -/
def Takes (d : Device) (cmd : TypedCommand) : Prop := ∀ b ∈ cmd.touched config, (d b).Takes cmd

def after (d : Device) (cmd : TypedCommand) : Device :=
  fun b => if b ∈ cmd.touched config then (d b).after cmd else d b

/-- The device takes the commands of a list one after the other, and is `e` in the end. -/
def Replays : Device → List TypedCommand → Device → Prop
  | d, [], e => d = e
  | d, cmd :: rest, e => d.Takes config cmd ∧ Replays (d.after config cmd) rest e

variable {config} {d e : Device} {cmd : TypedCommand} {cmds : List TypedCommand}

theorem replays_append (h : Replays config d cmds e) (htakes : e.Takes config cmd) :
    Replays config d (cmds ++ [cmd]) (e.after config cmd) := by
  induction cmds generalizing d with
  | nil =>
    cases h
    exact ⟨htakes, rfl⟩
  | cons c cs ih => exact ⟨h.1, ih h.2⟩

end Device

section Banks

variable {config : DramConfig} {b : BankId} {rank bankgroup : ℕ}

/-- The loops count in `int`. -/
structure Countable (config : DramConfig) : Prop where
  ranks : config.ranks < 2 ^ 31
  bankgroups : config.bankgroups < 2 ^ 31
  banksPerGroup : config.banksPerGroup < 2 ^ 31

theorem toNat_ofNat_lt {i n : ℕ} (hi : i < n) (hn : n < 2 ^ 31) : (BitVec.ofNat 32 i).toNat = i := by
  rw [BitVec.toNat_ofNat, Nat.mod_eq_of_lt]
  omega

theorem mem_ofBankgroup (h : Countable config) : b ∈ BankId.ofBankgroup config rank bankgroup ↔
    b.rank = BitVec.ofNat 32 rank ∧ b.bankgroup = BitVec.ofNat 32 bankgroup ∧
      b.bank.toNat < config.banksPerGroup := by
  rw [BankId.ofBankgroup, List.mem_map]
  constructor
  · rintro ⟨k, hk, rfl⟩
    refine ⟨rfl, rfl, ?_⟩
    rw [toNat_ofNat_lt (List.mem_range.mp hk) h.banksPerGroup]
    exact List.mem_range.mp hk
  · rintro ⟨hrank, hgroup, hbank⟩
    refine ⟨b.bank.toNat, List.mem_range.mpr hbank, ?_⟩
    rw [← hrank, ← hgroup, BitVec.ofNat_toNat, BitVec.setWidth_eq]

theorem mem_ofRank (h : Countable config) : b ∈ BankId.ofRank config rank ↔
    b.rank = BitVec.ofNat 32 rank ∧ b.bankgroup.toNat < config.bankgroups ∧
      b.bank.toNat < config.banksPerGroup := by
  simp only [BankId.ofRank, List.mem_flatMap, List.mem_range, mem_ofBankgroup h]
  constructor
  · rintro ⟨j, hj, hrank, hgroup, hbank⟩
    refine ⟨hrank, ?_, hbank⟩
    rw [hgroup, toNat_ofNat_lt hj h.bankgroups]
    exact hj
  · rintro ⟨hrank, hgroup, hbank⟩
    exact ⟨b.bankgroup.toNat, hgroup, hrank, by rw [BitVec.ofNat_toNat, BitVec.setWidth_eq], hbank⟩

theorem mem_all (h : Countable config) : b ∈ BankId.all config ↔ b.InRange config := by
  simp only [BankId.all, List.mem_flatMap, List.mem_range, mem_ofRank h]
  constructor
  · rintro ⟨i, hi, hrank, hgroup, hbank⟩
    refine ⟨?_, hgroup, hbank⟩
    rw [hrank, toNat_ofNat_lt hi h.ranks]
    exact hi
  · rintro ⟨hrank, hgroup, hbank⟩
    exact ⟨b.rank.toNat, hrank, by rw [BitVec.ofNat_toNat, BitVec.setWidth_eq], hgroup, hbank⟩

theorem nodup_ofBankgroup (h : Countable config) :
    (BankId.ofBankgroup config rank bankgroup).Nodup := by
  refine List.Nodup.map_on ?_ List.nodup_range
  intro i hi j hj hij
  have hbank := congrArg (fun b : BankId => b.bank.toNat) hij
  simp only at hbank
  rwa [toNat_ofNat_lt (List.mem_range.mp hi) h.banksPerGroup,
    toNat_ofNat_lt (List.mem_range.mp hj) h.banksPerGroup] at hbank

theorem nodup_ofRank (h : Countable config) : (BankId.ofRank config rank).Nodup := by
  refine List.nodup_flatMap.mpr ⟨fun j _ => nodup_ofBankgroup h, ?_⟩
  refine List.Pairwise.imp_of_mem ?_ (List.nodup_range (n := config.bankgroups))
  intro i j hi hj hne b hbi hbj
  apply hne
  have heq := ((mem_ofBankgroup h).mp hbi).2.1.symm.trans ((mem_ofBankgroup h).mp hbj).2.1
  have hnat := congrArg BitVec.toNat heq
  rwa [toNat_ofNat_lt (List.mem_range.mp hi) h.bankgroups,
    toNat_ofNat_lt (List.mem_range.mp hj) h.bankgroups] at hnat

theorem nodup_all (h : Countable config) : (BankId.all config).Nodup := by
  refine List.nodup_flatMap.mpr ⟨fun j _ => nodup_ofRank h, ?_⟩
  refine List.Pairwise.imp_of_mem ?_ (List.nodup_range (n := config.ranks))
  intro i j hi hj hne b hbi hbj
  apply hne
  have heq := ((mem_ofRank h).mp hbi).1.symm.trans ((mem_ofRank h).mp hbj).1
  have hnat := congrArg BitVec.toNat heq
  rwa [toNat_ofNat_lt (List.mem_range.mp hi) h.ranks,
    toNat_ofNat_lt (List.mem_range.mp hj) h.ranks] at hnat

theorem nodup_touched (h : Countable config) (cmd : TypedCommand) : (cmd.touched config).Nodup := by
  unfold TypedCommand.touched
  split
  · exact nodup_ofBankgroup h
  · unfold TypedCommand.checked
    split
    · exact List.nodup_nil
    · exact nodup_ofRank h
    · exact nodup_all h
    · exact List.nodup_singleton _

end Banks

end NewPims.NewtonSim

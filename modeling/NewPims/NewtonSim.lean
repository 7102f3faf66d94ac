import NewPims.AddressCodec

/-! The address mapping of the memory model, `Config` of NewtonSim, and the decoding of the two
PIM commands that carry numbers in their address. -/
namespace NewPims.NewtonSim

open AddressConfig BitField

/-- The fields of `Config` that the mapping depends on. -/
structure Config where
  channels : ℕ
  ranks : ℕ
  bankgroups : ℕ
  banksPerGroup : ℕ
  rows : ℕ
  columns : ℕ
  BL : ℕ
  busWidth : ℕ
  addressMapping : String
  deriving DecidableEq, Repr

structure Address where
  channel : BitVec 32
  rank : BitVec 32
  bankgroup : BitVec 32
  bank : BitVec 32
  row : BitVec 32
  column : BitVec 32
  deriving DecidableEq, Repr

/-- What stops the memory model: `AbruptExit`, which `PrintError` calls too, `exit(1)`, an
exception, a division by 0, and a failed assertion. -/
inductive MemoryFault
  | abruptExit
  | exit
  | notValidCommand
  | divisionByZero
  | assertion
  /-- The assertion of `AddTransaction` that the transaction is accepted. -/
  | rejected
  /-- The assertion of `GetFirstReadyInQueue` on the type of the ready command. -/
  | otherCommand
  deriving DecidableEq, Repr

/-- A decoded PIM command, without its type. -/
structure Command where
  addr : Address
  hexAddr : AddrType
  forGwrite : Bool
  isLastComps : Bool
  numComps : BitVec 32
  /-- Left uninitialized in a `COMPS_READRES` command. -/
  numReadres : Option (BitVec 32)
  deriving DecidableEq, Repr

namespace Config

variable (config : Config)

/-- The fields of the mapping, two letters each. -/
def fields : List Char → List String
  | a :: b :: rest => String.ofList [a, b] :: fields rest
  | _ => []

def shiftBits : ℕ := logBase2 (config.busWidth / 8 * config.BL)

def actualColBits : ℕ := logBase2 config.columns - logBase2 config.BL

def fieldWidths : String → ℕ
  | "ch" => logBase2 config.channels
  | "ra" => logBase2 config.ranks
  | "bg" => logBase2 config.bankgroups
  | "ba" => logBase2 config.banksPerGroup
  | "ro" => logBase2 config.rows
  | "co" => config.actualColBits
  | _ => 0

/-- The position of a field above those that stand behind it in the mapping. -/
def fieldPos (token : String) : List String → ℕ
  | [] => 0
  | t :: rest => if t = token then (rest.map config.fieldWidths).sum else fieldPos token rest

def pos (token : String) : ℕ := config.fieldPos token (fields config.addressMapping.toList)

/-- `(hex_addr >> pos) & mask` of one field. -/
def fieldOf (hexAddr : AddrType) (token : String) : BitVec 32 :=
  (field hexAddr (config.pos token) (config.fieldWidths token)).setWidth 32

/-- `AddressMapping`. -/
def addressOf (hexAddr : AddrType) : Address :=
  let hexAddr := hexAddr >>> config.shiftBits
  { channel := config.fieldOf hexAddr "ch"
    rank := config.fieldOf hexAddr "ra"
    bankgroup := config.fieldOf hexAddr "bg"
    bank := config.fieldOf hexAddr "ba"
    row := config.fieldOf hexAddr "ro"
    column := config.fieldOf hexAddr "co" }

end Config

section Decode

variable (config : Config)

/-- `rank`, `bankgroup` and `bank` as one number. -/
def bankIndex (addr : Address) : BitVec 32 :=
  addr.rank * BitVec.ofNat 32 config.bankgroups * BitVec.ofNat 32 config.banksPerGroup +
    addr.bankgroup * BitVec.ofNat 32 config.banksPerGroup + addr.bank

/-- `PrintError` at the header of a gwrite ends the simulation. -/
def decodePIMHeader (hexAddr : AddrType) : Except MemoryFault Command :=
  let addr := config.addressOf hexAddr
  let actualColBits := config.actualColBits - 1
  let columnMask : BitVec 32 := ~~~ ((-1 : BitVec 32) <<< actualColBits)
  if addr.column.sshiftRight actualColBits = 1 then
    .error .abruptExit
  else
    let numComps := (1 : BitVec 32) <<< (addr.column &&& columnMask)
    let bkIdx := bankIndex config addr
    let numReadres := (1 : BitVec 32) <<< bkIdx
    .ok
      { addr := { addr with rank := -1 }, hexAddr, forGwrite := false, isLastComps := false, numComps
        numReadres := some numReadres }

def decodePIMTransaction (hexAddr : AddrType) : Command :=
  let addr := config.addressOf hexAddr
  let numComps := bankIndex config addr + 1
  { addr := { addr with rank := -1, bankgroup := -1, bank := -1 }, hexAddr, forGwrite := false
    isLastComps := addr.column == 1, numComps, numReadres := none }

end Decode

end NewPims.NewtonSim

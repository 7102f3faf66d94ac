import NewPims.Lib.BitField
import NewPims.MemoryAccess

/-! The second half of `AddressConfig`: DRAM addresses put together from their fields, and PIM
commands packed into addresses. An `int` is a `BitVec 32`. -/
namespace NewPims

open BitField

/-- The loop halves the number until it is at most one. -/
def logBase2 (powerOfTwo : ℕ) : ℕ :=
  if 1 < powerOfTwo then logBase2 (powerOfTwo / 2) + 1 else 0

/-- `LogBase2` of an `int`; there is nothing to halve in a negative one. -/
def logBase2Int (powerOfTwo : BitVec 32) : ℕ := logBase2 powerOfTwo.toInt.toNat

namespace AddressConfig

variable (config : SimulationConfig)

/-- The layout is `rorabgbachco`. -/
def makeAddress (channel rank bankgroup bank row col : BitVec 32) : AddrType :=
  let rankBits := 1
  let bankgroupBits := 2
  let bankBits := 2
  let channelBits := logBase2 config.dramChannels
  let colBits := 4
  let offset := 6
  let addr : AddrType := 0
  let addr := addr ||| row.signExtend 64
  let addr := addr <<< rankBits ||| rank.signExtend 64
  let addr := addr <<< bankgroupBits ||| bankgroup.signExtend 64
  let addr := addr <<< bankBits ||| bank.signExtend 64
  let addr := addr <<< channelBits ||| channel.signExtend 64
  let addr := addr <<< colBits ||| (col &&& 15).signExtend 64
  addr <<< offset

/-- The numbers go into the address as logarithms. -/
def encodePimHeader (channel row : BitVec 32) (forGwrite : Bool) (numComps numReadres : BitVec 32) :
    AddrType :=
  let gwriteBit : BitVec 32 := if forGwrite then 1 else 0
  let logComps := (gwriteBit <<< 3) + BitVec.ofNat 32 (logBase2Int numComps)
  let logReadres := logBase2Int numReadres
  makeAddress config channel (BitVec.ofNat 32 (logReadres / 16))
    (BitVec.ofNat 32 (logReadres / 4) &&& 3) (BitVec.ofNat 32 (logReadres % 4)) row logComps

/-- The number of computations goes into the five bits of rank, bank group and bank. -/
def encodePimCompsReadres (ch row numComps : BitVec 32) (lastCmd : Bool) :
    Except Fault AddrType :=
  let raBits := 1
  let bgBits := 2
  let baBits := 2
  let bgMask : BitVec 32 := (1 <<< bgBits) - 1
  let baMask : BitVec 32 := (1 <<< baBits) - 1
  let numComps := numComps - 1
  if numComps.slt (1 <<< (raBits + bgBits + baBits)) then
    let rank := numComps.sshiftRight (bgBits + baBits)
    let bankgroup := numComps.sshiftRight baBits &&& bgMask
    let bank := numComps &&& baMask
    let col : BitVec 32 := if lastCmd then 1 else 0
    .ok (makeAddress config ch rank bankgroup bank row col)
  else .error .compsRange

end AddressConfig

end NewPims

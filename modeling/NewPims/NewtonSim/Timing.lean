import NewPims.NewtonSim.Command

/-! The delays between the commands of a channel: how long a command of the second type has to wait
after one of the first, by where the two commands go. -/
namespace NewPims.NewtonSim

namespace DramConfig

variable (config : DramConfig)

/-- With a single bank group the delays across bank groups apply. -/
def oneBankgroup (l s : ℤ) : ℤ := if config.bankgroups = 1 then s else l

def readToReadL : ℤ :=
  config.oneBankgroup (max config.burstCycle config.tCCD_L) (max config.burstCycle config.tCCD_S)

def readToReadS : ℤ := max config.burstCycle config.tCCD_S

def readToReadO : ℤ := config.burstCycle + config.tRTRS

def readToWrite : ℤ := config.RL + config.burstCycle - config.WL + config.tRTRS

def readToWriteO : ℤ := config.readDelay + config.burstCycle + config.tRTRS - config.writeDelay

def readToPrecharge : ℤ := config.AL + config.tRTP

def readpToAct : ℤ := config.AL + config.burstCycle + config.tRTP + config.tRP

def writeToReadL : ℤ :=
  config.oneBankgroup (config.writeDelay + config.tWTR_L) (config.writeDelay + config.tWTR_S)

def writeToReadS : ℤ := config.writeDelay + config.tWTR_S

def writeToReadO : ℤ := config.writeDelay + config.burstCycle + config.tRTRS - config.readDelay

def writeToWriteL : ℤ :=
  config.oneBankgroup (max config.burstCycle config.tCCD_L) (max config.burstCycle config.tCCD_S)

def writeToWriteS : ℤ := max config.burstCycle config.tCCD_S

def writeToWriteO : ℤ := config.burstCycle

def writeToPrecharge : ℤ := config.WL + config.burstCycle + config.tWR

def prechargeToActivate : ℤ := config.tRP

def prechargeToPrecharge : ℤ := config.tPPD

def readToActivate : ℤ := config.readToPrecharge + config.prechargeToActivate

def writeToActivate : ℤ := config.writeToPrecharge + config.prechargeToActivate

def activateToActivate : ℤ := config.tRC

def activateToActivateL : ℤ := config.oneBankgroup config.tRRD_L config.tRRD_S

def activateToActivateS : ℤ := config.tRRD_S

def activateToPrecharge : ℤ := config.tRAS

def activateToRead : ℤ :=
  if config.isGDDR || config.isHBM then config.tRCDRD else config.tRCD - config.AL

def activateToWrite : ℤ :=
  if config.isGDDR || config.isHBM then config.tRCDWR else config.tRCD - config.AL

def activateToRefresh : ℤ := config.tRC

def refreshToRefresh : ℤ := config.tREFI

def refreshToActivate : ℤ := config.tRFC

def refreshToActivateBank : ℤ := config.tRFCb

def selfRefreshEntryToExit : ℤ := config.tCKESR

def selfRefreshExit : ℤ := config.tXS

/-- With two row buffers the PIM side does not wait for the other one. -/
def actToPimActSameBk : ℤ :=
  if config.enableDualBuffer then config.activateToActivateL else config.activateToActivate

def readToPimRead : ℤ := if config.enableDualBuffer then 0 else config.readToReadL

def writeToPimRead : ℤ := if config.enableDualBuffer then 0 else config.writeToReadL

def gactToActSameBg : ℤ :=
  if config.enableDualBuffer then config.activateToActivateL else config.activateToActivate

def pimToPrecharge : ℤ := if config.enableDualBuffer then 0 else config.readToPrecharge

end DramConfig

namespace Timing

variable (config : DramConfig)

def sameBank : CommandType → List (CommandType × ℤ)
  | .READ =>
    [(.READ, config.readToReadL), (.WRITE, config.readToWrite),
      (.READ_PRECHARGE, config.readToReadL), (.WRITE_PRECHARGE, config.readToWrite),
      (.PRECHARGE, config.readToPrecharge), (.GWRITE, config.readToReadL),
      (.COMP, config.readToPimRead), (.COMPS_READRES, config.readToPimRead),
      (.READRES, config.readToPimRead), (.PWRITE, config.readToWrite)]
  | .WRITE =>
    [(.READ, config.writeToReadL), (.WRITE, config.writeToWriteL),
      (.READ_PRECHARGE, config.writeToReadL), (.WRITE_PRECHARGE, config.writeToWriteL),
      (.PRECHARGE, config.writeToPrecharge), (.GWRITE, config.writeToReadL),
      (.PWRITE, config.writeToWriteL), (.COMP, config.writeToPimRead),
      (.COMPS_READRES, config.writeToPimRead), (.READRES, config.writeToPimRead)]
  | .READ_PRECHARGE =>
    [(.ACTIVATE, config.readpToAct), (.REFRESH, config.readToActivate),
      (.REFRESH_BANK, config.readToActivate), (.SREF_ENTER, config.readToActivate)]
  | .WRITE_PRECHARGE =>
    [(.ACTIVATE, config.writeToActivate), (.REFRESH, config.writeToActivate),
      (.REFRESH_BANK, config.writeToActivate), (.SREF_ENTER, config.writeToActivate)]
  | .ACTIVATE =>
    [(.ACTIVATE, config.activateToActivate), (.READ, config.activateToRead),
      (.WRITE, config.activateToWrite), (.READ_PRECHARGE, config.activateToRead),
      (.WRITE_PRECHARGE, config.activateToWrite), (.PRECHARGE, config.activateToPrecharge),
      (.G_ACT, config.actToPimActSameBk), (.GWRITE, config.activateToRead)]
  | .PRECHARGE =>
    [(.ACTIVATE, config.prechargeToActivate), (.REFRESH, config.prechargeToActivate),
      (.REFRESH_BANK, config.prechargeToActivate), (.SREF_ENTER, config.prechargeToActivate)]
  | .PIM_PRECHARGE =>
    [(.REFRESH, config.prechargeToActivate), (.G_ACT, config.prechargeToActivate)]
  | .PWRITE =>
    [(.READ, config.writeToReadL), (.WRITE, config.writeToWriteL),
      (.PRECHARGE, config.writeToPrecharge), (.PWRITE, config.writeToWriteL),
      (.COMP, config.tWTR_L), (.COMPS_READRES, config.tWTR_L)]
  | .GWRITE =>
    [(.READ, config.gwriteDelay), (.WRITE, config.gwriteDelay), (.PRECHARGE, config.gwriteDelay),
      (.COMP, config.gwriteDelay), (.COMPS_READRES, config.gwriteDelay)]
  | _ => []

def otherBanksSameBankgroup : CommandType → List (CommandType × ℤ)
  | .READ =>
    [(.READ, config.readToReadL), (.WRITE, config.readToWrite),
      (.READ_PRECHARGE, config.readToReadL), (.WRITE_PRECHARGE, config.readToWrite),
      (.GWRITE, config.readToReadL), (.COMP, config.readToPimRead),
      (.COMPS_READRES, config.readToPimRead), (.READRES, config.readToPimRead)]
  | .WRITE =>
    [(.READ, config.writeToReadL), (.WRITE, config.writeToWriteL),
      (.READ_PRECHARGE, config.writeToReadL), (.WRITE_PRECHARGE, config.writeToWriteL),
      (.GWRITE, config.writeToReadL), (.PWRITE, config.writeToWriteL),
      (.COMP, config.writeToPimRead), (.COMPS_READRES, config.writeToPimRead),
      (.READRES, config.writeToPimRead)]
  | .READ_PRECHARGE =>
    [(.READ, config.readToReadL), (.WRITE, config.readToWrite),
      (.READ_PRECHARGE, config.readToReadL), (.WRITE_PRECHARGE, config.readToWrite)]
  | .WRITE_PRECHARGE =>
    [(.READ, config.writeToReadL), (.WRITE, config.writeToWriteL),
      (.READ_PRECHARGE, config.writeToReadL), (.WRITE_PRECHARGE, config.writeToWriteL)]
  | .ACTIVATE =>
    [(.ACTIVATE, config.activateToActivateL), (.REFRESH_BANK, config.activateToRefresh),
      (.G_ACT, config.activateToActivateL)]
  | .PRECHARGE =>
    if config.isGDDR || config.protocol = .LPDDR4 then [(.PRECHARGE, config.prechargeToPrecharge)]
    else []
  | .REFRESH_BANK =>
    [(.ACTIVATE, config.refreshToActivate), (.REFRESH_BANK, config.refreshToRefresh)]
  | .PWRITE =>
    [(.READ, config.writeToReadL), (.WRITE, config.writeToWriteL), (.PWRITE, config.writeToWriteL),
      (.COMP, config.writeToPimRead), (.COMPS_READRES, config.writeToPimRead)]
  | .GWRITE =>
    [(.READ, config.readToReadL), (.WRITE, config.readToWrite), (.GWRITE, config.gwriteDelay),
      (.COMP, config.gwriteDelay), (.COMPS_READRES, config.gwriteDelay),
      (.READRES, config.gwriteDelay)]
  -- for the whole bank group
  | .G_ACT =>
    [(.ACTIVATE, config.gactToActSameBg), (.G_ACT, config.activateToActivate),
      (.COMP, config.activateToRead), (.COMPS_READRES, config.activateToRead),
      (.READRES, config.activateToRead), (.PIM_PRECHARGE, config.activateToPrecharge),
      (.PWRITE, config.activateToWrite)]
  | _ => []

def otherBankgroupsSameRank : CommandType → List (CommandType × ℤ)
  | .READ =>
    [(.READ, config.readToReadS), (.WRITE, config.readToWrite),
      (.READ_PRECHARGE, config.readToReadS), (.WRITE_PRECHARGE, config.readToWrite),
      (.GWRITE, config.readToReadS), (.COMP, config.readToReadS),
      (.COMPS_READRES, config.readToReadS), (.READRES, config.readToReadS)]
  | .WRITE =>
    [(.READ, config.writeToReadS), (.WRITE, config.writeToWriteS),
      (.READ_PRECHARGE, config.writeToReadS), (.WRITE_PRECHARGE, config.writeToWriteS),
      (.GWRITE, config.writeToReadS), (.COMP, config.writeToReadS),
      (.COMPS_READRES, config.writeToReadS), (.READRES, config.writeToReadS),
      (.PWRITE, config.writeToWriteS)]
  | .READ_PRECHARGE =>
    [(.READ, config.readToReadS), (.WRITE, config.readToWrite),
      (.READ_PRECHARGE, config.readToReadS), (.WRITE_PRECHARGE, config.readToWrite)]
  | .WRITE_PRECHARGE =>
    [(.READ, config.writeToReadS), (.WRITE, config.writeToWriteS),
      (.READ_PRECHARGE, config.writeToReadS), (.WRITE_PRECHARGE, config.writeToWriteS)]
  | .ACTIVATE =>
    [(.ACTIVATE, config.activateToActivateS), (.REFRESH_BANK, config.activateToRefresh),
      (.G_ACT, config.activateToActivateS)]
  | .PRECHARGE =>
    if config.isGDDR || config.protocol = .LPDDR4 then [(.PRECHARGE, config.prechargeToPrecharge)]
    else []
  | .REFRESH_BANK =>
    [(.ACTIVATE, config.refreshToActivate), (.REFRESH_BANK, config.refreshToRefresh)]
  | .PWRITE =>
    [(.READ, config.writeToReadS), (.WRITE, config.writeToWriteS), (.PWRITE, config.writeToWriteS),
      (.COMP, config.writeToReadS), (.COMPS_READRES, config.writeToReadS)]
  | .GWRITE =>
    [(.READ, config.readToReadS), (.WRITE, config.readToWrite), (.GWRITE, config.gwriteDelay),
      (.COMP, config.gwriteDelay), (.COMPS_READRES, config.gwriteDelay),
      (.READRES, config.gwriteDelay)]
  | _ => []

def otherRanks : CommandType → List (CommandType × ℤ)
  | .READ =>
    [(.READ, config.readToReadO), (.WRITE, config.readToWriteO),
      (.READ_PRECHARGE, config.readToReadO), (.WRITE_PRECHARGE, config.readToWriteO),
      (.READRES, config.readToReadO)]
  | .WRITE =>
    [(.READ, config.writeToReadO), (.WRITE, config.writeToWriteO),
      (.READ_PRECHARGE, config.writeToReadO), (.WRITE_PRECHARGE, config.writeToWriteO),
      (.READRES, config.writeToReadO), (.PWRITE, config.writeToWriteO)]
  | .READ_PRECHARGE =>
    [(.READ, config.readToReadO), (.WRITE, config.readToWriteO),
      (.READ_PRECHARGE, config.readToReadO), (.WRITE_PRECHARGE, config.readToWriteO)]
  | .WRITE_PRECHARGE =>
    [(.READ, config.writeToReadO), (.WRITE, config.writeToWriteO),
      (.READ_PRECHARGE, config.writeToReadO), (.WRITE_PRECHARGE, config.writeToWriteO)]
  | .PWRITE =>
    [(.READ, config.writeToReadO), (.WRITE, config.writeToWriteO), (.READRES, config.writeToReadO),
      (.PWRITE, config.writeToWriteO)]
  | .READRES => [(.READ, config.readToReadO), (.WRITE, config.readToWriteO)]
  | _ => []

def sameRank : CommandType → List (CommandType × ℤ)
  | .REFRESH_BANK =>
    [(.ACTIVATE, config.refreshToActivateBank), (.REFRESH, config.refreshToActivateBank),
      (.REFRESH_BANK, config.refreshToActivateBank), (.SREF_ENTER, config.refreshToActivateBank)]
  | .REFRESH =>
    [(.ACTIVATE, config.refreshToActivate), (.REFRESH, config.refreshToActivate),
      (.SREF_ENTER, config.refreshToActivate), (.G_ACT, config.refreshToActivate)]
  | .SREF_ENTER => [(.SREF_EXIT, config.selfRefreshEntryToExit)]
  | .SREF_EXIT =>
    [(.ACTIVATE, config.selfRefreshExit), (.REFRESH, config.selfRefreshExit),
      (.REFRESH_BANK, config.selfRefreshExit), (.SREF_ENTER, config.selfRefreshExit),
      (.G_ACT, config.selfRefreshExit)]
  | .G_ACT =>
    [(.ACTIVATE, config.tFAW), (.G_ACT, config.tFAW), (.COMP, config.tRCDRD),
      (.COMPS_READRES, config.tRCDRD)]
  | .COMP =>
    [(.READ, config.readToReadS), (.WRITE, config.readToWrite), (.GWRITE, config.readToReadS),
      (.COMP, config.readToReadS), (.READRES, config.readToReadS),
      (.PIM_PRECHARGE, config.readToPrecharge), (.PRECHARGE, config.pimToPrecharge)]
  | .READRES =>
    [(.READ, config.readToReadS), (.WRITE, config.readToWrite), (.GWRITE, config.readToReadS),
      (.COMP, config.readToReadS), (.READRES, config.readToReadS),
      (.G_ACT, config.readToActivate), (.PIM_PRECHARGE, config.readToPrecharge),
      (.PRECHARGE, config.pimToPrecharge)]
  | .COMPS_READRES =>
    [(.READ, config.readToReadO), (.WRITE, config.readToWriteO), (.GWRITE, config.readToReadS),
      (.G_ACT, config.readToActivate), (.PIM_PRECHARGE, config.readToPrecharge),
      (.PRECHARGE, config.pimToPrecharge), (.COMP, config.readToReadS),
      (.READRES, config.readToReadS)]
  | _ => []

end Timing

end NewPims.NewtonSim

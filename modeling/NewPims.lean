import NewPims.Allocator.Disjoint
import NewPims.ChannelLoadBalancing
import NewPims.GlobalCounts.Accounts
import NewPims.GlobalCounts.Status
import NewPims.GlobalCounts.Story
import NewPims.Interconnect.Conservation
import NewPims.Interconnect.Latency
import NewPims.KVCacheAlloc.Growth
import NewPims.Memory.Disjoint
import NewPims.NPUKVCache.Shape
import NewPims.NeuPIMSystolicWS.Accounting
import NewPims.NeuPIMSystolicWS.AddTree
import NewPims.NeuPIMSystolicWS.Admission
import NewPims.NeuPIMSystolicWS.BusyCycles
import NewPims.NeuPIMSystolicWS.BusyFronts
import NewPims.NeuPIMSystolicWS.DoubleBuffer
import NewPims.NeuPIMSystolicWS.Finishing
import NewPims.NeuPIMSystolicWS.Flows
import NewPims.NeuPIMSystolicWS.GemmTiming
import NewPims.NeuPIMSystolicWS.Metered
import NewPims.NeuPIMSystolicWS.Phases
import NewPims.NeuPIMSystolicWS.Stores
import NewPims.Simulator.Dispatch
import NewPims.NeuPIMSystolicWS.Tags
import NewPims.NeuPIMSystolicWS.Tallies
import NewPims.NeuPIMSystolicWS.Traffic
import NewPims.NeuPIMSystolicWS.VectorChoice
import NewPims.NeuPIMSystolicWS.VectorUnits
import NewPims.NewtonSim.BankState
import NewPims.NewtonSim.ChannelState
import NewPims.NewtonSim.Codec
import NewPims.NewtonSim.Command
import NewPims.NewtonSim.CommandQueue
import NewPims.NewtonSim.Controller
import NewPims.NewtonSim.Timing
import NewPims.Operations.Announcements
import NewPims.Operations.FusedMHA.Heads
import NewPims.Operations.GemvHeads
import NewPims.Operations.KernelLatency
import NewPims.Operations.MatMul.Calculations
import NewPims.Operations.RequestTiles
import NewPims.Operations.RowOperations.Processing
import NewPims.Operations.Scratchpad
import NewPims.Operations.TileRoom
import NewPims.RequestGenerator.Rows
import NewPims.Scheduler.Balance
import NewPims.Scheduler.Completion
import NewPims.Scheduler.KVRows
import NewPims.Simulator.Delivery
import NewPims.Simulator.Exchange
import NewPims.Simulator.Progress
import NewPims.Sram.Entries
import NewPims.Tensor.Views
import NewPims.NewtonSim.Ticks
import NewPims.NewtonSim.Ledger
import NewPims.NewtonSim.Steps
import NewPims.Lib.Timers
import NewPims.NewtonSim.Apart
import NewPims.NewtonSim.Protocol
import NewPims.NewtonSim.Coherence
import NewPims.NewtonSim.PIMOrder
import NewPims.NewtonSim.KernelRows
import NewPims.NewtonSim.Replay
import NewPims.NewtonSim.Answers
import NewPims.NewtonSim.Refreshes
import NewPims.NewtonSim.Closing
import NewPims.NewtonSim.Deadline
import NewPims.NewtonSim.DRAMSystem
import NewPims.NewtonSim.Responses
import NewPims.NewtonSim.Traffic
import NewPims.Simulator.FullMachine
import NewPims.Simulator.MemoryFaults
import NewPims.Simulator.KernelOrder

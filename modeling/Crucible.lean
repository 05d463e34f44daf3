import Crucible.Csr
import Crucible.SlotIdentity
import Crucible.TraceRing
import Crucible.LogProgress
import Crucible.FlushOrder
import Crucible.TransactionUndo
import Crucible.DetectorPeriods
import Crucible.Alignment
import Crucible.StorageSpan
import Crucible.OwnerMailbox
import Crucible.TraceBranch
import Crucible.DagEquality
import Crucible.DeadNodes
import Crucible.LoweredMerges
import Crucible.FlagSoundness
import Crucible.Serialize
import Crucible.HybridClock
import Crucible.GrowSet
import Crucible.RgaList
import Crucible.MVRegister
import Crucible.Scuttlebutt
import Crucible.FusionGroups
import Crucible.CipherRecovery
import Crucible.Federation
import Crucible.HdrHistogram
import Crucible.Lifeguard
import Crucible.Arena
import Crucible.Philox
import Crucible.ConstantTime
import Crucible.EventLog

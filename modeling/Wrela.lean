import Wrela.Storage.BatchAccounting
import Wrela.Topic.Reliable
import Wrela.Topic.GapDetecting
import Wrela.Topic.Wakeup
import Wrela.Codegen.Arithmetic
import Wrela.Nvme.Acknowledgement
import Wrela.Arena.InMemory
import Wrela.Sem.ArenaGraph
import Wrela.Sem.Constants
import Wrela.Sem.Lifetimes
import Wrela.Lower.FramePaths
import Wrela.Codegen.EncoderFailures
import Wrela.CoreLink
import Wrela.Arena.Owned
import Wrela.Uefi.Transition
import Wrela.Nvme.TwoReaders
import Wrela.Cache.Lookups
import Wrela.Sem.Returns
import Wrela.Uefi.IdentityMap
import Wrela.Lower.Preservation
import Wrela.Sem.Blobs
import Wrela.Sem.Generics
import Wrela.Sem.Upcasts
import Wrela.Lower.Symbols
import Wrela.Lower.TypeTable
import Wrela.Pci.BarSizing
import Wrela.Pci.Capabilities
import Wrela.Pci.Enumeration
import Wrela.Asm.Program
import Wrela.Storage.Recovery
import Wrela.Storage.ExtentRuns
import Wrela.Storage.PackedSegments
import Wrela.Storage.Orphans
import Wrela.Storage.Projection
import Wrela.Nvme.DataCommands
import Wrela.Topic.Blocks
import Wrela.Topic.PublishRuns
import Wrela.Uefi.UsableRegion
import Wrela.Parse.TypeRefs

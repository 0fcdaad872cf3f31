import MvhKernel.MvhfsCrash
import MvhKernel.MvhfsFailure
import MvhKernel.MvhfsConfine
import MvhKernel.TaskAccounts
import MvhKernel.ShootdownLaws
import MvhKernel.VirtioPairing
import MvhKernel.ModuleSlots
import MvhKernel.Rwlock
import MvhKernel.TicketLock
import MvhKernel.Seqlock
import MvhKernel.Completion
import MvhKernel.IdentityRuns
import MvhKernel.ArpCache
import MvhKernel.ModuleExports
import MvhKernel.ElfReads
import MvhKernel.ElfAlignment
import MvhKernel.MvhfsChecks
import MvhKernel.HeapFit
import MvhKernel.HeapStale
import MvhKernel.VmmQuery
import MvhKernel.TaskTurns
import MvhKernel.TaskIdentity
import MvhKernel.ModuleOrder
import MvhKernel.NetChecksums
import MvhKernel.NetRoutes
import MvhKernel.RamfsWorking
import MvhKernel.AcpiMadt
import MvhKernel.AcpiRoot
import MvhKernel.SmbiosWalk
import MvhKernel.DmaBuffers
import MvhKernel.DmaScatter
import MvhKernel.RandomEntropy
import MvhKernel.Log
import MvhKernel.Hpet
import MvhKernel.FramebufferLine
import MvhKernel.Arithmetic
import MvhKernel.BitFields
import MvhKernel.Moves
import MvhKernel.StringParts
import MvhKernel.Tokens
import MvhKernel.Formats

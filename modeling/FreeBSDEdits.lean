import FreeBSDEdits.LittleEndian
import FreeBSDEdits.ByteFile
import FreeBSDEdits.LinkedChain
import FreeBSDEdits.GuardedRun
import FreeBSDEdits.HelloMetadata
import FreeBSDEdits.HelloVolume
import FreeBSDEdits.HelloCalls
import FreeBSDEdits.HelloBlocks
import FreeBSDEdits.HelloView
import FreeBSDEdits.HelloReadRefines
import FreeBSDEdits.HelloCoherence
import FreeBSDEdits.HelloLinks
import FreeBSDEdits.BitmapBuckets
import FreeBSDEdits.EntryFifo
import FreeBSDEdits.HelloFrames
import FreeBSDEdits.PageFifo
import FreeBSDEdits.PageFifoRuns
import FreeBSDEdits.PageStamps
import FreeBSDEdits.RunQueue
import FreeBSDEdits.SchedExtremes
import FreeBSDEdits.SchedRotation
import FreeBSDEdits.HelloIsolation
import FreeBSDEdits.HelloAnswers
import FreeBSDEdits.HelloDeleted
import FreeBSDEdits.HelloAnyVolume
import FreeBSDEdits.HelloFailedCreate
import FreeBSDEdits.HelloTruncateLaw
import FreeBSDEdits.HelloWellFormed
import FreeBSDEdits.HelloWriteSize
import FreeBSDEdits.SchedDivisor
import FreeBSDEdits.SchedPeeks
import FreeBSDEdits.SchedRetval
import FreeBSDEdits.SchedSteal
import FreeBSDEdits.PageActiveScan
import FreeBSDEdits.PageInactiveScan
import FreeBSDEdits.ShellPipe
import FreeBSDEdits.ShellBuffers
import FreeBSDEdits.BusyProgress
import FreeBSDEdits.ResidentQueries
import FreeBSDEdits.PageContentsRuns
import FreeBSDEdits.OomVoteRuns
import FreeBSDEdits.PageDaemonSleep
import FreeBSDEdits.LaundryRuns
import FreeBSDEdits.PageClusterRuns
import FreeBSDEdits.PageFlush
import FreeBSDEdits.PageLife
import FreeBSDEdits.PageLifeRuns
import FreeBSDEdits.PageLifeHolds
import FreeBSDEdits.SchedCharged
import FreeBSDEdits.SchedInteract
import FreeBSDEdits.SchedLending

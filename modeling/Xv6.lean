import Xv6.ByteVec
import Xv6.WriteSeq
import Xv6.StepSystem
import Xv6.Tally
import Xv6.Ends
import Xv6.Ownership
import Xv6.Transfer
import Xv6.Radix
import Xv6.SlotMap
import Xv6.Walks
import Xv6.Layout
import Xv6.LogDisk
import Xv6.LogCrash
import Xv6.LogOps
import Xv6.LogGroup
import Xv6.LogReservation
import Xv6.Bio
import Xv6.BioInv
import Xv6.BioLog
import Xv6.BioPins
import Xv6.BioArray
import Xv6.FsDisk
import Xv6.FsAlloc
import Xv6.FsInode
import Xv6.FsOwner
import Xv6.FsMap
import Xv6.FsWrite
import Xv6.FsTrunc
import Xv6.FsOps
import Xv6.FsContent
import Xv6.Itable
import Xv6.ItableFace
import Xv6.ItableInv
import Xv6.DirModel
import Xv6.DirNames
import Xv6.DirMoves
import Xv6.DirRefs
import Xv6.DirPaths
import Xv6.DirCalls
import Xv6.DirFiles
import Xv6.DirLinks
import Xv6.Paging
import Xv6.Vm
import Xv6.Exec
import Xv6.ProcMem
import Xv6.VmTree
import Xv6.VmMap
import Xv6.VmSpace
import Xv6.VmUser
import Xv6.VmReshape
import Xv6.VmImage
import Xv6.VmExec
import Xv6.ProcSlot
import Xv6.ProcCalls
import Xv6.PipeFiles
import Xv6.MemInv
import Xv6.MemCalls
import Xv6.MemProcs
import Xv6.MemBoot
import Xv6.MemRun
import Xv6.PageRoles
import Xv6.KernelRuns
import Xv6.Sbrk
import Xv6.RingQueue
import Xv6.Pipe
import Xv6.FileRead
import Xv6.ShortWrite
import Xv6.UserCopy
import Xv6.Cursor
import Xv6.SharedFile
import Xv6.Interrupts
import Xv6.InterruptsInv
import Xv6.Virtio
import Xv6.VirtioInv
import Xv6.ShToken
import Xv6.ShParse
import Xv6.ShRefine
import Xv6.ShGrammar
import Xv6.UserMem
import Xv6.UserString
import Xv6.CountMapped
import Xv6.Pinfo
import Xv6.Trace
import Xv6.Ranges
import Xv6.SpaceBytes
import Xv6.ExecLoad
import Xv6.ExecStack
import Xv6.ExecImage
import Xv6.ExecArgs
import Xv6.ExecSegments
import Xv6.ExecWhole
import Xv6.ExecWords
import Xv6.ForkCopy
import Xv6.PageMap
import Xv6.Growth
import Xv6.WriteLog
import Xv6.FsDir
import Xv6.NoHoles
import Xv6.DirMap
import Xv6.RootImage
import Xv6.LinkCount
import Xv6.LinkWrap
import Xv6.Namex
import Xv6.ConsoleLine
import Xv6.Memmove

import Ko6.Common.ListSequences
import Ko6.Common.Cstd
import Ko6.Common.MemRoutines
import Ko6.Common.Itoa
import Ko6.Common.Strtoul
import Ko6.Common.Strsplit
import Ko6.Common.Vsnprintf
import Ko6.Common.RadixForeach
import Ko6.Common.RadixTrim
import Ko6.Common.RadixDestroy
import Ko6.Common.RadixFail
import Ko6.Common.HtopenProbe
import Ko6.Common.HtopenKeys
import Ko6.Common.HtopenCounts
import Ko6.Common.HtopenGrow
import Ko6.Common.HtopenPrime
import Ko6.Common.Delay
import Ko6.Kernel.SlabExhaust
import Ko6.Kernel.SlabCounts
import Ko6.Kernel.UserMem
import Ko6.Kernel.BlockDirty
import Ko6.Kernel.MutexRuns
import Ko6.Kernel.BarrierRuns
import Ko6.Kernel.ThreadLife
import Ko6.Kernel.SchedRuns
import Ko6.Kernel.TickRuns
import Ko6.Kernel.WaitNotify
import Ko6.Kernel.UstackRuns
import Ko6.Kernel.ThreadCleanup
import Ko6.Kernel.MutexDestroy
import Ko6.Kernel.SynchroCleanup
import Ko6.Kernel.TtyFifo
import Ko6.Hal.SoclibBd
import Ko6.Ulib.MemorySizes
import Ko6.Ulib.LineEdit
import Ko6.Fs.Fs1Bounds
import Ko6.Fs.KfsCells
import Ko6.Fs.KfsCounts
import Ko6.Fs.KfsAtomic
import Ko6.Fs.KfsEnd
import Ko6.Fs.KfsExhaust
import Ko6.Fs.KfsBitmap
import Ko6.Fs.MountUmount
import Ko6.Fs.Pvfs
import Ko6.Fs.PvfsPath
import Ko6.Tools.KfsSplit
import Ko6.Tools.Mkdx
import Ko6.Tools.ElfLoader
import Ko6.Uapp.Stmt
import Ko6.Uapp.ExprEval
import Ko6.Uapp.StmtList
import Ko6.Uapp.StmtDestroy
import Ko6.Lib.Linked
import Ko6.Lib.LinkedSync
import Ko6.Lib.Asm
import Ko6.Hal.Cpu
import Ko6.Hal.MipsIsa
import Ko6.Hal.RiscvIsa
import Ko6.Hal.Atomic
import Ko6.Hal.AtomicMips
import Ko6.Hal.AtomicRiscv
import Ko6.Hal.AtomicRuns
import Ko6.Hal.ContextMips
import Ko6.Hal.EntryMips
import Ko6.Hal.ContextRiscv
import Ko6.Hal.EntryRiscv
import Ko6.Hal.Context

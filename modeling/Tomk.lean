import Tomk.Mm.PmmExclusive
import Tomk.Mm.PmmUsable
import Tomk.Init.Mb
import Tomk.Mm.Wired
import Tomk.Mm.VmmFree
import Tomk.Mm.UserSpace
import Tomk.Mm.BootReserved
import Tomk.Mm.KheapPreempt
import Tomk.Mm.Kmalloc
import Tomk.Sched.Running
import Tomk.Sched.Create
import Tomk.Sched.Unload
import Tomk.Mm.KheapSize
import Tomk.Driver.Ps2
import Tomk.Libc.PrintParse
import Tomk.Libc.NumberLayout
import Tomk.Libc.StrtoValue
import Tomk.Libc.FormatReads
import Tomk.Shell.Kshell
import Tomk.Sched.Teardown
import Tomk.Sched.DestroyFrames
import Tomk.Elf.NullValues
import Tomk.Elf.Bounds
import Tomk.Elf.Release
import Tomk.Disasm.MnemStr
import Tomk.Disasm.LineText
import Tomk.Disasm.ImmediateForms
import Tomk.Disasm.Addressing
import Tomk.Disasm.Straddle
import Tomk.Disasm.ReturnStatus
import Tomk.Mm.KheapStale
import Tomk.Mm.LargestRun
import Tomk.Mm.VmmMark
import Tomk.Mm.FreeRejected
import Tomk.Mm.Mman
import Tomk.Mm.Chgpriv
import Tomk.Mm.KinitRun
import Tomk.Sched.RoundRobin
import Tomk.Ke.Exceptions
import Tomk.Video.Tty
import Tomk.Shell.PrintPaging
import Tomk.Libc.Memcpy
import Tomk.Mm.RamFrames
import Tomk.Mm.FrameBudget
import Tomk.Mm.KheapReturns
import Tomk.Sched.UnloadSections
import Tomk.Video.TtySections
import Tomk.Video.Screen
import Tomk.Ke.Spinlock
import Tomk.Sched.Service
import Tomk.Sched.FirstRun
import Tomk.Sched.HeapOwners
import Tomk.Sched.Waiting
import Tomk.Shell.ProcCommands
import Tomk.Shell.Session
import Tomk.Shell.Typing

import HeliumOS.Lib.AllocProg
import HeliumOS.Lib.Bitmap
import HeliumOS.Lib.Run
import HeliumOS.Mem.Address
import HeliumOS.Mem.Phys
import HeliumOS.Mem.PhysSound
import HeliumOS.Mem.PhysInit
import HeliumOS.Mem.PhysLive
import HeliumOS.Mem.PhysFresh
import HeliumOS.Mem.PhysHeader
import HeliumOS.Mem.PhysBoot
import HeliumOS.Mem.PhysCalls
import HeliumOS.Mem.Heap
import HeliumOS.Mem.HeapBounds
import HeliumOS.Mem.Machine
import HeliumOS.Mem.Virt.VCacheBooks
import HeliumOS.Mem.Virt.VCacheExhaustion
import HeliumOS.Mem.Virt.VCacheInit
import HeliumOS.Mem.Virt.VCacheRuns
import HeliumOS.Mem.Virt.Sessions
import HeliumOS.Mem.Virt.Rights
import HeliumOS.Proc.Timer
import HeliumOS.Proc.Scheduler
import HeliumOS.Proc.Ownership
import HeliumOS.Proc.AddressSpace
import HeliumOS.Proc.Selection
import HeliumOS.Proc.Contents
import HeliumOS.Proc.Syscall
import HeliumOS.Proc.Wakeup
import HeliumOS.Proc.Interrupts
import HeliumOS.Proc.Calibration
import HeliumOS.Proc.UserCall
import HeliumOS.Fs.Contained
import HeliumOS.Proc.Ignite
import HeliumOS.Proc.Failure
import HeliumOS.Proc.Panics
import HeliumOS.Proc.Confined
import HeliumOS.Proc.Undisturbed
import HeliumOS.Proc.Windows
import HeliumOS.Acpi.WalkEnds
import HeliumOS.Acpi.MadtBounds
import HeliumOS.Dev.Refresh
import HeliumOS.Elf.Reads
import HeliumOS.Proc.Arrival
import HeliumOS.Proc.BootOrder
import HeliumOS.Proc.LockingProgress
import HeliumOS.Proc.LockingAtomic
import HeliumOS.Mem.SmpMachine

import GarnOS.Sched.RoundRobin
import GarnOS.Process.Exit
import GarnOS.Dal.BcacheStore
import GarnOS.Fal.References
import GarnOS.Sys.Syscall
import GarnOS.Cpu.Irq
import GarnOS.Dal.Device
import GarnOS.Sys.Locking
import GarnOS.Term.Keyboard
import GarnOS.Klibc.Kvprintf
import GarnOS.Dal.Autoreg
import GarnOS.Fal.Mounting
import GarnOS.Fal.VfsOwners
import GarnOS.Fal.FatLookup
import GarnOS.Exec.Failure
import GarnOS.Acpi.Events
import GarnOS.Hw.PciConfig
import GarnOS.Paging.Coherence
import GarnOS.Exec.ModuleFailure
import GarnOS.Mem.PmmInitTrace
import GarnOS.Mem.PmmScrub
import GarnOS.Mem.Overlap
import GarnOS.Paging.Unguarded
import GarnOS.Paging.VmmInit
import GarnOS.Paging.Munmap
import GarnOS.Paging.Protection
import GarnOS.Heap.RoundTrip
import GarnOS.Heap.Sizes
import GarnOS.Fal.AbsolutePath
import GarnOS.Fal.NameBuffers
import GarnOS.Fal.DescriptorIo
import GarnOS.Fal.FatRead
import GarnOS.Fal.FatMount
import GarnOS.Fal.ShortNames
import GarnOS.Dal.GptPartitions
import GarnOS.Ahci.Command
import GarnOS.Ide.AtaIo
import GarnOS.Sys.Rtc
import GarnOS.Cpu.Madt
import GarnOS.Cpu.Ioapic
import GarnOS.Term.Terminal

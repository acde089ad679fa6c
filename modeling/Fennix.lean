import Fennix.VMM.ExplicitTable
import Fennix.Heap.Stability
import Fennix.Heap.KernelHeap
import Fennix.Tasking.Context
import Fennix.Tasking.RoundRobin
import Fennix.VMM.KernelImage
import Fennix.Syscalls.BulkRequest
import Fennix.Syscalls.Disclosure
import Fennix.Tasking.MonoQueue
import Fennix.Network.DHCPOptions
import Fennix.Interrupts.Registry
import Fennix.Drivers.Disk
import Fennix.Drivers.RTL8139
import Fennix.Drivers.E1000
import Fennix.Drivers.Mouse
import Fennix.FileSystem.MountLinks
import Fennix.Proc.Critical
import Fennix.Proc.ElfImage
import Fennix.Proc.PeImage
import Fennix.Network.ARPExchange
import Fennix.Display.UserConsole
import Fennix.Display.KernelConsole
import Fennix.Proc.InterProcessCommunication
import Fennix.Security.Tokens
import Fennix.Syscalls.Dispatch
import Fennix.Tasking.MonoIdentity
import Fennix.Tasking.TimeUsed
import Fennix.Tasking.RemovalTree
import Fennix.FileSystem.OpenFrom
import Fennix.FileSystem.FAT
import Fennix.Syscalls.FileRead
import Fennix.Kernel.Symbols
import Fennix.Kernel.Lock
import Fennix.ACPI.MADT
import Fennix.ACPI.DSDT
import Fennix.Interrupts.Redirection
import Fennix.Drivers.PCI
import Fennix.Timer.Delays
import Fennix.Display.Font
import Fennix.Userspace.Login
import Fennix.Libs.Converter
import Fennix.Libc.Convert
import Fennix.Libc.Strtok
import Fennix.Userspace.CyclicRedundancy
import Fennix.Userspace.Brainfuck

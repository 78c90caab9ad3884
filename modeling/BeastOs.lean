import BeastOs.Sync
import BeastOs.Memory.PageOwnership
import BeastOs.Fs.Contents
import BeastOs.Fs.Shares
import BeastOs.Syscall.WorkingDirectory
import BeastOs.Arch.SyscallEntry
import BeastOs.Arch.SyscallStub
import BeastOs.Fs.RamFsHandles
import BeastOs.Fs.InverseCache
import BeastOs.Fs.Reachable
import BeastOs.Fs.Fat32Failures
import BeastOs.Fs.TarRead
import BeastOs.Fs.TarSafety
import BeastOs.Fs.Vfat
import BeastOs.Fs.PeSafety
import BeastOs.Fs.MachOSafety
import BeastOs.Fs.ElfImage
import BeastOs.Fs.PeImports
import BeastOs.Memory.FirstFit
import BeastOs.Scheduler.BestFirst
import BeastOs.Scheduler.Starvation
import BeastOs.Ipc.RingWaits
import BeastOs.Memory.HeapBytes
import BeastOs.Syscall.Exec
import BeastOs.Memory.Unmap
import BeastOs.Memory.UserMap
import BeastOs.Capabilities.Derivation
import BeastOs.IoUring.RingPages
import BeastOs.Scheduler.EndedTasks
import BeastOs.Syscall.WriteBuffer
import BeastOs.Fs.TransferCalls
import BeastOs.Syscall.KeyInput
import BeastOs.Storage.FullStore
import BeastOs.Pressure
import BeastOs.Fs.MerkleVerify
import BeastOs.Syscall.FramebufferInfo
import BeastOs.Userland.CommandLine

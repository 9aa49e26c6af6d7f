import Qemu.Migration.XbzrleRoundTrip
import Qemu.Memory.FlatviewRoot
import Qemu.Memory.Overlap
import Qemu.Memory.Topology
import Qemu.Exec.DispatchTree
import Qemu.Util.HBitmapInterleaved
import Qemu.QObject.ArraySplit
import Qemu.QObject.Rebuild
import Qemu.QObject.JsonNumber
import Qemu.QObject.JsonStreamer
import Qemu.Block.SerialisingWrite
import Qemu.Virtio.PopSafety
import Qemu.Virtio.DropTermination
import Qemu.Virtio.PackedNotify
import Qemu.Qcow2.ClusterAlloc
import Qemu.Util.CoMutexRuns
import Qemu.Util.LockCntSafety
import Qemu.Tcg.JumpListsSafety
import Qemu.Tcg.SoftmmuTlbFlush
import Qemu.Block.BlockCopySafety
import Qemu.Exec.MmioProgress
import Qemu.Memory.RenderFits
import Qemu.Util.HBitmapMerge
import Qemu.Util.HBitmapDeserialize
import Qemu.Memory.AccessBytes
import Qemu.Memory.IoeventfdRuns
import Qemu.Tcg.Reachable
import Qemu.Util.Strtox
import Qemu.QObject.JsonString
import Qemu.Block.BlockCopyProgress
import Qemu.Util.IovecClone
import Qemu.Util.CoMutexUnlock
import Qemu.Exec.RamOffset
import Qemu.Tcg.BetterCopy
import Qemu.Migration.Hostpages
import Qemu.Gdb.Packet

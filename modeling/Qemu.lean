import Qemu.Block.CheckRequest
import Qemu.Block.Commit
import Qemu.Block.CopyOnRead
import Qemu.Block.DmaHelpers
import Qemu.Block.Migration
import Qemu.Block.Multiwrite
import Qemu.Block.SaveComplete
import Qemu.Block.Stream
import Qemu.Coroutine.Lock
import Qemu.Cutils.Mktimegm
import Qemu.Cutils.Wide
import Qemu.Exec.Ram
import Qemu.Exec.RamOffset
import Qemu.Exec.TbDatabase
import Qemu.Exec.TbJumps
import Qemu.Exec.TbLinked
import Qemu.Exec.TbRange
import Qemu.Exec.TbRuns
import Qemu.Exec.Tlb
import Qemu.Exec.TlbDirty
import Qemu.Exec.Unmap
import Qemu.Json.Lexer
import Qemu.Json.Parser
import Qemu.Json.PrintedTokens
import Qemu.Json.Printer
import Qemu.Json.QDict
import Qemu.Json.QObject
import Qemu.Json.RoundTrip
import Qemu.Json.Streamer
import Qemu.Lib.Chain
import Qemu.Lib.Crash
import Qemu.Lib.HighBits
import Qemu.Lib.Ranges
import Qemu.Lib.Ring
import Qemu.Lib.ZeroByte
import Qemu.Memory.FlatView
import Qemu.Memory.Listener
import Qemu.Memory.Render
import Qemu.Memory.RenderCorrect
import Qemu.Memory.Transaction
import Qemu.Migration.BufferedFile
import Qemu.Migration.PageCache
import Qemu.Migration.RamSave
import Qemu.Migration.Xbzrle
import Qemu.Migration.XbzrleRoundTrip
import Qemu.Nbd.Server
import Qemu.Net.Checksum
import Qemu.Pci.Intx
import Qemu.Qcow2.ClusterOffset
import Qemu.Qcow2.Compressed
import Qemu.Qcow2.Entry
import Qemu.Qcow2.Extensions
import Qemu.Qcow2.IsAllocated
import Qemu.Qcow2.Read
import Qemu.Qcow2.SnapshotList
import Qemu.Qcow2.SnapshotRefcount
import Qemu.Qcow2.TableGrowth
import Qemu.Qcow2.UpdateRefcount
import Qemu.Qed.Find
import Qemu.Qed.History
import Qemu.Qed.Image
import Qemu.Qed.Invariant
import Qemu.Qed.Layout
import Qemu.Qed.Open
import Qemu.Qed.Request
import Qemu.Qed.Serve
import Qemu.Qed.Update
import Qemu.Qed.Whole
import Qemu.Qed.Write
import Qemu.Savevm.Chunks
import Qemu.Savevm.QemuFile
import Qemu.Savevm.RoundTrip
import Qemu.Savevm.VmState
import Qemu.Tcg.CopyTable
import Qemu.Tcg.Liveness
import Qemu.Tcg.LivenessCorrect
import Qemu.Tcg.Machine
import Qemu.Tcg.Op
import Qemu.Tcg.Opcode
import Qemu.Tcg.Optimize
import Qemu.Tcg.OptimizeCorrect
import Qemu.Tcg.OptimizeRun
import Qemu.Timer.Ptimer
import Qemu.Timer.Rtc
import Qemu.Virtio.AvailBytes
import Qemu.Virtio.Notify
import Qemu.Virtio.VirtQueue

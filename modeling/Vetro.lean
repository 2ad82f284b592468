import Vetro.Core.Bytes
import Vetro.Core.Splice
import Vetro.Core.Outcome
import Vetro.Core.Lz77
import Vetro.Core.BitPack
import Vetro.Core.Kraft
import Vetro.Core.BitSource
import Vetro.Core.SlotTable
import Vetro.Core.Serial
import Vetro.Core.Trace
import Vetro.Core.Mask
import Vetro.Core.Intervals
import Vetro.Snapshot.Format
import Vetro.Snapshot.Lz
import Vetro.Snapshot.CodeLengths
import Vetro.Snapshot.PrefixCode
import Vetro.Snapshot.BitStream
import Vetro.Snapshot.Matcher
import Vetro.Snapshot.Lzh
import Vetro.Snapshot.LzhReference
import Vetro.Snapshot.Blocks
import Vetro.Snapshot.BlocksDecode
import Vetro.Snapshot.Writer
import Vetro.Snapshot.BlockStream
import Vetro.Snapshot.Assembler
import Vetro.Snapshot.Deferred
import Vetro.Snapshot.PlanCheck
import Vetro.Snapshot.Overlay
import Vetro.Snapshot.OverlayFile
import Vetro.Snapshot.OverlayCut
import Vetro.Net.Tcp
import Vetro.Net.TcpRun
import Vetro.Net.HostFwd
import Vetro.Net.TcpTimer
import Vetro.Net.TcpSend
import Vetro.Net.TcpReceive
import Vetro.Net.TcpClose
import Vetro.Mmu.Walk
import Vetro.Mmu.Tlb
import Vetro.Mmu.Translate
import Vetro.Mmu.Recent
import Vetro.Mmu.Coherence
import Vetro.User.Region
import Vetro.User.Memory
import Vetro.User.Flat
import Vetro.User.Refine
import Vetro.Virtio.Cow
import Vetro.Virtio.CowRun
import Vetro.Vsock.Device
import Vetro.Vsock.View
import Vetro.Vsock.Run
import Vetro.Vsock.Stream
import Vetro.Vsock.Credit
import Vetro.Vsock.Backlog
import Vetro.Analysis.Reassembly
import Vetro.Core.Machine
import Vetro.Linux.Process
import Vetro.Linux.Lifecycle
import Vetro.Linux.Reaping
import Vetro.Files.Proto
import Vetro.Files.Client
import Vetro.Files.Completions
import Vetro.Files.Requests
import Vetro.Core.Lookup
import Vetro.Virtio.Gpu
import Vetro.Virtio.Scanouts
import Vetro.Virtio.GpuScanout
import Vetro.Linux.OpenFile
import Vetro.Analysis.Introspect
import Vetro.Core.Bitmap
import Vetro.Core.PointInTime
import Vetro.Board.Ram
import Vetro.Board.Trap
import Vetro.Board.DeferredSave
import Vetro.Board.SaveRun
import Vetro.User.Holes
import Vetro.Boot.Plan
import Vetro.Boot.Android
import Vetro.Boot.AndroidSections
import Vetro.Board.Clock
import Vetro.Core.Wasm
import Vetro.Gfx.OpStream
import Vetro.Jit.LazyFlags
import Vetro.Virtio.Input

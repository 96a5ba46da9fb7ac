import Tabnode.AsyncContext.Follows
import Tabnode.BufferCodec.RoundTrip
import Tabnode.BufferCodec.Search
import Tabnode.BufferCodec.Sizing
import Tabnode.BufferCodec.Transcode
import Tabnode.ChildInput.Reading
import Tabnode.ChildProcess.CommandLine
import Tabnode.ChildProcess.StreamedOutput
import Tabnode.Cipher.Agreement
import Tabnode.Cipher.Counter
import Tabnode.Data.Base64
import Tabnode.Data.ShellTokens
import Tabnode.Descriptors.Apart
import Tabnode.Dns.Answers
import Tabnode.FileBuffers.Refinement
import Tabnode.FileUrl.RoundTrip
import Tabnode.FlowControl.Delivered
import Tabnode.ForkedRuns.Accounted
import Tabnode.GuestGlobal.Isolation
import Tabnode.GuestLoop.Progress
import Tabnode.GuestTimers.Counted
import Tabnode.HostSockets.Rights
import Tabnode.HttpParser.Assembly
import Tabnode.HttpParser.Cuts
import Tabnode.KernelStream.Reliable
import Tabnode.ModuleLoader.Loading
import Tabnode.NativeFsTasks.Turns
import Tabnode.NativeQueue.Delivered
import Tabnode.NativeStream.Chunks
import Tabnode.NativeStream.Drained
import Tabnode.NativeStream.Grant
import Tabnode.NativeStream.Queue
import Tabnode.NativeStream.Writes
import Tabnode.NodeResolution.Exports
import Tabnode.OpenFiles.Shared
import Tabnode.OwnedHandles.Ended
import Tabnode.PortBridge.Acknowledged
import Tabnode.ProcessRegistry.Lifetimes
import Tabnode.ProcessRegistry.Refusals
import Tabnode.Repl.Session
import Tabnode.Rsa.Generation
import Tabnode.Rsa.Soundness
import Tabnode.Semver.Choice
import Tabnode.ServiceWorker.DocumentPrelude
import Tabnode.ShellFiles.Removal
import Tabnode.SocketBridge.Answered
import Tabnode.SourceEdits.Assembly
import Tabnode.SpawnSync.Drain
import Tabnode.SpawnSync.Returns
import Tabnode.SpawnSync.Served
import Tabnode.StdinRing.Lossless
import Tabnode.StdinRing.Wakeup
import Tabnode.StringDecoder.Chunks
import Tabnode.SyncChild.Agreement
import Tabnode.Tarball.Containment
import Tabnode.Tarball.Members
import Tabnode.Tarball.Recovery
import Tabnode.VirtualFS.Expansions
import Tabnode.VirtualFS.Hearing
import Tabnode.VirtualFS.Index
import Tabnode.VirtualFS.Mounts
import Tabnode.VirtualFS.Preservation
import Tabnode.VirtualFS.Realpath
import Tabnode.Wasi.Bounded
import Tabnode.Wasi.Memory
import Tabnode.Wasi.Paging
import Tabnode.Wasi.Polling
import Tabnode.WebLocks.Granting
import Tabnode.ZlibStream.RoundTrip

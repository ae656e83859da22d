import P2PTransfer.Lib.Run
import P2PTransfer.Lib.Duplex
import P2PTransfer.Lib.Shared
import P2PTransfer.Lib.Outbox
import P2PTransfer.Crypto
import P2PTransfer.Transfer.Metadata
import P2PTransfer.Storage.Path
import P2PTransfer.Storage.AsyncFile
import P2PTransfer.Storage.OutputPath
import P2PTransfer.Network.Control
import P2PTransfer.Network.Frame
import P2PTransfer.Tcp.Session
import P2PTransfer.Lan.Sender
import P2PTransfer.Lan.Receiver
import P2PTransfer.Lan.Transfer
import P2PTransfer.Lan.Soundness
import P2PTransfer.Lan.Wiretap
import P2PTransfer.Receive.Size
import P2PTransfer.Receive.Loss
import P2PTransfer.Receive.Concurrent
import P2PTransfer.Alpn.Sender
import P2PTransfer.Alpn.Receiver
import P2PTransfer.Alpn.Transfer
import P2PTransfer.Alpn.Cancel
import P2PTransfer.Alpn.Events
import P2PTransfer.Receive.Events
import P2PTransfer.Network.Registry
import P2PTransfer.Receive.Consent
import P2PTransfer.Send.Mobile
import P2PTransfer.Send.Contact
import P2PTransfer.Send.Refusal
import P2PTransfer.Cli.Sender
import P2PTransfer.Cli.Receiver
import P2PTransfer.Cli.Numbers
import P2PTransfer.Cli.Transfer
import P2PTransfer.Cli.Fresh
import P2PTransfer.Cli.Progress
import P2PTransfer.Lib.Watch
import P2PTransfer.Network.Backpressure
import P2PTransfer.Network.PauseFlag
import P2PTransfer.Network.Discovery
import P2PTransfer.Send.Lookup
import P2PTransfer.Storage.Restart
import P2PTransfer.Cli.Join
import P2PTransfer.Cli.Disk
import P2PTransfer.Lan.Pause
import P2PTransfer.Cli.Records
import P2PTransfer.Cli.Delivery
import P2PTransfer.Tcp.SendFile
import P2PTransfer.Tcp.Agreement
import P2PTransfer.Lib.Machine64
import P2PTransfer.Transfer.Chunks
import P2PTransfer.Cli.FrameSize
import P2PTransfer.Cli.Window
import P2PTransfer.Cli.Accounting
import P2PTransfer.Send.Reader
import P2PTransfer.Cli.Arithmetic
import P2PTransfer.Gui.Receiver
import P2PTransfer.Storage.Config
import P2PTransfer.Storage.Volume
import P2PTransfer.Gui.Archive
import P2PTransfer.Lib.Log
import P2PTransfer.Tcp.Logged
import P2PTransfer.Lan.Progress
import P2PTransfer.Lib.Reading
import P2PTransfer.Network.Message
import P2PTransfer.Network.Peers
import P2PTransfer.Network.Service
import P2PTransfer.Receive.Pending
import P2PTransfer.Transfer.Cleanup
import P2PTransfer.Transfer.Mapped
import P2PTransfer.Send.Identity
import P2PTransfer.Lib.Bucket
import P2PTransfer.Network.Bandwidth
import P2PTransfer.Lib.Gate
import P2PTransfer.Network.Refusals
import P2PTransfer.Transfer.Compress
import P2PTransfer.Transfer.Tiling
import P2PTransfer.Storage.UniquePath
import P2PTransfer.Tcp.Server
import P2PTransfer.Storage.FileIter
import P2PTransfer.Transfer.History
import P2PTransfer.Cli.Resumption
import P2PTransfer.Cli.Settings
import P2PTransfer.Lib.PrefixCode
import P2PTransfer.Network.Json
import P2PTransfer.Alpn.Wire
import P2PTransfer.Cli.SlowReceive
import P2PTransfer.Lib.Durable
import P2PTransfer.Storage.Phone
import P2PTransfer.Receive.Phone

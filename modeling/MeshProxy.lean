import MeshProxy.Advertising
import MeshProxy.Arena
import MeshProxy.BleGatt
import MeshProxy.Broadcasts
import MeshProxy.ConfigCache
import MeshProxy.Device
import MeshProxy.Downlink
import MeshProxy.Drained
import MeshProxy.Fetch
import MeshProxy.Firmware
import MeshProxy.GattOps
import MeshProxy.Handshake
import MeshProxy.Hub
import MeshProxy.HubRefinement
import MeshProxy.Invariant
import MeshProxy.Keepalive
import MeshProxy.KeepaliveTimer
import MeshProxy.Lib.Cells
import MeshProxy.Lib.Machine
import MeshProxy.Lib.Progress
import MeshProxy.Lib.Ring
import MeshProxy.Lib.Varint
import MeshProxy.Lib.Watchdog
import MeshProxy.LongReads
import MeshProxy.Onboarding
import MeshProxy.OwnNodeInfo
import MeshProxy.Pending
import MeshProxy.Phase0
import MeshProxy.Platform
import MeshProxy.ProtoHandler
import MeshProxy.ProxyProtocol
import MeshProxy.Queue
import MeshProxy.Registration
import MeshProxy.Replay
import MeshProxy.Resync
import MeshProxy.Reuse
import MeshProxy.Routing
import MeshProxy.RxDma
import MeshProxy.RxPath
import MeshProxy.Segments
import MeshProxy.SlotOps
import MeshProxy.Slots
import MeshProxy.Startup
import MeshProxy.Steps
import MeshProxy.System
import MeshProxy.Table
import MeshProxy.TxLine
import MeshProxy.TxPath
import MeshProxy.TxProgress
import MeshProxy.UartRx
import MeshProxy.UartTx
import MeshProxy.Uplink
import MeshProxy.UplinkWire
import MeshProxy.UpstreamSession
import MeshProxy.Wakeup
import MeshProxy.Wire

import Olsrd.Packet.Framing
import Olsrd.Flood.Life
import Olsrd.Flood.Output
import Olsrd.Topology.Reachable
import Olsrd.Packet.Decoders
import Olsrd.Packet.Bounds
import Olsrd.Topology.Borders
import Olsrd.Topology.TcFreshness
import Olsrd.Neighbor.SoftState
import Olsrd.Neighbor.Status
import Olsrd.Neighbor.Ansn
import Olsrd.Neighbor.BestLink
import Olsrd.Neighbor.TwoHopLookup
import Olsrd.Neighbor.PathCost
import Olsrd.Routing.Election
import Olsrd.Routing.Fib
import Olsrd.Routing.Pruning
import Olsrd.Routing.Resolution
import Olsrd.Spf.Backoff
import Olsrd.Spf.Mirror
import Olsrd.Spf.ShortestPaths
import Olsrd.Timers.Callbacks
import Olsrd.Timers.Runs
import Olsrd.Timers.LinkTime
import Olsrd.Message.Hello
import Olsrd.Message.Hna
import Olsrd.Secure.Window
import Olsrd.Secure.SignVerify
import Olsrd.Secure.Replay
import Olsrd.Gateway.RoundTrip
import Olsrd.Gateway.Acceptable
import Olsrd.Mpr.Eligible
import Olsrd.Mpr.LqChoice
import Olsrd.Nameservice.Bounds
import Olsrd.Nameservice.RoundTrip
import Olsrd.Quagga.ZclientRead
import Olsrd.Packet.Mantissa
import Olsrd.Timers.TimeDue
import Olsrd.Timers.OlsrTimes
import Olsrd.Bmf.PacketHistory
import Olsrd.LinkQuality.Smoothing
import Olsrd.LinkQuality.Window
import Olsrd.Bmf.Crc32
import Olsrd.Common.Autobuf
import Olsrd.Common.AvlRuns
import Olsrd.Plc.Receive
import Olsrd.Nameservice.Ownership
import Olsrd.Secure.Expiry
import Olsrd.Flood.Bound
import Olsrd.Flood.Reach
import Olsrd.Lib.HopByHop
import Olsrd.Mpr.Coverage
import Olsrd.Mpr.Covering
import Olsrd.Spf.HopByHop
import Olsrd.Sensing.Handshake
import Olsrd.Sensing.Selected
import Olsrd.Hybrid.Metric
import Olsrd.LinkState.Announced
import Olsrd.Message.Mid
import Olsrd.Announce.Network
import Olsrd.Announce.Owner
import Olsrd.Lib.BlockDigest
import Olsrd.Secure.Md5

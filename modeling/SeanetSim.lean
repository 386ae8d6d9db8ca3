import SeanetSim.Lib.Reachable
import SeanetSim.Lib.Branches
import SeanetSim.Lib.ChainedMap
import SeanetSim.Lib.Selection
import SeanetSim.Lib.Buffer
import SeanetSim.Lib.Relay
import SeanetSim.Lib.BitString
import SeanetSim.Lib.Run
import SeanetSim.Lib.BreadthFirst
import SeanetSim.Lib.Blocks
import SeanetSim.Lib.Tally
import SeanetSim.Network.Ipv4Address
import SeanetSim.Network.AddressMap
import SeanetSim.Network.NixVector
import SeanetSim.Network.SequenceNumber
import SeanetSim.Applications.SeanetHeader
import SeanetSim.Applications.SwitchApplication
import SeanetSim.Applications.SwitchNet
import SeanetSim.Applications.SwitchTables
import SeanetSim.Applications.GraftTarget
import SeanetSim.Applications.MulticastTree
import SeanetSim.Applications.RootNode
import SeanetSim.Applications.ResolutionApplication
import SeanetSim.Applications.ResolutionReply
import SeanetSim.Applications.MulticastClient
import SeanetSim.Internet.UdpHeader
import SeanetSim.Internet.UdpReceive
import SeanetSim.Internet.LocalDeliver
import SeanetSim.Internet.Fragmentation
import SeanetSim.Internet.FragmentTimeout
import SeanetSim.Internet.Identification
import SeanetSim.Internet.RipRoutes
import SeanetSim.Internet.TcpCongestion
import SeanetSim.Internet.TcpRxBuffer
import SeanetSim.Internet.TcpRxWindow
import SeanetSim.Internet.TcpRxInvariant
import SeanetSim.Internet.TcpRxStream
import SeanetSim.Internet.TcpRxLimits
import SeanetSim.Internet.TcpRxSack
import SeanetSim.Internet.TcpTxBuffer
import SeanetSim.Internet.TcpTxScoreboard
import SeanetSim.Internet.TcpTxSegments
import SeanetSim.Internet.TcpTxStream
import SeanetSim.TrafficControl.QueueDisc
import SeanetSim.TrafficControl.QueueAccounts
import SeanetSim.NixVectorRouting.RouteInput
import SeanetSim.NixVectorRouting.Transit
import SeanetSim.NixVectorRouting.Topology
import SeanetSim.NixVectorRouting.NixPath
import SeanetSim.NixVectorRouting.NixDecode
import SeanetSim.NixVectorRouting.UsableLinks
import SeanetSim.NixVectorRouting.RouteCache
import SeanetSim.NixVectorRouting.Forwarding
import SeanetSim.NixVectorRouting.CacheFlush
import SeanetSim.TrafficControl.ChildQueueDisc
import SeanetSim.TrafficControl.QueueHeaders
import SeanetSim.InternetApps.DhcpServer
import SeanetSim.InternetApps.DhcpLeases
import SeanetSim.InternetApps.DhcpAcks
import SeanetSim.TrafficControl.CoDel
import SeanetSim.TrafficControl.FqCoDel
import SeanetSim.TrafficControl.FlowLists
import SeanetSim.TrafficControl.FlowQueues
import SeanetSim.TrafficControl.FlowOrder
import SeanetSim.Internet.Ipv6ExtensionHeader
import SeanetSim.Internet.Ipv6Fragmentation
import SeanetSim.Internet.Ipv6Reassembly
import SeanetSim.GlobalRouting.LinkState
import SeanetSim.GlobalRouting.SpfVertex
import SeanetSim.GlobalRouting.SpfCalculate
import SeanetSim.GlobalRouting.NextHop
import SeanetSim.GlobalRouting.StubNode
import SeanetSim.GlobalRouting.Candidates
import SeanetSim.Lib.ShortestPath
import SeanetSim.Lib.BinaryHeap
import SeanetSim.Core.DefaultSimulator
import SeanetSim.Core.HeapScheduler
import SeanetSim.Wifi.BlockAckCache
import SeanetSim.Wifi.MacRxMiddle
import SeanetSim.Lte.ReorderingWindow
import SeanetSim.Lte.ReorderingRuns
import SeanetSim.Lib.TreeSides
import SeanetSim.Bridge.BridgeNetDevice
import SeanetSim.Bridge.BridgedTree
import SeanetSim.Core.CalendarScheduler
import SeanetSim.Core.CalendarRuns
import SeanetSim.Applications.FrontEndQueue
import SeanetSim.Applications.NearestNode
import SeanetSim.Applications.RootLoad
import SeanetSim.Core.EventLife
import SeanetSim.Lib.LinkedNodes
import SeanetSim.Network.PacketTagList
import SeanetSim.Network.PacketTagNodes
import SeanetSim.Network.PacketTagRuns
import SeanetSim.Lib.SharedBlocks
import SeanetSim.Network.Buffer
import SeanetSim.Network.BufferContent
import SeanetSim.Network.BufferGrowth
import SeanetSim.Network.BufferRuns
import SeanetSim.Lib.ByteStream
import SeanetSim.Network.ByteTagList
import SeanetSim.Network.PacketSerialization
import SeanetSim.Network.PacketSections
import SeanetSim.Network.PacketBound
import SeanetSim.Network.PacketDeserialization
import SeanetSim.Network.BufferReading
import SeanetSim.Network.PacketRoundTrip
import SeanetSim.Applications.ResolutionBatches
import SeanetSim.Internet.Ipv4EndPointDemux
import SeanetSim.Internet.PartialPacket
import SeanetSim.Network.NixVectorShifts
import SeanetSim.Internet.Ipv4AddressGenerator
import SeanetSim.Internet.Ipv4StaticRouting
import SeanetSim.Internet.SimpleLookup
import SeanetSim.Internet.TcpTxWrap
import SeanetSim.Network.ByteTagListData
import SeanetSim.Network.ByteTagSharing
import SeanetSim.Network.PacketByteTags
import SeanetSim.Network.ByteTagRanges
import SeanetSim.Network.ByteTagMarks
import SeanetSim.Network.ByteTagRuns
import SeanetSim.TrafficControl.CoDelNewton
import SeanetSim.TrafficControl.CoDelClock
import SeanetSim.TrafficControl.CoDelDrops
import SeanetSim.Internet.TcpNextSeg
import SeanetSim.Lib.TracedReader
import SeanetSim.Internet.TcpOption
import SeanetSim.Internet.TcpHeader
import SeanetSim.Internet.TcpHeaderParsing
import SeanetSim.Internet.RipUpdates
import SeanetSim.Internet.RttHistory
import SeanetSim.Internet.TcpHeaderRoundTrip
import SeanetSim.Internet.RipRequests
import SeanetSim.Lib.FixedPoint
import SeanetSim.Lib.WhileLoop
import SeanetSim.Core.Int64x64
import SeanetSim.Lib.LongDivision
import SeanetSim.Core.Int64x64Div
import SeanetSim.Core.Int64x64Invert
import SeanetSim.Olsr.HnaTable
import SeanetSim.Olsr.TopologySet
import SeanetSim.Lib.CircularBuffer
import SeanetSim.Network.PacketTagReplace
import SeanetSim.Wifi.BlockAckWindow
import SeanetSim.Wifi.OriginatorBlockAck
import SeanetSim.Lib.SetCover
import SeanetSim.Olsr.MprComputation
import SeanetSim.Network.BufferCopying
import SeanetSim.Network.BufferConcat
import SeanetSim.Lib.LayeredSearch
import SeanetSim.Olsr.RoutingTable
import SeanetSim.Olsr.RoutingPaths
import SeanetSim.Lib.Bitmap
import SeanetSim.Lib.WindowHistory
import SeanetSim.Applications.PacketLossCounter
import SeanetSim.Lib.TextStream
import SeanetSim.Network.SequenceAlgebra
import SeanetSim.Network.LollipopCounter
import SeanetSim.TopologyRead.InetTopologyReader
import SeanetSim.Network.Ipv6Text
import SeanetSim.Network.Ipv6Print
import SeanetSim.Core.WideInt
import SeanetSim.Core.Int64x64Cairo
import SeanetSim.Internet.ArpCache
import SeanetSim.Internet.ArpRuns
import SeanetSim.Internet.ArpHistory
import SeanetSim.PointToPoint.LinkRuns

import Parsip.Library.Transition
import Parsip.Protocol.Serialize
import Parsip.Protocol.Deserialize
import Parsip.Library.PosixPath
import Parsip.Library.Table
import Parsip.Library.Pipe
import Parsip.Protocol.Codec
import Parsip.Protocol.Theorems.Message
import Parsip.Connection.Manager
import Parsip.Connection.Theorems.Manager
import Parsip.Protocol.Theorems.Codec
import Parsip.Connection.Locking
import Parsip.Connection.Theorems.Locking
import Parsip.Connection.Pair
import Parsip.Connection.Theorems.Pair
import Parsip.Connection.Theorems.Crossing
import Parsip.Connection.Theorems.Repeated
import Parsip.Connection.Sending
import Parsip.Connection.Theorems.Sending
import Parsip.Connection.Handshake
import Parsip.Connection.Sessions
import Parsip.Connection.Theorems.Sessions
import Parsip.Connection.HandOff
import Parsip.Connection.Theorems.HandOff.Flow
import Parsip.Connection.Theorems.HandOff
import Parsip.Library.FileSystem
import Parsip.Resource.Transfer
import Parsip.Resource.Writer
import Parsip.Resource.Theorems.Writer
import Parsip.Resource.Download
import Parsip.Resource.Theorems.Confinement
import Parsip.Resource.Theorems.Download
import Parsip.Resource.Theorems.Transfer
import Parsip.Daemon.Basic
import Parsip.Resource.Store
import Parsip.Resource.Adding
import Parsip.Resource.Calls
import Parsip.Resource.Theorems.Adding
import Parsip.Resource.Theorems.Calls
import Parsip.Resource.Theorems.Completed
import Parsip.Daemon.EventHandler
import Parsip.Daemon.History
import Parsip.Daemon.Theorems.EventHandler
import Parsip.Daemon.Theorems.History
import Parsip.Library.Naming
import Parsip.Daemon.Theorems.Aliases
import Parsip.Daemon.Theorems.Isolation
import Parsip.Daemon.Theorems.Integrity
import Parsip.Daemon.Node
import Parsip.Daemon.Theorems.Node
import Parsip.Daemon.Theorems.Superseded
import Parsip.Network.Theorems.Wire
import Parsip.Network.Theorems.Refinement
import Parsip.Network.Theorems.Traffic
import Parsip.Library.Source
import Parsip.Protocol.Stream
import Parsip.Protocol.Theorems.Stream
import Parsip.Protocol.Encoding
import Parsip.Protocol.Theorems.Encoding
import Parsip.Protocol.Theorems.Grammar
import Parsip.Library.Exits
import Parsip.Protocol.Machine
import Parsip.Protocol.Theorems.Machine
import Parsip.Protocol.Theorems.Canonical
import Parsip.Daemon.Theorems.Listing
import Parsip.Daemon.Theorems.Requests
import Parsip.Daemon.Service
import Parsip.Daemon.Theorems.Service
import Parsip.Daemon.Theorems.Agreement
import Parsip.Daemon.Theorems.Replies
import Parsip.Daemon.Theorems.Cancelling
import Parsip.Daemon.Dialling
import Parsip.Daemon.Theorems.Dialling
import Parsip.Daemon.Upload
import Parsip.Daemon.Serving
import Parsip.Daemon.Theorems.Serving
import Parsip.Daemon.ReadLoop
import Parsip.Daemon.Theorems.ReadLoop
import Parsip.Daemon.Theorems.Readers
import Parsip.Network.Mesh
import Parsip.Network.Theorems.Mesh.Routing
import Parsip.Daemon.Theorems.Answers
import Parsip.Network.Theorems.Mesh
import Parsip.Network.Theorems.Session
import Parsip.Network.Theorems.Exactness
import Parsip.Network.Theorems.Listings
import Parsip.Daemon.Theorems.Endings
import Parsip.Network.Departing
import Parsip.Network.Theorems.Departing
import Parsip.Daemon.Theorems.Scanning
import Parsip.Daemon.Connecting
import Parsip.Daemon.Theorems.Dials
import Parsip.Daemon.Theorems.Connecting
import Parsip.Discovery.Datagram
import Parsip.Discovery.Theorems.Datagram
import Parsip.Discovery.Broadcast
import Parsip.Discovery.FibTrie
import Parsip.Discovery.Theorems.Broadcast
import Parsip.Library.Simulation
import Parsip.Library.Sections
import Parsip.Connection.Sections
import Parsip.Connection.Theorems.Linearized
import Parsip.Daemon.Theorems.Presence
import Parsip.Daemon.Polling
import Parsip.Daemon.Theorems.Polling
import Parsip.Daemon.Control
import Parsip.Daemon.Theorems.Control
import Parsip.Cli
import Parsip.Daemon.Theorems.Cli
import Parsip.Discovery.Lan
import Parsip.Discovery.Theorems.Lan
import Parsip.Resource.Theorems.Sharing
import Parsip.Daemon.Theorems.Sharing
import Parsip.Daemon.Theorems.Progress
import Parsip.Resource.Theorems.Tidy
import Parsip.Library.Decimal
import Parsip.Main.Stopping
import Parsip.Main.Theorems.Stopping
import Parsip.Main.Settings
import Parsip.Main.Theorems.Settings
import Parsip.Identity.Theorems.Loading

import Psnet.DeltaList.Invariant
import Psnet.Net.Dotted
import Psnet.Router.Duplicates
import Psnet.Router.Hops
import Psnet.Router.Network
import Psnet.Router.Update
import Psnet.Server.Sessions
import Psnet.Server.Workers
import Psnet.Protocol.Response
import Psnet.Tracker.Ports
import Psnet.Tracker.Registry
import Psnet.DeltaList.Tick
import Psnet.Jsmn.Arrays
import Psnet.Parse.Filled
import Psnet.Parse.Nodes
import Psnet.Protocol.Scratch
import Psnet.Router.Listing
import Psnet.Server.Buffers
import Psnet.Tracker.RoundTrip
import Psnet.Router.Broker
import Psnet.Router.Reach
import Psnet.Router.Locked
import Psnet.Router.Keepalive
import Psnet.Tracker.Linear
import Psnet.Protocol.Answers
import Psnet.Jsmn.Accepts
import Psnet.Config.Document
import Psnet.Config.Settings

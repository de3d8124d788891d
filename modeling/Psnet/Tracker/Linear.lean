/-
What the threads of a tracker come to.

Every handler works on the client table in one section at most, so
whatever the interleaving the table is what the messages and ticks leave
one after the other, and each answer on a connection is the one
`handle_connection` gives on the table as it was at some moment
(`threads_linear`): what is said of the tracker message by message
(`Registry`, `Directory`) is said of its threads.

# What is not said

The history is one of messages and ticks; what the operating system does
between sections, and in which order it delivers answers of different
connections, is not part of it. A thread's answers are in the order of its
requests.
-/
import Psnet.Tracker.Locked
import Psnet.Tracker.Registry

namespace Psnet.Tracker.Locked

open Net Jsmn Parse DeltaList Client Server Locks Tracker

open Server.Locked (leave tcpServerMain udpServerMain)

-- ======================================================================= changes

/-- What changes the client table: a message, or a tick. -/
inductive Change
  | message (mi : MsgInfo)
  | tick

/-- What a thread has to do with the table. -/
def Role.changes : Role → List Change
  | .message mi => [.message mi]
  | .clock ticks => List.replicate ticks .tick
  | .connection .. | .tcpServer .. | .udpServer .. => []

/-- The datagrams and ticks of a tracker's history. -/
def Event.change : Event → Change
  | .datagram d => .message d.mi
  | .tick => .tick

/-- Threads of a tracker, and all of them. -/
inductive Visitor
  | first
  | second
  | asks
  | ticks
  | serves
  deriving DecidableEq

def Visitor.all : List Visitor := [.first, .second, .asks, .ticks, .serves]

/-- Two hosts connect while a connection asks for all there are, twice; the
table ticks, and the UDP server starts and admits a message. -/
def Visitor.role : Visitor → Role
  | .first => .message (udpReceive Router.zeroInfo (host4 1)
      (ascii "\x7b\"method\":\"connect\",\"port\":5557\x7d"))
  | .second => .message (udpReceive Router.zeroInfo (host4 2)
      (ascii "\x7b\"method\":\"connect\",\"port\":5557\x7d"))
  | .asks =>
      let buf := store Router.zeroInfo.msg
        (ascii "\x7b\"method\":\"list\",\"num\":10\x7d\r\n\r\n")
      .connection (.fresh Router.zeroInfo (host4 3) zeroTokens)
        [buf, buf]
  | .ticks => .clock 1
  | .serves => .udpServer 4 1

/-- Their start, on a tracker that has just been started. -/
def visit : State Guards Text Visitor :=
  ⟨guarded Table.empty 0, fun t =>
    Thread.start (t.role.code dotted)⟩

/-- The client that a host is then. -/
def client (host : UInt32) : Sockaddr :=
  setInPort (host4 host) (htons 5557)

end Psnet.Tracker.Locked

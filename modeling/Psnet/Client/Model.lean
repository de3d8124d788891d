/-
The client table of common/client.c: registering, flooding and listing
clients.

The table is a delta list of socket addresses compared by
`sockaddr_equals`. Its lock makes every call one step. A message to be
sent is the call of `udp_send` that sends it; whether the network takes
it is not modelled.
-/
import Psnet.DeltaList.Model
import Psnet.Net.Numeral

namespace Psnet.Client

open Net DeltaList

/-- Size of the message buffer of a `msg_info`. -/
def MSG_MAX : Nat := 512

/-- `struct msg_info`: the fields that are read. `msg` is the whole
buffer. -/
structure MsgInfo where
  len : Nat
  addr : Sockaddr
  msg : List UInt8
  deriving DecidableEq, Repr

/-- A call of `udp_send`. -/
structure UdpSend where
  addr : Sockaddr
  len : Nat
  msg : List UInt8
  deriving DecidableEq, Repr

/-- The datagram a call puts on the wire: `len` bytes from the start of
the message; `none` when the buffer does not hold that many. -/
def UdpSend.payload (s : UdpSend) : Option (List UInt8) :=
  if s.len ≤ s.msg.length then some (s.msg.take s.len) else none

/-- `delta_hash` of the client table. `unsigned long` is 64 bits, the
sums are 32. -/
def clientHash (client : Sockaddr) : UInt64 :=
  if client.ssFamily = AF_INET then
    (client.sinAddr + client.port.toUInt32).toUInt64
  else if client.ssFamily = AF_INET6 then
    (client.sin6Addr[0].toUInt32 + client.port.toUInt32).toUInt64
  else 0

/-- The constant fields of `client_table`. -/
def clientConf : Conf Sockaddr where
  interval := 10
  hash := clientHash
  equals := sockaddrEquals

/-- `fwd_to_client`: the datagram goes after those already sent. -/
def fwdToClient (mi : MsgInfo) (client : Sockaddr) (sent : List UdpSend) :
    List UdpSend × Int :=
  (sent ++ [⟨client, mi.len, mi.msg⟩], 0)

/-- `flood_to_clients`. -/
def floodToClients (clientTable : Table Sockaddr) (mi : MsgInfo)
    (sent : List UdpSend) : Option (List UdpSend) :=
  deltaForeach clientTable (fwdToClient mi) sent

-- ============================================================== registration

/-- `make_client`: the address with the port set; `none` is a port it
rejects. -/
def makeClient (addr : Sockaddr) (port : Text) : Option Sockaddr :=
  let (lport, endptr) := strtol port
  if lport < PORT_MIN ∨ PORT_MAX < lport ∨ endptr ≠ [] then none
  else some (setInPort addr (htons (UInt16.ofInt lport)))

/-- `add_client`: the return code and the table. -/
def addClient (clientTable : Table Sockaddr) (addr : Sockaddr)
    (port : Text) : Option (Int × Table Sockaddr) :=
  match makeClient addr port with
  | none => some (-1, clientTable)
  | some client => do
      let (_, clientTable) ← deltaUpdate clientConf clientTable client
      return (0, clientTable)

/-- `remove_client`. -/
def removeClient (clientTable : Table Sockaddr) (addr : Sockaddr)
    (port : Text) : Option (Int × Table Sockaddr) :=
  match makeClient addr port with
  | none => some (-1, clientTable)
  | some client => do
      let (rc, clientTable, _) ← deltaRemove clientConf clientTable client
      return (if rc ≠ 0 then -1 else 0, clientTable)

-- =================================================================== listing

/-- `struct response_node`: the text and how much of it counts. -/
structure ResponseNode where
  data : Text
  len : Nat
  deriving DecidableEq, Repr

/-- A node that counts in full. -/
def ResponseNode.ofText (s : Text) : ResponseNode := ⟨s, s.length⟩

/-- What a list of nodes sends. -/
def nodesText (l : List ResponseNode) : Text :=
  l.flatMap fun n => n.data.take n.len

/-- `{"ip":"%s","port":%d,"ipv":%d},` for an address. -/
def elementText (inet : Inet) (sa : Sockaddr) : Text :=
  ascii "\x7b\"ip\":\"" ++ inet.ntop sa ++ ascii "\",\"port\":"
    ++ decimal (ntohs (getInPort sa)).toNat ++ ascii ",\"ipv\":"
    ++ decimal (if sa.ssFamily = AF_INET then 4 else 6) ++ ascii "\x7d,"

/-- `struct make_list_arg`. -/
structure MakeListArg where
  list : List ResponseNode
  ignore : Option Sockaddr
  i : Int
  n : Int

/-- `make_list`. -/
def makeList (inet : Inet) (client : Sockaddr) (arg : MakeListArg) :
    MakeListArg × Int :=
  if arg.n ≤ arg.i then (arg, 1)
  else if arg.ignore.any fun ign => sockaddrEquals client ign then (arg, 0)
  else
    ({ arg with
        i := arg.i + 1
        list := arg.list ++ [.ofText (elementText inet client)] }, 0)

/-- `if (head->prev != head->next) head->prev->len--`. -/
def trimLast (l : List ResponseNode) : List ResponseNode :=
  if l.length < 2 then l
  else l.modify (l.length - 1) fun n => { n with len := n.len - 1 }

def CL_OK : Int := 0

def CL_BADNUM : Int := 3

/-- The node that opens a list, and the one that closes it. -/
def openNode : ResponseNode := ⟨ascii "[", 1⟩

def closeNode : ResponseNode := ⟨ascii "]\r\n\r\n", 5⟩

/-- `clients_to_json`: the return code and the nodes at `head`. -/
def clientsToJson (inet : Inet) (clientTable : Table Sockaddr)
    (head : List ResponseNode) (ign : Option Sockaddr) (n : Text) :
    Option (Int × List ResponseNode) :=
  let (lnum, endptr) := strtol n
  let num := toInt32 lnum
  if num < 0 ∨ endptr ≠ [] then some (CL_BADNUM, head)
  else do
    let arg ← deltaForeach clientTable (makeList inet)
      ⟨head ++ [openNode], ign, 0, num⟩
    return (CL_OK, trimLast arg.list ++ [closeNode])

end Psnet.Client

/-
The router list and flooding (router/router.c) and the message cache
(router/msgcache.c).

`routers_lock` makes `flood_message` and the update thread exclude each
other, so each is one step here.
-/
import Psnet.Client.Model
import Psnet.Net.ListHead

namespace Psnet.Router

open Net DeltaList Client

-- ================================================================= flooding

/-- The static initialisers, and the other head as yet uninitialised. -/
def boot : Mem where
  heap := fun
    | .routers => some ⟨.routers, .routers, none⟩
    | .tmp => some ⟨.poison1, .poison2, none⟩
    | _ => none
  brk := 0

/-- The loop of `flood_message` over the router list. -/
def floodLoop (m : Mem) (mi : MsgInfo) :
    List Ptr → List UdpSend → Option (List UdpSend)
  | [], sent => some sent
  | it :: its, sent => do
      let addr ← listEntryAddr m it
      if ipAddrEquals addr mi.addr then
        floodLoop m mi its sent
      else
        floodLoop m mi its (sent ++ [⟨addr, mi.len, mi.msg⟩])

/-- `flood_message`: the datagrams sent, in order. -/
def floodMessage (m : Mem) (clientTable : Table Sockaddr) (mi : MsgInfo) :
    Option (List UdpSend) := do
  let its ← listForEach m .routers
  let sent ← floodLoop m mi its []
  floodToClients clientTable mi sent

-- ======================================================== the message cache

/-- `delta_hash` of the message cache (`hash * 33 + c` on signed
characters). -/
def cacheHash (msg : Text) : UInt64 :=
  msg.foldl (fun hash c => (hash <<< 5) + hash
    + (if c < 128 then c.toUInt64 else c.toUInt64 - 256)) 5381

/-- The constant fields of `msg_cache`. -/
def cacheConf : Conf Text where
  interval := 10
  hash := cacheHash
  equals a b := a == b

/-- `cache_msg`: whether the message was cached already, and the cache. -/
def cacheMsg (msgCache : Table Text) (id : Text) :
    Option (Int × Table Text) :=
  deltaUpdate cacheConf msgCache id

end Psnet.Router

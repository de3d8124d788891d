/-
The readers of common/parse.c: messages and node lists.

`parse_node_list` only ever appends to the list it is given, so it is
modelled by its return code and the entries it appends, in order; the
update thread adds them to its list in memory. The array of
`parse_node_list` is on the stack; what it holds at entry is a
parameter.
-/
import Psnet.Jsmn.Model
import Psnet.Net.Numeral

namespace Psnet.Parse

open Net Jsmn

/-- Size of the token array of a request handler. -/
def JSMN_NTOK : Nat := 256

/-- The token at an index returned by a lookup. -/
def tokenAt (tok : List JsmnTok) (i : Int) : Option JsmnTok :=
  if i < 0 then none else tok[i.toNat]?

/-- The character of a message at a token's position. -/
def charAt (msg : List UInt8) (i : Int) : Option UInt8 :=
  if i < 0 then none else some (byteAt msg i.toNat)

/-- The C string at a position of a buffer. -/
def stringAt (msg : List UInt8) (i : Int) : Option Text :=
  if i < 0 then none else some ((msg.drop i.toNat).takeWhile (· ≠ 0))

/-- `msg[i] = c`. -/
def setChar (msg : List UInt8) (i : Int) (c : UInt8) :
    Option (List UInt8) :=
  if i < 0 then none else some (msg.set i.toNat c)

-- ================================================================= messages

/-- `parse_message`: the index of the method, the array and the number
of tokens. What an error leaves in the array is not modelled: no caller
looks at it again. -/
def parseMessage (msg : List UInt8) (tok : List JsmnTok) (ntok : Nat) :
    Option (Int × List JsmnTok × Nat) := do
  let r ← jsmnParse msg tok ntok
  match r with
  | .error _ => return (-1, tok, ntok)
  | .ok (p, tok) => do
      let t ← tok[0]?
      if t.type ≠ .object then
        return (-1, tok, ntok)
      else
        let method ← jsmnGetValue msg tok (ascii "method")
        return (method, tok, p.toknext)

/-- The chain of `cmd_equal` tests: the first command whose name is the
text of the token. -/
def cmdEqual {μ : Type} (msg : List UInt8) (method : JsmnTok) :
    List (String × μ) → Option (Option μ)
  | [] => some none
  | (cmd, m) :: cmds => do
      let eq ← jsmnTokeq msg method (ascii cmd)
      if eq then return some m else cmdEqual msg method cmds

-- =============================================================== node lists

/-- `strncpy(s, msg + tok->start, toklen); s[toklen] = 0`: the string
copied to an array of `INET6_ADDRSTRLEN`. Nothing checks that it fits;
`none` is a write past its end. -/
def copyTok (msg : List UInt8) (tok : JsmnTok) : Option Text :=
  if INET6_ADDRSTRLEN ≤ jsmnToklen tok then none else jsmnTokdup msg tok

/-- The port of a node: a numeral in range, all of it. -/
def nodePort (s : Text) : Option UInt16 :=
  let (lport, endptr) := strtol s
  if lport < PORT_MIN ∨ PORT_MAX < lport ∨ endptr ≠ [] then none
  else some (UInt16.ofInt lport)

/-- `parse_node`: the entry it appends, `none` inside when it rejects
the node. -/
def parseNode (inet : Inet) (msg : List UInt8) (node : List JsmnTok) :
    Option (Option Sockaddr) := do
  let (rc, is) ← jsmnGetValues msg node
    [ascii "ip", ascii "port", ascii "ipv"]
  if rc = -1 then return none
  else do
    let ip ← is[0]? >>= tokenAt node
    let port ← is[1]? >>= tokenAt node
    let ipv ← is[2]? >>= tokenAt node
    if ip.type ≠ .string then return none
    else if port.type ≠ .primitive then return none
    else do
      let p ← charAt msg port.start
      if p < 48 ∨ 57 < p then return none
      else if ipv.type ≠ .primitive then return none
      else do
        let v ← charAt msg ipv.start
        if v ≠ 52 ∧ v ≠ 54 then return none
        else do
          let s ← copyTok msg ip
          let sa := { Sockaddr.zero with
            ssFamily := if v = 52 then AF_INET else AF_INET6 }
          match inet.pton sa s with
          | none => return none
          | some sa => do
              let s ← copyTok msg port
              match nodePort s with
              | none => return none
              | some lport => return some (setInPort sa (htons lport))

/-- The loop of `parse_node_list`: the return code and the entries
appended. -/
def nodeLoop (inet : Inet) (msg : List UInt8) (tok : List JsmnTok) :
    Nat → Nat → Nat → Option (Int × List Sockaddr)
  | 0, _, _ => none
  | k + 1, i, ntok =>
      if i < ntok then do
        let t ← tok[i]?
        if t.type ≠ .object ∨ t.size < 6 then return (-1, [])
        else
          match ← parseNode inet msg (tok.drop i) with
          | none => return (-1, [])
          | some sa => do
              let (i, ntok) ← skipLoop tok (tok.length + 1) 1 i ntok
              let (rc, sas) ← nodeLoop inet msg tok k i ntok
              return (rc, sa :: sas)
      else some (0, [])

/-- The largest `int`. -/
def INT_MAX : Nat := 2 ^ 31 - 1

/-- `parse_node_list`; `stack` is what the array on the stack holds. A
number of tokens that is no `int` is undefined. -/
def parseNodeList (inet : Inet) (msg : List UInt8) (nentries : Nat)
    (stack : Nat → JsmnTok) : Option (Int × List Sockaddr) := do
  let maxTok := 1 + 10 * nentries
  if INT_MAX < maxTok then none
  else do
    let r ← jsmnParse msg ((List.range maxTok).map stack) maxTok
    match r with
    | .error _ => return (-1, [])
    | .ok (_, tok) => do
        let t ← tok[0]?
        if t.type ≠ .array then return (-1, [])
        else nodeLoop inet msg tok (tok.length + 1) 1 (t.size + 1)

-- ================================================================= headers

/-- `enum psnet_status`. -/
inductive PsnetStatus
  | okay
  | error
  deriving DecidableEq, Repr

/-- The size a header announces, given the index of its value; `none`
inside is a size `parse_header` rejects. Its copy of the size to `s` is
never read and left out here. -/
def headerSize (msg : List UInt8) (tok : List JsmnTok) (isize : Int) :
    Option (Option Nat) :=
  if isize = -1 then some (some 0)
  else do
    let t ← tokenAt tok isize
    if t.type ≠ .primitive then return none
    else do
      let c ← charAt msg t.start
      if c < 48 ∨ 57 < c then return none
      else do
        let s ← stringAt msg t.start
        let lsize := (strtol s).1
        return (if lsize < 0 then none else some lsize.toNat)

/-- `parse_header`: the status and the size, `none` inside for a header
it rejects; `stack` is what its array holds at entry. -/
def parseHeader (msg : List UInt8) (stack : Nat → JsmnTok) :
    Option (Option (PsnetStatus × Nat)) := do
  let r ← jsmnParse msg ((List.range 256).map stack) 256
  match r with
  | .error _ => return none
  | .ok (_, tok) => do
      let t ← tok[0]?
      if t.type ≠ .object then return none
      else do
        let istatus ← jsmnGetValue msg tok (ascii "status")
        if istatus = -1 then return none
        else do
          let isize ← jsmnGetValue msg tok (ascii "size")
          match ← headerSize msg tok isize with
          | none => return none
          | some size => do
              let t ← tokenAt tok istatus
              let okay ← tokStartsWith msg t (ascii "okay")
              return some (if okay then .okay else .error, size)

end Psnet.Parse

/-
The JSON tokenizer of common/jsmn.c, compiled without `JSMN_STRICT` and
`JSMN_PARENT_LINKS`, and the lookups added to it.

# Texts and positions

A message is the buffer it is stored in; reading at or past its end
gives the terminating NUL. Positions are natural numbers, so the model
is the code's on texts shorter than 2^31 bytes.

# Failure

`none` is undefined behaviour or a loop that does not end: a token read
outside the array, or a loop that runs out of the fuel its caller gives
it. The loops of the tokenizer take one step for each character left,
those of the lookups one for each token.

An error leaves the array and the parser in a state no caller reads, so
`Except` keeps only the code.
-/
import Mathlib.Tactic.Common

namespace Psnet.Jsmn

/-- `jsmntype_t`. -/
inductive JsmnType
  | primitive
  | object
  | array
  | string
  deriving DecidableEq, Repr

/-- The error codes of `jsmnerr_t`. -/
inductive JsmnErr
  | nomem
  | inval
  | part
  deriving DecidableEq, Repr

/-- `jsmntok_t`; `stop` is the field `end`. -/
structure JsmnTok where
  type : JsmnType
  start : Int
  stop : Int
  size : Nat
  deriving DecidableEq, Repr

/-- A token of a zero-filled array. -/
def JsmnTok.zero : JsmnTok := ⟨.primitive, 0, 0, 0⟩

/-- `jsmn_parser`; a `toksuper` of −1 is `none`. -/
structure JsmnParser where
  pos : Nat
  toknext : Nat
  toksuper : Option Nat
  deriving DecidableEq, Repr

/-- `jsmn_init`. -/
def jsmnInit : JsmnParser := ⟨0, 0, none⟩

/-- The character at a position of a text. -/
def byteAt (js : List UInt8) (i : Nat) : UInt8 := js.getD i 0

/-- What holds of the characters of a text is decided on them, not on
all there are. -/
instance (priority := high) decidableChars (w : List UInt8)
    (p : UInt8 → Prop) [DecidablePred p] : Decidable (∀ c ∈ w, p c) :=
  List.decidableBAll p w

-- The characters the tokenizer looks for.
def QUOTE : UInt8 := 34
def BACKSLASH : UInt8 := 92
def LBRACE : UInt8 := 123
def RBRACE : UInt8 := 125
def LBRACKET : UInt8 := 91
def RBRACKET : UInt8 := 93

/-- Between tokens: tab, carriage return, newline, colon, comma,
blank. -/
def isBlank (c : UInt8) : Bool :=
  c == 9 || c == 13 || c == 10 || c == 58 || c == 44 || c == 32

/-- What ends a primitive: a blank or a closing bracket. -/
def endsPrimitive (c : UInt8) : Bool :=
  isBlank c || c == RBRACKET || c == RBRACE

/-- What may follow a backslash: one of `"/\bfrntu`. -/
def isEscape (c : UInt8) : Bool :=
  c == QUOTE || c == 47 || c == BACKSLASH || c == 98 || c == 102
    || c == 114 || c == 110 || c == 116 || c == 117

-- ================================================================ the tokens

/-- `jsmn_alloc_token`: the index of the token, the parser and the
array. -/
def jsmnAllocToken (parser : JsmnParser) (tokens : List JsmnTok)
    (numTokens : Nat) : Option (Nat × JsmnParser × List JsmnTok) :=
  if numTokens ≤ parser.toknext then none
  else
    some (parser.toknext,
      { parser with toknext := parser.toknext + 1 },
      tokens.modify parser.toknext fun tok =>
        { tok with start := -1, stop := -1, size := 0 })

/-- `jsmn_fill_token`. -/
def jsmnFillToken (tokens : List JsmnTok) (i : Nat) (type : JsmnType)
    (start stop : Nat) : List JsmnTok :=
  tokens.set i ⟨type, start, stop, 0⟩

/-- `tokens[parser->toksuper].size++`, where there is one. -/
def bumpSuper (parser : JsmnParser) (tokens : List JsmnTok) :
    List JsmnTok :=
  match parser.toksuper with
  | none => tokens
  | some i => tokens.modify i fun tok => { tok with size := tok.size + 1 }

/-- The loop of `jsmn_parse_primitive` on the rest of the text: where
the primitive ends, `none` at a character it may not hold. -/
def scanPrimitive : List UInt8 → Nat → Option Nat
  | [], pos => some pos
  | c :: cs, pos =>
      if c = 0 ∨ endsPrimitive c then some pos
      else if c < 32 ∨ 127 ≤ c then none
      else scanPrimitive cs (pos + 1)

/-- `jsmn_parse_primitive`. -/
def jsmnParsePrimitive (parser : JsmnParser) (js : List UInt8)
    (tokens : List JsmnTok) (numTokens : Nat) :
    Except JsmnErr (JsmnParser × List JsmnTok) :=
  let start := parser.pos
  match scanPrimitive (js.drop parser.pos) parser.pos with
  | none => .error .inval
  | some pos =>
      match jsmnAllocToken { parser with pos := pos } tokens numTokens with
      | none => .error .nomem
      | some (i, parser, tokens) =>
          .ok ({ parser with pos := pos - 1 },
            jsmnFillToken tokens i .primitive start pos)

/-- The loop of `jsmn_parse_string` on the text after the opening quote:
where the closing quote stands. -/
def scanString : List UInt8 → Nat → Except JsmnErr Nat
  | [], _ => .error .part
  | c :: cs, pos =>
      if c = 0 then .error .part
      else if c = QUOTE then .ok pos
      else if c = BACKSLASH then
        match cs with
        | [] => .error .inval
        | e :: cs => if isEscape e then scanString cs (pos + 2)
                     else .error .inval
      else scanString cs (pos + 1)

/-- `jsmn_parse_string`. -/
def jsmnParseString (parser : JsmnParser) (js : List UInt8)
    (tokens : List JsmnTok) (numTokens : Nat) :
    Except JsmnErr (JsmnParser × List JsmnTok) :=
  let start := parser.pos
  match scanString (js.drop (parser.pos + 1)) (parser.pos + 1) with
  | .error e => .error e
  | .ok pos =>
      match jsmnAllocToken { parser with pos := pos } tokens numTokens with
      | none => .error .nomem
      | some (i, parser, tokens) =>
          .ok (parser, jsmnFillToken tokens i .string (start + 1) pos)

-- ================================================================= the parser

/-- A token with a start and no end yet. -/
def JsmnTok.isOpen (tok : JsmnTok) : Bool :=
  tok.start != -1 && tok.stop == -1

/-- The last open token below index `i`: the loops from
`parser->toknext - 1` down. -/
def lastOpen (tokens : List JsmnTok) : Nat → Option Nat
  | 0 => none
  | i + 1 =>
      if (tokens[i]?).any JsmnTok.isOpen then some i else lastOpen tokens i

/-- An opening bracket in `jsmn_parse`. -/
def jsmnOpen (type : JsmnType) (parser : JsmnParser)
    (tokens : List JsmnTok) (numTokens : Nat) :
    Except JsmnErr (JsmnParser × List JsmnTok) :=
  match jsmnAllocToken parser tokens numTokens with
  | none => .error .nomem
  | some (i, parser, tokens) =>
      let tokens := bumpSuper parser tokens
      let tokens := tokens.modify i fun tok =>
        { tok with type := type, start := parser.pos }
      .ok ({ parser with toksuper := some (parser.toknext - 1) }, tokens)

/-- A closing bracket in `jsmn_parse`. -/
def jsmnClose (type : JsmnType) (parser : JsmnParser)
    (tokens : List JsmnTok) :
    Except JsmnErr (JsmnParser × List JsmnTok) :=
  match lastOpen tokens parser.toknext with
  | none => .error .inval
  | some i =>
      if (tokens[i]?).any (fun tok => tok.type != type) then .error .inval
      else
        let tokens := tokens.modify i fun tok =>
          { tok with stop := parser.pos + 1 }
        .ok ({ parser with toksuper := lastOpen tokens (i + 1) }, tokens)

/-- The body of the loop of `jsmn_parse` on the character at
`parser->pos`. -/
def jsmnChar (js : List UInt8) (numTokens : Nat) (parser : JsmnParser)
    (tokens : List JsmnTok) :
    Except JsmnErr (JsmnParser × List JsmnTok) :=
  let c := byteAt js parser.pos
  if c = LBRACE then jsmnOpen .object parser tokens numTokens
  else if c = LBRACKET then jsmnOpen .array parser tokens numTokens
  else if c = RBRACE then jsmnClose .object parser tokens
  else if c = RBRACKET then jsmnClose .array parser tokens
  else if c = QUOTE then do
    let (parser, tokens) ← jsmnParseString parser js tokens numTokens
    return (parser, bumpSuper parser tokens)
  else if isBlank c then return (parser, tokens)
  else do
    let (parser, tokens) ← jsmnParsePrimitive parser js tokens numTokens
    return (parser, bumpSuper parser tokens)

/-- The loop of `jsmn_parse`. -/
def jsmnLoop (js : List UInt8) (numTokens : Nat) :
    Nat → JsmnParser → List JsmnTok →
    Option (Except JsmnErr (JsmnParser × List JsmnTok))
  | 0, _, _ => none
  | k + 1, parser, tokens =>
      if byteAt js parser.pos = 0 then some (.ok (parser, tokens))
      else match jsmnChar js numTokens parser tokens with
        | .error e => some (.error e)
        | .ok (parser, tokens) =>
            jsmnLoop js numTokens k { parser with pos := parser.pos + 1 }
              tokens

/-- `jsmn_parse`. -/
def jsmnParse (js : List UInt8) (tokens : List JsmnTok)
    (numTokens : Nat) :
    Option (Except JsmnErr (JsmnParser × List JsmnTok)) := do
  let r ← jsmnLoop js numTokens (js.length + 1) jsmnInit tokens
  match r with
  | .error e => return .error e
  | .ok (parser, tokens) =>
      if (lastOpen tokens parser.toknext).isSome then return .error .part
      else return .ok (parser, tokens)

-- ================================================================ the lookups

/-- `!strncmp(msg + i, key, strlen(key))`: the text at `i` starts with
`key`. -/
def startsWith (msg : List UInt8) : Nat → List UInt8 → Bool
  | _, [] => true
  | i, k :: key => byteAt msg i == k && startsWith msg (i + 1) key

/-- The text at a token's start begins with `key`; a negative start is
outside the buffer. -/
def tokStartsWith (msg : List UInt8) (tok : JsmnTok) (key : List UInt8) :
    Option Bool :=
  if tok.start < 0 then none
  else some (startsWith msg tok.start.toNat key)

/-- `for (end = 1; end; i++, end--) { end += tok[i].size; ntok +=
tok[i].size; }`: where `i` and `ntok` end up. -/
def skipLoop (tok : List JsmnTok) : Nat → Nat → Nat → Nat →
    Option (Nat × Nat)
  | 0, _, _, _ => none
  | _ + 1, 0, i, ntok => some (i, ntok)
  | k + 1, e + 1, i, ntok => do
      let t ← tok[i]?
      skipLoop tok k (e + t.size) (i + 1) (ntok + t.size)

/-- The loop of `jsmn_get_value`. -/
def getValueLoop (msg : List UInt8) (obj : List JsmnTok)
    (key : List UInt8) : Nat → Nat → Nat → Option Int
  | 0, _, _ => none
  | k + 1, i, ntok =>
      if i + 1 < ntok then do
        let t ← obj[i]?
        if t.type ≠ .string then
          return -1
        else
          let found ← tokStartsWith msg t key
          if found then
            return (i + 1 : Nat)
          else
            let v ← obj[i + 1]?
            if v.type = .object ∨ v.type = .array then
              let (i, ntok) ← skipLoop obj (obj.length + 1) 1 (i + 1) ntok
              getValueLoop msg obj key k i ntok
            else
              getValueLoop msg obj key k (i + 2) ntok
      else some (-1)

/-- `jsmn_get_value`; `obj` is the array from the object's token on. -/
def jsmnGetValue (msg : List UInt8) (obj : List JsmnTok)
    (key : List UInt8) : Option Int := do
  let t ← obj[0]?
  getValueLoop msg obj key (obj.length + 1) 1 (t.size + 1)

/-- `jsmn_get_values`: the return code and the indices. -/
def jsmnGetValues (msg : List UInt8) (obj : List JsmnTok) :
    List (List UInt8) → Option (Int × List Int)
  | [] => some (0, [])
  | key :: keys => do
      let i ← jsmnGetValue msg obj key
      let (rc, is) ← jsmnGetValues msg obj keys
      return (if i = -1 then -1 else rc, i :: is)

/-- `jsmn_toklen`. -/
def jsmnToklen (tok : JsmnTok) : Int := tok.stop - tok.start

/-- `jsmn_tokeq`. -/
def jsmnTokeq (msg : List UInt8) (tok : JsmnTok) (str : List UInt8) :
    Option Bool :=
  if jsmnToklen tok ≠ str.length then some false
  else tokStartsWith msg tok str

/-- `jsmn_tokdup`: the string the copy holds. -/
def jsmnTokdup (msg : List UInt8) (tok : JsmnTok) : Option (List UInt8) :=
  if tok.start < 0 ∨ tok.stop < tok.start then none
  else
    some (((msg.drop tok.start.toNat).take (jsmnToklen tok).toNat).takeWhile
      (· ≠ 0))

end Psnet.Jsmn

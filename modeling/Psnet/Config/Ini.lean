/-
The configuration file (common/ini.c).

The file is read in pieces of at most 199 bytes, each up to the end of its
line: a piece is a line to the parser, and is counted as one. A handler is
called for every name and value, and for every indented line after one,
which continues it; the first line that cannot be read, or that the
handler refuses, is the error.
-/
import Mathlib.Data.List.DropRight
import Psnet.Jsmn.Stable
import Psnet.Net.Numeral

namespace Psnet.Config

open Net Jsmn

def INI_MAX_LINE : Nat := 200

def MAX_SECTION : Nat := 50

def MAX_NAME : Nat := 50

def NEWLINE : UInt8 := 10

def HASH : UInt8 := 35

def COLON : UInt8 := 58

def SEMICOLON : UInt8 := 59

def EQUALS : UInt8 := 61

/-- The bytes a file in UTF-8 may start with. -/
def BOM : List UInt8 := [0xEF, 0xBB, 0xBF]

-- ==================================================================== the strings

/-- `rstrip`. -/
def rstrip (s : Text) : Text := s.rdropWhile isSpace

/-- `lskip`. -/
def lskip (s : Text) : Text := s.dropWhile isSpace

/-- The loop of `find_char_or_comment`: what is before the character or
the comment, and what is left from there on. -/
def findLoop (c : UInt8) : Bool → Text → Text × Text
  | _, [] => ([], [])
  | wasWhitespace, x :: s =>
      if x = c ∨ (wasWhitespace = true ∧ x = SEMICOLON) then ([], x :: s)
      else
        let (before, rest) := findLoop c (isSpace x) s
        (x :: before, rest)

/-- `find_char_or_comment`. -/
def findCharOrComment (s : Text) (c : UInt8) : Text × Text :=
  findLoop c false s

/-- `strncpy0`. -/
def strncpy0 (src : Text) (size : Nat) : Text := src.take (size - 1)

/-- `fgets` with room for `k` bytes: the bytes it stores, and the rest of
the file. -/
def fgetsLoop : Nat → List UInt8 → List UInt8 × List UInt8
  | 0, file => ([], file)
  | _ + 1, [] => ([], [])
  | k + 1, c :: file =>
      if c = NEWLINE then ([c], file)
      else
        let (line, rest) := fgetsLoop k file
        (c :: line, rest)

/-- `fgets`; there is nothing to read at the end of the file. -/
def fgets (size : Nat) (file : List UInt8) :
    Option (List UInt8 × List UInt8) :=
  if file = [] then none else some (fgetsLoop (size - 1) file)

-- ===================================================================== the parser

/-- A handler: what it makes of the section, the name and the value, and
whether it accepts them. -/
abbrev Handler (σ : Type) := σ → Text → Text → Text → σ × Bool

/-- The variables of `ini_parse_file`, and what the handler works on. -/
structure IniState (σ : Type) where
  user : σ
  sect : Text
  prevName : Text
  error : Nat

variable {σ : Type}

/-- `if (!error) error = lineno`. -/
def IniState.fail (s : IniState σ) (lineno : Nat) : IniState σ :=
  if s.error = 0 then { s with error := lineno } else s

/-- A call of the handler. -/
def IniState.call (s : IniState σ) (handler : Handler σ) (lineno : Nat)
    (name value : Text) : IniState σ :=
  let (user, ok) := handler s.user s.sect name value
  let s := { s with user := user }
  if ok then s else s.fail lineno

/-- A line that starts with `[`, from there on. -/
def sectionLine (lineno : Nat) (rest : Text) (s : IniState σ) :
    IniState σ :=
  let (name, stop) := findCharOrComment rest RBRACKET
  if stop.head? = some RBRACKET then
    { s with
      sect := strncpy0 name MAX_SECTION
      prevName := [] }
  else s.fail lineno

/-- A name and its value, cut apart at `=` or else at `:`. -/
def cutPair (start : Text) : Option (Text × Text) :=
  let (name, stop) := findCharOrComment start EQUALS
  if stop.head? = some EQUALS then some (name, stop.tail)
  else
    let (name, stop) := findCharOrComment start COLON
    if stop.head? = some COLON then some (name, stop.tail) else none

/-- A line with a name and a value. -/
def pairLine (handler : Handler σ) (lineno : Nat) (start : Text)
    (s : IniState σ) : IniState σ :=
  match cutPair start with
  | none => s.fail lineno
  | some (name, value) =>
      let name := rstrip name
      let (value, _) := findCharOrComment (lskip value) 0
      let s := { s with prevName := strncpy0 name MAX_NAME }
      s.call handler lineno name (rstrip value)

/-- The loop body of `ini_parse_file`. -/
def iniLine (handler : Handler σ) (lineno : Nat) (line : List UInt8)
    (s : IniState σ) : IniState σ :=
  let line := cstr line
  let bom : Bool := lineno = 1 && BOM.isPrefixOf line
  let body := rstrip (if bom then line.drop BOM.length else line)
  let start := lskip body
  match start with
  | [] => s
  | c :: rest =>
      if c = SEMICOLON ∨ c = HASH then s
      else if s.prevName ≠ [] ∧ (bom ∨ start.length < body.length) then
        s.call handler lineno s.prevName start
      else if c = LBRACKET then sectionLine lineno rest s
      else pairLine handler lineno start s

/-- The loop of `ini_parse_file`, for at most so many lines. -/
def iniLoop (handler : Handler σ) :
    Nat → Nat → List UInt8 → IniState σ → IniState σ
  | 0, _, _, s => s
  | k + 1, lineno, file, s =>
      match fgets INI_MAX_LINE file with
      | none => s
      | some (line, file) =>
          iniLoop handler k (lineno + 1) file
            (iniLine handler (lineno + 1) line s)

/-- `ini_parse_file`: no line is shorter than a byte. -/
def iniParseFile (handler : Handler σ) (file : List UInt8) (user : σ) :
    σ × Int :=
  let s := iniLoop handler file.length 0 file ⟨user, [], [], 0⟩
  (s.user, s.error)

/-- `ini_parse`, with the file if it can be opened. -/
def iniParse (handler : Handler σ) (file : Option (List UInt8)) (user : σ) :
    σ × Int :=
  match file with
  | none => (user, -1)
  | some file => iniParseFile handler file user

end Psnet.Config

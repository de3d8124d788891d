/-
The settings of the two daemons (`ini_handler`, `parse_opts` and the start
of `main` in router/service.c and tracker/service.c).

Both read the same file, each its own section, and then the options.
`getopt_long` is not modelled: its results in order are the input. A
setting is what the last option for it says, or else the last line of the
file for it that passes the handler's test, or else its default
(`daemons_configured`); a thread limit below one can come from the file
only. The tests are less than their messages say: a thread limit is made an
`int` before it is tested, a port in the file has only to be other than
zero then, and a port in an option has no upper bound.

# What the texts of the program say

The error message for a thread limit asks for a number of at least one,
and that for a port for one in the valid range. `ThreadsOk` and `PortOk`
are the tests as they are made, on numerals of any length; for numerals in
the range of an `int` they are what the messages say
(`threadsOk_decimalNat`, `portOk_decimalNat`).

# The file apart from its handler

A handler that accepts every pair only collects them: the parse is the
same whatever it does with them (`iniLoop_withUser`). So the settings are
a fold over the pairs of the file (`iniParse_assignments`), and the last
pair that passes its test decides (`foldl_lastOr`).
-/
import Psnet.Config.Ini

namespace Psnet.Config

open Net Jsmn

def RC_FILE : String := "/etc/psnetrc"

/-- A handler also prints. -/
abbrev Printing (σ : Type) := σ × List Text

/-- What is printed about a number that cannot be used. -/
def mustBePositive (name : String) : Text :=
  ascii (RC_FILE ++ ": error: " ++ name ++ " must be a positive integer\n")

/-- A branch of `ini_handler` for a number. -/
def numberEntry {σ : Type} (name : String) (set : Int → σ → σ)
    (value : Text) (s : Printing σ) : Printing σ :=
  let val := atoi value
  if val = 0 then (s.1, s.2 ++ [mustBePositive name])
  else (set val s.1, s.2)

-- ==================================================================== the router

/-- `struct settings` of the router. -/
structure RouterSettings where
  maxThreads : Int
  dirAddr : Text
  dirPort : Text
  listenPort : Text
  deriving DecidableEq, Repr

def RouterSettings.default : RouterSettings where
  maxThreads := 1000
  dirAddr := ascii "psnet.no-ip.biz"
  dirPort := ascii "6666"
  listenPort := ascii "5555"

/-- `ini_handler` of the router. -/
def routerIniHandler : Handler (Printing RouterSettings) :=
  fun s sect name value =>
    if sect ≠ ascii "Router" then (s, true)
    else if name = ascii "directory-address" then
      (({ s.1 with dirAddr := value }, s.2), true)
    else if name = ascii "directory-port" then
      (numberEntry "directory-port"
        (fun _ st => { st with dirPort := value }) value s, true)
    else if name = ascii "listen-port" then
      (numberEntry "listen-port"
        (fun _ st => { st with listenPort := value }) value s, true)
    else if name = ascii "max-threads" then
      (numberEntry "max-threads"
        (fun val st => { st with maxThreads := val }) value s, true)
    else (s, true)

/-- What `getopt_long` may return to the router. -/
inductive RouterOpt
  | threads (optarg : Text)
  | listen (optarg : Text)
  | address (optarg : Text)
  | port (optarg : Text)
  | unknown
  deriving DecidableEq, Repr

/-- What is printed before the usage. -/
def badArgument (name : String) : Text :=
  ascii ("error: --" ++ name ++ " argument must be a positive integer\n")

/-- The argument of `--max-threads`. -/
def threadsArgument (optarg : Text) : Except Text Int :=
  let (n, endptr) := strtol optarg
  if toInt32 n < 1 ∨ endptr ≠ [] then .error (badArgument "threads")
  else .ok (toInt32 n)

/-- The argument of an option for a port. -/
def portArgument (name : String) (optarg : Text) : Except Text Text :=
  let (n, endptr) := strtol optarg
  if n < 1 ∨ endptr ≠ [] then .error (badArgument name) else .ok optarg

/-- The loop body of `parse_opts`; an error ends the program. -/
def routerOpt (st : RouterSettings) : RouterOpt → Except Text RouterSettings
  | .threads optarg => do
      let n ← threadsArgument optarg
      return { st with maxThreads := n }
  | .listen optarg => do
      let port ← portArgument "listen-port" optarg
      return { st with listenPort := port }
  | .address optarg => return { st with dirAddr := optarg }
  | .port optarg => do
      let port ← portArgument "directory-port" optarg
      return { st with dirPort := port }
  | .unknown => return st

/-- `parse_opts` of the router. -/
def routerParseOpts (opts : List RouterOpt) (st : RouterSettings) :
    Except Text RouterSettings := opts.foldlM routerOpt st

/-- What `main` prints if the file cannot be read. -/
def parseWarning (rc : Int) : List Text :=
  if rc ≠ 0 then [ascii ("Warning: failed to parse " ++ RC_FILE ++ "\n")]
  else []

/-- The start of the router's `main`: what is printed, and the settings. -/
def routerMain (file : Option (List UInt8)) (opts : List RouterOpt) :
    List Text × Except Text RouterSettings :=
  let ((st, out), rc) := iniParse routerIniHandler file (.default, [])
  (out ++ parseWarning rc, routerParseOpts opts st)

-- =================================================================== the tracker

/-- `struct settings` of the tracker. -/
structure TrackerSettings where
  maxThreads : Int
  port : Text
  deriving DecidableEq, Repr

def TrackerSettings.default : TrackerSettings where
  maxThreads := 1000
  port := ascii "6666"

/-- `ini_handler` of the tracker. -/
def trackerIniHandler : Handler (Printing TrackerSettings) :=
  fun s sect name value =>
    if sect ≠ ascii "Tracker" then (s, true)
    else if name = ascii "listen-port" then
      (numberEntry "listen-port"
        (fun _ st => { st with port := value }) value s, true)
    else if name = ascii "max-threads" then
      (numberEntry "max-threads"
        (fun val st => { st with maxThreads := val }) value s, true)
    else (s, true)

/-- What `getopt_long` may return to the tracker. -/
inductive TrackerOpt
  | threads (optarg : Text)
  | listen (optarg : Text)
  | unknown
  deriving DecidableEq, Repr

def trackerOpt (st : TrackerSettings) :
    TrackerOpt → Except Text TrackerSettings
  | .threads optarg => do
      let n ← threadsArgument optarg
      return { st with maxThreads := n }
  | .listen optarg => do
      let port ← portArgument "listen-port" optarg
      return { st with port := port }
  | .unknown => return st

/-- `parse_opts` of the tracker. -/
def trackerParseOpts (opts : List TrackerOpt) (st : TrackerSettings) :
    Except Text TrackerSettings := opts.foldlM trackerOpt st

/-- The start of the tracker's `main`. -/
def trackerMain (file : Option (List UInt8)) (opts : List TrackerOpt) :
    List Text × Except Text TrackerSettings :=
  let ((st, out), rc) := iniParse trackerIniHandler file (.default, [])
  (out ++ parseWarning rc, trackerParseOpts opts st)

-- ============================================================== what is assigned

/-- What a handler is called with. -/
structure Assignment where
  sect : Text
  name : Text
  value : Text
  deriving DecidableEq, Repr

/-- A handler that keeps its calls. -/
def collect : Handler (List Assignment) :=
  fun l sect name value => (l ++ [⟨sect, name, value⟩], true)

/-- The calls a file leads to. -/
def assignments (file : Option (List UInt8)) : List Assignment :=
  (iniParse collect file []).1

/-- The value an assignment has for a name in a section. -/
def Assignment.get (sect name : String) (a : Assignment) : Option Text :=
  if a.sect = ascii sect ∧ a.name = ascii name then some a.value else none

/-- What the handlers take for a number: `atoi` makes it other than zero. -/
def number (value : Text) : Option Int :=
  if atoi value = 0 then none else some (atoi value)

/-- The text, where it is taken for one. -/
def usable (value : Text) : Option Text :=
  if atoi value = 0 then none else some value

section

variable {σ : Type} {handler : Handler σ}

/-- The parser with another handler. -/
def IniState.withUser (handler : Handler σ) (user : σ)
    (s : IniState (List Assignment)) : IniState σ where
  user := s.user.foldl
    (fun u a => (handler u a.sect a.name a.value).1) user
  sect := s.sect
  prevName := s.prevName
  error := s.error

/-- A handler that accepts everything. -/
def Accepts (handler : Handler σ) : Prop :=
  ∀ u sect name value, (handler u sect name value).2 = true

/-- Calling a handler that accepts is collecting its argument, to be applied
later. -/
private theorem call_withUser (h : Accepts handler) (user : σ)
    (s : IniState (List Assignment)) (lineno : Nat) (name value : Text) :
    (s.withUser handler user).call handler lineno name value
      = (s.call collect lineno name value).withUser handler user := by
  have hok := h (s.withUser handler user).user
    (s.withUser handler user).sect name value
  simp only [IniState.call, collect, if_true]
  rw [if_pos hok]
  simp [IniState.withUser]

/-- Noting an error does not concern the handler. -/
private theorem fail_withUser (user : σ) (s : IniState (List Assignment))
    (lineno : Nat) :
    (s.withUser handler user).fail lineno
      = (s.fail lineno).withUser handler user := by
  unfold IniState.fail
  split <;> simp_all [IniState.withUser]

/-- A line is read the same for any handler that accepts. -/
private theorem iniLine_withUser (h : Accepts handler) (user : σ)
    (s : IniState (List Assignment)) (lineno : Nat) (line : List UInt8) :
    iniLine handler lineno line (s.withUser handler user)
      = (iniLine collect lineno line s).withUser handler user := by
  unfold iniLine
  dsimp only
  generalize (decide (lineno = 1) && BOM.isPrefixOf (cstr line)) = bom
  generalize rstrip (if bom then (cstr line).drop BOM.length else cstr line)
    = body
  cases lskip body with
  | nil => rfl
  | cons c rest =>
      have hprev : (s.withUser handler user).prevName = s.prevName := rfl
      simp only [hprev]
      split
      · rfl
      split
      · exact call_withUser h user s _ _ _
      split
      · unfold sectionLine
        dsimp only
        split
        · rfl
        · exact fail_withUser user s _
      · unfold pairLine
        cases cutPair (c :: rest) with
        | none => exact fail_withUser user s _
        | some cut =>
            exact call_withUser h user
              { s with prevName := strncpy0 (rstrip cut.1) MAX_NAME } _ _ _

/-- So is a whole file. -/
private theorem iniLoop_withUser (h : Accepts handler) (user : σ)
    (k lineno : Nat) (file : List UInt8) (s : IniState (List Assignment)) :
    iniLoop handler k lineno file (s.withUser handler user)
      = (iniLoop collect k lineno file s).withUser handler user := by
  induction k generalizing lineno file s with
  | zero => rfl
  | succ k ih =>
      unfold iniLoop
      split
      · rfl
      · rw [iniLine_withUser h]
        exact ih _ _ _

/-- A handler that accepts everything is called with the assignments one
after the other. -/
private theorem iniParse_assignments (h : Accepts handler)
    (file : Option (List UInt8)) (user : σ) :
    iniParse handler file user
      = ((assignments file).foldl
          (fun u a => (handler u a.sect a.name a.value).1) user,
        (iniParse collect file []).2) := by
  cases file with
  | none => rfl
  | some file =>
      have hloop := iniLoop_withUser h user file.length 0 file
        ⟨[], [], [], 0⟩
      simp only [IniState.withUser, List.foldl_nil] at hloop
      simp only [iniParse, iniParseFile, assignments, hloop]

end

-- ============================================================ what comes of them

section

variable {σ γ β ε : Type} {p : σ → β} {g : γ → Option β}

/-- The last value, or else a default. -/
def lastOr (l : List β) (d : β) : β := l.getLast?.getD d

/-- A field that each step sets or leaves is what it was set to last. -/
private theorem foldl_lastOr {f : σ → γ → σ}
    (h : ∀ s c, p (f s c) = (g c).getD (p s)) (l : List γ) (s : σ) :
    p (l.foldl f s) = lastOr (l.filterMap g) (p s) := by
  induction l generalizing s with
  | nil => rfl
  | cons c l ih =>
      rw [List.foldl_cons, ih, h, List.filterMap_cons]
      cases g c with
      | none => rfl
      | some b =>
          simp only [lastOr, Option.getD_some, List.getLast?_cons]

/-- Where each step overwrites a setting or leaves it, the last that
overwrites it counts. -/
private theorem foldlM_lastOr {f : σ → γ → Except ε σ}
    (h : ∀ s c s', f s c = .ok s' → p s' = (g c).getD (p s)) {l : List γ}
    {s s' : σ} (hl : l.foldlM f s = .ok s') :
    p s' = lastOr (l.filterMap g) (p s) := by
  induction l generalizing s with
  | nil =>
      cases hl
      rfl
  | cons c l ih =>
      rw [List.foldlM_cons] at hl
      cases hc : f s c with
      | error e =>
          rw [hc] at hl
          cases hl
      | ok s₁ =>
          rw [hc] at hl
          rw [ih hl, h s c s₁ hc, List.filterMap_cons]
          cases g c with
          | none => rfl
          | some b =>
              simp only [lastOr, Option.getD_some, List.getLast?_cons]

end

/-- What a line of the file does to the settings of the router. -/
private theorem routerIniHandler_get (s : Printing RouterSettings)
    (a : Assignment) {s' : Printing RouterSettings}
    (h : (routerIniHandler s a.sect a.name a.value).1 = s') :
    s'.1.maxThreads = ((a.get "Router" "max-threads").bind number).getD
        s.1.maxThreads
      ∧ s'.1.dirAddr = (a.get "Router" "directory-address").getD s.1.dirAddr
      ∧ s'.1.dirPort = ((a.get "Router" "directory-port").bind usable).getD
        s.1.dirPort
      ∧ s'.1.listenPort = ((a.get "Router" "listen-port").bind usable).getD
        s.1.listenPort := by
  subst h
  obtain ⟨sect, name, value⟩ := a
  simp only [Assignment.get, routerIniHandler]
  by_cases hs : sect = ascii "Router"
  · subst hs
    by_cases h₁ : name = ascii "directory-address"
    · subst h₁
      simp +decide
    by_cases h₂ : name = ascii "directory-port"
    · subst h₂
      by_cases hv : atoi value = 0 <;>
        simp +decide [numberEntry, usable, hv]
    by_cases h₃ : name = ascii "listen-port"
    · subst h₃
      by_cases hv : atoi value = 0 <;>
        simp +decide [numberEntry, usable, hv]
    by_cases h₄ : name = ascii "max-threads"
    · subst h₄
      by_cases hv : atoi value = 0 <;>
        simp +decide [numberEntry, number, hv]
    · simp [h₁, h₂, h₃, h₄]
  · simp [hs]

/-- What a line of the file does to the settings of the tracker. -/
private theorem trackerIniHandler_get (s : Printing TrackerSettings)
    (a : Assignment) {s' : Printing TrackerSettings}
    (h : (trackerIniHandler s a.sect a.name a.value).1 = s') :
    s'.1.maxThreads = ((a.get "Tracker" "max-threads").bind number).getD
        s.1.maxThreads
      ∧ s'.1.port = ((a.get "Tracker" "listen-port").bind usable).getD
        s.1.port := by
  subst h
  obtain ⟨sect, name, value⟩ := a
  simp only [Assignment.get, trackerIniHandler]
  by_cases hs : sect = ascii "Tracker"
  · subst hs
    by_cases h₁ : name = ascii "listen-port"
    · subst h₁
      by_cases hv : atoi value = 0 <;>
        simp +decide [numberEntry, usable, hv]
    by_cases h₂ : name = ascii "max-threads"
    · subst h₂
      by_cases hv : atoi value = 0 <;>
        simp +decide [numberEntry, number, hv]
    · simp [h₁, h₂]
  · simp [hs]

/-- The router's handler accepts every pair. -/
theorem routerIniHandler_accepts : Accepts routerIniHandler := by
  intro s sect name value
  unfold routerIniHandler
  repeat' split
  all_goals rfl

/-- The tracker's handler accepts every pair. -/
theorem trackerIniHandler_accepts : Accepts trackerIniHandler := by
  intro s sect name value
  unfold trackerIniHandler
  repeat' split
  all_goals rfl

-- =================================================================== the options

/-- The argument of `--max-threads` passes: `strtol` reads it to its end, and
what it reads, made an `int`, is not below one. -/
def ThreadsOk (optarg : Text) : Prop :=
  1 ≤ toInt32 (strtol optarg).1 ∧ (strtol optarg).2 = []

/-- That of a port does: `strtol` reads it to its end, and what it reads, a
`long`, is not below one. -/
def PortOk (optarg : Text) : Prop :=
  1 ≤ (strtol optarg).1 ∧ (strtol optarg).2 = []

/-- Of the numbers an `int` can hold just those from one on pass. -/
private theorem threadsOk_decimalNat {n : Nat} (hn : n < 2 ^ 31) :
    ThreadsOk (decimalNat n) ↔ 1 ≤ n := by
  have hread := strtol_decimalNat (n := n) (r := [])
    (by simp only [LONG_MAX]; omega) (fun c hc => by cases hc)
  rw [List.append_nil] at hread
  simp only [ThreadsOk, hread, and_true, toInt32]
  omega

/-- The same bits as one, and no positive number. -/
example : ThreadsOk (ascii "-4294967295") := by
  unfold ThreadsOk
  decide

/-- A positive number, but no `int`. -/
example : ¬ ThreadsOk (ascii "2147483648") := by
  unfold ThreadsOk
  decide

/-- Of those a `long` can hold, whether there is such a port or not. -/
private theorem portOk_decimalNat {n : Nat} (hn : (n : Int) ≤ LONG_MAX) :
    PortOk (decimalNat n) ↔ 1 ≤ n := by
  have hread := strtol_decimalNat (n := n) (r := []) hn
    (fun c hc => by cases hc)
  rw [List.append_nil] at hread
  simp only [PortOk, hread, and_true]
  omega

/-- An argument that is checked. -/
private theorem checked_ok {ε α : Type} {n : Int} {endptr : Text} {e : ε}
    {x y : α} :
    (if n < 1 ∨ endptr ≠ [] then Except.error e else .ok x) = .ok y
      ↔ (1 ≤ n ∧ endptr = []) ∧ y = x := by
  have hgood : ¬ (n < 1 ∨ endptr ≠ []) ↔ 1 ≤ n ∧ endptr = [] := by
    rw [not_or, not_not, Int.not_lt]
  rw [← hgood]
  split
  · next hbad =>
      constructor
      · intro h
        cases h
      · intro h
        exact absurd hbad h.1
  · next hok =>
      constructor
      · intro h
        cases h
        exact ⟨hok, rfl⟩
      · intro h
        rw [h.2]

/-- Which numbers of threads are accepted, and what is stored then. -/
theorem threadsArgument_ok {optarg : Text} {n : Int} :
    threadsArgument optarg = .ok n
      ↔ ThreadsOk optarg ∧ n = toInt32 (strtol optarg).1 := checked_ok

/-- Which ports are accepted; they are stored as they stand. -/
theorem portArgument_ok {name : String} {optarg port : Text} :
    portArgument name optarg = .ok port ↔ PortOk optarg ∧ port = optarg :=
  checked_ok

def RouterOpt.maxThreads : RouterOpt → Option Int
  | .threads optarg => some (toInt32 (strtol optarg).1)
  | _ => none

def RouterOpt.dirAddr : RouterOpt → Option Text
  | .address optarg => some optarg
  | _ => none

def RouterOpt.dirPort : RouterOpt → Option Text
  | .port optarg => some optarg
  | _ => none

def RouterOpt.listenPort : RouterOpt → Option Text
  | .listen optarg => some optarg
  | _ => none

/-- The option does not end the program. -/
def RouterOpt.Valid : RouterOpt → Prop
  | .threads optarg => ThreadsOk optarg
  | .listen optarg | .port optarg => PortOk optarg
  | .address _ | .unknown => True

def TrackerOpt.maxThreads : TrackerOpt → Option Int
  | .threads optarg => some (toInt32 (strtol optarg).1)
  | _ => none

def TrackerOpt.port : TrackerOpt → Option Text
  | .listen optarg => some optarg
  | _ => none

def TrackerOpt.Valid : TrackerOpt → Prop
  | .threads optarg => ThreadsOk optarg
  | .listen optarg => PortOk optarg
  | .unknown => True

/-- An option whose argument is checked first. -/
private theorem bind_ok {ε α β : Type} {x : Except ε α} {f : α → β} {b : β}
    {P : Prop} {a₀ : α} (hx : ∀ a, x = .ok a ↔ P ∧ a = a₀) :
    (x >>= fun a => pure (f a)) = .ok b ↔ P ∧ b = f a₀ := by
  cases x with
  | error e =>
      constructor
      · intro h
        cases h
      · intro h
        cases (hx a₀).mpr ⟨h.1, rfl⟩
  | ok a =>
      obtain ⟨hp, rfl⟩ := (hx a).mp rfl
      constructor
      · intro h
        cases h
        exact ⟨hp, rfl⟩
      · intro h
        rw [h.2]
        rfl

/-- A value without a check is accepted. -/
private theorem pure_ok {ε α : Type} {a b : α} :
    (pure a : Except ε α) = .ok b ↔ True ∧ b = a := by
  constructor
  · intro h
    cases h
    exact ⟨trivial, rfl⟩
  · intro h
    rw [h.2]
    rfl

/-- What an option does to the settings of the router. -/
theorem routerOpt_ok {st st' : RouterSettings} {o : RouterOpt} :
    routerOpt st o = .ok st' ↔ o.Valid ∧ st' =
      { maxThreads := o.maxThreads.getD st.maxThreads
        dirAddr := o.dirAddr.getD st.dirAddr
        dirPort := o.dirPort.getD st.dirPort
        listenPort := o.listenPort.getD st.listenPort } := by
  cases o with
  | threads optarg => exact bind_ok fun _ => threadsArgument_ok
  | listen optarg => exact bind_ok fun _ => portArgument_ok
  | address optarg => exact pure_ok
  | port optarg => exact bind_ok fun _ => portArgument_ok
  | unknown => exact pure_ok

/-- Which options the tracker accepts, and what it stores. -/
theorem trackerOpt_ok {st st' : TrackerSettings} {o : TrackerOpt} :
    trackerOpt st o = .ok st' ↔ o.Valid ∧ st' =
      { maxThreads := o.maxThreads.getD st.maxThreads
        port := o.port.getD st.port } := by
  cases o with
  | threads optarg => exact bind_ok fun _ => threadsArgument_ok
  | listen optarg => exact bind_ok fun _ => portArgument_ok
  | unknown => exact pure_ok

/-- The program goes on if every step does. -/
private theorem foldlM_isOk {σ γ ε : Type} {f : σ → γ → Except ε σ}
    {ok : γ → Prop} (h : ∀ s c, (∃ s', f s c = .ok s') ↔ ok c)
    (l : List γ) (s : σ) :
    (∃ s', l.foldlM f s = .ok s') ↔ ∀ c ∈ l, ok c := by
  induction l generalizing s with
  | nil => exact ⟨fun _ _ hc => absurd hc List.not_mem_nil, fun _ => ⟨s, rfl⟩⟩
  | cons c l ih =>
      rw [List.foldlM_cons, List.forall_mem_cons, ← h s c]
      cases hc : f s c with
      | error e =>
          constructor
          · rintro ⟨s', hs'⟩
            cases hs'
          · rintro ⟨⟨s', hs'⟩, -⟩
            cases hs'
      | ok s₁ =>
          rw [← ih s₁]
          exact ⟨fun hl => ⟨⟨s₁, rfl⟩, hl⟩, fun hl => hl.2⟩

-- ================================================================== the settings

/-- The number a file gives for a name in a section, or else a
default. -/
def fileNumber (file : Option (List UInt8)) (sect name : String)
    (d : Int) : Int :=
  lastOr ((assignments file).filterMap fun a =>
    (a.get sect name).bind number) d

/-- The text of one. -/
def fileUsable (file : Option (List UInt8)) (sect name : String)
    (d : Text) : Text :=
  lastOr ((assignments file).filterMap fun a =>
    (a.get sect name).bind usable) d

/-- Any text. -/
def fileText (file : Option (List UInt8)) (sect name : String)
    (d : Text) : Text :=
  lastOr ((assignments file).filterMap fun a => a.get sect name) d

structure RouterConfigured (file : Option (List UInt8))
    (opts : List RouterOpt) (st : RouterSettings) : Prop where
  maxThreads : st.maxThreads = lastOr (opts.filterMap RouterOpt.maxThreads)
    (fileNumber file "Router" "max-threads" 1000)
  dirAddr : st.dirAddr = lastOr (opts.filterMap RouterOpt.dirAddr)
    (fileText file "Router" "directory-address" (ascii "psnet.no-ip.biz"))
  dirPort : st.dirPort = lastOr (opts.filterMap RouterOpt.dirPort)
    (fileUsable file "Router" "directory-port" (ascii "6666"))
  listenPort : st.listenPort = lastOr (opts.filterMap RouterOpt.listenPort)
    (fileUsable file "Router" "listen-port" (ascii "5555"))

structure TrackerConfigured (file : Option (List UInt8))
    (opts : List TrackerOpt) (st : TrackerSettings) : Prop where
  maxThreads : st.maxThreads = lastOr (opts.filterMap TrackerOpt.maxThreads)
    (fileNumber file "Tracker" "max-threads" 1000)
  port : st.port = lastOr (opts.filterMap TrackerOpt.port)
    (fileUsable file "Tracker" "listen-port" (ascii "6666"))

/-- A field of the settings: the options come after the file. -/
private theorem field_lastOr {σ ω β : Type} {handler : Handler (Printing σ)}
    {step : σ → ω → Except Text σ} {p : σ → β} {g : Assignment → Option β}
    {o : ω → Option β} (hacc : Accepts handler)
    (hg : ∀ s a, p (handler s a.sect a.name a.value).1.1
      = (g a).getD (p s.1))
    (ho : ∀ st c st', step st c = .ok st' → p st' = (o c).getD (p st))
    {file : Option (List UInt8)} {opts : List ω} {d st : σ}
    (h : opts.foldlM step (iniParse handler file (d, [])).1.1 = .ok st) :
    p st = lastOr (opts.filterMap o)
      (lastOr ((assignments file).filterMap g) (p d)) := by
  have hfile := @foldl_lastOr (Printing σ) Assignment β (fun s => p s.1) g
    (fun u a => (handler u a.sect a.name a.value).1) hg
    (assignments file) (d, [])
  rw [iniParse_assignments hacc] at h
  rw [foldlM_lastOr ho h, ← hfile]

/-- Every router that gets through its options is configured as described.
-/
theorem router_configured {file : Option (List UInt8)}
    {opts : List RouterOpt} {st : RouterSettings}
    (h : (routerMain file opts).2 = .ok st) :
    RouterConfigured file opts st := by
  have hget := fun s a => routerIniHandler_get s a rfl
  have hopt := fun st o st' hs => (@routerOpt_ok st st' o).mp hs |>.2
  have hacc := routerIniHandler_accepts
  exact ⟨field_lastOr hacc (fun s a => (hget s a).1)
      (fun st o st' hs => by rw [hopt st o st' hs]) h,
    field_lastOr hacc (fun s a => (hget s a).2.1)
      (fun st o st' hs => by rw [hopt st o st' hs]) h,
    field_lastOr hacc (fun s a => (hget s a).2.2.1)
      (fun st o st' hs => by rw [hopt st o st' hs]) h,
    field_lastOr hacc (fun s a => (hget s a).2.2.2)
      (fun st o st' hs => by rw [hopt st o st' hs]) h⟩

/-- Every tracker that gets through its options is configured as described.
-/
theorem tracker_configured {file : Option (List UInt8)}
    {opts : List TrackerOpt} {st : TrackerSettings}
    (h : (trackerMain file opts).2 = .ok st) :
    TrackerConfigured file opts st := by
  have hget := fun s a => trackerIniHandler_get s a rfl
  have hopt := fun st o st' hs => (@trackerOpt_ok st st' o).mp hs |>.2
  have hacc := trackerIniHandler_accepts
  exact ⟨field_lastOr hacc (fun s a => (hget s a).1)
      (fun st o st' hs => by rw [hopt st o st' hs]) h,
    field_lastOr hacc (fun s a => (hget s a).2)
      (fun st o st' hs => by rw [hopt st o st' hs]) h⟩

/-- An option for the thread limit sets it to one at least. -/
private theorem lastOr_limit {l l' : List Int} (hl : ∀ n ∈ l, 1 ≤ n)
    (hl' : ∀ n ∈ l', n ≠ 0) (h : lastOr l (lastOr l' 1000) < 1) :
    l = [] ∧ ∃ n ∈ l', n < 0 := by
  cases hlast : l.getLast? with
  | some n =>
      have hmem := List.mem_of_getLast? hlast
      have := hl n hmem
      simp only [lastOr, hlast, Option.getD_some] at h
      omega
  | none =>
      refine ⟨List.getLast?_eq_none_iff.mp hlast, ?_⟩
      simp only [lastOr, hlast, Option.getD_none] at h
      cases hlast' : l'.getLast? with
      | none =>
          rw [hlast'] at h
          cases h
      | some n =>
          have hmem := List.mem_of_getLast? hlast'
          have := hl' n hmem
          rw [hlast', Option.getD_some] at h
          exact ⟨n, hmem, by omega⟩

/-- A thread limit below one comes from the file. -/
def NegativeLimit (file : Option (List UInt8)) (sect : String) : Prop :=
  ∃ a ∈ assignments file, ∃ value, a.get sect "max-threads" = some value
    ∧ atoi value < 0

/-- A limit below one comes from the file, never from an option. -/
private theorem limit_file {file : Option (List UInt8)} {sect : String}
    {l : List Int} (hl : ∀ n ∈ l, 1 ≤ n)
    (h : lastOr l (fileNumber file sect "max-threads" 1000) < 1) :
    l = [] ∧ NegativeLimit file sect := by
  have hmem : ∀ n ∈ (assignments file).filterMap (fun a =>
      (a.get sect "max-threads").bind number),
      ∃ a ∈ assignments file, ∃ value,
        a.get sect "max-threads" = some value ∧ number value = some n := by
    intro n hn
    obtain ⟨a, ha, hget⟩ := List.mem_filterMap.mp hn
    obtain ⟨value, hvalue, hnum⟩ := Option.bind_eq_some_iff.mp hget
    exact ⟨a, ha, value, hvalue, hnum⟩
  have hnum : ∀ {value n}, number value = some n → n ≠ 0 ∧ n = atoi value := by
    intro value n hv
    unfold number at hv
    split at hv
    · cases hv
    · next hne =>
        cases hv
        exact ⟨hne, rfl⟩
  obtain ⟨hnil, n, hn, hneg⟩ := lastOr_limit hl (fun n hn => by
    obtain ⟨a, -, value, -, hv⟩ := hmem n hn
    exact (hnum hv).1) h
  obtain ⟨a, ha, value, hget, hv⟩ := hmem n hn
  exact ⟨hnil, a, ha, value, hget, (hnum hv).2 ▸ hneg⟩

/-- Each daemon starts exactly if the arguments of all its options pass.
Then each of its settings is what the last option for it says, or else the
last line of its own section that passes, or else the default; and only the
file can make the thread limit less than one. A thread limit that an `int`
can hold, and a port that a `long` can, passes if and only if it is
positive. -/
theorem daemons_configured (file : Option (List UInt8))
    (ropts : List RouterOpt) (topts : List TrackerOpt) :
    ((∃ st, (routerMain file ropts).2 = .ok st) ↔ ∀ o ∈ ropts, o.Valid)
      ∧ (∀ st, (routerMain file ropts).2 = .ok st →
        RouterConfigured file ropts st
          ∧ (st.maxThreads < 1 →
            ropts.filterMap RouterOpt.maxThreads = []
              ∧ NegativeLimit file "Router"))
      ∧ ((∃ st, (trackerMain file topts).2 = .ok st) ↔ ∀ o ∈ topts, o.Valid)
      ∧ (∀ st, (trackerMain file topts).2 = .ok st →
        TrackerConfigured file topts st
          ∧ (st.maxThreads < 1 →
            topts.filterMap TrackerOpt.maxThreads = []
              ∧ NegativeLimit file "Tracker"))
      ∧ (∀ n < 2 ^ 31, ThreadsOk (decimalNat n) ↔ 1 ≤ n)
      ∧ ∀ n : Nat, (n : Int) ≤ LONG_MAX →
        (PortOk (decimalNat n) ↔ 1 ≤ n) := by
  have hrouter : (∃ st, (routerMain file ropts).2 = .ok st)
      ↔ ∀ o ∈ ropts, o.Valid :=
    foldlM_isOk (fun s o => by simp [routerOpt_ok]) _ _
  have htracker : (∃ st, (trackerMain file topts).2 = .ok st)
      ↔ ∀ o ∈ topts, o.Valid :=
    foldlM_isOk (fun s o => by simp [trackerOpt_ok]) _ _
  refine ⟨hrouter, fun st h => ?_, htracker, fun st h => ?_,
    fun n => threadsOk_decimalNat, fun n => portOk_decimalNat⟩
  · have hconf := router_configured h
    refine ⟨hconf, fun hlt => limit_file (fun n hn => ?_)
      (hconf.maxThreads ▸ hlt)⟩
    obtain ⟨o, ho, hget⟩ := List.mem_filterMap.mp hn
    have hvalid := hrouter.mp ⟨st, h⟩ o ho
    cases o <;> cases hget
    exact hvalid.1
  · have hconf := tracker_configured h
    refine ⟨hconf, fun hlt => limit_file (fun n hn => ?_)
      (hconf.maxThreads ▸ hlt)⟩
    obtain ⟨o, ho, hget⟩ := List.mem_filterMap.mp hn
    have hvalid := htracker.mp ⟨st, h⟩ o ho
    cases o <;> cases hget
    exact hvalid.1

/-- The file may do so. -/
example : (routerMain
    (some (ascii "[Router]\nmax-threads=-1\n[Tracker]\nmax-threads=7"))
    [.listen (ascii "5556")]).2
    = .ok ⟨-1, ascii "psnet.no-ip.biz", ascii "6666", ascii "5556"⟩ := by
  decide

end Psnet.Config

import BlockAsm.Text.Digit

/-!
Command-line arguments. Switches may stand anywhere; long ones may be cut short as long as they stay
unique and take a value after an equals sign; short ones may be run together, the last taking the
rest as its value. After a short switch that takes none, an equals sign is passed over. Two dashes end
the switches, and a value of two dashes is dropped.

All words are told apart before any switch takes effect, and all switches of a word before the first
of them does. A request for help that is reached before a misuse ends the reading; words that nothing
takes are found out at the end.
-/

namespace BlockAsm.CommandLine

inductive Switch where
  | help
  | output
  | config
  | printStages
  | printMetrics
  | verbose
  deriving DecidableEq, Repr

def Switch.takesValue : Switch → Bool
  | .output => true
  | .config => true
  | _ => false

def switches : List (String × Switch) :=
  [("-h", .help), ("--help", .help), ("-o", .output), ("--output", .output), ("--config", .config),
   ("--print-after-all", .printStages), ("--print-metrics", .printMetrics), ("-v", .verbose),
   ("--verbose", .verbose)]

def switch? (name : List Char) : Option Switch :=
  (switches.find? fun s => s.1.toList == name).map Prod.snd

inductive Word where
  | plain (s : String)
  | separator
  /-- A switch, and what is written in the same word after it or after its equals sign. -/
  | switch (long : Bool) (s : Switch) (attached : Option (List Char))
  | unknown
  deriving Repr

def splitEquals (cs : List Char) : List Char × Option (List Char) :=
  match cs.dropWhile (· != '=') with
  | _ :: value => (cs.takeWhile (· != '='), some value)
  | [] => (cs, none)

def isLong (name : List Char) : Bool :=
  match name with
  | '-' :: '-' :: _ => true
  | _ => false

/-- A dash before digits, or before a point and digits, is no switch; a final line feed is let
pass. -/
def looksNegative (cs : List Char) : Bool :=
  match cs with
  | '-' :: rest =>
    let tail := rest.dropWhile Text.isDigit
    let ended (end_ : List Char) : Bool := end_ == [] || end_ == ['\n']
    (!(rest.takeWhile Text.isDigit).isEmpty && ended tail) ||
      match tail with
      | '.' :: frac =>
        !(frac.takeWhile Text.isDigit).isEmpty && ended (frac.dropWhile Text.isDigit)
      | _ => false
  | _ => false

def classifyOther (cs : List Char) : Word :=
  if looksNegative cs || cs.contains ' ' then .plain (String.ofList cs) else .unknown

def classifyLong (cs : List Char) : Option Word :=
  let (name, value) := splitEquals cs
  match switches.filter fun s => name.isPrefixOf s.1.toList with
  | [] => some (classifyOther cs)
  | [s] => some (.switch true s.2 value)
  | _ => none

def classifyShort (cs : List Char) : Word :=
  match switch? (cs.take 2) with
  | some s => .switch false s (some (cs.drop 2))
  | none => classifyOther cs

/-- What kind of word an argument is; nothing if it could be more than one switch. -/
def classify (s : String) : Option Word :=
  let cs := s.toList
  match cs with
  | '-' :: rest =>
    match switch? cs with
    | some sw => some (.switch (isLong cs) sw none)
    | none =>
      if rest.isEmpty then some (.plain s)
      else
        match splitEquals cs with
        | (name, some value) =>
          match switch? name with
          | some sw => some (.switch (isLong name) sw (some value))
          | none => if isLong cs then classifyLong cs else some (classifyShort cs)
        | _ => if isLong cs then classifyLong cs else some (classifyShort cs)
  | _ => some (.plain s)

def classifyAll : List String → Option (List Word)
  | [] => some []
  | s :: rest =>
    if s == "--" then some (.separator :: rest.map .plain)
    else do
      let w ← classify s
      let ws ← classifyAll rest
      return w :: ws

inductive ConfigSource where
  | shipped
  | file (path : String)
  /-- From a switch whose value was dropped. -/
  | unnamed
  deriving DecidableEq, Repr

structure Options where
  input : String
  output : Option String := none
  config : ConfigSource := .shipped
  printStages : Bool := false
  printMetrics : Bool := false
  verbose : Bool := false
  deriving DecidableEq, Repr

inductive Usage where
  | help
  | misuse
  deriving DecidableEq, Repr

/-- What has been read: the options, whether the input is among them, and whether a word was left
over. -/
structure Reading where
  options : Options := { input := "" }
  found : Bool := false
  leftOver : Bool := false

def Reading.spoil (r : Reading) : Reading := { r with leftOver := true }

def Reading.setInput (r : Reading) (s : String) : Reading :=
  { r with options := { r.options with input := s }, found := true }

/-- A value as it is used: two dashes are dropped. -/
def usedValue (value : List Char) : Option String :=
  if value = ['-', '-'] then none else some (String.ofList value)

def configSource (value : List Char) : ConfigSource :=
  match usedValue value with
  | some path => .file path
  | none => .unnamed

def Reading.effect (r : Reading) (s : Switch) (value : List Char) : Except Usage Reading :=
  match s with
  | .help => .error .help
  | .output => .ok { r with options := { r.options with output := usedValue value } }
  | .config => .ok { r with options := { r.options with config := configSource value } }
  | .printStages => .ok { r with options := { r.options with printStages := true } }
  | .printMetrics => .ok { r with options := { r.options with printMetrics := true } }
  | .verbose => .ok { r with options := { r.options with verbose := true } }

/-- What a word with run-together switches comes to: the flags in it, then a switch that takes its
value from the word or from the next one. -/
structure Cluster where
  flags : List Switch
  last : Option (Switch × Option (List Char)) := none

def readCluster (flags : List Switch) : List Char → Option Cluster
  | [] => some { flags := flags }
  | c :: rest =>
    match switch? ['-', c] with
    | none => none
    | some s =>
      if s.takesValue then
        some { flags := flags, last := some (s, if rest.isEmpty then none else some rest) }
      else readCluster (flags ++ [s]) rest

def clusterOf (long : Bool) (s : Switch) (attached : Option (List Char)) : Option Cluster :=
  match attached with
  | none => if s.takesValue then some { flags := [], last := some (s, none) } else some { flags := [s] }
  | some value =>
    if s.takesValue then some { flags := [], last := some (s, some value) }
    else if long || value.isEmpty then none
    else readCluster [s] value

def Reading.flags (r : Reading) : List Switch → Except Usage Reading
  | [] => .ok r
  | s :: rest =>
    match r.effect s [] with
    | .ok r => r.flags rest
    | .error u => .error u

def readWords (r : Reading) : List Word → Except Usage Reading
  | [] => .ok r
  | .plain s :: .separator :: rest =>
    if r.found then readWords r.spoil rest else readWords (r.setInput s) rest
  | .plain s :: rest => if r.found then readWords r.spoil rest else readWords (r.setInput s) rest
  | .separator :: .plain s :: rest =>
    if r.found then readWords r.spoil rest else readWords (r.setInput s) rest
  | .separator :: rest => readWords r.spoil rest
  | .unknown :: rest => readWords r.spoil rest
  | .switch long s attached :: .plain next :: rest =>
    match clusterOf long s attached with
    | none => .error .misuse
    | some k =>
      match k.last with
      | some (s, none) => do
        let r ← r.flags k.flags
        let r ← r.effect s next.toList
        readWords r rest
      | some (s, some value) => do
        let r ← r.flags k.flags
        let r ← r.effect s value
        readWords r (.plain next :: rest)
      | none => do
        let r ← r.flags k.flags
        readWords r (.plain next :: rest)
  | .switch long s attached :: rest =>
    match clusterOf long s attached with
    | none => .error .misuse
    | some k =>
      match k.last with
      | some (_, none) => .error .misuse
      | some (s, some value) => do
        let r ← r.flags k.flags
        let r ← r.effect s value
        readWords r rest
      | none => do
        let r ← r.flags k.flags
        readWords r rest
termination_by words => words.length

def parse (args : List String) : Except Usage Options :=
  match classifyAll args with
  | none => .error .misuse
  | some words =>
    match readWords {} words with
    | .error u => .error u
    | .ok r => if r.found && !r.leftOver then .ok r.options else .error .misuse

end BlockAsm.CommandLine

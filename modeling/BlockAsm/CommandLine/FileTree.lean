import BlockAsm.CommandLine.Path
import BlockAsm.Failure
import BlockAsm.Text.Surrogate

/-!
Trees of files and directories, seen from a working directory. A place in the tree is the list of
names that lead to it; the directories above the working directory are places made of two points
only, and what they hold besides is not known.
-/

namespace BlockAsm

abbrev Place := List String

inductive Node where
  | file (bytes : List UInt8)
  | directory
  deriving DecidableEq, Repr

abbrev FileTree := Table Place Node

namespace FileTree

/-- The working directory, those above it and the root of all paths are always there. -/
def isFixed (place : Place) : Bool := place.all (· == "..") || place == ["/"]

def node? (t : FileTree) (place : Place) : Option Node :=
  if isFixed place then some .directory else Table.get? t place

def erase (t : FileTree) (place : Place) : FileTree := t.filter fun e => e.1 != place

def step (place : Place) (name : String) : Place :=
  if name == "" || name == "." then place
  else if name == ".." then
    if place == ["/"] then place
    else if place.all (· == "..") then place ++ [".."]
    else place.dropLast
  else place ++ [name]

/-- Why a text is no path, whatever the tree holds. -/
def unusable? (path : String) : Option FileError :=
  if path.toList.any fun c => Text.isStandIn c && !Text.isStrayByte c then some .unencodable
  else if path.toList.contains '\x00' then some .nullCharacter
  else none

def byteSize (s : String) : Nat :=
  s.toList.foldl (fun n c => n + if Text.isStrayByte c then 1 else c.utf8Size) 0

def maxNameBytes : Nat := 255

def maxPathBytes : Nat := 4095

/-- Follows names; each step starts from a directory. -/
def follow (t : FileTree) (place : Place) : List String → Except FileError Place
  | [] => .ok place
  | name :: rest =>
    match node? t place with
    | some .directory =>
      if maxNameBytes < byteSize name then .error .nameTooLong
      else follow t (step place name) rest
    | some (.file _) => .error .notDirectory
    | none => .error .notFound

/-- The place of a path as it is written, which need not hold anything. -/
def locate (t : FileTree) (path : String) : Except FileError Place :=
  match unusable? path with
  | some e => .error e
  | none =>
    if path == "" then .error .notFound
    else if maxPathBytes < byteSize path then .error .nameTooLong
    else
      let start : Place := if path.toList.head? == some '/' then ["/"] else []
      follow t start (Path.splitSlashes [] path.toList)

def read (t : FileTree) (path : String) : Except FileError (List UInt8) :=
  match locate t path with
  | .error e => .error e
  | .ok place =>
    match node? t place with
    | some (.file bytes) => .ok bytes
    | some .directory => .error .isDirectory
    | none => .error .notFound

def directoryOf (t : FileTree) (path : Path) : Except FileError Place :=
  match locate t path.parent.text with
  | .error e => .error e
  | .ok place =>
    match node? t place with
    | some .directory => .ok place
    | some (.file _) => .error .notDirectory
    | none => .error .notFound

def temporaryName (name stamp : String) : String := "." ++ name ++ "." ++ stamp ++ ".tmp"

/-- The first of `n, n + 1, …` whose temporary name is free, in at most `tries` steps. -/
def firstTemporary (t : FileTree) (place : Place) (name : String) : Nat → Nat → Nat
  | 0, n => n
  | tries + 1, n =>
    if (node? t (place ++ [temporaryName name (toString n)])).isSome then
      firstTemporary t place name tries (n + 1)
    else n

/-- A stamp for a temporary name that is free. As many tries as there are entries suffice. -/
def freeStamp (t : FileTree) (place : Place) (name : String) : String :=
  toString (firstTemporary t place name t.length 0)

def rename (t : FileTree) (source target : Place) : Except FileError FileTree :=
  match node? t source, node? t target with
  | some (.file _), some .directory => .error .isDirectory
  | some (.file bytes), _ => .ok (Table.set (erase t source) target (.file bytes))
  | _, _ => .error .notFound

/-- A path that ends in points, or is only a root, names no entry that could be replaced. -/
def replaceable (path : Path) : Bool := path.name != "" && path.name != ".."

/-- A temporary name has up to fourteen bytes more than the name it stands in for. -/
def hasRoom (name : String) : Bool := decide (byteSize name + 14 ≤ maxNameBytes)

def workplace (t : FileTree) (path : Path) : Except FileError Place :=
  match unusable? path.text with
  | some e => .error e
  | none =>
    match directoryOf t path with
    | .error e => .error e
    | .ok place => if hasRoom path.name then .ok place else .error .nameTooLong

end FileTree

end BlockAsm

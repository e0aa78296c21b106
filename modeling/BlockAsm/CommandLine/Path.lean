/-!
Paths as text. A path is a root, empty for a relative path, and the names along the way; single
points and empty names are dropped when it is read, two points are kept.
-/

namespace BlockAsm

structure Path where
  root : String
  names : List String
  deriving DecidableEq, Repr

namespace Path

def splitSlashes (held : List Char) : List Char → List String
  | [] => [String.ofList held.reverse]
  | '/' :: rest => String.ofList held.reverse :: splitSlashes [] rest
  | c :: rest => splitSlashes (c :: held) rest

/-- Two slashes at the front are a root of their own; any other number is one. -/
def rootOf (cs : List Char) : String :=
  match cs with
  | '/' :: '/' :: '/' :: _ => "/"
  | '/' :: '/' :: _ => "//"
  | '/' :: _ => "/"
  | _ => ""

def ofText (s : String) : Path :=
  { root := rootOf s.toList
    names := (splitSlashes [] s.toList).filter fun n => n != "" && n != "." }

def text (p : Path) : String :=
  if p.root == "" && p.names.isEmpty then "." else p.root ++ String.intercalate "/" p.names

def name (p : Path) : String := p.names.getLastD ""

def parent (p : Path) : Path := { p with names := p.names.dropLast }

/-- A file name without its last suffix. A point at the very front or the very end starts none. -/
def stripSuffix (name : String) : String :=
  let reversed := name.toList.reverse
  let suffix := reversed.takeWhile (· != '.')
  match reversed.dropWhile (· != '.') with
  | '.' :: before =>
    if suffix.isEmpty || before.isEmpty then name else String.ofList before.reverse
  | _ => name

def withSuffix (p : Path) (suffix : String) : Option Path :=
  if p.name == "" then none
  else some { p with names := p.names.dropLast ++ [stripSuffix p.name ++ suffix] }

end Path

end BlockAsm

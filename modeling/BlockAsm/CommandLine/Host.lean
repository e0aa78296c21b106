import BlockAsm.CommandLine.FileTree
import BlockAsm.Text.Utf8
import BlockAsm.Transcript

/-!
The host of a tree of files. It decides what the tree does not show: the names of temporary files, whether
what the tree allows is done at all, and which lines its two output channels take. By default it gives the
first free name and refuses nothing.

A file is replaced by way of a temporary file beside it: the text is written there and the temporary
file then takes the name of the target. If that fails the temporary file is removed.
-/

namespace BlockAsm

inductive Channel where
  | output
  | errors
  deriving DecidableEq, Repr

structure Host where
  /-- What tells a temporary name in a directory from those that are there. -/
  stamp : FileTree → Place → String → String := FileTree.freeStamp
  unreadable : String → Option FileError := fun _ => none
  /-- Why nothing is created in a directory. -/
  closed : Place → Option FileError := fun _ => none
  /-- What of some bytes is written before it fails, and why it does. -/
  cutOff : List UInt8 → Option (List UInt8 × FileError) := fun _ => none
  guarded : Place → Option FileError := fun _ => none
  refused : Channel → String → Option FileError := fun _ _ => none

namespace Host

def read (host : Host) (t : FileTree) (path : String) : Except FileError (List UInt8) :=
  match host.unreadable path with
  | some e => .error e
  | none => t.read path

def temporary (host : Host) (t : FileTree) (directory : Place) (name : String) : Place :=
  directory ++ [FileTree.temporaryName name (host.stamp t directory name)]

def create (host : Host) (t : FileTree) (path : Path) : Except FileError (Place × FileTree) :=
  match t.workplace path with
  | .error e => .error e
  | .ok directory =>
    match host.closed directory with
    | some e => .error e
    | none =>
      let place := host.temporary t directory path.name
      .ok (place, Table.set t place (.file []))

/-- Writes a text to a file, as far as it goes. A text without bytes is not begun. -/
def write (host : Host) (t : FileTree) (place : Place) (text : String) :
    FileTree × Except FileError Unit :=
  match Text.encodeUtf8 text with
  | none => (Table.set t place (.file []), .error .unencodable)
  | some bytes =>
    match host.cutOff bytes with
    | some (held, e) => (Table.set t place (.file held), .error e)
    | none => (Table.set t place (.file bytes), .ok ())

def move (host : Host) (t : FileTree) (source : Place) (path : Path) : Except FileError FileTree :=
  if FileTree.replaceable path then
    match t.locate path.text with
    | .error e => .error e
    | .ok target =>
      match host.guarded target with
      | some e => .error e
      | none => t.rename source target
  else .error .busy

def replace (host : Host) (t : FileTree) (path : Path) (text : String) :
    FileTree × Except FileError Unit :=
  match host.create t path with
  | .error e => (t, .error e)
  | .ok (temporary, created) =>
    match host.write created temporary text with
    | (written, .error e) => (written.erase temporary, .error e)
    | (written, .ok ()) =>
      match host.move written temporary path with
      | .ok after => (after, .ok ())
      | .error e => (written.erase temporary, .error e)

/-- What comes about of some entries, up to the first line that is refused, and why it is. What goes wrong
with a note is ignored. -/
def tell (host : Host) : List Entry → List Entry × Option FileError
  | [] => ([], none)
  | .line text :: rest =>
    match host.refused .output text with
    | some e => ([], some e)
    | none => (.line text :: (host.tell rest).1, (host.tell rest).2)
  | .note n :: rest => (.note n :: (host.tell rest).1, (host.tell rest).2)

end Host

end BlockAsm

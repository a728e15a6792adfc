import SqlRiver.Text.Offset

/-!
# Files

A tree of directories and files as data, and the way that a path leads through
it. A path is followed part by part, from the root if it starts with a slash and
from the working directory otherwise. Every part has to be looked up in a
directory: also the empty part behind a slash at the end, so that `a/` is no
path to a file `a`. The bytes of an input have to be UTF-8.

Main definitions:

* `ReadError`, `ReadError.reason`: the reasons why an input cannot be read, and
  their wording.
* `decode`: the text of the bytes of an input.
* `Node`: a file or a directory.
* `Spot`: a node with the directories around it.
* `Spot.walk`: follows the parts of a path.
* `Spot.read`: the text of the file that a path leads to.
-/

namespace SqlRiver.Command

/-! ## Input -/

/-- Why an input cannot be read. -/
inductive ReadError where
  /-- No entry of a directory has the name. -/
  | missing
  /-- The system does not allow it. -/
  | denied
  /-- A path leads on behind a file. -/
  | notADirectory
  /-- A path ends at a directory. -/
  | isADirectory
  /-- A path, or a name in it, is longer than the system allows. -/
  | nameTooLong
  /-- The bytes are not UTF-8. -/
  | notText
  /-- Any other reason, in the words of the system. -/
  | other (reason : Text)
deriving DecidableEq, Repr

/-- The wording of a reason why an input cannot be read. -/
def ReadError.reason : ReadError → Text
  | .missing => "No such file or directory (os error 2)".toList
  | .denied => "Permission denied (os error 13)".toList
  | .notADirectory => "Not a directory (os error 20)".toList
  | .isADirectory => "Is a directory (os error 21)".toList
  | .nameTooLong => "File name too long (os error 36)".toList
  | .notText => "stream did not contain valid UTF-8".toList
  | .other reason => reason

/-- The text of the bytes of an input. -/
def decode (bytes : ByteArray) : Except ReadError Text :=
  match String.fromUTF8? bytes with
  | some s => .ok s.toList
  | none => .error .notText

/-! ## Paths -/

/-- A file with its bytes, or a directory with its entries by name. -/
inductive Node where
  | file (bytes : ByteArray)
  | directory (entries : List (Text × Node))

/-- A node in a tree. -/
structure Spot where
  /-- The node. -/
  node : Node
  /-- The directories around it, the innermost first. -/
  around : List Node

/-- How many bytes the name of a file may have. -/
def maxName : Nat := 255

/-- How many bytes a path may have. -/
def maxPath : Nat := 4095

namespace Spot

/-- The directory around a spot; the root is the directory around itself. -/
def parent (spot : Spot) : Spot :=
  match spot.around with
  | [] => spot
  | node :: around => ⟨node, around⟩

/-- The root of the tree of a spot. -/
def root (spot : Spot) : Spot := ⟨spot.around.getLastD spot.node, []⟩

/-- Follows one part of a path. -/
def step (spot : Spot) (part : Text) : Except ReadError Spot :=
  match spot.node with
  | .file _ => .error .notADirectory
  | .directory entries =>
    if part.isEmpty || part == ['.'] then .ok spot
    else if part == ['.', '.'] then .ok spot.parent
    else if maxName < part.byteSize then .error .nameTooLong
    else
      match entries.find? fun entry => entry.1 == part with
      | some (_, node) => .ok ⟨node, spot.node :: spot.around⟩
      | none => .error .missing

/-- Follows the parts of a path. -/
def walk (spot : Spot) : List Text → Except ReadError Spot
  | [] => .ok spot
  | part :: more =>
    match spot.step part with
    | .ok next => next.walk more
    | .error e => .error e

/-- The spot that a path leads to, when `spot` is the working directory. -/
def follow (spot : Spot) (path : Text) : Except ReadError Spot :=
  if path.isEmpty then .error .missing
  else if maxPath < path.byteSize then .error .nameTooLong
  else
    let start := if path.head? == some '/' then spot.root else spot
    start.walk (path.splitWhere (· == '/'))

/-- The text of the file that a path leads to, when `spot` is the working
directory. -/
def read (spot : Spot) (path : Text) : Except ReadError Text :=
  match spot.follow path with
  | .error e => .error e
  | .ok found =>
    match found.node with
    | .file bytes => decode bytes
    | .directory _ => .error .isADirectory

end Spot

end SqlRiver.Command

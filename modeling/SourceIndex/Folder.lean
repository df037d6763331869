/-
  Files in a folder.

  * `Folder`: directories and files by their place, which is a list of names;
  * `Folder.makeAll`: make a directory and those above it;
  * `Folder.write`: write a file, where the directories above it are made;
  * `Folder.read`: read a file.
-/
import SourceIndex.Table

namespace SourceIndex

/-- A place below the root of a folder. -/
abbrev Place := List String

/-- Directories and files by their place.  The root is a directory. -/
structure Folder where
  directories : List Place := []
  files : Table Place ByteArray := {}

namespace Folder

/-- Is there a directory at a place? -/
def isDirectory (f : Folder) (place : Place) : Bool :=
  place.isEmpty || f.directories.contains place

/-- Can a name be given to a file?  It has at most 255 bytes. -/
def isName (name : String) : Bool :=
  name ≠ "" && name ≠ "." && name ≠ ".." && name.utf8ByteSize ≤ 255 && !name.toList.contains '\x00'

/-- Go from a directory along the steps of a path, where directories that are
    missing are made; nothing if a file is in the way. -/
def makeAll (f : Folder) (place : Place) : List String → Option (Folder × Place)
  | [] => some (f, place)
  | step :: steps =>
    if step = "" ∨ step = "." then f.makeAll place steps
    else if step = ".." then f.makeAll place.dropLast steps
    else
      let next := place ++ [step]
      if f.isDirectory next then f.makeAll next steps
      else if f.files.contains next || !isName step then none
      else { f with directories := f.directories ++ [next] }.makeAll next steps

/-- Write a file under a path; the folder and the place of the file.  Nothing if
    the path does not end in a name, or if something else is in the way. -/
def write (f : Folder) (path : String) (content : ByteArray) : Option (Folder × Place) :=
  let steps := path.splitOn "/"
  match steps.getLast? with
  | none => none
  | some name => do
    if !isName name then none
    let (f, place) ← f.makeAll [] steps.dropLast
    let place := place ++ [name]
    if f.isDirectory place then none
    return ({ f with files := f.files.put place content }, place)

/-- The bytes of a file. -/
def read (f : Folder) (place : Place) : Option ByteArray :=
  f.files.get? place

end Folder

end SourceIndex

/-
The files that scripts are read from.

A `Directory` holds files below one directory, in which paths begin. A path is followed name by
name, and every name but the last has to lead to a directory, also where it is
followed by a slash or by a dot. Outside of the directory nothing is known but that
directories lie around it.
-/
set_option autoImplicit false

namespace Scripting

/-- Why a script cannot be read. -/
inductive ReadFault where
  | missing
  | notDirectory
  | isDirectory
  | nameTooLong
  | notText
deriving DecidableEq

/-- The reason in words. -/
def ReadFault.text : ReadFault → String
  | missing => "No such file or directory (os error 2)"
  | notDirectory => "Not a directory (os error 20)"
  | isDirectory => "Is a directory (os error 21)"
  | nameTooLong => "File name too long (os error 36)"
  | notText => "stream did not contain valid UTF-8"

/-- Files, each with the names that lead to it. Of two under the same names the later one counts. -/
structure Directory where
  files : List (List String × ByteArray)

namespace Directory

/-- How many bytes a name may have. -/
def maxName : Nat := 255

/-- How many bytes a path may have. -/
def maxPath : Nat := 4095

/-- The names of a path. Of slashes in a row one counts, and a dot leads nowhere else. -/
def names (path : String) : List String :=
  (path.splitOn "/").filter fun name => name ≠ "" && name ≠ "."

/-- Files under the paths given. -/
def ofFiles (files : List (String × ByteArray)) : Directory :=
  ⟨files.map fun (path, contents) => (names path, contents)⟩

/-- A place that a path can lead to. -/
inductive Place where
  /-- A place in the directory, by the names that lead there. -/
  | inside (names : List String)
  /-- A directory around it. -/
  | outside

/-- The contents of the file at a place. -/
def file? (d : Directory) (at_ : List String) : Option ByteArray :=
  (d.files.reverse.find? (·.1 = at_)).map (·.2)

/-- Whether a place is a directory: the outermost one, or one with a file below it. -/
def isDirectory (d : Directory) (at_ : List String) : Bool :=
  at_.isEmpty || d.files.any fun (names, _) => at_.isPrefixOf names && at_ ≠ names

/-- Make sure that a place is a directory. -/
def enter (d : Directory) : Place → Except ReadFault Unit
  | .outside => .ok ()
  | .inside at_ =>
    if d.isDirectory at_ then .ok ()
    else if (d.file? at_).isSome then .error .notDirectory
    else .error .missing

/-- Follow one more name from a place. -/
def step (d : Directory) (place : Place) (name : String) : Except ReadFault Place := do
  d.enter place
  match place with
  | .outside => if name = ".." then .ok .outside else .error .missing
  | .inside at_ =>
    if name = ".." then .ok (if at_.isEmpty then .outside else .inside at_.dropLast)
    else if maxName < name.utf8ByteSize then .error .nameTooLong
    else .ok (.inside (at_ ++ [name]))

/-- Whether a path says that it leads to a directory. -/
def saysDirectory (path : String) : Bool :=
  (path.splitOn "/").getLast?.any fun name => name = "" || name = "."

/-- Read the file that a path leads to. -/
def read (d : Directory) (path : String) : Except ReadFault ByteArray := do
  if maxPath < path.utf8ByteSize then .error .nameTooLong
  else
    let place ← (names path).foldlM d.step (if path.startsWith "/" then .outside else .inside [])
    if saysDirectory path then d.enter place
    match place with
    | .outside => .error .isDirectory
    | .inside at_ =>
      if d.isDirectory at_ then .error .isDirectory
      else
        match d.file? at_ with
        | some contents => .ok contents
        | none => .error .missing

end Directory

end Scripting

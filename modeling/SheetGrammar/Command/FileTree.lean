import SheetGrammar.Command

/-!
A tree of files as the place where a command runs. A path is walked name by name, from the root if it starts with a
slash and from the working directory otherwise: empty names and `.` stay where they are, `..` goes up, and nothing lies
behind a file. Of several reasons why a path cannot be read, the one that the walk meets first is given.
-/

namespace SheetGrammar

/-- Files and directories by the names on the way to them from the root, and the working directory. -/
structure FileTree where
  files : List (List String × String)
  directories : List (List String)
  here : List String

namespace FileTree

/-- The names of a path that lead somewhere. -/
def names (path : String) : List String := (path.splitOn "/").filter fun name => name ≠ "" && name ≠ "."

/-- The directories that a system has at its root. -/
def rootDirectories : List String :=
  ["bin", "boot", "dev", "etc", "home", "lib", "media", "mnt", "opt", "proc", "root", "run", "sbin", "srv", "sys",
    "tmp", "usr", "var"]

/-- The tree in which the working directory holds the given files and nothing else. It is a directory for temporary
files whose own name is not known, so no path spells it. The empty device is a file without content. -/
def ofList (files : List (String × String)) : FileTree :=
  let here := ["tmp", ""]
  { files := (["dev", "null"], "") :: files.map fun (path, content) => (here ++ names path, content)
    directories := here :: rootDirectories.map ([·])
    here }

inductive Entry where
  | file (content : String)
  | directory

/-- The entry at a place. A directory is there if it is known or on the way to a file. -/
def entry? (tree : FileTree) (place : List String) : Option Entry :=
  match tree.files.lookup place with
  | some content => some (.file content)
  | none =>
    if place.isEmpty || place ∈ tree.directories || tree.files.any (fun (path, _) => place.isPrefixOf path) then
      some .directory
    else none

def nameLimit : Nat := 255

def pathLimit : Nat := 4095

/-- Goes on from a place, which is a directory, along names. `place` has the last name first; there is nothing above the
root. -/
def walk (tree : FileTree) (place : List String) : List String → Except ReadFault Entry
  | [] => .ok .directory
  | ".." :: rest => walk tree place.tail rest
  | name :: rest =>
    if nameLimit < name.utf8ByteSize then .error .nameTooLong
    else
      match tree.entry? (name :: place).reverse with
      | none => .error .missing
      | some .directory => walk tree (name :: place) rest
      | some (.file content) => if rest.isEmpty then .ok (.file content) else .error .notDirectory

/-- The content of the file at a path. A path that ends like one of a directory does not lead to a file. -/
def read (tree : FileTree) (path : String) : Except ReadFault String :=
  if path.toList.contains '\x00' then .error .nulInName
  else if path.isEmpty then .error .missing
  else if pathLimit < path.utf8ByteSize then .error .nameTooLong
  else
    match tree.walk (if path.startsWith "/" then [] else tree.here.reverse) (names path) with
    | .error fault => .error fault
    | .ok .directory => .error .isDirectory
    | .ok (.file content) =>
      if path.endsWith "/" || path.endsWith "/." then .error .notDirectory else .ok content

end FileTree

end SheetGrammar

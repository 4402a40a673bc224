/-
Files, and how a path leads to one of them from the directory that a command
works in.

A path is walked name by name. Each name is looked up in the directory that
the names before it lead to, and the first that leads nowhere decides what is
wrong with the path. A name that follows a file is never looked up.
-/
import RichContent.CommandLine.Source

namespace RichContent

/-- Some files and a working directory. Every directory that holds one of them is there. -/
structure FileTree where
  /-- The names that lead from the root to the working directory. -/
  home : List Text
  files : List (List Text × ByteArray)

namespace FileTree

def nameLimit : Nat := 255

def pathLimit : Nat := 4095

def isDirectory (t : FileTree) (names : List Text) : Bool :=
  names.isPrefixOf t.home || t.files.any fun (file, _) => names.isPrefixOf file && names ≠ file

/-- What some names lead to from the directory at `place`. The file that a path leads to is
the last thing in it; not even a slash can follow. -/
def walk (t : FileTree) (place : List Text) : List Text → Except ReadFailure ByteArray
  | [] => .error .isDirectory
  | name :: rest =>
    if nameLimit < name.utf8Size then .error .nameTooLong
    else if name = [] ∨ name = ['.'] then t.walk place rest
    else if name = ['.', '.'] then t.walk place.dropLast rest
    else match t.files.lookup (place ++ [name]) with
      | some bytes => if rest = [] then .ok bytes else .error .notDirectory
      | none =>
        if t.isDirectory (place ++ [name]) then t.walk (place ++ [name]) rest
        else .error .notFound

def bytes (t : FileTree) (path : Text) : Except ReadFailure ByteArray :=
  if pathLimit < path.utf8Size then .error .nameTooLong
  else t.walk (if path.head? = some '/' then [] else t.home) (path.splitOn '/')

def read (t : FileTree) (path : Text) : Except ReadFailure Text :=
  (t.bytes path).bind Text.ofUtf8

end FileTree

end RichContent

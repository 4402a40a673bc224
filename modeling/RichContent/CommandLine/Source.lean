/-
What a command reads texts from, and why one cannot be read.
-/
import RichContent.Text.Digits

namespace RichContent

inductive Source where
  | file (path : Text)
  | standardInput
deriving DecidableEq, Repr

inductive ReadFailure where
  /-- The system refuses; it gives its reason and a number. -/
  | system (reason : Text) (code : Nat)
  | notUnicode
deriving DecidableEq, Repr

namespace ReadFailure

def notFound : ReadFailure := .system "No such file or directory".toList 2

def notDirectory : ReadFailure := .system "Not a directory".toList 20

def isDirectory : ReadFailure := .system "Is a directory".toList 21

/-- The path, or one of the names in it, has too many bytes. -/
def nameTooLong : ReadFailure := .system "File name too long".toList 36

def message : ReadFailure → Text
  | system reason code => reason ++ " (os error ".toList ++ Text.numeral code ++ [')']
  | notUnicode => "stream did not contain valid UTF-8".toList

end ReadFailure

def Text.ofUtf8 (bytes : ByteArray) : Except ReadFailure Text :=
  match String.fromUTF8? bytes with
  | some s => .ok s.toList
  | none => .error .notUnicode

end RichContent

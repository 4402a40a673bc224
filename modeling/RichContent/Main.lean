/-
The command: files and the standard input are read, the result is written.
-/
import RichContent.CommandLine.Run

namespace RichContent.CommandLine

/-- The number of a failure, which some calls of the system give as a negative one. -/
def failureNumber (code : UInt32) : Nat := min code.toNat (-code).toNat

def failureOf : IO.Error → ReadFailure
  | .noFileOrDirectory _ _ _ => .notFound
  | .inappropriateType _ code _ =>
    if failureNumber code = 21 then .isDirectory else .notDirectory
  | .invalidArgument _ code details =>
    if failureNumber code = 36 then .nameTooLong else .system details.toList (failureNumber code)
  | .permissionDenied _ code _ => .system "Permission denied".toList (failureNumber code)
  | e => .system e.toString.toList 5

partial def readAll (stream : IO.FS.Stream) (bytes : ByteArray) : IO ByteArray := do
  let more ← stream.read 65536
  if more.isEmpty then pure bytes else readAll stream (bytes ++ more)

def readText (source : Source) : IO (Except ReadFailure Text) := do
  try
    match source with
    | .file path => return Text.ofUtf8 (← IO.FS.readBinFile (String.ofList path))
    | .standardInput => return Text.ofUtf8 (← readAll (← IO.getStdin) .empty)
  catch e => return .error (failureOf e)

end RichContent.CommandLine

open RichContent in
def main (arguments : List String) : IO UInt32 := do
  let outcome ← CommandLine.run CommandLine.readText (arguments.map String.toList)
  IO.print (String.ofList outcome.output)
  IO.eprint (String.ofList outcome.errors)
  return outcome.code.toUInt32

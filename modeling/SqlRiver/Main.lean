import SqlRiver.Command.Run

/-!
# Program

The program reads the files and the standard input that the command asks for,
and writes what it leaves behind.
-/

namespace SqlRiver.Command

/-- The reason that the system gives for a file that cannot be read. -/
def ReadError.ofSystem : IO.Error → ReadError
  | .noFileOrDirectory _ _ _ => .missing
  | .permissionDenied _ _ _ => .denied
  | .inappropriateType _ 21 _ => .isADirectory
  | .inappropriateType _ _ _ => .notADirectory
  | .invalidArgument _ _ "name too long" => .nameTooLong
  | e => .other (toString e).toList

/-- All bytes that a stream still holds, behind those that have been read. -/
partial def readAll (stream : IO.FS.Stream) (sofar : ByteArray) :
    IO ByteArray := do
  let bytes ← stream.read 65536
  if bytes.isEmpty then return sofar else readAll stream (sofar ++ bytes)

/-- Reads the input of a request. -/
def readInput (request : Request) : IO (Except ReadError Text) := do
  try
    let bytes ← match request.path with
      | some path => IO.FS.readBinFile (String.ofList path)
      | none => readAll (← IO.getStdin) ByteArray.empty
    return decode bytes
  catch e => return .error (.ofSystem e)

/-- Writes what the command leaves behind and answers its exit code. -/
def Outcome.write (o : Outcome) : IO UInt32 := do
  IO.print (String.ofList o.out)
  IO.eprint (String.ofList o.err)
  return UInt32.ofNat o.code

end SqlRiver.Command

open SqlRiver.Command in
/-- The program. -/
def main (args : List String) : IO UInt32 := do
  let uppercase := (← IO.getEnv "SQLFMT_UPPERCASE").map String.toList
  let width := (← IO.getEnv "SQLFMT_WIDTH").map String.toList
  match plan ⟨uppercase, width⟩ (args.map String.toList) with
  | .done outcome => outcome.write
  | .read request => (outcome request (← readInput request)).write

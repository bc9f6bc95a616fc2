import Reckoner.Shell.Transcript

namespace Reckoner.Shell

/-!
# The program

Reads what the transcript depends on and writes it. A dialogue is answered line by line, as the
lines arrive.
-/

/-- The contents of a file, if it can be read. -/
def readFile? (file : String) : IO (Option ByteArray) := do
  try return some (← IO.FS.readBinFile file) catch _ => return none

/-- Read the rest of a line as bytes, given its bytes so far, the last one first. The line feed is
    left out; at the end of the input an empty line is none. -/
partial def readLine? (input : IO.FS.Stream) (line : List UInt8) : IO (Option (List UInt8)) := do
  let bytes ← input.read 1
  match bytes.toList, line with
  | [], [] => return none
  | [], _ => return some line.reverse
  | b :: _, _ => if b = Transcript.feed then return some line.reverse else readLine? input (b :: line)

/-- Answer lines as they arrive. -/
partial def converse (input output : IO.FS.Stream) (s : Session) : IO UInt32 := do
  match ← readLine? input [] with
  | none =>
    output.putStr (Transcript.answerLines s []).output
    return 0
  | some line =>
    match Transcript.answerLine? s line with
    | none => return (Transcript.unreadable "").exitCode
    | some (text, s') =>
      output.putStr text
      output.flush
      converse input output s'

end Reckoner.Shell

open Reckoner in
def main (arguments : List String) : IO UInt32 := do
  let output ← IO.getStdout
  let command := Command.read arguments
  match command with
  | .run { file? := none, listing, expressions := [] } =>
    output.putStr Transcript.greeting
    output.flush
    Shell.converse (← IO.getStdin) output (Session.start listing)
  | .run { file? := some file, listing, .. } =>
    let t := Transcript.ofFile (Session.start listing) (← Shell.readFile? file)
    output.putStr t.output
    return t.exitCode
  | _ =>
    let t := Transcript.ofCommand (fun _ => none) ByteArray.empty command
    output.putStr t.output
    return t.exitCode

import Reckoner.Shell.Command
import Reckoner.Shell.Session

namespace Reckoner

/-!
# Transcripts

All that the program writes and how it exits, as a function of its arguments, its standard input
and the files that it can read.

With a file, the file's lines are answered; else the expressions on the command line; else a
dialogue is held on the standard input. Bytes that are not UTF-8 end the program at once.
-/

/-- What the program writes, and its exit code. -/
structure Transcript where
  output : String
  exitCode : UInt32
  deriving DecidableEq, Repr

namespace Transcript

/-- The name of the program with its version. -/
def version : String := "rcalc 0.1.0\n"

/-- What a dialogue starts with. -/
def greeting : String := version ++ "Type an expression to evaluate, Ctrl+D to exit.\n\n"

/-- A command line that is not understood. -/
def misuse : Transcript := ⟨"", 2⟩

/-- Input that cannot be read. -/
def unreadable (output : String) : Transcript := ⟨output, 1⟩

/-- Answer the lines of a file. -/
def ofFile (s : Session) : Option ByteArray → Transcript
  | none => unreadable ""
  | some bytes =>
    match String.fromUTF8? bytes with
    | none => unreadable ""
    | some content => ⟨s.entries (Session.fileExpressions content), 0⟩

/-- Answer expressions. -/
def ofExpressions (s : Session) (expressions : List String) : Transcript :=
  ⟨s.entries (expressions.map Text.trim), 0⟩

/-- Answer one line of a dialogue, if it is text. -/
def answerLine? (s : Session) (line : List UInt8) : Option (String × Session) :=
  (String.fromUTF8? ⟨line.toArray⟩).map fun text => s.entry (Text.trim text)

/-- The byte that ends a line of a dialogue. -/
def feed : UInt8 := 0x0A

/-- Answer the lines of a dialogue; a line feed follows the last answer. -/
def answerLines (s : Session) : List (List UInt8) → Transcript
  | [] => ⟨"\n", 0⟩
  | line :: more =>
    match answerLine? s line with
    | none => unreadable ""
    | some (text, s') =>
      let later := answerLines s' more
      { later with output := text ++ later.output }

/-- Hold a dialogue on the standard input. -/
def ofDialogue (s : Session) (input : ByteArray) : Transcript :=
  let answers := answerLines s (Text.lines feed input.data.toList)
  { answers with output := greeting ++ answers.output }

/-- The transcript of a command line. -/
def ofCommand (readFile : String → Option ByteArray) (input : ByteArray) : Command → Transcript
  | .version => ⟨version, 0⟩
  | .misuse => misuse
  | .run o =>
    let s := Session.start o.listing
    match o.file?, o.expressions with
    | some file, _ => ofFile s (readFile file)
    | none, [] => ofDialogue s input
    | none, expressions => ofExpressions s expressions

end Transcript

end Reckoner

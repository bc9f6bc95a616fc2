namespace Reckoner

/-!
# Command lines

The arguments of the program are read from left to right, and the first one that decides the
answer ends the reading: a request for the version, or a misuse.

* `-p` and `--postfix` ask for listings; `-f X`, `-fX`, `-f=X`, `--file X` and `--file=X` name a
  file; `-V` and `--version` ask for the version. Short options may share one dash.
* An option may be given once. The name of a file must not be empty, and as an argument of its
  own it must not look like an option.
* `--` ends the options. All that is no option, a single dash included, is an expression.
-/

/-- What a command line asks for. -/
structure Options where
  file? : Option String := none
  listing : Bool := false
  expressions : List String := []
  deriving DecidableEq, Repr

/-- A command line as it was understood. -/
inductive Command where
  | run (o : Options)
  | version
  | misuse
  deriving DecidableEq, Repr

namespace Command

/-- What reading one argument leads to. -/
inductive Progress where
  /-- Read the next argument. -/
  | next (o : Options)
  /-- The next argument is the name of a file. -/
  | awaitFile (o : Options)
  | stop (c : Command)
  deriving DecidableEq, Repr

/-- Ask for listings. -/
def setListing (o : Options) : Option Options :=
  if o.listing then none else some { o with listing := true }

/-- Name the file. -/
def setFile (o : Options) (file : List Char) : Option Options :=
  if o.file?.isSome ∨ file = [] then none else some { o with file? := some (String.ofList file) }

/-- Go on if an option could be set. -/
def proceed : Option Options → Progress
  | some o => .next o
  | none => .stop .misuse

/-- The letters after a single dash. -/
def readShort (o : Options) : List Char → Progress
  | [] => .next o
  | 'p' :: cs =>
    match setListing o with
    | some o => readShort o cs
    | none => .stop .misuse
  | 'f' :: cs =>
    match cs with
    | [] => .awaitFile o
    | '=' :: file => proceed (setFile o file)
    | file => proceed (setFile o file)
  | 'V' :: _ => .stop .version
  | _ => .stop .misuse

/-- The word after two dashes, with its value if it has one. -/
def readLong (o : Options) (word : List Char) : Progress :=
  let name := String.ofList (word.takeWhile (· ≠ '='))
  match word.dropWhile (· ≠ '=') with
  | [] =>
    if name = "postfix" then proceed (setListing o)
    else if name = "file" then .awaitFile o
    else if name = "version" then .stop .version
    else .stop .misuse
  | _ :: value => if name = "file" then proceed (setFile o value) else .stop .misuse

/-- Whether an argument of its own can name a file. -/
def canNameFile : List Char → Bool
  | ['-'] => true
  | '-' :: _ => false
  | _ => true

/-- Read one argument other than `--`. -/
def readArgument (o : Options) (a : String) : Progress :=
  match a.toList with
  | '-' :: '-' :: word => readLong o word
  | '-' :: c :: cs => readShort o (c :: cs)
  | _ => .next { o with expressions := o.expressions ++ [a] }

/-- Read arguments, given what the earlier ones asked for. -/
def readFrom (o : Options) : List String → Command
  | [] => .run o
  | a :: rest =>
    if a = "--" then .run { o with expressions := o.expressions ++ rest }
    else
      match readArgument o a, rest with
      | .next o, rest => readFrom o rest
      | .stop c, _ => c
      | .awaitFile _, [] => .misuse
      | .awaitFile o, x :: rest =>
        match setFile o x.toList with
        | some o => if canNameFile x.toList then readFrom o rest else .misuse
        | none => .misuse

/-- Read a command line. -/
def read (arguments : List String) : Command := readFrom {} arguments

example : read ["-pf", "x", "1"] = .run ⟨some "x", true, ["1"]⟩ := by decide +kernel
example : read ["-fp", "--", "-p"] = .run ⟨some "p", false, ["-p"]⟩ := by decide +kernel
example : read ["-f", "-V"] = .misuse ∧ read ["-pV"] = .version ∧ read ["-1"] = .misuse := by
  decide +kernel

end Command

end Reckoner

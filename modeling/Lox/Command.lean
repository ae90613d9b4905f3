import Lox.Session.Call
import Lox.Text.WhiteSpace

/-!
The command line: its one argument is a script to run, and without it lines are answered as they come.

* `Command.ofArgs`: what the arguments ask for.
* `runScript`: a script, from what reading its file gave.
* `Prompt.turn`: the answer to one line; `Prompt.session`: to all the lines of an input.

All of them are functions. What happens to an exit code and to two texts is up to the caller.
-/

namespace Lox

/-! ## Arguments -/

/-- What the arguments ask for. -/
inductive Command where
  | help
  | version
  | misuse
  | prompt
  | script (path : String)
deriving DecidableEq

namespace Command

/-- what is asked for once all arguments are read -/
def ofScript? : Option String → Command
  | none => prompt
  | some path => script path

/-- What arguments ask for when options are over: at most one script, not without a name. -/
def ofPositional : Option String → List String → Command
  | found, [] => ofScript? found
  | none, arg :: args => if arg = "" then misuse else ofPositional (some arg) args
  | some _, _ :: _ => misuse

/-- What arguments ask for, after the script `found` among those before them. Options are read from left to right, and the
first that asks for something decides. Letters after one dash are options each, so the first letter decides. -/
def ofArgsAfter : Option String → List String → Command
  | found, [] => ofScript? found
  | found, arg :: args =>
    match arg.toList with
    | ['-', '-'] => ofPositional found args
    | '-' :: '-' :: _ => if arg = "--help" then help else if arg = "--version" then version else misuse
    | '-' :: 'h' :: _ => help
    | '-' :: 'V' :: _ => version
    | '-' :: _ :: _ => misuse
    | [] => misuse
    | _ =>
      match found with
      | none => ofArgsAfter (some arg) args
      | some _ => misuse

/-- what arguments ask for -/
def ofArgs (args : List String) : Command := ofArgsAfter none args

end Command

/-- the text that `--help` asks for -/
def helpText : String :=
  "A tree-walking interpreter for a subset of the Lox language\n\nUsage: linnet [SCRIPT]\n\nArguments:\n" ++
    "  [SCRIPT]  Path of the script to run\n\nOptions:\n  -h, --help     Print help\n" ++
    "  -V, --version  Print version\n"

/-- the text that `--version` asks for -/
def versionText : String := "linnet 0.1.0\n"

/-- the text for arguments that make no sense -/
def usageText : String := "error: unexpected argument\n\nUsage: linnet [SCRIPT]\n\nFor more information, try '--help'.\n"

/-! ## Exits -/

/-- How a process ends, and what it wrote. -/
structure Exit where
  code : UInt32
  stdout : String
  stderr : String
deriving DecidableEq

/-- the arguments make no sense -/
def exitUsage : UInt32 := 64

/-- the source has errors -/
def exitSource : UInt32 := 65

/-- the program failed while it ran -/
def exitRuntime : UInt32 := 70

/-- the input could not be read -/
def exitInput : UInt32 := 74

/-- the exit code of a result -/
def exitCode {α : Type} : Except Failure α → UInt32
  | .ok _ => 0
  | .error (.rejected _) => exitSource
  | .error (.runtime _) => exitRuntime
  | .error (.fault _) => exitRuntime
  | .error .outOfFuel => exitRuntime

/-- texts, each on lines of its own -/
def asLines (texts : List String) : String := String.join (texts.map (· ++ "\n"))

/-! ## Scripts -/

/-- Why an input cannot be read as text. -/
inductive Unreadable where
  | missing
  | notDirectory
  | directory
  | nameTooLong
  | notText
  | other (reason : String)
deriving DecidableEq

/-- the text of a reason -/
def Unreadable.message : Unreadable → String
  | missing => "No such file or directory (os error 2)"
  | notDirectory => "Not a directory (os error 20)"
  | directory => "Is a directory (os error 21)"
  | nameTooLong => "File name too long (os error 36)"
  | notText => "stream did not contain valid UTF-8"
  | other reason => reason

/-- the text that bytes encode -/
def decodeText (bytes : ByteArray) : Except Unreadable String :=
  match String.fromUTF8? bytes with
  | some text => .ok text
  | none => .error .notText

/-- Run the source of a script. -/
def runSource (source : String) : Exit :=
  let run := execute ample source .initial
  ⟨exitCode run.result, Sink.accepting.received run.printed, asLines run.diagnostics.messages⟩

/-- Run the script at a path, given what reading it gave. -/
def runScript (path : String) (contents : Except Unreadable ByteArray) : Exit :=
  match contents.bind decodeText with
  | .ok source => runSource source
  | .error reason => ⟨exitInput, "", s!"Could not read script '{path}': {reason.message}\n"⟩

/-! ## The prompt -/

namespace Prompt

/-- what stands before each line -/
def mark : String := "> "

/-- The answer to a line: the environment after it, and what is written. -/
structure Turn where
  env : Env
  stdout : String
  stderr : String

/-- The answer to a line. A line that is an expression is evaluated and its value printed; any other is run as a program. -/
def turn (env : Env) (line : String) : Turn :=
  let source := trimmedEnd line
  if isExpression source then
    let run := evaluate source env
    let shown :=
      match run.result with
      | .ok value => [value.display]
      | .error _ => []
    ⟨run.env, Sink.accepting.received run.printed ++ asLines shown, asLines run.diagnostics.messages⟩
  else
    let run := execute ample source env
    ⟨run.env, Sink.accepting.received run.printed, asLines run.diagnostics.messages⟩

/-- the exit after a line that is no text -/
def unreadable : Exit := ⟨exitInput, "", asLines [Unreadable.notText.message]⟩

/-- the exit at the end of the input -/
def finished : Exit := ⟨0, "\n", ""⟩

/-- the answers to lines, from the mark before the first to the exit -/
def session (env : Env) : List ByteArray → Exit
  | [] => ⟨finished.code, mark ++ finished.stdout, finished.stderr⟩
  | bytes :: rest =>
    match decodeText bytes with
    | .error _ => ⟨unreadable.code, mark ++ unreadable.stdout, unreadable.stderr⟩
    | .ok line =>
      let t := turn env line
      let e := session t.env rest
      ⟨e.code, mark ++ t.stdout ++ e.stdout, t.stderr ++ e.stderr⟩

/-- the lines of an input, each with the line feed that ends it -/
def lines : List UInt8 → List (List UInt8)
  | [] => []
  | byte :: rest =>
    if byte = 10 then [byte] :: lines rest
    else
      match lines rest with
      | [] => [[byte]]
      | line :: others => (byte :: line) :: others

/-- The lines of an input, one after the other, are the input. -/
theorem flatten_lines (bytes : List UInt8) : (lines bytes).flatten = bytes := by
  induction bytes with
  | nil => rfl
  | cons byte rest ih =>
    unfold lines
    split
    · simp [ih]
    · split
      · rename_i h
        rw [h] at ih
        simpa using ih
      · rename_i line others h
        rw [h] at ih
        simpa using ih

/-- the answers to all the lines of an input -/
def run (input : ByteArray) : Exit :=
  session .initial ((lines input.toList).map fun line => ⟨line.toArray⟩)

end Prompt

/-- Do what the arguments ask for, given what reading a file gives and all of the input. -/
def Command.run (read : String → Except Unreadable ByteArray) (input : ByteArray) : Command → Exit
  | help => ⟨0, helpText, ""⟩
  | version => ⟨0, versionText, ""⟩
  | misuse => ⟨exitUsage, "", usageText⟩
  | prompt => Prompt.run input
  | script path => runScript path (read path)

end Lox

import Lox.Command

/-!
The program: reads files and lines, and writes what the functions of the library answer.
-/

namespace Lox

/-- what reading the file at a path gives -/
def readScript (path : String) : IO (Except Unreadable ByteArray) := do
  try
    return .ok (← IO.FS.readBinFile path)
  catch
    | .noFileOrDirectory .. => return .error .missing
    -- A directory opens and cannot be read; a path through a file does not open, and the error names it.
    | .inappropriateType none .. => return .error .directory
    | .inappropriateType (some _) .. => return .error .notDirectory
    | .invalidArgument .. => return .error .nameTooLong
    | e => return .error (.other (toString e))

/-- the bytes of the next line, with the line feed that ends it; none at the end of the input -/
partial def readLine (stdin : IO.FS.Stream) (line : ByteArray) : IO ByteArray := do
  let byte ← stdin.read 1
  if byte.isEmpty then return line
  let line := line ++ byte
  if byte.data.contains 10 then return line
  readLine stdin line

/-- Answer lines as they come, until there are no more. -/
partial def answerLines (stdin : IO.FS.Stream) (env : Env) : IO UInt32 := do
  IO.print Prompt.mark
  (← IO.getStdout).flush
  let bytes ← readLine stdin ByteArray.empty
  if bytes.isEmpty then
    IO.print Prompt.finished.stdout
    return Prompt.finished.code
  match decodeText bytes with
  | .error _ =>
    IO.eprint Prompt.unreadable.stderr
    return Prompt.unreadable.code
  | .ok line =>
    let t := Prompt.turn env line
    IO.print t.stdout
    IO.eprint t.stderr
    answerLines stdin t.env

/-- Do what a command asks for. -/
def perform : Command → IO UInt32
  | .prompt => do answerLines (← IO.getStdin) .initial
  | command => do
    let contents ←
      match command with
      | .script path => readScript path
      | _ => pure (.error .missing)
    let exit := command.run (fun _ => contents) ByteArray.empty
    IO.print exit.stdout
    IO.eprint exit.stderr
    return exit.code

end Lox

/-- the entry point -/
def main (args : List String) : IO UInt32 := Lox.perform (Lox.Command.ofArgs args)

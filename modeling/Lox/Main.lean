import Lox.CommandLine

/-! The program: a script named by its one argument, or lines from standard input. -/

namespace Lox.CommandLine

/-- Prints a report and gives its exit code. -/
def finish (r : Report) : IO UInt32 := do
  let out ← IO.getStdout
  out.write ⟨r.stdout.toArray⟩
  out.flush
  IO.eprint r.stderr
  return r.code.toUInt32

/-- The bytes up to and including the next line feed, or what is left of the input. -/
partial def nextLine (input : IO.FS.Stream) (line : ByteArray) : IO ByteArray := do
  let byte ← input.read 1
  let line := line ++ byte
  if byte.isEmpty || byte[0]? == some lineFeed then return line
  nextLine input line

/-- Goes on round by round, each as soon as its line is complete. What is on the console is
printed, and so taken off it, before the next. -/
partial def attend (input : IO.FS.Stream) (console : Console) : IO UInt32 := do
  discard <| finish (console.exit 0)
  let line ← nextLine input .empty
  match round lineEditor line.data.toList .empty with
  | .error report => finish report
  | .ok (_, console) => attend input console

end Lox.CommandLine

open Lox.CommandLine in
def main (args : List String) : IO UInt32 := do
  match Invocation.ofArgs args with
  | .misuse => finish usage
  | .script path =>
    let bytes ← try some <$> IO.FS.readBinFile path catch _ => pure none
    finish (script (bytes.map (·.data.toList)))
  | .interactive => attend (← IO.getStdin) (Console.empty.print (banner ++ "\n"))

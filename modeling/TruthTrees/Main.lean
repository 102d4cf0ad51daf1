import TruthTrees.Script

/-! The command line: a script is read from standard input, a line at a time. -/
namespace TruthTrees.CommandLine

def readOptions (config : Config) : List String → Except String Config
  | [] => .ok config
  | "--lenient" :: rest => readOptions { config with requireCheckmarks := false } rest
  | "--history-limit" :: limit :: rest =>
    match Text.readNumber? limit.toList with
    | some n => readOptions { config with historyLimit := some n } rest
    | none => .error s!"invalid value '{limit}' for '--history-limit'"
  | option :: _ => .error s!"unexpected argument '{option}'"

/-- Runs the lines of standard input until it ends. -/
partial def loop (input output : IO.FS.Stream) (s : Session) : IO Unit := do
  let typed ← input.getLine
  if typed.isEmpty then return
  let (s, shown) := Script.runTyped s typed.toList
  output.putStr shown
  output.flush
  loop input output s

end TruthTrees.CommandLine

open TruthTrees in
/-- Runs the script on standard input; wrong options end the program at once. -/
def main (args : List String) : IO UInt32 := do
  match CommandLine.readOptions {} args with
  | .error message =>
    (← IO.getStderr).putStrLn s!"error: {message}"
    return 2
  | .ok config =>
    CommandLine.loop (← IO.getStdin) (← IO.getStdout) (.start config)
    return 0

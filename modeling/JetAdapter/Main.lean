import JetAdapter.CommandLine.Run

/-!
# The program

Reads the arguments, the file and the input that a run needs, and prints what comes out.
-/

open JetAdapter JetAdapter.CommandLine

/-- The content of a file, if it can be read. -/
def readFile? (path : SqlText) : IO (Option SqlText) := do
  try
    return some (← IO.FS.readFile (String.ofList path)).toList
  catch _ => return none

/-- The outcome of a run with these arguments. -/
def runArguments (args : List String) : IO Outcome := do
  let configVariable ← IO.getEnv "JET_REWRITE_CONFIG"
  match readInvocation (configVariable.map String.toList) (args.map String.toList) with
  | .error stop => return stop.outcome
  | .ok invocation =>
    let file ←
      match invocation.config with
      | some path => readFile? path
      | none => pure none
    let input ←
      if invocation.task.needsInput then (← IO.getStdin).readToEnd else pure ""
    return invocation.run file input.toList

/-- Runs a command. -/
def main (args : List String) : IO UInt32 := do
  let outcome ← runArguments args
  match outcome with
  | .output text => (← IO.getStdout).putStr (String.ofList text)
  | .failure message => (← IO.getStderr).putStrLn ("Error: " ++ message)
  | .usage => (← IO.getStderr).putStr (String.ofList helpText)
  return UInt32.ofNat outcome.code

import RecordGrammar.CommandLine

/-! # The program -/

open RecordGrammar

/-- The texts of the files that can be read, by name. -/
def readFiles (names : List String) : IO (List (String × String)) := do
  let texts ← names.mapM fun (name : String) => do
    match ← (IO.FS.readFile name).toBaseIO with
    | .ok text => return [(name, text)]
    | .error _ => return []
  return texts.flatten

def main (args : List String) : IO UInt32 := do
  let files ← readFiles (Invocation.ofArguments false args).files
  let response := respondTo (fun name => files.lookup name) args
  (← IO.getStdout).putStr response.output
  (← IO.getStderr).putStr response.error
  return UInt32.ofNat response.code

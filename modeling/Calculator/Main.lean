import Calculator.CommandLine

/-!
# Calculator.Main — the command line

Prints what the command leaves behind, the log in front of the complaint, and ends with its status.
-/

open Calculator in
def main (arguments : List String) : IO UInt32 := do
  let outcome := CommandLine.run arguments
  (← IO.getStdout).putStr outcome.stdout
  for entry in outcome.log do
    (← IO.getStderr).putStrLn ("DEBUG " ++ entry.message)
  (← IO.getStderr).putStr outcome.stderr
  return outcome.exit.toUInt32

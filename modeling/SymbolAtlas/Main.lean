/-
# SymbolAtlas.Main -- the program

The arguments name a command; standard input holds the bundle it works on.
-/
import SymbolAtlas.CommandLine.Bundle

set_option autoImplicit false

open SymbolAtlas

/-- Read a stream to its end. -/
partial def readAll (input : IO.FS.Stream) (text : String) : IO String := do
  let line ← input.getLine
  if line.isEmpty then return text
  readAll input (text ++ line)

/-- Run the command that the arguments name. -/
def main (arguments : List String) : IO UInt32 := do
  let report := CommandLine.runText arguments (← readAll (← IO.getStdin) "")
  (← IO.getStdout).putStr report.output
  (← IO.getStderr).putStr report.complaint
  return report.exitCode

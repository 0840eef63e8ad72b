import FormulaEditor.CommandLine.Answer

/-!
# The program

Reads the settings and the formula of a request, and writes the answer.
-/

namespace FormulaEditor

/-- The content of a file, if it can be read. -/
def contentOf? (path : String) : IO (Option String) := do
  try
    return some (← IO.FS.readFile path)
  catch _ =>
    return none

/-- The standard input, if the formula comes from there. -/
def inputFor : CommandLine.Source → IO String
  | .standardInput => do (← IO.getStdin).readToEnd
  | _ => return ""

end FormulaEditor

/-- Answers the request that the arguments make. -/
def main (arguments : List String) : IO UInt32 := do
  match FormulaEditor.CommandLine.Request.read? arguments with
  | none => return 2
  | some request =>
      let content ← match request.settings with
        | none => pure none
        | some path => FormulaEditor.contentOf? path
      let input ← FormulaEditor.inputFor request.source
      let answer := request.answer (fun _ => content) input
      for line in answer.lines toString do
        IO.println line
      return UInt32.ofNat answer.code

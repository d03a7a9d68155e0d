import TableParsing.Calculator.Command

/-! The calculator as a program. -/

namespace TableParsing.Calculator

def systemText (e : IO.Error) : String :=
  let coded (text : String) (code : UInt32) : String :=
    text ++ " (os error " ++ Nat.repr code.toNat ++ ")"
  match e with
  | .noFileOrDirectory _ code _ => coded "No such file or directory" code
  | .permissionDenied _ code _ => coded "Permission denied" code
  | .inappropriateType _ code _ => coded "Is a directory" code
  | e => e.toString

def writeFile (path content : String) : IO (Option String) := do
  try
    IO.FS.writeFile path content
    return none
  catch e => return some (systemText e)

/-- Far more steps than any text needs. -/
def stepLimit : Nat := 1000000000000

end TableParsing.Calculator

open TableParsing in
def main (args : List String) : IO UInt32 := do
  let outcome ← Calculator.command Calculator.writeFile Calculator.stepLimit args
  IO.print outcome.stdout
  IO.eprint outcome.stderr
  return outcome.code.toUInt32

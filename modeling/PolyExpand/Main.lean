import PolyExpand.Outcome

/-!
# The program

Reads the file or standard input, whichever the command line asks for, and
prints the outcome. All decisions are made by `Invocation.ofArgs` and
`Invocation.outcome`.
-/

namespace PolyExpand

/-- The bytes that an invocation works on, if they can be read. -/
def readBytes : Invocation → IO (Option (List UInt8))
  | .view _ (some file) => do
    try
      return some (← IO.FS.readBinFile file).toList
    catch _ =>
      return none
  | .view _ none => do
    return some (← (← IO.getStdin).readBinToEnd).toList
  | .help _ | .version | .misuse => return none

end PolyExpand

open PolyExpand in
/-- Runs one invocation. -/
def main (args : List String) : IO UInt32 := do
  let invocation := Invocation.ofArgs args
  let outcome := invocation.outcome (← readBytes invocation)
  IO.print (String.ofList outcome.output)
  return outcome.status.code.toUInt32

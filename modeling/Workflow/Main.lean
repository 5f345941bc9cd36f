import Workflow.Program.Run

/-!
# The command line

`main` gives the program the real files and environment, and identifiers made from random bytes.
-/

namespace Workflow.Program

/-- The number of an error of the system, which may come negated. -/
def errorNumber (code : UInt32) : UInt32 := if code < 0x80000000 then code else 0 - code

/-- The fault that an error of the system stands for. -/
def faultOf (e : IO.Error) : FileFault :=
  match e with
  | .noFileOrDirectory .. => .notFound
  | .inappropriateType _ code _ => if errorNumber code = 21 then .isDirectory else .notDirectory
  | .invalidArgument _ code _ =>
    if errorNumber code = 36 then .nameTooLong else .other (toString e)
  | e => .other (toString e)

/-- Reads a file as text. -/
def readFile (path : String) : IO (Except FileFault String) := do
  try
    let bytes ← IO.FS.readBinFile path
    match String.fromUTF8? bytes with
    | some text => return .ok text
    | none => return .error .notText
  catch e => return .error (faultOf e)

/-- Writes a file. -/
def writeFile (path text : String) : IO (Except FileFault Unit) := do
  try
    IO.FS.writeFile path text
    return .ok ()
  catch e => return .error (faultOf e)

/-- A supply of identifiers: successive numbers from a random one on. -/
def randomSupply : IO (Nat → NodeId) := do
  let bytes ← IO.getRandomBytes 15
  let first := bytes.foldl (fun n b => 256 * n + b.toNat) 0
  return fun n => .ofNat (first + n)

end Workflow.Program

open Workflow.Program in
/-- Carries out the command line. -/
def main (args : List String) : IO UInt32 := do
  let names := Flag.general.filterMap Flag.envName?
  let env ← names.filterMapM fun name => do
    return (← IO.getEnv name).map (name, ·)
  let supply ← randomSupply
  let exit ← run ⟨readFile, writeFile⟩ supply (fun name => env.lookup name) args
  IO.print exit.output
  IO.eprint exit.error
  return UInt32.ofNat exit.code

import FrontEnd.Command

/-!
# The command line

    check FILE...     report syntax errors
    fmt FILE...       print files in canonical form
    tokens FILE...    list the tokens of each file

With `--trace`, anywhere, the grammar rules are traced while files are parsed.
-/

namespace FrontEnd.Main

/-- The reason of a failure as the system words it. -/
def reason : IO.Error → String
  | .noFileOrDirectory _ code _ => s!"No such file or directory (os error {code})"
  | .permissionDenied _ code _ => s!"Permission denied (os error {code})"
  | .inappropriateType _ code _ => s!"Is a directory (os error {code})"
  | e => toString e

/-- What is found under a file name. -/
def lookUp (name : String) : IO FileContent := do
  match ← (IO.FS.Handle.mk name .read).toBaseIO with
  | .error e => return .unopened (reason e)
  | .ok handle =>
    match ← handle.readBinToEnd.toBaseIO with
    | .error e => return .unreadable (reason e)
    | .ok bytes => return .bytes bytes

/-- Do what the command says with one file, and write what comes of it; whether all went well. -/
def perform (command : Command) (trace : Bool) (name : String) : IO Bool := do
  let outcome := command.runFile trace ⟨name, ← lookUp name⟩
  IO.eprint outcome.errors
  IO.print outcome.output
  return outcome.clean

/-- How to call the program. -/
def usage : String := "usage: [--trace] (check | fmt | tokens) FILE..."

end FrontEnd.Main

open FrontEnd in
/-- Deal with the files of the command line one after another. -/
def main (args : List String) : IO UInt32 := do
  match args.filter (· ≠ "--trace") with
  | word :: name :: names =>
    match Command.ofName? word with
    | some command =>
      let results ← (name :: names).mapM (Main.perform command (args.contains "--trace"))
      return if results.all id then 0 else 1
    | none =>
      IO.eprintln Main.usage
      return 2
  | _ =>
    IO.eprintln Main.usage
    return 2

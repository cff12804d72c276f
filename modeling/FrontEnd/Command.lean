import FrontEnd.Parser.File
import FrontEnd.Text.Terminal

/-!
# Commands

What the command line does with its files, as a function of their contents: `check` reports what is
wrong with each, `fmt` writes each in its canonical form if nothing is, and `tokens` lists the tokens
of each. A file that fails does not keep the next one from being dealt with; the exit status tells
whether any did.
-/

namespace FrontEnd

/-- What is found under a file name. -/
inductive FileContent where
  | bytes (bytes : ByteArray)
  /-- nothing that could be opened, for the given reason -/
  | unopened (reason : String)
  /-- something that cannot be read, for the given reason -/
  | unreadable (reason : String)
deriving Inhabited

namespace FileContent

/-- No file of that name. -/
def missing : FileContent := .unopened "No such file or directory (os error 2)"

/-- A directory of that name. -/
def directory : FileContent := .unreadable "Is a directory (os error 21)"

end FileContent

/-- A file name of a command line and what is found there. -/
structure InputFile where
  name : String
  content : FileContent
deriving Inhabited

/-- What a command writes, and whether all went well. -/
structure Outcome where
  output : String
  errors : String
  clean : Bool
deriving DecidableEq, Repr, Inhabited

namespace Outcome

/-- The outcome of doing nothing. -/
def nothing : Outcome := ⟨"", "", true⟩

/-- One outcome after another. -/
def andThen (a b : Outcome) : Outcome :=
  ⟨a.output ++ b.output, a.errors ++ b.errors, a.clean && b.clean⟩

/-- The exit status. -/
def exitCode (o : Outcome) : Nat := if o.clean then 0 else 1

end Outcome

/-- What to do with the files. -/
inductive Command where
  | check
  | format
  | tokens
deriving DecidableEq, Repr, Inhabited

namespace Command

/-- The command of the given name. -/
def ofName? : String → Option Command
  | "check" => some .check
  | "fmt" => some .format
  | "tokens" => some .tokens
  | _ => none

/-- A line of text. -/
def line (text : String) : String := text ++ "\n"

/-- A line about a file. -/
def about (file : InputFile) (text : String) : String := line (file.name ++ ": " ++ text)

/-- An event as it is written. A trace is for a terminal, a diagnostic for whatever reads it. -/
def eventLine : Event → String
  | .diagnostic d => line d.display
  | .trace t => line ("TRACE " ++ Terminal.disarm t.text)

/-- Read a file and say everything about it on the way: the tree if the file is free of errors, and
what has been said. -/
def readFile (trace : Bool) (file : InputFile) : Option File × String :=
  match file.content with
  | .unopened reason => (none, about file reason)
  | .unreadable reason => parseFrom (.broken reason)
  | .bytes bytes => parseFrom (.ofBytes bytes)
where
  /-- Read what the file's reader delivers. -/
  parseFrom (reader : Reader) : Option File × String :=
    let (result, p) := (Parser.start (.file file.name) reader.scans true trace).parseFile
    let said := String.join (p.log.toList.map eventLine)
    match result with
    | .error failure => (none, said ++ line failure.display)
    | .ok tree =>
      let n := p.diagnostics.length
      if n = 0 then (some tree, said) else (none, said ++ about file s!"{n} error(s)")

/-- Check a file. -/
def checkFile (trace : Bool) (file : InputFile) : Outcome :=
  match readFile trace file with
  | (some tree, said) => ⟨"", said ++ about file s!"ok ({tree.decls.length} declaration(s))", true⟩
  | (none, said) => ⟨"", said, false⟩

/-- Write a file in its canonical form. -/
def formatFile (trace : Bool) (file : InputFile) : Outcome :=
  match readFile trace file with
  | (some tree, said) => ⟨tree.text, said, true⟩
  | (none, said) => ⟨"", said, false⟩

/-- A lexeme in the list of a file's tokens. -/
def tokenLine (file : InputFile) (l : Lexeme) : String :=
  line s!"{file.name}:{l.place.line}:{l.place.column}\t{l.token.className}\t{l.text}"

/-- List the tokens of a file, which must be text as a whole. -/
def listTokens (file : InputFile) : Outcome :=
  match file.content with
  | .unopened reason | .unreadable reason => ⟨"", about file reason, false⟩
  | .bytes bytes =>
    match String.fromUTF8? bytes with
    | none => ⟨"", about file "stream did not contain valid UTF-8", false⟩
    | some text =>
      let (lexemes, errors) := tokenize text
      ⟨String.join (lexemes.map (tokenLine file)),
        String.join (errors.map fun e => about file e.display), errors.isEmpty⟩

/-- Do what the command says with one file. -/
def runFile (command : Command) (trace : Bool) (file : InputFile) : Outcome :=
  match command with
  | .check => checkFile trace file
  | .format => formatFile trace file
  | .tokens => listTokens file

/-- Do what the command says with every file. -/
def run (command : Command) (trace : Bool) (files : List InputFile) : Outcome :=
  files.foldl (fun outcome file => outcome.andThen (command.runFile trace file)) .nothing

end Command

end FrontEnd

import FrontEnd.Parser.Stmt

/-!
# Files

    File     = "module" name ";" { TopLevel ";" } [ TopLevel ] .
    TopLevel = ( "import" | "type" | "var" ) Group | Func | Oper | .
    Func     = "func" name Params [ Type ] [ Block ] .
    Oper     = "oper" "(" Param ")" operator_name "(" Param ")" Type Block .
    Params   = "(" [ Param { "," Param } [ "," ] ] ")" .
    Param    = name Type .

Imports come before all other declarations. A file that does not start with its module name is not
read at all; otherwise, a tolerant parser always yields a tree.
-/

namespace FrontEnd

/-- Why there is no tree of a file. -/
inductive Failure where
  /-- the file does not start with `module`, but with something else -/
  | missingHeader (pos : Pos) (found : String)
  /-- the diagnostic that finished the run -/
  | aborted (first : Diagnostic)
deriving DecidableEq, Repr, Inhabited

/-- The failure in words. -/
def Failure.display : Failure → String
  | .missingHeader pos found => pos.display ++ ": expecting module header, found " ++ found
  | .aborted first => first.display

namespace ParseM

/-- Where reading goes on after a function or operator that could not be read. -/
def funcFollow : List Token := [.lbrace, .semi]

/-- Where reading goes on after a parameter that could not be read. -/
def paramFollow : List Token := [.comma, .rparen]

/-- The tokens that declarations start with. -/
def declFollow : List Token :=
  [.keyword .importWord, .keyword .typeWord, .keyword .varWord, .keyword .funcWord,
    .keyword .operWord]

/-- Where reading goes on after a statement outside of functions. -/
def strayFollow : List Token := declFollow ++ [.semi]

/-- The body of a function. -/
def funcBody (budget : Nat) : ParseM Block := do
  modify fun p => { p with functions := p.functions + 1 }
  let body ← block none budget
  modify fun p => { p with functions := p.functions - 1 }
  return body

/-- The body of a function, if there is one. -/
def funcBody? (budget : Nat) : ParseM (Option Block) := do
  if (← token) = .lbrace then return some (← funcBody budget) else return none

/-- Complain, and go on after the given tokens without a result. -/
def giveUp (complaint : Complaint) (follow : List Token) : ParseM (Option α) := do
  complain complaint
  recover follow
  return none

/-- A name and a type. What is expected in place of a missing name is given, and where to go on. -/
def param? (what : Expected) (follow : List Token) (budget : Nat) : ParseM (Option Param) := do
  let pos ← here
  if (← token) = .name then
    let name ← ident
    match ← type? budget with
    | some type => return some ⟨pos, name, type⟩
    | none => giveUp (.expecting .type) follow
  else giveUp (.expecting what) follow

/-- The parameters of a function. -/
def params (budget : Nat) : ParseM (List Param) := do
  if ← got .lparen then
    return (← list .parameters (param? .parameter paramFollow budget) budget).filterMap id
  else
    complain (.expecting (.token .lparen))
    return []

/-- An operand of an operator declaration, in parentheses. -/
def operandParam? (what : Expected) (budget : Nat) : ParseM (Option Param) := do
  if ← got .lparen then
    match ← param? what funcFollow budget with
    | some param =>
      want .rparen
      return some param
    | none => return none
  else giveUp (.expecting (.token .lparen)) funcFollow

/-- A function whose keyword has been passed. -/
def funcSpec (budget : Nat) : ParseM (Option Spec) := traced .funcDecl do
  if (← token) = .name then
    let name ← ident
    remark ("id: " ++ name.text)
    let params ← params budget
    let result? ← type? budget
    return some (.funcSpec name params result? (← funcBody? budget))
  else giveUp (.expecting .name) funcFollow

/-- The name of an overload. -/
def overload? : ParseM (Option Overload) := do
  if (← token) = .name then
    let name ← ident
    match Overload.ofName? name.text with
    | some overload =>
      remark ("oper: " ++ overload.name)
      return some overload
    | none =>
      complainAt name.pos (.unknownOverload name.text)
      recover funcFollow
      return none
  else giveUp (.expecting .operatorName) funcFollow

/-- The result type and body of an operator. -/
def operResult (lhs : Param) (overload : Overload) (rhs : Param) (budget : Nat) :
    ParseM (Option Spec) := do
  match ← type? budget with
  | some result =>
    match ← funcBody? budget with
    | some body => return some (.operSpec lhs overload rhs result (some body))
    | none =>
      complain (.expecting (.token .lbrace))
      return some (.operSpec lhs overload rhs result none)
  | none => giveUp (.expecting .type) funcFollow

/-- An operator whose keyword has been passed. -/
def operSpec (budget : Nat) : ParseM (Option Spec) := traced .operDecl do
  match ← operandParam? .receiver budget with
  | none => return none
  | some lhs =>
    match ← overload? with
    | none => return none
    | some overload =>
      match ← operandParam? .operand budget with
      | none => return none
      | some rhs => operResult lhs overload rhs budget

/-- The declarations that start with the given keyword, at the current token; none if the keyword
does not start any. -/
def topLevel? (keyword : Keyword) (budget : Nat) : Option (ParseM (List Decl)) :=
  let single (spec : ParseM (Option Spec)) : ParseM (List Decl) := do
    let pos ← here
    next
    return ((← spec).map (.mk pos none)).toList
  let group (spec : ParseM (Option Spec)) : ParseM (List Decl) := do
    let pos ← here
    next
    grouped keyword pos spec budget
  match keyword with
  | .importWord => some (group importSpec)
  | .typeWord => some (group (typeSpec budget))
  | .varWord => some (group (varSpec budget))
  | .funcWord => some (single (funcSpec budget))
  | .operWord => some (single (operSpec budget))
  | _ => none

/-- The end of a top-level declaration, after as many diagnostics as there were before it. -/
def endTopLevel (before : Nat) : ParseM Unit := do
  if (← token) = .eof then return
  else if ← got .semi then return
  else
    -- A declaration that was complained about has said enough.
    if (← get).count = before then complain .afterTopLevel
    recover declFollow

/-- The action for the current token at top level. -/
def topLevelAt (t : Token) (budget : Nat) : Option (ParseM (List Decl)) :=
  match t with
  | .keyword k => topLevel? k budget
  | _ => none

/-- The declarations of a file. An import is late if something else stands directly before it, a
declaration or a stray statement; `afterImport` says that it is an import, or that nothing has come yet. -/
def topLevels (afterImport : Bool) : Nat → ParseM (List Decl)
  | 0 => do
    starve
    return []
  | budget + 1 => do
    let t ← token
    if t = .eof then return []
    else if t = .semi then
      next
      topLevels afterImport budget
    else
      let isImport := t = .keyword .importWord
      if isImport && !afterImport then complain .lateImport
      match topLevelAt t budget with
      | some action =>
        let before := (← get).count
        let decls ← action
        endTopLevel before
        return decls ++ (← topLevels isImport budget)
      | none =>
        complain .strayStatement
        recover strayFollow
        topLevels isImport budget

/-- A file. -/
def file (budget : Nat) : ParseM (Except Failure File) := traced .file do
  let pos ← here
  let lexeme ← current
  if ← got (.keyword .moduleWord) then
    let moduleName ← ident
    remark ("module: " ++ moduleName.text)
    want .semi
    return .ok ⟨pos, moduleName, ← topLevels true budget⟩
  else return .error (.missingHeader pos lexeme.describe)

end ParseM

namespace Parser

/-- The failure of a run that a diagnostic has finished. -/
def abortion? (p : Parser) : Option Failure :=
  if p.tolerant then none else p.first?.map .aborted

/-- A budget that no file with the scans to come exceeds. -/
def budget (p : Parser) : Nat := 16 * (p.upcoming.length + 2)

/-- Read a file. -/
def parseFile (p : Parser) : Except Failure File × Parser :=
  match p.abortion? with
  | some failure => (.error failure, p)
  | none =>
    let (result, p) := (ParseM.file p.budget).run p
    match result with
    | .error failure => (.error failure, p)
    | .ok file =>
      match p.abortion? with
      | some failure => (.error failure, p)
      | none => (.ok file, p)

/-- The diagnostics that have been said, oldest first. -/
def diagnostics (p : Parser) : List Diagnostic := p.log.toList.filterMap Event.diagnostic?

end Parser

/-- Read what a reader delivers, up to the first diagnostic. -/
def parse (base : Base) (reader : Reader) : Except Failure File :=
  (Parser.start base reader.scans false false).parseFile.1

/-- Read a text, up to the first diagnostic. -/
def parseText (filename text : String) : Except Failure File :=
  parse (.file filename) (.ofBytes text.toUTF8)

/-- Read a text, with every diagnostic. -/
def parseTolerantly (filename text : String) : Except Failure File × List Diagnostic :=
  let (result, p) :=
    (Parser.start (.file filename) (Reader.ofBytes text.toUTF8).scans true false).parseFile
  (result, p.diagnostics)

end FrontEnd

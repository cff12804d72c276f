import FrontEnd.Proofs.Grammar.Acceptance
import FrontEnd.Proofs.Printed.Expr

/-!
# Printed expressions read back

The text of a printable expression, as the value of a variable, is read without a word as the expression
itself, up to positions, parentheses and the direction of comparisons (`declared_read_back`): its pieces
print what it is read back as, so the text is divided into lexemes that spell a file with just that
declaration.
-/

namespace FrontEnd

open Piece

namespace Piece.Prints

variable {ps qs : List Piece} {allows allows' : Char → Bool} {spells spells' both : List Lexeme → List Lexeme → Prop}

/-- A keyword. -/
theorem keyword (k : Keyword) : Prints [.word k.spelling] (fun c => !isNamePart c)
    fun ts us => ∃ l : Lexeme, l.token = .keyword k ∧ ts = l :: us := by
  have hclean : IsClean k.spelling.toList := by
    cases k <;> decide +kernel
  refine (word (.keyword k) k.spelling rfl hclean).mono (fun _ hc => hc) ?_
  rintro ts us ⟨l, hts⟩
  exact ⟨_, Word.token_complete (.keyword k) l, hts⟩

/-- A semicolon. -/
theorem semicolon : Prints [.word ";"] allows fun ts us => ∃ l : Lexeme, l.token = .semi ∧ ts = l :: us := by
  refine (word .semi ";" rfl (by decide +kernel)).mono (fun _ _ => rfl) ?_
  rintro ts us ⟨l, hts⟩
  exact ⟨_, rfl, hts⟩

/-- The one and then the other, with a blank between them. -/
theorem spaced (h : Prints ps allows spells) (hspace : allows ' ') (h' : Prints qs allows' spells')
    (hboth : ∀ {ts ms us}, spells ts ms → spells' ms us → both ts us) :
    Prints (ps ++ [space] ++ qs) allows' both := by
  have hfront : Prints (ps ++ [space]) (fun _ => true) spells := h.then_space hspace
  exact hfront.append h' (fun _ _ => rfl) hboth

end Piece.Prints

/-- A variable with the expression as its value. -/
def Decl.declaring (name : String) (x : Expr) : Decl :=
  .mk default none (.varSpec ⟨default, name⟩ none (some x))

namespace Expr

variable {moduleName name : String} {x : Expr}

/-- The pieces of a file with just one variable, and the expression as its value. -/
def piecesOfFile (moduleName name : String) (x : Expr) : List Piece :=
  [.word Keyword.moduleWord.spelling] ++ [space] ++ [.word moduleName] ++ [.word ";"] ++ [space] ++
    ([.word Keyword.varWord.spelling] ++ [space] ++ [.word name] ++ [space] ++ [.word Token.assign.spelling] ++
      [space] ++ x.pieces)

/-- A variable that is declared as a printable expression is read back. -/
theorem IsPrintable.prints_variable (hname : isIdentifier name) (hx : x.IsPrintable) :
    Prints ([.word Keyword.varWord.spelling] ++ [space] ++ [.word name] ++ [space] ++
        [.word Token.assign.spelling] ++ [space] ++ x.pieces) x.endsBefore
      fun ts us => peek us ≠ .lbrace →
        SpellsTop .varWord [.declaring name x.reread] 0 ts 0 us := by
  -- Keyword and name, the equals sign, and the expression, each followed by what may follow it.
  have hvar : Prints ([.word Keyword.varWord.spelling] ++ [space] ++ [.word name]) (fun c => !isNamePart c)
      fun ts us => ∃ k n : Lexeme, k.token = .keyword .varWord ∧ n.token = .name ∧ n.literal = name ∧
        ts = k :: n :: us := by
    refine (Prints.keyword .varWord).spaced (by decide) (Prints.name hname) ?_
    rintro ts ms us ⟨k, hk, rfl⟩ ⟨n, hn, hliteral, rfl⟩
    exact ⟨k, n, hk, hn, hliteral, rfl⟩
  have hassign : Prints ([.word Keyword.varWord.spelling] ++ [space] ++ [.word name] ++ [space] ++
      [.word Token.assign.spelling]) (fun c => !Token.assign.joins c)
      fun ts us => ∃ k n e : Lexeme, k.token = .keyword .varWord ∧ n.token = .name ∧ n.literal = name ∧
        e.token = .assign ∧ ts = k :: n :: e :: us := by
    refine hvar.spaced (by decide) (Prints.mark .assign rfl) ?_
    rintro ts ms us ⟨k, n, hk, hn, hliteral, rfl⟩ ⟨e, he, rfl⟩
    exact ⟨k, n, e, hk, hn, hliteral, he, rfl⟩
  refine hassign.spaced (by decide) hx.isRead ?_
  rintro ts ms us ⟨k, n, e, hk, hn, hliteral, he, rfl⟩ hms hus
  have hspec := SpellsSpec.value default hn he ((hms hus).whole hx)
  rw [hliteral] at hspec
  exact .group hk (.inr (.inr rfl)) (.single (.mk default hspec rfl))

/-- The pieces print a file, if nothing is behind them but perhaps a separator. -/
theorem IsPrintable.prints_file (hmodule : isIdentifier moduleName) (hname : isIdentifier name)
    (hx : x.IsPrintable) : Prints (piecesOfFile moduleName name x) x.endsBefore
      fun ts us => (us = [] ∨ ∃ l : Lexeme, l.token = .semi ∧ us = [l]) →
        SpellsFile ⟨default, ⟨default, moduleName⟩, [.declaring name x.reread]⟩ ts := by
  -- Header, semicolon and declaration are printed one behind the other, each followed by what may follow it.
  have hheader : Prints ([.word Keyword.moduleWord.spelling] ++ [space] ++ [.word moduleName])
      (fun c => !isNamePart c) fun ts us => ∃ k n : Lexeme, k.token = .keyword .moduleWord ∧
        n.token = .name ∧ n.literal = moduleName ∧ ts = k :: n :: us := by
    refine (Prints.keyword .moduleWord).spaced (by decide) (Prints.name hmodule) ?_
    rintro ts ms us ⟨k, hk, rfl⟩ ⟨n, hn, hliteral, rfl⟩
    exact ⟨k, n, hk, hn, hliteral, rfl⟩
  have hended : Prints ([.word Keyword.moduleWord.spelling] ++ [space] ++ [.word moduleName] ++ [.word ";"])
      (fun _ => true) fun ts us => ∃ k n l : Lexeme, k.token = .keyword .moduleWord ∧ n.token = .name ∧
        n.literal = moduleName ∧ l.token = .semi ∧ ts = k :: n :: l :: us := by
    refine hheader.before ';' (by decide) Prints.semicolon rfl ?_
    rintro ts ms us ⟨k, n, hk, hn, hliteral, rfl⟩ ⟨l, hl, rfl⟩
    exact ⟨k, n, l, hk, hn, hliteral, hl, rfl⟩
  refine hended.spaced rfl (hx.prints_variable hname) ?_
  rintro ts ms us ⟨k, n, l, hk, hn, hliteral, hl, rfl⟩ hms hus
  have honly : Keyword.varWord = .importWord → true = true := fun _ => rfl
  have hdecls : SpellsDecls true [.declaring name x.reread] 0 ms 0 := by
    -- The semicolon behind the declaration is inserted at the end of the text, or it is not there.
    rcases hus with rfl | ⟨s, hs, rfl⟩
    · exact .last (hms Token.noConfusion) honly
    · exact .cons (hms (by rw [peek_cons, hs]; exact Token.noConfusion)) hs honly .nil
  have hfile := SpellsFile.mk default default hk hn hl hdecls
  rwa [hliteral] at hfile

end Expr

/-- What is a declaration of a variable with a value but for positions is one. -/
theorem Decl.exists_of_unplaced {ds : List Decl} {name : String} {x : Expr}
    (h : Decl.unplacedEach ds = Decl.unplacedEach [.declaring name x]) : ∃ d ident value, ds = [d] ∧
      d.spec = .varSpec ident none (some value) ∧ ident.text = name ∧ value.unplaced = x.unplaced := by
  rw [Decl.unplacedEach_eq_map, Decl.unplacedEach_eq_map, List.map_singleton, List.map_eq_singleton_iff] at h
  obtain ⟨⟨pos, group?, spec⟩, rfl, hd⟩ := h
  have hspec : spec.unplaced = .varSpec ⟨default, name⟩ none (some x.unplaced) := (Decl.mk.inj hd).2.2
  cases spec with
  | varSpec ident type? value? =>
    obtain ⟨hident, htype, hvalue⟩ := Spec.varSpec.inj hspec
    rw [Option.map_eq_none_iff] at htype
    obtain ⟨value, rfl, hunplaced⟩ := Option.map_eq_some_iff.mp hvalue
    exact ⟨_, ident, value, rfl, htype ▸ rfl, congrArg Ident.text hident, hunplaced⟩
  | _ => cases hspec

/-- Without the end of the input, what is left of the end of the lexemes is a separator at most. -/
theorem AreEnd.dropLast {es : List Lexeme} (h : AreEnd es) (ts : List Lexeme) :
    ∃ us, (ts ++ es).dropLast = ts ++ us ∧ (us = [] ∨ ∃ l : Lexeme, l.token = .semi ∧ us = [l]) := by
  obtain ⟨e, -, rfl | ⟨l, hl, rfl⟩⟩ := h
  · exact ⟨[], by rw [List.dropLast_concat, List.append_nil], .inl rfl⟩
  · refine ⟨[l], ?_, .inr ⟨l, hl, rfl⟩⟩
    rw [← List.singleton_append, ← List.append_assoc, List.dropLast_concat]

/-- **Printed expressions read back as themselves.** Whatever printable expression it is, its text as the
value of a variable is read without a word, as the value of just that variable, and but for positions and
parentheses this value is the expression with every comparison `a < b` turned into `b > a`. -/
theorem declared_read_back {moduleName name : String} (hmodule : isIdentifier moduleName)
    (hname : isIdentifier name) {x : Expr} (hx : x.IsPrintable) (filename : String) :
    ∃ f d ident value,
      parseTolerantly filename ("module " ++ moduleName ++ "; var " ++ name ++ " = " ++ x.text) =
        (.ok f, []) ∧
      f.decls = [d] ∧ d.spec = .varSpec ident none (some value) ∧ ident.text = name ∧
      value.unplaced.unparenthesized = x.mirrored.unplaced.unparenthesized := by
  have hchars : ("module " ++ moduleName ++ "; var " ++ name ++ " = " ++ x.text).toList =
      chars (x.piecesOfFile moduleName name) := by
    simp only [Expr.piecesOfFile, String.toList_append, Expr.text, toList_render, chars_append, chars_singleton,
      List.append_assoc]
    rfl
  generalize "module " ++ moduleName ++ "; var " ++ name ++ " = " ++ x.text = text at hchars
  -- The text is a row of words, and words are scanned into the lexemes that they spell.
  obtain ⟨hclean, ws, hrow, hspells⟩ := hx.prints_file hmodule hname
  rw [← hchars] at hclean hrow
  obtain ⟨ts, es, hlexemes, hwritten, hend, hnone⟩ := Reader.exists_lexemes_row (hrow none rfl) hclean
  obtain ⟨us, hus, hleft⟩ := hend.dropLast ts
  have hcalm : (Reader.ofBytes text.toUTF8).Calm :=
    Reader.calm_of_reports_eq_nil (List.flatMap_eq_nil_iff.mpr hnone)
  have hat := hcalm.at_start (.file filename) true false
  have hts : (Reader.ofBytes text.toUTF8).lexemes = ts ++ us := by rw [Reader.lexemes, hlexemes, hus]
  rw [hts] at hat
  -- Those lexemes spell the file, which the parser therefore returns up to positions.
  obtain ⟨f, hok, hunplaced, hsaid⟩ := hat.parses (Parser.lasting_tolerant true |>.next rfl)
    (Parser.logsFirst_start _ _ _) (hspells ts us hwritten hleft)
  obtain ⟨d, ident, value, hdecls, hspec, hident, hvalue⟩ :=
    Decl.exists_of_unplaced (congrArg File.decls hunplaced)
  refine ⟨f, d, ident, value, Prod.ext hok hsaid, hdecls, hspec, hident, ?_⟩
  rw [hvalue]
  exact x.bare_reread

/-- A negation twice over of a comparison, in parentheses that are not in the tree: signs that would grow
together, and a number whose mark keeps it from taking a point. -/
theorem declared_read_back_signs :
    let x : Expr := .selector default (.unary default .sub (.unary default .sub (.binary default .less
      (.name ⟨default, "a"⟩) (.selector default (.literal ⟨default, "0x1F", .int, false⟩) ⟨default, "b"⟩))))
      ⟨default, "c"⟩
    x.IsPrintable ∧ x.text = "(- -(a < 0x1F.b)).c" ∧ ∃ f d ident value,
      parseTolerantly "f" ("module " ++ "m" ++ "; var " ++ "v" ++ " = " ++ x.text) = (.ok f, []) ∧
      f.decls = [d] ∧ d.spec = .varSpec ident none (some value) ∧ ident.text = "v" ∧
      value.unplaced.unparenthesized = x.mirrored.unplaced.unparenthesized := by
  intro x
  -- Two signs in a row keep a space between them, and the literal before the dot is not decimal.
  have hint : IsInt "0x1F".toList := by
    have hchars : "0x1F".toList = '0' :: 'x' :: ['1', 'F'] := by decide
    rw [hchars]
    exact .marked (show Radix.ofLetter? 'x' = some .hexadecimal by decide) (by decide)
  have hnumber : Expr.IsPrintable (.literal ⟨default, "0x1F", .int, false⟩) :=
    .literal ⟨hint, by decide, rfl⟩
  have hless : Expr.IsPrintable (.binary default .less (.name ⟨default, "a"⟩)
      (.selector default (.literal ⟨default, "0x1F", .int, false⟩) ⟨default, "b"⟩)) :=
    .binary (by decide) (.name (by decide)) (.selector hnumber (by decide) (by decide))
  have hx : x.IsPrintable := .selector (.unary rfl (.unary rfl hless)) rfl (by decide)
  have hv : isIdentifier "v" := by decide
  exact ⟨hx, by decide +kernel, declared_read_back (by decide) hv hx "f"⟩

end FrontEnd

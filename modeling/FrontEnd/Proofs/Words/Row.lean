import FrontEnd.Proofs.Words.Spelled
import Mathlib.Data.List.Forall2

/-!
# Words side by side

Words need no blank between them where the first does not go on with what the second starts with. A text of
words in a row, with blanks where they are needed and perhaps elsewhere, is divided into these words again
(`Reader.exists_lexemes_row`), and nothing is reported about it: a row has no comments.
-/

namespace FrontEnd

/-- The characters are the words in a row, with blanks between them wherever a word would go on with what
comes behind it. `next?` is what comes behind them all. -/
inductive Row (next? : Option Char) : List Char → List Word → Prop
  | nil : Row next? [] []
  | blank {c : Char} {cs : List Char} {ws : List Word} : c ∈ CharStream.gapBlanks → Row next? cs ws →
      Row next? (c :: cs) ws
  | word {w : Word} {cs : List Char} {ws : List Word} : (cs.head?.or next?).any w.joins = false →
      Row next? cs ws → Row next? (w.chars ++ cs) (w :: ws)

/-- The lexemes are the words. -/
def Written (ws : List Word) (ts : List Lexeme) : Prop :=
  List.Forall₂ (fun w l => ∃ l', l = Word.complete l' w) ws ts

/-- The lexemes are the end of the input, perhaps with a separator before it. -/
def AreEnd (es : List Lexeme) : Prop :=
  ∃ e, e.token = .eof ∧ (es = [e] ∨ ∃ l, l.token = .semi ∧ es = [l, e])

/-- One row behind another, which is what comes behind the first. -/
theorem Row.append {next? : Option Char} {cs ds : List Char} {ws vs : List Word}
    (h : Row (ds.head?.or next?) cs ws) (h' : Row next? ds vs) : Row next? (cs ++ ds) (ws ++ vs) := by
  induction h with
  | nil => exact h'
  | blank hc _ ih => exact .blank hc ih
  | word hw _ ih =>
    rw [List.append_assoc]
    refine .word ?_ ih
    rwa [List.head?_append, Option.or_assoc]

/-- A word by itself. -/
theorem Row.single {next? : Option Char} (w : Word) (h : next?.any w.joins = false) :
    Row next? w.chars [w] := by
  rw [← List.append_nil w.chars]
  exact .word h .nil

/-- There is a character to each word at least. -/
theorem Row.length_le {next? : Option Char} {cs : List Char} {ws : List Word} (h : Row next? cs ws) :
    ws.length ≤ cs.length := by
  induction h with
  | nil => exact Nat.le_refl _
  | blank _ _ ih => exact Nat.le_succ_of_le ih
  | @word w _ _ _ _ ih =>
    obtain ⟨c, cs, hchars, -⟩ := w.exists_chars
    simp only [hchars, List.length_append, List.length_cons]
    omega

namespace Scanner

open CharStream

variable {x y : Scanner Cursor} {taken cs rest : List Char} {c : Char} {ws : List Word}

/-- Scanners that find the same next find the same from there on. -/
theorem scanUpTo_congr (h : x.next = y.next) (n : Nat) : x.scanUpTo n = y.scanUpTo n := by
  cases n with
  | zero => rfl
  | succ n => rw [scanUpTo, scanUpTo, h]

/-- A blank before what comes next is passed over. -/
theorem scanUpTo_blank (h : x.stream.Before taken (c :: rest)) (hc : c ∈ gapBlanks) (n : Nat) :
    x.scanUpTo n = scanUpTo n { x with stream := x.stream.clearMark.advance } := by
  refine scanUpTo_congr ?_ n
  exact find_blank x.lexeme.endsStatement x.lexeme.cleared h hc

/-- A word is found, and nothing told of on the way. -/
theorem scanUpTo_cons (w : Word) (h : x.stream.Before taken (w.chars ++ rest))
    (hquiet : x.stream.reports = #[]) (hnext : rest.head?.any w.joins = false) (n : Nat) :
    ∃ scan y, x.scanUpTo (n + 1) = scan :: scanUpTo n y ∧ (∃ l', scan.lexeme = w.complete l') ∧
      scan.reports = [] ∧ y.stream.Before (taken ++ w.chars) rest ∧ y.stream.reports = #[] := by
  obtain ⟨l', hlexeme, hstream, hreports⟩ := find_word x.lexeme.endsStatement x.lexeme.cleared w h hnext
  have hne : x.next.lexeme.token ≠ .eof := by
    have htoken : x.next.lexeme.token = w.token := (congrArg Lexeme.token hlexeme).trans (w.token_complete l')
    rw [htoken]
    exact w.token_ne_eof
  refine ⟨_, _, scanUpTo_of_ne n hne, ⟨l', hlexeme⟩, ?_, hstream.dropReports, rfl⟩
  exact congrArg Array.toList (hreports.trans hquiet)

/-- At the end there is the end, perhaps with a separator before it, and nothing is told of. -/
theorem scanUpTo_nil (h : x.stream.Before taken []) (hquiet : x.stream.reports = #[]) (n : Nat) :
    AreEnd ((x.scanUpTo (n + 2)).map Scan.lexeme) ∧ ∀ scan ∈ x.scanUpTo (n + 2), scan.reports = [] := by
  -- A call at the end, made once or twice: the semicolon comes before the end if the last token asks for it.
  have hnext {y : Scanner Cursor} (hy : y.stream.Before taken []) (hquiet : y.stream.reports = #[]) :
      y.next.lexeme.token = (if y.lexeme.endsStatement then .semi else .eof) ∧
        y.next.stream.Before taken [] ∧ y.next.reports = [] := by
    obtain ⟨l', hlexeme, hstream, hreports⟩ := find_end y.lexeme.endsStatement y.lexeme.cleared hy
    refine ⟨(congrArg Lexeme.token hlexeme).trans ?_, hstream, congrArg Array.toList (hreports.trans hquiet)⟩
    cases y.lexeme.endsStatement <;> rfl
  obtain ⟨htoken, hstream, hnone⟩ := hnext h hquiet
  cases hends : x.lexeme.endsStatement with
  | false =>
    rw [hends] at htoken
    rw [scanUpTo_of_eof _ htoken]
    exact ⟨⟨_, htoken, .inl rfl⟩, by simpa using hnone⟩
  | true =>
    rw [hends] at htoken
    have hquiet' : x.next.dropReports.stream.reports = #[] := rfl
    obtain ⟨htoken', -, hnone'⟩ := hnext hstream.dropReports hquiet'
    have hsep : x.next.dropReports.lexeme.endsStatement = false := by
      change x.next.lexeme.endsStatement = false
      rw [x.endsStatement_next, htoken]
      rfl
    rw [hsep] at htoken'
    rw [scanUpTo_of_ne _ (by rw [htoken]; exact Token.noConfusion), scanUpTo_of_eof _ htoken']
    exact ⟨⟨_, htoken', .inr ⟨_, htoken, rfl⟩⟩, by simpa using ⟨hnone, hnone'⟩⟩

/-- A scanner before a row finds its words, and then the end. -/
theorem scanUpTo_row (h : Row none cs ws) (hx : x.stream.Before taken cs) (hquiet : x.stream.reports = #[])
    (n : Nat) : ∃ ts es, (x.scanUpTo (n + 2 + ws.length)).map Scan.lexeme = ts ++ es ∧ Written ws ts ∧
      AreEnd es ∧ ∀ scan ∈ x.scanUpTo (n + 2 + ws.length), scan.reports = [] := by
  induction h generalizing x taken with
  | nil =>
    obtain ⟨hend, hnone⟩ := scanUpTo_nil hx hquiet n
    exact ⟨[], _, rfl, .nil, hend, hnone⟩
  | blank hc _ ih =>
    rw [scanUpTo_blank hx hc]
    refine ih (x := { x with stream := x.stream.clearMark.advance }) hx.clearMark.advance.1 ?_
    exact hx.clearMark.reports_advance.trans hquiet
  | @word w cs ws hw _ ih =>
    rw [Option.or_none] at hw
    obtain ⟨scan, y, hscans, ⟨l', hl⟩, hnone, hy, hquiet⟩ := scanUpTo_cons w hx hquiet hw (n + 2 + ws.length)
    obtain ⟨ts, es, hts, hwritten, hend, hnones⟩ := ih hy hquiet
    rw [List.length_cons, ← Nat.add_assoc, hscans]
    refine ⟨scan.lexeme :: ts, es, ?_, .cons ⟨l', hl⟩ hwritten, hend, ?_⟩
    · rw [List.map_cons, hts, List.cons_append]
    · exact List.forall_mem_cons.mpr ⟨hnone, hnones⟩

end Scanner

/-- At the start of clean text, nothing has been told. -/
theorem CharStream.before_ofBytes {cs : List Char} (hclean : IsClean cs) :
    (ofWindow (Cursor.ofBytes cs.utf8Encode)).Before [] cs ∧
      (ofWindow (Cursor.ofBytes cs.utf8Encode)).reports = #[] := by
  refine ⟨before_seek rfl rfl hclean fun _ => Array.not_mem_empty _, ?_⟩
  have hbytes : cs.utf8Encode = ([] ++ cs).utf8Encode := rfl
  unfold ofWindow
  rw [seek_eq hbytes rfl hclean]
  rfl

/-- A text of words in a row has the lexemes that the words are, and nothing is told about it. -/
theorem Reader.exists_lexemes_row {text : String} {ws : List Word} (h : Row none text.toList ws)
    (hclean : IsClean text.toList) : ∃ ts es,
      (Reader.ofBytes text.toUTF8).scans.map Scan.lexeme = ts ++ es ∧ Written ws ts ∧ AreEnd es ∧
        ∀ scan ∈ (Reader.ofBytes text.toUTF8).scans, scan.reports = [] := by
  have hscans : (Reader.ofBytes text.toUTF8).scans = (Scanner.ofWindow (Cursor.ofBytes text.toUTF8)).scans :=
    Reader.scans_eq (Utf8.nulsBreakOff_of_not_mem fun hnul => (hclean _ hnul).1 rfl)
      (Reader.delivers_ofBytes _).hands
  have hbytes : text.toUTF8 = text.toList.utf8Encode := String.utf8Encode_toList.symm
  rw [hscans, hbytes]
  obtain ⟨hbefore, hquiet⟩ := CharStream.before_ofBytes hclean
  change (Scanner.ofWindow (Cursor.ofBytes text.toList.utf8Encode)).stream.Before _ _ at hbefore
  change (Scanner.ofWindow (Cursor.ofBytes text.toList.utf8Encode)).stream.reports = _ at hquiet
  generalize Scanner.ofWindow (Cursor.ofBytes text.toList.utf8Encode) = x at hbefore hquiet
  have hlength := Nat.le_trans h.length_le hbefore.length_le_remaining
  have hrow := Scanner.scanUpTo_row h hbefore hquiet (x.stream.remaining - ws.length)
  rwa [show x.stream.remaining - ws.length + 2 + ws.length = x.stream.remaining + 2 by omega] at hrow

end FrontEnd

import FrontEnd.Command
import FrontEnd.Proofs.Tracing
import FrontEnd.Proofs.Whole.Heard
import FrontEnd.Proofs.Whole.Scans

/-!
# What the commands report

A file is clean if it opens and a tolerant parser yields a tree of what it hands out without saying
anything (`InputFile.Yields`). The commands `check` and `fmt` succeed on exactly the clean files, and `fmt`
writes exactly their trees. What is written of a file does not depend on the others: a command's outcome on
a list of files is put together from its outcomes on the parts of the list (`Command.run_append`).

The command `tokens` succeeds on the files that are texts without a lexical error, which all clean files are:
a parser that accepts a file has read it to its end and has heard all that is wrong with it.
-/

namespace FrontEnd

/-! ## Clean files -/

/-- The reader that a file is once it is open, if it opens. -/
def FileContent.reader? : FileContent → Option Reader
  | .unopened _ => none
  | .unreadable reason => some (.broken reason)
  | .bytes content => some (.ofBytes content)

namespace InputFile

/-- The parser of what a file's reader hands out, one that goes on after errors and does not trace. -/
def parserOf (file : InputFile) (r : Reader) : Parser :=
  .start (.file file.name) r.scans true false

/-- The file opens, and the parser yields `tree` and says nothing. -/
def Yields (file : InputFile) (tree : File) : Prop :=
  ∃ r, file.content.reader? = some r ∧
    (file.parserOf r).parseFile.1 = .ok tree ∧ (file.parserOf r).parseFile.2.diagnostics = []

/-- The file is free of errors. -/
def IsClean (file : InputFile) : Prop := ∃ tree, file.Yields tree

/-- The tree of a clean file. -/
def tree? (file : InputFile) : Option File :=
  match file.content.reader? with
  | none => none
  | some r =>
    match (file.parserOf r).parseFile with
    | (.ok tree, p) => if p.diagnostics = [] then some tree else none
    | (.error _, _) => none

variable {file : InputFile}

/-- The tree of a file is the one that its parser yields. -/
theorem tree?_eq_some_iff {tree : File} : file.tree? = some tree ↔ file.Yields tree := by
  unfold tree? Yields
  cases file.content.reader? with
  | none => simp
  | some r =>
    simp only [Option.some.injEq, exists_eq_left']
    generalize (file.parserOf r).parseFile = outcome
    obtain ⟨_ | tree', p⟩ := outcome
    · simp
    · by_cases hp : p.diagnostics = []
      · simp [hp]
      · simp [hp]

/-- A file is clean exactly if it has a tree. -/
theorem isClean_iff : file.IsClean ↔ file.tree?.isSome := by
  rw [Option.isSome_iff_exists]
  exact exists_congr fun _ => tree?_eq_some_iff.symm

/-- The file is a text without a lexical error. -/
def IsLexed (file : InputFile) : Prop :=
  ∃ text : String, file.content = .bytes text.toUTF8 ∧ (tokenize text).2 = []

/-- A clean file is a text without a lexical error. -/
theorem IsClean.isLexed (h : file.IsClean) : file.IsLexed := by
  obtain ⟨tree, r, hr, htree, hsaid⟩ := h
  have hcalm : r.Calm := Parser.calm_of_accepts ⟨⟨tree, htree⟩, hsaid⟩
  have hnone : ∀ scan ∈ r.scans, ∀ e, .error e ∉ scan.reports :=
    fun scan hscan e he => hcalm scan hscan _ he
  obtain ⟨text, hands, -⟩ := r.exists_text hnone
  cases hc : file.content with
  | unopened reason =>
    rw [hc] at hr
    cases hr
  | unreadable reason =>
    -- A reader that only fails does not come to the end of a text.
    rw [hc] at hr
    cases hr
    generalize text.toUTF8 = read at hands
    cases hands with
    | finished hfinished => cases hfinished
  | bytes bytes =>
    rw [hc] at hr
    cases hr
    have hbytes : text.toUTF8 = bytes := (Reader.delivers_ofBytes bytes).hands.bytes_eq hands
    refine ⟨text, hc.trans (by rw [hbytes]), ?_⟩
    unfold tokenize
    rw [hbytes]
    simp only [List.flatMap_eq_nil_iff, List.filterMap_eq_nil_iff]
    intro scan hscan report hreport
    cases report with
    | error e => exact absurd hreport (hnone scan hscan e)
    | directive place comment => rfl

end InputFile

/-! ## One outcome after another -/

namespace Outcome

/-- Without files before there is the outcome of the others. -/
@[simp] theorem nothing_andThen (o : Outcome) : nothing.andThen o = o := by
  simp [nothing, andThen]

/-- Without files behind there is the outcome of the others. -/
@[simp] theorem andThen_nothing (o : Outcome) : o.andThen nothing = o := by
  simp [nothing, andThen]

/-- Outcomes are put together in any grouping. -/
theorem andThen_assoc (a b c : Outcome) : (a.andThen b).andThen c = a.andThen (b.andThen c) := by
  simp [andThen, String.append_assoc, Bool.and_assoc]

/-- A command exits with zero exactly if all files were clean. -/
theorem exitCode_eq_zero_iff (o : Outcome) : o.exitCode = 0 ↔ o.clean = true := by
  unfold exitCode
  split <;> simp_all

end Outcome

/-! ## Commands on one file -/

namespace Command

variable (trace : Bool) (file : InputFile)

/-- Reading a file yields the tree of a clean file, traced or not. -/
theorem readFile_fst : (readFile trace file).1 = file.tree? := by
  -- Tracing is the only difference between the two parses, and it changes neither the tree nor the diagnostics.
  have hparse (r : Reader) : (readFile.parseFrom trace file r).1 =
      match (file.parserOf r).parseFile with
      | (.ok tree, p) => if p.diagnostics = [] then some tree else none
      | (.error _, _) => none := by
    have hquiet : (file.parserOf r).parseFile =
        ((Parser.start (.file file.name) r.scans true trace).parseFile.1,
          (Parser.start (.file file.name) r.scans true trace).parseFile.2.quiet) := by
      unfold InputFile.parserOf
      rw [← Parser.quiet_start _ _ _ trace, Parser.quiet_parseFile]
    rw [hquiet]
    unfold readFile.parseFrom
    generalize (Parser.start (.file file.name) r.scans true trace).parseFile = outcome
    obtain ⟨_ | tree, p⟩ := outcome
    · rfl
    · simp only [Parser.diagnostics_quiet, List.length_eq_zero_iff]
      split <;> rfl
  unfold readFile InputFile.tree?
  cases file.content with
  | bytes bytes => exact hparse _
  | unopened reason => rfl
  | unreadable reason => exact hparse _

/-- Checking succeeds on the files that have a tree. -/
theorem clean_checkFile : (checkFile trace file).clean = file.tree?.isSome := by
  have hfst := readFile_fst trace file
  unfold checkFile
  generalize readFile trace file = read at hfst
  obtain ⟨_ | tree, said⟩ := read <;> rw [← hfst] <;> rfl

/-- Formatting succeeds on the files that have a tree, and writes the text of it. -/
theorem formatFile_spec : (formatFile trace file).clean = file.tree?.isSome ∧
    (formatFile trace file).output = file.tree?.elim "" File.text := by
  have hfst := readFile_fst trace file
  unfold formatFile
  generalize readFile trace file = read at hfst
  obtain ⟨_ | tree, said⟩ := read <;> rw [← hfst] <;> exact ⟨rfl, rfl⟩

/-- Bytes are read as a text exactly if they are the bytes of it. -/
theorem fromUTF8?_eq_some_iff {bytes : ByteArray} {text : String} :
    String.fromUTF8? bytes = some text ↔ bytes = text.toUTF8 := by
  unfold String.fromUTF8?
  constructor
  · intro h
    split at h
    · cases h
      rfl
    · cases h
  · rintro rfl
    exact dif_pos text.isValidUTF8

/-- Listing the tokens succeeds on the texts without a lexical error. -/
theorem clean_listTokens : (listTokens file).clean = true ↔ file.IsLexed := by
  unfold listTokens InputFile.IsLexed
  cases file.content with
  | unopened reason => simp
  | unreadable reason => simp
  | bytes bytes =>
    simp only [FileContent.bytes.injEq, ← fromUTF8?_eq_some_iff]
    cases String.fromUTF8? bytes with
    | none => simp
    | some text => simp

end Command

/-! ## Commands on many files -/

namespace Command

variable (command : Command) (trace : Bool)

/-- A command runs on the first file and then on the others. -/
theorem run_cons (file : InputFile) (files : List InputFile) :
    command.run trace (file :: files) = (command.runFile trace file).andThen (command.run trace files) := by
  have hfold (o : Outcome) : files.foldl (fun o file => o.andThen (command.runFile trace file)) o =
      o.andThen (command.run trace files) := by
    unfold run
    induction files generalizing o with
    | nil => exact o.andThen_nothing.symm
    | cons file files ih =>
      rw [List.foldl_cons, ih, List.foldl_cons, ih (Outcome.nothing.andThen _), Outcome.nothing_andThen,
        Outcome.andThen_assoc]
  calc command.run trace (file :: files)
      = (Outcome.nothing.andThen (command.runFile trace file)).andThen (command.run trace files) :=
        hfold _
    _ = (command.runFile trace file).andThen (command.run trace files) := by
        rw [Outcome.nothing_andThen]

/-- What is done with some files does not depend on those before and after them. -/
theorem run_append (files files' : List InputFile) : command.run trace (files ++ files') =
    (command.run trace files).andThen (command.run trace files') := by
  induction files with
  | nil => exact (Outcome.nothing_andThen _).symm
  | cons file files ih => rw [List.cons_append, run_cons, run_cons, ih, Outcome.andThen_assoc]

/-- A command succeeds if it succeeds on each file. -/
theorem exitCode_run_eq_zero_iff (files : List InputFile) : (command.run trace files).exitCode = 0 ↔
    ∀ file ∈ files, (command.runFile trace file).clean = true := by
  rw [Outcome.exitCode_eq_zero_iff]
  induction files with
  | nil => exact iff_of_true rfl nofun
  | cons file files ih =>
    rw [run_cons, List.forall_mem_cons, ← ih]
    exact Bool.and_eq_true_iff

/-- A command writes what it writes of each file. -/
theorem output_run (files : List InputFile) : (command.run trace files).output =
    String.join (files.map fun file => (command.runFile trace file).output) := by
  induction files with
  | nil => rfl
  | cons file files ih =>
    rw [run_cons, List.map_cons, String.join_cons, ← ih]
    rfl

/-- The trees of the clean files are written one after another. -/
theorem output_format (files : List InputFile) :
    (Command.format.run trace files).output = String.join ((files.filterMap InputFile.tree?).map File.text) := by
  rw [output_run]
  induction files with
  | nil => rfl
  | cons file files ih =>
    have hfile : (Command.format.runFile trace file).output = file.tree?.elim "" File.text :=
      (formatFile_spec trace file).2
    rw [List.map_cons, String.join_cons, ih, hfile]
    cases h : file.tree? with
    | none => rw [List.filterMap_cons_none h, Option.elim_none, String.empty_append]
    | some tree => rw [List.filterMap_cons_some h, List.map_cons, String.join_cons, Option.elim_some]

/-- **The command line reports exactly the clean files.** For every list of files, traced or not: `check` and
`fmt` succeed if and only if all of them are clean; `fmt` writes the trees of those that are, in their order;
and every command does the same with a file whatever files are before and after it, and with those whatever
the file is. `tokens` succeeds if and only if all files are texts without lexical errors, and if it fails, so
does `check`. -/
theorem reports_clean_files (files : List InputFile) :
    ((Command.check.run trace files).exitCode = 0 ↔ ∀ file ∈ files, file.IsClean) ∧
    ((Command.format.run trace files).exitCode = 0 ↔ ∀ file ∈ files, file.IsClean) ∧
    (∀ file ∈ files, ∀ tree, file.tree? = some tree ↔ file.Yields tree) ∧
    (Command.format.run trace files).output =
      String.join ((files.filterMap InputFile.tree?).map File.text) ∧
    (∀ (command : Command) (before after : List InputFile) (file : InputFile),
      files = before ++ file :: after →
        command.run trace files = (command.run trace before).andThen
          ((command.runFile trace file).andThen (command.run trace after))) ∧
    ((Command.tokens.run trace files).exitCode = 0 ↔ ∀ file ∈ files, file.IsLexed) ∧
    ((Command.tokens.run trace files).exitCode ≠ 0 → (Command.check.run trace files).exitCode ≠ 0) := by
  -- A run is clean when each of its files is; what that says of one file differs from command to command.
  have hcheck : (Command.check.run trace files).exitCode = 0 ↔ ∀ file ∈ files, file.IsClean := by
    rw [exitCode_run_eq_zero_iff]
    refine forall₂_congr fun file _ => ?_
    change (checkFile trace file).clean = true ↔ _
    rw [clean_checkFile, InputFile.isClean_iff]
  have hformat : (Command.format.run trace files).exitCode = 0 ↔ ∀ file ∈ files, file.IsClean := by
    rw [exitCode_run_eq_zero_iff]
    refine forall₂_congr fun file _ => ?_
    change (formatFile trace file).clean = true ↔ _
    rw [(formatFile_spec trace file).1, InputFile.isClean_iff]
  have htokens : (Command.tokens.run trace files).exitCode = 0 ↔ ∀ file ∈ files, file.IsLexed := by
    rw [exitCode_run_eq_zero_iff]
    exact forall₂_congr fun file _ => clean_listTokens file
  refine ⟨hcheck, hformat, fun _ _ _ => InputFile.tree?_eq_some_iff, output_format trace files, ?_,
    htokens, ?_⟩
  · -- Files are taken one after another and none leaves anything to the next.
    rintro command before after file rfl
    rw [run_append, run_cons]
  · exact fun htold hclean => htold (htokens.mpr fun file hfile => (hcheck.mp hclean file hfile).isLexed)

/-- A file with a stray character, a directory, a file that is missing, and one that is clean. -/
theorem reports_clean_files_stray :
    let files : List InputFile := [⟨"a", .bytes "module m\nvar x = @\n".toUTF8⟩, ⟨"d", .directory⟩,
      ⟨"e", .missing⟩, ⟨"b", .bytes "module m\nvar x = (1)\n".toUTF8⟩]
    (Command.tokens.run false files).exitCode ≠ 0 ∧ (Command.check.run false files).exitCode ≠ 0 ∧
      (Command.format.run false files).output =
        String.join ((files.filterMap InputFile.tree?).map File.text) := by
  intro files
  have htokens : (Command.tokens.run false files).exitCode ≠ 0 := by decide +kernel
  obtain ⟨-, -, -, houtput, -, -, htold⟩ := reports_clean_files false files
  exact ⟨htokens, htold htokens, houtput⟩

end Command

end FrontEnd

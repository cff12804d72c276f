import FrontEnd.Proofs.Comments.Forwarded
import FrontEnd.Proofs.Directives.Displayed
import FrontEnd.Proofs.Directives.Sliced

/-!
# Directives are validated

Where everything can be decoded, every comment in the input that may be a directive is followed, or rejected,
as it deserves (`Reader.directives_validated`). What is rejected is told of where it stands in the bytes.
-/

namespace FrontEnd

namespace LineDirective

open CharStream (directiveWord)

variable {place anchor : Place} {text comment cs : List Char} {v : Verdict} {offset : Nat} {cause : Cause}

/-- What is rejected stands among the bytes at the offset from `start` on, on the same line. -/
def Verdict.PointsInto (bytes : ByteArray) (start : Nat) : Verdict → Prop
  | ignored | followed .. => True
  | rejected offset cause => ∃ text : String, (cause = .badLine text ∨ cause = .badColumn text) ∧
      bytes.extract (start + offset) (start + offset + text.utf8ByteSize) = text.toUTF8 ∧
      start + offset + text.utf8ByteSize ≤ bytes.size ∧
      Place.ofOffset bytes (start + offset) =
        ⟨(Place.ofOffset bytes start).line, (Place.ofOffset bytes start).column + offset⟩

/-- The part of a text that is rejected, with its offset. -/
def Rejects (offset : Nat) (cause : Cause) (text : List Char) : Prop :=
  ∃ front part behind, text = front ++ (part ++ behind) ∧ byteLength front = offset ∧
    (cause = .badLine (String.ofList part) ∨ cause = .badColumn (String.ofList part))

/-- What is rejected in a text is rejected in a longer one. -/
theorem Rejects.append (h : Rejects offset cause text) (front behind : List Char) :
    Rejects (byteLength front + offset) cause (front ++ (text ++ behind)) := by
  obtain ⟨front', part, behind', rfl, rfl, hcause⟩ := h
  exact ⟨front ++ front', part, behind' ++ behind, by simp, byteLength_append .., hcause⟩

/-- What stands behind a colon may be rejected. -/
theorem rejects_colon (file part behind : List Char)
    (hcause : cause = .badLine (String.ofList part) ∨ cause = .badColumn (String.ofList part)) :
    Rejects (byteLength file + 1) cause (file ++ ':' :: part ++ behind) :=
  ⟨file ++ [':'], part, behind, by simp, byteLength_concat_colon file, hcause⟩

/-- What is rejected in the last part stands behind the colon. -/
theorem rejects_last (file part : List Char)
    (hcause : cause = .badLine (String.ofList part) ∨ cause = .badColumn (String.ofList part)) :
    Rejects (byteLength file + 1) cause (file ++ ':' :: part) := by
  have h := rejects_colon file part [] hcause
  rwa [List.append_nil] at h

/-- What is rejected is a part of the text. -/
theorem Reads.rejects (h : Reads text (.rejected offset cause)) : Rejects offset cause text := by
  cases h with
  | noNumber | badLine => exact rejects_last _ _ (.inl rfl)
  | badColumn => exact rejects_last _ _ (.inr rfl)
  | badLineBefore => exact rejects_colon _ _ _ (.inl rfl)

/-- What is rejected is a part of the comment, which stands on one line if it is a block. -/
theorem Deserves.rejects (h : Deserves place comment (.rejected offset cause)) :
    Rejects offset cause comment ∧ (∀ cs, comment = '/' :: '*' :: cs → '\n' ∉ cs) := by
  generalize hv : Verdict.rejected offset cause = v at h
  cases h with
  | offLine | spread => cases hv
  | @read _ anchor text reading happlies hreads =>
    cases reading with
    | unrelated | accepted => cases hv
    | rejected offset' cause' =>
      cases hv
      have hrejects := hreads.rejects
      -- What is rejected in the text behind the word is rejected in the comment, since its markers only add to
      -- both ends.
      cases happlies with
      | line =>
        refine ⟨?_, nofun⟩
        have hall := hrejects.append ('/' :: '/' :: directiveWord) []
        rwa [List.append_nil] at hall
      | lineReturn => exact ⟨hrejects.append ('/' :: '/' :: directiveWord) _, nofun⟩
      | block hline =>
        refine ⟨hrejects.append ('/' :: '*' :: directiveWord) _, fun cs hcs => ?_⟩
        cases hcs
        exact List.not_mem_append (by decide) (List.not_mem_append hline (by decide))

end LineDirective

open LineDirective (Verdict Deserves byteLength_eq_sum deserves_iff verdict verdict? verdict?_block
  verdict?_line)

variable {r : Reader} {bytes : ByteArray} {p : Crossing} {place : Place}

/-- What is rejected in a crossing stands where it is told of. -/
theorem Crossing.pointsInto {v : Verdict} {next? : Option Char}
    (h : Decodes r bytes p.start (p.passage.chars.map .char) p.stop) (hmay : p.passage.mayDirect)
    (hfits : p.passage.Fits next?) (hv : Deserves place p.passage.chars v) : v.PointsInto bytes p.start := by
  cases v with
  | ignored | followed => exact trivial
  | rejected offset cause =>
    obtain ⟨⟨front, part, behind, hchars, rfl, hcause⟩, hblock⟩ := hv.rejects
    -- A line comment never goes over a newline, and nothing is rejected in a block that does.
    have hline : '\n' ∉ p.passage.chars := by
      cases hp : p.passage with
      | blank | stray | openComment =>
        rw [hp] at hmay
        cases hmay
      | lineComment =>
        rw [hp] at hfits
        simpa [Passage.chars] using hfits.1
      | blockComment =>
        have hinline := hblock _ (congrArg Passage.chars hp)
        simpa [Passage.chars] using hinline
    rw [hchars, List.map_append, List.map_append] at h
    rw [hchars] at hline
    obtain ⟨k, hfront, hrest⟩ := h.exists_mid
    obtain ⟨l, hpart, -⟩ := hrest.exists_mid
    have hk := hfront.end_of_map_char
    have hl := hpart.end_of_map_char
    rw [← byteLength_eq_sum] at hk
    rw [← utf8ByteSize_eq_sum] at hl
    have hsize := hpart.le_size
    subst hl hk
    refine ⟨String.ofList part, hcause, hpart.extract_eq, hsize, ?_⟩
    refine Place.ofOffset_of_sameLine ?_ hfront.le_size
    exact hfront.sameLine fun hmem => hline (List.mem_append_left _ (Crossing.mem_of_mem_heard hmem))

/-- A comment that may be a directive is told of. -/
theorem Forwards.exists_place {exact : Prop} {ps : List Crossing} {reports : List Report}
    (h : Forwards bytes exact ps reports) (hp : p ∈ ps) (hmay : p.passage.mayDirect) :
    ∃ place, .directive place (commentAt bytes (p.start, p.stop)) ∈ reports ∧
      (exact → place = .ofOffset bytes p.start) := by
  have hspan : (p.start, p.stop) ∈ ps.filterMap Crossing.span? :=
    List.mem_filterMap.mpr ⟨p, hp, if_pos hmay⟩
  obtain ⟨i, hi⟩ := List.getElem?_of_mem hspan
  have htext := congrArg (·[i]?) h.texts_eq
  rw [List.getElem?_map, List.getElem?_map, hi, Option.map_some, Option.map_eq_some_iff] at htext
  obtain ⟨⟨place, text⟩, htold, rfl⟩ := htext
  obtain ⟨report, hreport, hcomment⟩ := List.mem_filterMap.mp (List.mem_of_getElem? htold)
  cases report with
  | error => cases hcomment
  | directive =>
    cases hcomment
    refine ⟨place, hreport, fun he => ?_⟩
    have hplace := congrArg (·[i]?) (h.places_eq he)
    rw [List.getElem?_map, List.getElem?_map, hi, htold] at hplace
    exact Option.some.inj hplace

/-- A comment that may be a directive gets its verdict. -/
theorem Passage.verdict?_chars {p : Passage} (h : p.mayDirect) (place : Place) :
    verdict? place p.chars = some (verdict place (String.ofList p.chars)) := by
  cases p with
  | blank | stray | openComment => cases h
  | lineComment => exact verdict?_line ..
  | blockComment => exact verdict?_block ..

namespace Reader

/-- Where everything can be decoded, every comment that may be a directive is told of and deserves one verdict,
which every parser with a handler takes. No slice of the comment fails, and what is rejected stands where it is
told of. The place of the comment is right, unless a newline has stood behind two dots before. -/
theorem directives_validated (hr : r.Hands bytes none) (hclean : undecodable bytes = []) {n : Nat}
    {scan : Scan} (hn : r.scans[n]? = some scan) :
    ∃ ps, (r.before n).Crosses r bytes ps ∧ ∀ p ∈ ps, p.passage.mayDirect →
      ∃ place v, .directive place (String.ofList p.passage.chars) ∈ scan.reports ∧
        ((r.before 0).Unshifted n → place = .ofOffset bytes p.start) ∧
        (∀ v', Deserves place p.passage.chars v' ↔ v' = v) ∧
        verdict? place p.passage.chars = some v ∧ v.PointsInto bytes p.start ∧
        ∀ q : Parser, q.tolerant = true →
          v.Takes place q (q.hear (.directive place (String.ofList p.passage.chars))) := by
  obtain ⟨ps, hcrosses, hforwards⟩ := exists_forwards hr hn
  refine ⟨ps, hcrosses, fun p hp hmay => ?_⟩
  obtain ⟨-, htext, -⟩ := delimited_of_crosses hclean hcrosses hp
  obtain ⟨j, hcrossings, hgap, -⟩ := hcrosses
  obtain ⟨hdecodes, -⟩ := hcrossings.decodes_chars hclean hp
  obtain ⟨place, hreport, hplace⟩ := hforwards.exists_place hp hmay
  rw [htext] at hreport
  refine ⟨place, verdict place (String.ofList p.passage.chars), hreport, hplace,
    fun v' => deserves_iff hmay place, p.passage.verdict?_chars hmay place, ?_, fun q ht => q.takes_hear ht _ _⟩
  exact Crossing.pointsInto hdecodes hmay (hcrossings.fits_of_mem hgap hp) ((deserves_iff hmay place).mpr rfl)

/-- A directive with a file name of two bytes, and a column that is none. -/
theorem directives_validated_column :
    let comment := "//line é:7:0"
    let bytes := comment.toUTF8
    let r := ofBytes bytes
    r.Hands bytes none ∧ undecodable bytes = [] ∧ (r.before 0).Unshifted 0 ∧
      verdict? ⟨1, 1⟩ comment.toList = some (.rejected 12 (.badColumn "0")) ∧
      ∃ scan, r.scans[0]? = some scan ∧ scan.reports = [.directive ⟨1, 1⟩ comment] ∧
        ∃ ps, (r.before 0).Crosses r bytes ps ∧ ∀ p ∈ ps, p.passage.mayDirect →
          ∃ place v, .directive place (String.ofList p.passage.chars) ∈ scan.reports ∧
            ((r.before 0).Unshifted 0 → place = .ofOffset bytes p.start) ∧
            (∀ v', Deserves place p.passage.chars v' ↔ v' = v) ∧
            verdict? place p.passage.chars = some v ∧ v.PointsInto bytes p.start ∧
            ∀ q : Parser, q.tolerant = true →
              v.Takes place q (q.hear (.directive place (String.ofList p.passage.chars))) := by
  intro comment bytes r
  have hr : r.Hands bytes none := (delivers_ofBytes bytes).hands
  have hclean : undecodable bytes = [] := by decide +kernel
  -- The only scan with a report is the first one.
  obtain ⟨scan, hscan, hreports⟩ : ∃ scan, r.scans[0]? = some scan ∧
      scan.reports = [.directive ⟨1, 1⟩ comment] := by decide +kernel
  exact ⟨hr, hclean, nofun, by decide +kernel, scan, hscan, hreports, directives_validated hr hclean hscan⟩

end Reader

end FrontEnd

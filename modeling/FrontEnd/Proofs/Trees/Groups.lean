import FrontEnd.Tree

/-!
# Groups that stay together

`Clustered` says of declarations in the order of the source that the groups among them have ascending
numbers, and that each of them is there in one piece. Lists of such declarations with ascending numbers
can be joined, and between two members of a group there are only its members
(`Clustered.together`).
-/

namespace FrontEnd

/-- Declarations whose groups are in one piece each, with ascending numbers from `lo` on that are less
than `hi`. -/
inductive Clustered : Nat → List Decl → Nat → Prop
  | nil {lo hi} : lo ≤ hi → Clustered lo [] hi
  | alone {lo d ds hi} : d.group? = none → Clustered lo ds hi → Clustered lo (d :: ds) hi
  | group {lo mid hi} (g : Group) {ms ds} : (∀ d ∈ ms, d.group? = some g) → lo ≤ g.id → g.id < mid →
      Clustered mid ds hi → Clustered lo (ms ++ ds) hi

namespace Clustered

variable {lo mid hi : Nat} {ds es : List Decl}

/-- Groups may be counted from an earlier number. -/
theorem weaken_left (h : Clustered mid ds hi) (hle : lo ≤ mid) : Clustered lo ds hi := by
  induction h with
  | nil h => exact .nil (Nat.le_trans hle h)
  | alone hd _ ih => exact .alone hd (ih hle)
  | group g hms hlo hmid h _ => exact .group g hms (Nat.le_trans hle hlo) hmid h

/-- Declarations whose groups have further numbers. -/
theorem append (h : Clustered lo ds mid) (h' : Clustered mid es hi) : Clustered lo (ds ++ es) hi := by
  induction h with
  | nil hle => exact h'.weaken_left hle
  | alone hd _ ih => exact .alone hd (ih h')
  | group g hms hlo hmid _ ih =>
    rw [List.append_assoc]
    exact .group g hms hlo hmid (ih h')

/-- The groups have numbers from the first on. -/
theorem le_id (h : Clustered lo ds hi) {d : Decl} {g : Group} (hd : d ∈ ds) (hg : d.group? = some g) :
    lo ≤ g.id := by
  induction h with
  | nil => cases hd
  | alone hnone _ ih =>
    rcases List.mem_cons.mp hd with rfl | hd
    · rw [hnone] at hg
      cases hg
    · exact ih hd
  | group g' hms hlo hmid _ ih =>
    rcases List.mem_append.mp hd with hd | hd
    · rw [hms d hd] at hg
      cases hg
      exact hlo
    · have := ih hd
      omega

/-- Two members of a group that come one after the other have nothing but its members between them, and
groups of one number are the same. -/
theorem together (h : Clustered lo ds hi) {a b : Decl} {between : List Decl} {g g' : Group}
    (hsub : (a :: (between ++ [b])).Sublist ds) (ha : a.group? = some g) (hb : b.group? = some g')
    (hid : g.id = g'.id) : g = g' ∧ ∀ d ∈ between, d.group? = some g := by
  induction h with
  | nil => cases hsub
  | alone hnone _ ih =>
    cases hsub with
    | cons _ hsub => exact ih hsub
    | cons_cons _ _ =>
      rw [hnone] at ha
      cases ha
  | group k hms hlo hmid h ih =>
    obtain ⟨xs, ys, heq, hxs, hys⟩ := List.sublist_append_iff.mp hsub
    cases xs with
    | nil =>
      rw [List.nil_append] at heq
      exact ih (heq ▸ hys)
    | cons x xs =>
      cases (List.cons.inj heq).1
      have hrest : between ++ [b] = xs ++ ys := (List.cons.inj heq).2
      have hk : a.group? = some k := hms a (hxs.subset List.mem_cons_self)
      cases ha.symm.trans hk
      rcases List.eq_nil_or_concat ys with rfl | ⟨ys, z, rfl⟩
      · -- All of them are members of this one.
        rw [List.append_nil] at hrest
        subst hrest
        have hall (d : Decl) (hd : d ∈ between ++ [b]) : d.group? = some g :=
          hms d (hxs.subset (List.mem_cons_of_mem _ hd))
        have hlast := hall b (List.mem_append_right _ List.mem_cons_self)
        cases hb.symm.trans hlast
        exact ⟨rfl, fun d hd => hall d (List.mem_append_left _ hd)⟩
      · -- The last one is in a later group, which has a greater number.
        rw [List.concat_eq_append, ← List.append_assoc] at hrest
        cases (List.append_inj' hrest rfl).2
        rw [List.concat_eq_append] at hys
        have := h.le_id (hys.subset (List.mem_append_right _ List.mem_cons_self)) hb
        omega

end Clustered

end FrontEnd

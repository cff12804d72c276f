import FrontEnd.Proofs.Order.Expr

/-!
# Grouped declarations are laid out

Of a list whose elements lay out positions, all positions are in ascending order (`lays_list`). An element
may leave the parser where it starts, but only at a separator or at the closing token, and both are passed
before the next one. So are the members of a group of declarations (`lays_grouped`), even though an import
without a path takes nothing.
-/

namespace FrontEnd

namespace Parser

variable {p q : Parser} {ts : List Token}

/-- What has been laid out is declared at its position. -/
theorem Lays.declare {pos : Pos} {spec? : Option Spec}
    (h : Lays ts p [pos] (spec?.toList.map .spec) q) (group? : Option Group) :
    Lays ts p ((spec?.map (Decl.mk pos group?)).toList.map Decl.pos)
      ((spec?.map (Decl.mk pos group?)).toList.map .decl) q := by
  cases spec? with
  | none => exact h.only (List.nil_sublist _)
  | some s => exact h.node (n := .decl (.mk pos group? s)) fun _ => trivial

end Parser

namespace ParseM

open Ensures
open FrontEnd.Parser (Lays Clears)

variable {α : Type} {budget k : Nat} {p q : Parser}

/-- At its closing token a list ends, and that is passed. -/
theorem clears_list_of_closer {kind : ListKind} {element : ParseM α} (hp : p.Rises)
    (ht : p.token = kind.closer) : Ensures (list kind element budget) p fun xs q =>
      p.Later q ∧ (q.starved = false → Clears [] p q ∧ xs = []) := by
  cases budget with
  | zero =>
    refine .of_starve hp fun q hq hs => .pure ⟨hq, fun hnot => ?_⟩
    rw [hs] at hnot
    cases hnot
  | succ budget =>
    refine .onToken ?_
    rw [if_pos (.inr ht)]
    exact (clears_want hp).bind fun _ q ⟨hq, hclears⟩ => .pure ⟨hq, fun _ => ⟨hclears ht, rfl⟩⟩

/-- What the elements of a list lay out is laid out one after the other. -/
theorem lays_list {kind : ListKind} {element : ParseM α} {ps : α → List Pos} {ns : α → List Node}
    (helement : ∀ p : Parser, p.Rises → p.functions = k → p.token ≠ .eof → p.token ≠ kind.closer →
      Ensures element p fun x q => Lays [kind.separator, kind.closer] p (ps x) (ns x) q)
    (hp : p.Rises) (hk : p.functions = k) : Ensures (list kind element budget) p fun xs q =>
      Lays [] p (xs.flatMap ps) (xs.flatMap ns) q := by
  induction budget generalizing p with
  | zero => exact .of_starve hp fun q hq hs => .pure (.of_starved hq hs)
  | succ budget ih =>
    -- The rest of the list is laid out behind an element from wherever the parser has passed that.
    have rest {x : α} {q : Parser} (hx : Lays [] p (ps x) (ns x) q) :
        Ensures (do return x :: (← list kind element budget)) q fun xs r =>
          Lays [] p (xs.flatMap ps) (xs.flatMap ns) r :=
      (ih hx.rises (hx.functions.trans hk)).bind fun xs r hxs => .pure (hx.append hxs)
    refine .onToken ?_
    split
    · exact (later (routine_want _) hp).bind fun _ q hq => .pure (.nil hq)
    · next hgo =>
      obtain ⟨heof, hcloser⟩ := not_or.mp hgo
      refine (helement p hp hk heof hcloser).bind fun x q hx =>
        .clears_got hx.rises (fun r _ hr => rest (hx.clears hr)) fun hsep => .onToken ?_
      split
      · next hend =>
        -- The closing token that the element is left at is passed before anything else.
        refine (clears_list_of_closer hx.rises hend).bind fun xs r ⟨hr, hlive⟩ => .pure ?_
        refine .of_not_starved (hx.toLater.trans hr) fun hs => ?_
        obtain ⟨hclears, rfl⟩ := hlive hs
        rw [List.flatMap_singleton, List.flatMap_singleton]
        exact hx.clears hclears
      · next hend =>
        have hx : Lays [] p (ps x) (ns x) q := hx.settle (by simp [hsep, hend])
        refine (later (routine_complain _) hx.rises).bind fun _ r hr =>
          (later (routine_recover _) hr.rises).bind fun _ s hs => .onToken ?_
        have hx : Lays [] p (ps x) (ns x) s := hx.later (hr.trans hs)
        split
        · exact rest hx
        · refine .pure ?_
          rw [List.flatMap_singleton, List.flatMap_singleton]
          exact hx

/-! ## Specifications -/

/-- The action yields something plain to be declared. It may leave the parser where it is only at a token
that ends a specification. -/
def LaysSpec (k : Nat) (m : ParseM (Option Spec)) : Prop :=
  ∀ p : Parser, p.Rises → p.functions = k → Ensures m p fun spec? q =>
    Clears specFollow p q ∧ ∀ s, spec? = some s → s.isPlain = true

/-- What is imported lays out nothing that could be out of order. -/
theorem lays_importSpec : LaysSpec 0 importSpec := by
  refine fun p hp hk => .stays_traced hp (keeps_clears _ p _) fun q hq => .onToken ?_
  split
  · refine (clears_literal hq.rises).bind fun path r ⟨hr, _⟩ => ?_
    split
    · exact .pure ⟨.sooner hq.toLater hr.weaken, fun _ hs => by cases hs; rfl⟩
    · refine (later (routine_complainAt _ rfl) hr.rises).bind fun _ s hs => .pure ?_
      exact ⟨.sooner hq.toLater (hr.later hs).weaken, fun _ hs => by cases hs; rfl⟩
  · -- Without a path nothing need be taken: the search may end where it starts.
    refine (stays_complain _ hq.rises).bind fun _ r hr => ?_
    have hpr := hq.trans hr
    have hrecover : Ensures (recover specFollow) r fun _ s => Clears specFollow p s := by
      cases hstop : r.isStop specFollow with
      | false => exact .sooner hpr.toLater (Clears.recover hpr.rises (List.cons_ne_nil _ _) hstop).weaken
      | true =>
        have htoken : r.token = .eof ∨ r.token ∈ specFollow := by
          -- Outside of functions, only the end and what is searched for ends a search.
          simpa [Parser.isStop, hpr.functions, hk] using hstop
        have hstays : Ensures (recover specFollow) r fun _ s => r.Stays s :=
          Parser.Stays.recover hpr.rises (List.cons_ne_nil _ _) hstop
        exact hstays.weaken fun _ s hs =>
          ⟨hpr.toLater.trans hs.toLater, .inr (hs.token_eq ▸ htoken)⟩
    exact hrecover.bind fun _ s hs => .pure ⟨hs, fun _ hsome => by cases hsome; rfl⟩

/-- A declared type lays out nothing that could be out of order. -/
theorem lays_typeSpec (budget k : Nat) : LaysSpec k (typeSpec budget) := by
  refine fun p hp _ => .stays_traced hp (keeps_clears _ p _) fun q hq => ?_
  refine (clears_ident hq.rises).bind fun name r ⟨hr, _⟩ => (later routine_gotAssign hr.rises).bind
    fun isAlias s hs => (later (routine_type? _) hs.rises).bind fun type? t ht => ?_
  have rest (type : Expr) {u : Parser} (hu : t.Later u) : Ensures (do
      remark ("id: " ++ name.text)
      return some (Spec.typeSpec name isAlias type)) u fun spec? v =>
        Clears specFollow p v ∧ ∀ s, spec? = some s → s.isPlain = true :=
    (later (routine_remark _) hu.rises).bind fun _ v hv => .pure
      ⟨.sooner hq.toLater (hr.later (hs.trans (ht.trans (hu.trans hv)))).weaken, fun _ h => by cases h; rfl⟩
  split
  · exact rest _ (.refl ht.rises)
  · exact .onHole ((later (routine_complain _) ht.rises).bind fun _ u hu =>
      (later (routine_recover _) hu.rises).bind fun _ v hv => rest _ (hu.trans hv))

/-- Declared variables lay out nothing that could be out of order. -/
theorem lays_varSpec (budget k : Nat) : LaysSpec k (varSpec budget) := by
  refine fun p hp _ => .stays_traced hp (keeps_clears _ p _) fun q hq => ?_
  refine (clears_ident hq.rises).bind fun name r ⟨hr, _⟩ => (later (routine_remark _) hr.rises).bind
    fun _ s hs => (later routine_gotAssign hs.rises).bind fun b t ht => ?_
  have hclears {u : Parser} (hu : t.Later u) : Clears specFollow p u :=
    .sooner hq.toLater (hr.later (hs.trans (ht.trans hu))).weaken
  split
  · exact (later (routine_expr _) ht.rises).bind fun x u hu => .pure
      ⟨hclears hu, fun _ h => by cases h; rfl⟩
  · refine (later (routine_type? _) ht.rises).bind fun type? u hu => ?_
    split
    · refine (later routine_gotAssign hu.rises).bind fun b v hv => ?_
      split
      · exact (later (routine_expr _) hv.rises).bind fun x w hw => .pure
          ⟨hclears (hu.trans (hv.trans hw)), fun _ h => by cases h; rfl⟩
      · exact .pure ⟨hclears (hu.trans hv), fun _ h => by cases h; rfl⟩
    · exact (later (routine_complain _) hu.rises).bind fun _ v hv =>
        (later (routine_recover _) hv.rises).bind fun _ w hw => .pure
          ⟨hclears (hu.trans (hv.trans hw)), fun _ h => by cases h⟩

/-! ## Groups -/

/-- Mapping what is there, one by one. -/
theorem map_filterMap_id {β : Type} (f : α → β) (xs : List (Option α)) :
    (xs.filterMap id).map f = xs.flatMap fun x? => x?.toList.map f := by
  induction xs with
  | nil => rfl
  | cons x? xs ih =>
    cases x? with
    | none => exact ih
    | some x => exact congrArg (f x :: ·) ih

/-- The members of a group are laid out one after the other, after its keyword. -/
theorem lays_grouped {keyword : Keyword} {spec : ParseM (Option Spec)} (h : LaysSpec k spec) {pos : Pos}
    {u : Parser} (hpos : Lays [] u [pos] [] p) (hk : p.functions = k) :
    Ensures (grouped keyword pos spec budget) p fun ds q =>
      p.Later q ∧ Lays [] u (ds.map Decl.pos) (ds.map .decl) q := by
  have hplain {spec? : Option Spec} (hs : ∀ s, spec? = some s → s.isPlain = true) :
      ∀ n ∈ spec?.toList.map Node.spec, n.Each Node.InOrder := by
    intro n hn
    obtain ⟨s, hs', rfl⟩ := List.mem_map.mp hn
    exact Node.IsPlain.each_inOrder (hs s (Option.mem_toList.mp hs'))
  refine .onToken ?_
  split
  · refine (later routine_newGroup hpos.rises).bind fun id q hq => .onHere ?_
    let g : Group := ⟨id, q.here, keyword⟩
    refine (later routine_next hq.rises).bind fun _ r hr => ?_
    have hpr := hq.trans hr
    -- A member stands where it starts, and is left there at most at what ends it, which the list passes.
    have hmember (p : Parser) (hp : p.Rises) (hk : p.functions = k) (heof : p.token ≠ .eof)
        (_ : p.token ≠ ListKind.declarations.closer) :
        Ensures (do let pos ← here; return (← spec).map (Decl.mk pos (some g))) p fun d? q =>
          Lays [ListKind.declarations.separator, ListKind.declarations.closer] p
            (d?.toList.map Decl.pos) (d?.toList.map .decl) q := by
      refine .onHere ((h p hp hk).bind fun spec? q ⟨hclears, hs⟩ => .pure ?_)
      exact ((Lays.here heof hclears).nodes fun _ => hplain hs).declare _
    refine (lays_list hmember hr.rises (hpr.functions.trans hk)).bind fun ds? s hds => .pure ?_
    rw [map_filterMap_id, map_filterMap_id]
    exact ⟨hpr.trans hds.toLater, .sooner (hpos.toLater.trans hpr) hds⟩
  · refine (h p hpos.rises hk).bind fun spec? q ⟨hclears, hs⟩ => .pure ⟨hclears.toLater, ?_⟩
    exact ((hpos.later hclears.toLater).nodes fun _ => hplain hs).declare _

/-- A declaration statement stands at its keyword, and before what it declares. -/
theorem lays_declStmt {keyword : Keyword} (hkeyword : keyword = .varWord ∨ keyword = .typeWord)
    (hp : p.Rises) (ht : p.token ≠ .eof) :
    Ensures (declStmt keyword budget) p fun s q => Lays [] p [s.pos] [.stmt s] q := by
  refine .stays_traced hp (keeps_lays [] p _ _) fun q hq => .onHere ?_
  refine (clears_next hq.rises).bind fun _ r hr => ?_
  have hpos : Lays [] q [q.here] [] r := .here (hq.token_eq ▸ ht) hr
  have hstmt {ds : List Decl} {s : Parser} (hrs : r.Later s)
      (hds : Lays [] q (ds.map Decl.pos) (ds.map .decl) s) :
      Lays [] p [q.here] [.stmt (.decls q.here ds)] s := by
    refine .sooner hq.toLater ((hpos.later hrs).nodes fun hs n hn => ?_)
    rw [List.mem_singleton.mp hn]
    refine Node.each_iff.mpr ⟨⟨hds.ascending hs, fun d hd => ?_⟩, hds.inOrder hs⟩
    obtain ⟨hfrom, -⟩ := hds.between hs d.pos (List.mem_map_of_mem hd)
    exact hfrom.place_le
  rcases hkeyword with rfl | rfl
  · exact (lays_grouped (lays_varSpec budget _) hpos rfl).bind fun ds s ⟨hrs, hds⟩ => .pure (hstmt hrs hds)
  · exact (lays_grouped (lays_typeSpec budget _) hpos rfl).bind fun ds s ⟨hrs, hds⟩ => .pure (hstmt hrs hds)

end ParseM

end FrontEnd

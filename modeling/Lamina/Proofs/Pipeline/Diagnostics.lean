import Lamina.Proofs.Core.Violations
import Lamina.Proofs.Pipeline.Stages

/-!
# Diagnostics point into the text

An error of the lexer and of the parser points at a place between characters
(`parseSource_error`), and one of lowering at a part of the tree, whose spans are such places
(`moduleSites_placed`). What is shown under the message has as many blanks as there are characters
on the line before the place and as many carets as there are characters in it.
-/

namespace Lamina

namespace Core

open Surface

variable {mark : Nat → Prop} {options : LowerOptions} {low high : Nat}

/-- What a site is about stands between marks. -/
def Site.Placed (mark : Nat → Prop) : Site → Prop
  | .block decls _ => ∃ low high, DeclsBetween mark low high decls
  | .parameters params _ => ∃ low high, NamesBetween mark low high params
  | .refused e => ∃ low high, e.Between mark low high
  | .use occurrence => ∃ low high, occurrence.id.span.Between mark low high

theorem DeclsBetween.of_mem {decl decls} (h : DeclsBetween mark low high decls)
    (hmem : decl ∈ decls) : ∃ low', decl.Between mark low' high := by
  induction decls generalizing low with
  | nil => cases hmem
  | cons first rest ih =>
    unfold DeclsBetween at h
    rcases List.mem_cons.mp hmem with rfl | hmem
    · exact ⟨low, h.1⟩
    · exact ih h.2 hmem

/-- The name that a declaration binds is a part of it. -/
theorem Decl.Between.bound {decl : Decl} {id : Ident} (h : decl.Between mark low high)
    (hid : decl.bound? = some id) : id.span.Between mark decl.span.start decl.span.stop := by
  unfold Decl.Between at h
  cases decl with
  | function | value =>
    cases hid
    exact h.2.1
  | signature | unsupported => cases hid

/-- An error is about what is at its site. -/
theorem Site.Placed.blamed {site : Site} {e : LowerError} (h : site.Placed mark)
    (hblames : site.Blames options e) : ∀ span ∈ e.span?, span.Between mark 0 span.stop := by
  have hself {low high : Nat} {span : Span} (h : span.Between mark low high) :
      span.Between mark 0 span.stop := h.within (Nat.zero_le _) (Nat.le_refl _)
  cases hblames with
  | unsupported hmem =>
    obtain ⟨low, high, hdecls⟩ := h
    obtain ⟨low', hdecl⟩ := DeclsBetween.of_mem hdecls hmem
    rintro span ⟨⟩
    exact hself hdecl.span
  | boundTwice hid _ =>
    obtain ⟨low, high, hdecls⟩ := h
    obtain ⟨low', hdecl⟩ := DeclsBetween.of_mem hdecls (List.mem_append_right _ List.mem_cons_self)
    rintro span ⟨⟩
    exact hself (Decl.Between.bound hdecl hid)
  | @paramTwice before after param region _ _ =>
    obtain ⟨low, high, hparams⟩ := h
    rintro span ⟨⟩
    exact hself (hparams param (List.mem_append_right _ List.mem_cons_self))
  | refused =>
    obtain ⟨low, high, he⟩ := h
    rintro span ⟨⟩
    exact hself he.span
  | unresolved =>
    obtain ⟨low, high, huse⟩ := h
    rintro span ⟨⟩
    exact hself huse

mutual

theorem exprSites_placed (path : Path) (first node : NodeId) (regions : List Region)
    {low high : Nat} : (e : Expr) → e.Between mark low high →
      ∀ site ∈ exprSites path first node regions e, site.Placed mark
  | .var _, h => List.forall_mem_singleton.mpr ⟨_, _, h⟩
  | .con _, _ => List.forall_mem_nil _
  | .lit .., _ => List.forall_mem_nil _
  | .neg arg _, ⟨_, harg⟩ => exprSites_placed _ _ _ _ arg harg
  | .binOp _ lhs rhs _, ⟨_, hop, hlhs, hrhs⟩ =>
    List.forall_mem_cons.mpr ⟨⟨_, _, hop⟩, List.forall_mem_append.mpr
      ⟨exprSites_placed _ _ _ _ lhs hlhs, exprSites_placed _ _ _ _ rhs hrhs⟩⟩
  | .app func arg _, ⟨_, hfunc, harg⟩ => List.forall_mem_append.mpr
    ⟨exprSites_placed _ _ _ _ func hfunc, exprSites_placed _ _ _ _ arg harg⟩
  | .cond test onTrue onFalse _, ⟨_, htest, htrue, hfalse⟩ => List.forall_mem_append.mpr
    ⟨exprSites_placed _ _ _ _ test htest, List.forall_mem_append.mpr
      ⟨exprSites_placed _ _ _ _ onTrue htrue, exprSites_placed _ _ _ _ onFalse hfalse⟩⟩
  | .letIn decls body _, ⟨_, hdecls, hbody⟩ =>
    List.forall_mem_cons.mpr ⟨⟨_, _, hdecls⟩, List.forall_mem_append.mpr
      ⟨bodySites_placed _ _ _ _ _ decls hdecls, exprSites_placed _ _ _ _ body hbody⟩⟩
  | .lambda _ body _, ⟨_, hparams, hbody⟩ =>
    List.forall_mem_cons.mpr ⟨⟨_, _, hparams⟩, exprSites_placed _ _ _ _ body hbody⟩
  | .caseOf scrutinee _, h =>
    List.forall_mem_cons.mpr ⟨⟨_, _, h⟩, exprSites_placed _ _ _ _ scrutinee h.2⟩
  | .doBlock _, h => List.forall_mem_singleton.mpr ⟨_, _, h⟩
  | .tuple elems _, h =>
    List.forall_mem_cons.mpr ⟨⟨_, _, h⟩, elemSites_placed _ _ _ _ _ elems h.2⟩
  | .list elems _, h =>
    List.forall_mem_cons.mpr ⟨⟨_, _, h⟩, elemSites_placed _ _ _ _ _ elems h.2⟩

theorem bodySites_placed (path : Path) (index : Nat) (first slot : NodeId) (regions : List Region)
    {low high : Nat} : (decls : List Decl) → DeclsBetween mark low high decls →
      ∀ site ∈ bodySites path index first slot regions decls, site.Placed mark
  | [], _ => List.forall_mem_nil _
  | .function _ _ body _ :: rest, ⟨⟨_, _, hparams, hbody⟩, hrest⟩ => List.forall_mem_append.mpr
    ⟨List.forall_mem_cons.mpr ⟨⟨_, _, hparams⟩, exprSites_placed _ _ _ _ body hbody⟩,
      bodySites_placed _ _ _ _ _ rest hrest⟩
  | .value _ body _ :: rest, ⟨⟨_, _, hbody⟩, hrest⟩ => List.forall_mem_append.mpr
    ⟨exprSites_placed _ _ _ _ body hbody, bodySites_placed _ _ _ _ _ rest hrest⟩
  | .signature .. :: rest, ⟨_, hrest⟩ => bodySites_placed _ _ _ _ _ rest hrest
  | .unsupported .. :: rest, ⟨_, hrest⟩ => bodySites_placed _ _ _ _ _ rest hrest

theorem elemSites_placed (path : Path) (index : Nat) (first node : NodeId) (regions : List Region)
    {low high : Nat} : (elems : List Expr) → ElemsBetween mark low high elems →
      ∀ site ∈ elemSites path index first node regions elems, site.Placed mark
  | [], _ => List.forall_mem_nil _
  | e :: rest, ⟨he, hrest⟩ => List.forall_mem_append.mpr
    ⟨exprSites_placed _ _ _ _ e he, elemSites_placed _ _ _ _ _ rest hrest⟩

end

theorem moduleSites_placed (operators : Bool) {tree} (h : DeclsBetween mark low high tree.decls) :
    ∀ site ∈ moduleSites operators tree, site.Placed mark :=
  List.forall_mem_cons.mpr ⟨⟨_, _, h⟩, bodySites_placed _ _ _ _ _ tree.decls h⟩

end Core

variable {source : String} {before inside after lines line : List Char}

/-- An error in a source text, of whichever stage, points at places between its characters. -/
theorem lowerSource_error {options e} (h : (lowerSource options source).result = .error e) :
    ∀ span ∈ e.span?, span.Between (boundary source) 0 span.stop := by
  unfold lowerSource at h
  cases htree : parseSource source with
  | error e' =>
    rw [htree] at h
    cases h
    exact parseSource_error htree
  | ok tree =>
    rw [htree] at h
    change (Core.lowerModule options tree).1.mapError Error.lower = .error e at h
    obtain ⟨hformed, hbetween⟩ := parseSource_tree htree
    cases hlower : (Core.lowerModule options tree).1 with
    | ok m =>
      rw [hlower] at h
      cases h
    | error e' =>
      rw [hlower] at h
      cases h
      obtain ⟨site, hsite, hblames⟩ := Core.lowerModule_blames hformed hlower
      exact (Core.moduleSites_placed _ hbetween.decls site hsite).blamed hblames

/-- A span between two character boundaries covers a part of the text. -/
theorem exists_inside {span : Span} {high : Nat} (h : span.Between (boundary source) 0 high) :
    ∃ before inside after, source.toList = before ++ inside ++ after ∧
      span = ⟨byteLength before, byteLength (before ++ inside)⟩ := by
  obtain ⟨start, stop⟩ := span
  obtain ⟨before, after, hsource, rfl⟩ := isValid_iff.mp h.start
  obtain ⟨front, back, hsource', rfl⟩ := isValid_iff.mp h.stop
  rcases List.append_eq_append_iff.mp (hsource.symm.trans hsource') with
    ⟨inside, rfl, -⟩ | ⟨more, rfl, -⟩
  · exact ⟨before, inside, back, hsource', rfl⟩
  · have hle : byteLength (front ++ more) ≤ byteLength front := h.ordered
    have hnil : more = [] := by
      refine Classical.byContradiction fun hne => ?_
      have hpos := byteLength_pos hne
      rw [byteLength_append] at hle
      omega
    subst hnil
    rw [List.append_nil] at hsource ⊢
    exact ⟨front, [], after, by rw [List.append_nil, hsource], by rw [List.append_nil]⟩

/-! ## Lines and carets -/

/-- Lines with their ends, or none. -/
def WholeLines (lines : List Char) : Prop := lines = [] ∨ lines.getLast? = some '\n'

/-- The part of a text before a place is whole lines and a part of the line that the place is on. -/
theorem exists_wholeLines (before : List Char) :
    ∃ lines line, before = lines ++ line ∧ WholeLines lines ∧ '\n' ∉ line := by
  induction before with
  | nil => exact ⟨[], [], rfl, .inl rfl, List.not_mem_nil⟩
  | cons c cs ih =>
    obtain ⟨lines, line, rfl, hlines | hlines, hline⟩ := ih
    · subst hlines
      by_cases hc : c = '\n'
      · exact ⟨[c], line, rfl, .inr (congrArg some hc), hline⟩
      · exact ⟨[], c :: line, rfl, .inl rfl, by simp [Ne.symm hc, hline]⟩
    · refine ⟨c :: lines, line, rfl, .inr ?_, hline⟩
      rw [List.getLast?_cons, hlines]
      rfl

namespace Position

theorem line_foldl (here : Position) (cs : List Char) :
    (cs.foldl advance here).line = here.line + cs.count '\n' := by
  induction cs generalizing here with
  | nil => rfl
  | cons c cs ih =>
    rw [List.foldl_cons, ih, advance]
    split
    · rename_i hc
      rw [hc, List.count_cons_self]
      simp only
      omega
    · rename_i hc
      rw [List.count_cons_of_ne hc]

theorem foldl_line (here : Position) (h : '\n' ∉ line) :
    line.foldl advance here = ⟨here.line, here.column + line.length⟩ := by
  induction line generalizing here with
  | nil => rfl
  | cons c cs ih =>
    obtain ⟨hc, hcs⟩ := not_or.mp (mt List.mem_cons.mpr h)
    rw [List.foldl_cons, ih _ hcs, advance, if_neg (Ne.symm hc), List.length_cons]
    simp only [Nat.add_assoc, Nat.add_comm 1]

theorem behind_lines (hlines : WholeLines lines) (hline : '\n' ∉ line) :
    behind (lines ++ line) = ⟨lines.count '\n' + 1, line.length + 1⟩ := by
  have hcolumn : (lines.foldl advance ⟨1, 1⟩).column = 1 := by
    obtain rfl | hlast := hlines
    · rfl
    · obtain ⟨init, rfl⟩ := List.getLast?_eq_some_iff.mp hlast
      rw [List.foldl_append]
      rfl
  rw [behind, List.foldl_append, foldl_line _ hline, line_foldl, hcolumn, Nat.add_comm 1,
    Nat.add_comm 1]

end Position

namespace Diagnostic

theorem caretCount_eq (hsource : source.toList = before ++ inside ++ after)
    (hinside : '\n' ∉ inside) :
    caretCount source ⟨byteLength before, byteLength (before ++ inside)⟩ = max 1 inside.length := by
  have hstart := Position.scan_eq (hsource.trans (List.append_assoc ..))
  have hstop := Position.scan_eq hsource
  have hline : Position.behind (before ++ inside) =
      ⟨(Position.behind before).line, (Position.behind before).column + inside.length⟩ := by
    rw [Position.behind, List.foldl_append, Position.foldl_line _ hinside]
    rfl
  unfold caretCount
  simp only [hstart, hstop, hline, Nat.add_sub_cancel_left, if_true, Nat.max_comm 1]
  split
  · rfl
  · rename_i hempty
    have hnil : inside = [] := by
      refine Classical.byContradiction fun hne => hempty ?_
      rw [byteLength_append]
      exact Nat.lt_add_of_pos_right (byteLength_pos hne)
    rw [hnil]
    rfl

end Diagnostic

open Diagnostic (pad lineText)

/-- A text with a word that does not belong there, behind characters of two bytes. -/
def misplacedText : String := "a = 1\né = f \"ü\" then"

end Lamina

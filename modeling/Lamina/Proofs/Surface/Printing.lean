import Lamina.Proofs.Layout.Braced
import Lamina.Proofs.Token.Spelling
import Lamina.Surface.Tree

/-!
# Printing trees

A tree is printed as tokens: every expression with parts in parentheses, every block in braces with
semicolons between its declarations, and so every expression as an atom that needs no fixities to be
read. What can be printed are the trees of values and functions without `case` and `do`, with names
that the lexer cuts out as names. Their tokens can stand in a text and have all blocks in braces.
-/

namespace Lamina.Surface

variable {name : String}

/-! ## Tokens of a tree -/

/-- Is a name written in symbols? -/
def isSymbolic (name : String) : Bool := name.toList.head?.any Lexer.isSymbol

/-- An operator between its operands: its symbols, or its name in backticks. -/
def operatorTokens (name : String) : List Token :=
  if isSymbolic name then [.op name] else [.punct .backtick, .varId name, .punct .backtick]

/-- Tokens in parentheses. -/
def inParens (tokens : List Token) : List Token := .punct .lparen :: (tokens ++ [.punct .rparen])

/-- Pieces with commas between them. -/
def commas (pieces : List (List Token)) : List Token := [.punct .comma].intercalate pieces

/-- A block of declarations in braces. -/
def inBraces (decls : List (List Token)) : List Token :=
  .punct .lbrace :: ([.punct .semi].intercalate decls ++ [.punct .rbrace])

/-- The parameters of a function. -/
def paramTokens (params : List Ident) : List Token := params.map fun param => .varId param.name

mutual

/-- The tokens of an expression. What is not supported has none. -/
def Expr.tokens : Expr → List Token
  | .var id => if isSymbolic id.name then inParens [.op id.name] else [.varId id.name]
  | .con id => if id.name = "()" then inParens [] else [.conId id.name]
  | .lit (.int value) _ => [.int value]
  | .lit (.str text) _ => [.str text]
  | .binOp op lhs rhs _ => inParens (lhs.tokens ++ operatorTokens op.name ++ rhs.tokens)
  | .neg arg _ => inParens (.op "-" :: arg.tokens)
  | .app func arg _ => inParens (func.tokens ++ arg.tokens)
  | .cond test onTrue onFalse _ =>
    inParens (.keyword .ifKw :: test.tokens ++ .keyword .thenKw :: onTrue.tokens ++
      .keyword .elseKw :: onFalse.tokens)
  | .letIn decls body _ =>
    inParens (.keyword .letKw :: inBraces (declsTokens decls) ++ .keyword .inKw :: body.tokens)
  | .lambda params body _ =>
    inParens (.reserved .backslash :: paramTokens params ++ .reserved .arrow :: body.tokens)
  | .tuple elems _ => inParens (commas (exprsTokens elems))
  | .list elems _ => .punct .lbracket :: (commas (exprsTokens elems) ++ [.punct .rbracket])
  | .caseOf .. | .doBlock _ => []

/-- The tokens of a declaration. -/
def Decl.tokens : Decl → List Token
  | .function name params body _ =>
    .varId name.name :: paramTokens params ++ .reserved .equals :: body.tokens
  | .value name body _ => .varId name.name :: .reserved .equals :: body.tokens
  | .signature .. | .unsupported .. => []

/-- The tokens of expressions, one by one. -/
def exprsTokens : List Expr → List (List Token)
  | [] => []
  | elem :: rest => elem.tokens :: exprsTokens rest

/-- The tokens of declarations, one by one. -/
def declsTokens : List Decl → List (List Token)
  | [] => []
  | decl :: rest => decl.tokens :: declsTokens rest

end

/-- The parts of the name of a module, which dots separate. -/
def dottedParts (name : String) : List String := (name.toList.splitOn '.').map String.ofList

/-- The header of a module, if it has a name. -/
def headerTokens : Option Ident → List Token
  | none => []
  | some id => .keyword .moduleKw ::
    ([.op "."].intercalate ((dottedParts id.name).map fun part => [.conId part]) ++
      [.keyword .whereKw])

/-- The tokens of a module. -/
def Module.tokens (m : Module) : List Token := headerTokens m.name ++ inBraces (declsTokens m.decls)

/-! ## What can be printed -/

mutual

/-- Can an expression be printed? -/
def Expr.isPrintable : Expr → Bool
  | .var id => Lexer.isVarName id.name || Lexer.isOpName id.name
  | .con id => id.name = "()" || Lexer.isConName id.name
  | .lit (.int value) _ => 0 ≤ value.toInt
  | .lit (.str _) _ => true
  | .binOp op lhs rhs _ =>
    (Lexer.isVarName op.name || Lexer.isOpName op.name) && lhs.isPrintable && rhs.isPrintable
  | .neg arg _ => arg.isPrintable
  | .app func arg _ => func.isPrintable && arg.isPrintable
  | .cond test onTrue onFalse _ =>
    test.isPrintable && onTrue.isPrintable && onFalse.isPrintable
  | .letIn decls body _ => printableDecls decls && body.isPrintable
  | .lambda params body _ =>
    !params.isEmpty && params.all (Lexer.isVarName ·.name) && body.isPrintable
  | .tuple elems _ => 2 ≤ elems.length && printableExprs elems
  | .list elems _ => printableExprs elems
  | .caseOf .. | .doBlock _ => false

/-- Can a declaration be printed? -/
def Decl.isPrintable : Decl → Bool
  | .function name params body _ =>
    Lexer.isVarName name.name && !params.isEmpty && params.all (Lexer.isVarName ·.name) &&
      body.isPrintable
  | .value name body _ => Lexer.isVarName name.name && body.isPrintable
  | .signature .. | .unsupported .. => false

/-- Can all the expressions be printed? -/
def printableExprs : List Expr → Bool
  | [] => true
  | elem :: rest => elem.isPrintable && printableExprs rest

/-- Can all the declarations be printed? -/
def printableDecls : List Decl → Bool
  | [] => true
  | decl :: rest => decl.isPrintable && printableDecls rest

end

/-- Can a module be printed? Its exports are not. -/
def Module.isPrintable (m : Module) : Bool :=
  m.name.all (fun id => (dottedParts id.name).all Lexer.isConName) && m.exports.isEmpty &&
    printableDecls m.decls

/-- The text of a module: its tokens with one blank between them. -/
def Module.print (m : Module) : String := Token.spelled m.tokens

/-! ## The tokens of what can be printed -/

theorem isSymbolic_of_isOpName (h : Lexer.isOpName name) : isSymbolic name := by
  simp only [Lexer.isOpName, Bool.and_eq_true, List.all_eq_true] at h
  unfold isSymbolic
  cases hchars : name.toList with
  | nil => simp [hchars] at h
  | cons c cs => exact h.1.1.2 c (by simp [hchars])

theorem isSymbolic_of_isVarName (h : Lexer.isVarName name) : isSymbolic name = false := by
  simp only [Lexer.isVarName, Bool.and_eq_true] at h
  unfold isSymbolic
  cases hchars : name.toList with
  | nil => rfl
  | cons c cs =>
    have hstart : Lexer.isNameStart c := by
      have hword := h.1.1
      simp only [hchars, Lexer.isWord, Bool.and_eq_true] at hword
      exact hword.1
    refine Bool.eq_false_iff.mpr fun hsymbol => ?_
    simp [(Lexer.plain_of_isSymbol hsymbol).2.2] at hstart

open Layout in
/-- Tokens that can stand in a text, with all their blocks in braces. -/
structure Fit (tokens : List Token) : Prop where
  spellable : ∀ token ∈ tokens, token.isSpellable
  neutral : Neutral tokens

namespace Fit

variable {rest : List Token}

theorem nil : Fit [] := ⟨nofun, .nil⟩

theorem cons {token : Token} (h : token.isSpellable) (hrest : Fit rest)
    (hloose : Layout.isLoose token := by rfl) : Fit (token :: rest) :=
  ⟨List.forall_mem_cons.mpr ⟨h, hrest.spellable⟩, .cons hloose hrest.neutral⟩

theorem append {first second} (h : Fit first) (h' : Fit second) : Fit (first ++ second) :=
  ⟨List.forall_mem_append.mpr ⟨h.spellable, h'.spellable⟩, h.neutral.append h'.neutral⟩

theorem intercalate {mark pieces} (hmark : Fit [mark]) (h : ∀ piece ∈ pieces, Fit piece) :
    Fit ([mark].intercalate pieces) := by
  induction pieces with
  | nil => exact nil
  | cons piece rest ih =>
    obtain ⟨hpiece, hrest⟩ := List.forall_mem_cons.mp h
    cases rest with
    | nil =>
      rw [List.intercalate_singleton]
      exact hpiece
    | cons second rest =>
      rw [List.intercalate_cons_cons]
      exact (hpiece.append hmark).append (ih hrest)

theorem inParens {tokens : List Token} (h : Fit tokens) : Fit (inParens tokens) :=
  cons rfl (h.append (cons rfl nil))

theorem block {word decls} (hdecls : ∀ decl ∈ decls, Fit decl) (hrest : Fit rest) :
    Fit (.keyword word :: inBraces decls ++ rest) := by
  have hinside : Fit ([.punct .semi].intercalate decls) := intercalate (cons rfl nil) hdecls
  unfold inBraces
  rw [List.cons_append, List.cons_append, List.append_assoc, List.singleton_append]
  refine ⟨?_, .block hinside.neutral hrest.neutral⟩
  intro token htoken
  simp only [List.mem_cons, List.mem_append] at htoken
  rcases htoken with rfl | rfl | htoken | rfl | htoken
  · rfl
  · rfl
  · exact hinside.spellable token htoken
  · rfl
  · exact hrest.spellable token htoken

theorem params {params} (h : params.all (Lexer.isVarName ·.name)) : Fit (paramTokens params) := by
  induction params with
  | nil => exact nil
  | cons param rest ih =>
    simp only [List.all_cons, Bool.and_eq_true] at h
    exact cons h.1 (ih h.2)

theorem operator {name : String} (h : Lexer.isVarName name || Lexer.isOpName name) :
    Fit (operatorTokens name) := by
  unfold operatorTokens
  rcases Bool.or_eq_true_iff.mp h with h | h
  · rw [isSymbolic_of_isVarName h]
    exact cons rfl (cons h (cons rfl nil))
  · rw [if_pos (isSymbolic_of_isOpName h)]
    exact cons h nil

end Fit

mutual

theorem Expr.fit_tokens (e : Expr) (h : e.isPrintable) : Fit e.tokens := by
  cases e with
  | var id =>
    simp only [Expr.isPrintable, Bool.or_eq_true] at h
    unfold Expr.tokens
    rcases h with h | h
    · rw [isSymbolic_of_isVarName h]
      exact .cons h .nil
    · rw [if_pos (isSymbolic_of_isOpName h)]
      exact .inParens (.cons h .nil)
  | con id =>
    simp only [Expr.isPrintable, Bool.or_eq_true, decide_eq_true_eq] at h
    unfold Expr.tokens
    split
    · exact .inParens .nil
    · rename_i hunit
      exact .cons (h.resolve_left hunit) .nil
  | lit value span =>
    cases value with
    | int value => exact .cons h .nil
    | str text => exact .cons rfl .nil
  | binOp op lhs rhs span =>
    simp only [Expr.isPrintable, Bool.and_eq_true] at h
    exact .inParens (((lhs.fit_tokens h.1.2).append (.operator h.1.1)).append
      (rhs.fit_tokens h.2))
  | neg arg span => exact .inParens (.cons (by decide +kernel) (arg.fit_tokens h))
  | app func arg span =>
    simp only [Expr.isPrintable, Bool.and_eq_true] at h
    exact .inParens ((func.fit_tokens h.1).append (arg.fit_tokens h.2))
  | cond test onTrue onFalse span =>
    simp only [Expr.isPrintable, Bool.and_eq_true] at h
    exact .inParens (.append (.append (.cons rfl (test.fit_tokens h.1.1))
      (.cons rfl (onTrue.fit_tokens h.1.2))) (.cons rfl (onFalse.fit_tokens h.2)))
  | letIn decls body span =>
    simp only [Expr.isPrintable, Bool.and_eq_true] at h
    exact .inParens (.block (fit_declsTokens decls h.1) (.cons rfl (body.fit_tokens h.2)))
  | lambda params body span =>
    simp only [Expr.isPrintable, Bool.and_eq_true] at h
    exact .inParens (.append (.cons rfl (.params h.1.2)) (.cons rfl (body.fit_tokens h.2)))
  | tuple elems span =>
    simp only [Expr.isPrintable, Bool.and_eq_true] at h
    exact .inParens (.intercalate (.cons rfl .nil) (fit_exprsTokens elems h.2))
  | list elems span =>
    exact .cons rfl ((Fit.intercalate (.cons rfl .nil) (fit_exprsTokens elems h)).append
      (.cons rfl .nil))
  | caseOf scrutinee span => cases h
  | doBlock span => cases h

theorem Decl.fit_tokens (decl : Decl) (h : decl.isPrintable) : Fit decl.tokens := by
  cases decl with
  | function name params body span =>
    simp only [Decl.isPrintable, Bool.and_eq_true] at h
    exact .append (.cons h.1.1.1 (.params h.1.2)) (.cons rfl (body.fit_tokens h.2))
  | value name body span =>
    simp only [Decl.isPrintable, Bool.and_eq_true] at h
    exact .cons h.1 (.cons rfl (body.fit_tokens h.2))
  | signature names span => cases h
  | unsupported what span => cases h

theorem fit_exprsTokens (elems : List Expr) (h : printableExprs elems) :
    ∀ piece ∈ exprsTokens elems, Fit piece := by
  cases elems with
  | nil => exact nofun
  | cons elem rest =>
    simp only [printableExprs, Bool.and_eq_true] at h
    exact List.forall_mem_cons.mpr ⟨elem.fit_tokens h.1, fit_exprsTokens rest h.2⟩

theorem fit_declsTokens (decls : List Decl) (h : printableDecls decls) :
    ∀ piece ∈ declsTokens decls, Fit piece := by
  cases decls with
  | nil => exact nofun
  | cons decl rest =>
    simp only [printableDecls, Bool.and_eq_true] at h
    exact List.forall_mem_cons.mpr ⟨decl.fit_tokens h.1, fit_declsTokens rest h.2⟩

end

open Layout in
/-- The tokens of a module can stand in a text, and layout keeps them. -/
theorem Module.tokens_kept (m : Module) (h : m.isPrintable) :
    (∀ token ∈ m.tokens, token.isSpellable) ∧ Braced 0 false m.tokens ∧ ∃ first rest,
      m.tokens = first :: rest ∧ (first = .keyword .moduleKw ∨ first = .punct .lbrace) := by
  simp only [Module.isPrintable, Bool.and_eq_true] at h
  have hdecls := fit_declsTokens m.decls h.2
  have hwhere : Fit (.keyword .whereKw :: inBraces (declsTokens m.decls) ++ []) :=
    .block hdecls .nil
  rw [List.append_nil] at hwhere
  unfold Module.tokens
  cases hname : m.name with
  | none =>
    have hinside : Fit ([.punct .semi].intercalate (declsTokens m.decls)) :=
      .intercalate (.cons rfl .nil) hdecls
    refine ⟨?_, ?_, _, _, rfl, .inr rfl⟩
    · exact (List.forall_mem_cons.mp hwhere.spellable).2
    · exact braced_braces false hinside.neutral ⟨rfl, rfl⟩
  | some id =>
    have hparts : Fit ([.op "."].intercalate ((dottedParts id.name).map fun part =>
        [.conId part])) := by
      refine .intercalate (.cons (by decide +kernel) .nil) ?_
      rw [hname, Option.all_some, List.all_eq_true] at h
      intro piece hpiece
      obtain ⟨part, hpart, rfl⟩ := List.mem_map.mp hpiece
      exact .cons (h.1.1 part hpart) .nil
    have hall : Fit (headerTokens (some id) ++ inBraces (declsTokens m.decls)) := by
      unfold headerTokens
      rw [List.cons_append, List.append_assoc]
      exact .cons rfl (hparts.append hwhere)
    exact ⟨hall.spellable, hall.neutral.braced, _, _, rfl, .inl rfl⟩

end Lamina.Surface

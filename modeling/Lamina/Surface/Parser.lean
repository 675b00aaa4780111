import Lamina.Surface.Fixity
import Lamina.Surface.Stream

/-!
# The grammar

A parser for tokens whose blocks are all in braces.

* A module is an optional header and a block.
* A block is a list of declarations in braces, with semicolons between them.
* A declaration binds a name, with parameters or without and with an optional `where` block; or it
  is a type signature, which is skipped; or it is one of the declarations that are recognised and
  not supported, which are skipped too.
* An expression is a chain of operators over applications, with an optional type, which is skipped.

`where` reads as `let` around the body, and `(op)` as a variable. The parser functions take a bound
on their nesting; `parseModule` and `parseExpr` supply one that no stream of their tokens exceeds.
-/

namespace Lamina.Surface

namespace Parser

/-! ## Skipped parts -/

/-- The rest behind a declaration: up to the semicolon or the closing bracket that ends it.
`depth` counts the brackets open inside it. -/
def dropDecl (depth : Nat) (prev : Option Span) : List (Located Token) → Stream
  | [] => ⟨prev, []⟩
  | token :: rest =>
    match token.value with
    | .eof => ⟨prev, token :: rest⟩
    | .punct .semi =>
      if depth = 0 then ⟨prev, token :: rest⟩ else dropDecl depth (some token.span) rest
    | .punct .rbrace | .punct .rparen | .punct .rbracket =>
      if depth = 0 then ⟨prev, token :: rest⟩ else dropDecl (depth - 1) (some token.span) rest
    | .punct .lbrace | .punct .lparen | .punct .lbracket =>
      dropDecl (depth + 1) (some token.span) rest
    | _ => dropDecl depth (some token.span) rest

/-- Does a token end a type that is written behind an expression? -/
def endsType : Token → Bool
  | .punct .semi | .punct .comma | .keyword .thenKw | .keyword .elseKw | .keyword .ofKw
  | .keyword .inKw | .keyword .whereKw => true
  | _ => false

/-- The rest behind a type that is written behind an expression. -/
def dropType (depth : Nat) (prev : Option Span) : List (Located Token) → Stream
  | [] => ⟨prev, []⟩
  | token :: rest =>
    match token.value with
    | .eof => ⟨prev, token :: rest⟩
    | .punct .rbrace | .punct .rparen | .punct .rbracket =>
      if depth = 0 then ⟨prev, token :: rest⟩ else dropType (depth - 1) (some token.span) rest
    | .punct .lbrace | .punct .lparen | .punct .lbracket =>
      dropType (depth + 1) (some token.span) rest
    | other =>
      if depth = 0 ∧ endsType other then ⟨prev, token :: rest⟩
      else dropType depth (some token.span) rest

/-- Skips the contents of a block and the brace that ends it. `inner` counts the braces open
inside it. -/
def dropBlock (inner : Nat) (prev : Option Span) : List (Located Token) → Outcome Unit
  | [] => unexpected "block" ⟨prev, []⟩
  | token :: rest =>
    match token.value with
    | .eof => unexpected "block" ⟨prev, token :: rest⟩
    | .punct .lbrace => dropBlock (inner + 1) (some token.span) rest
    | .punct .rbrace =>
      if inner = 0 then .done () ⟨some token.span, rest⟩
      else dropBlock (inner - 1) (some token.span) rest
    | _ => dropBlock inner (some token.span) rest

/-- Skips the rest of a declaration. -/
def skipDecl : Parser Unit := jump fun s => dropDecl 0 s.prev s.rest

/-- Skips a type. -/
def skipType : Parser Unit := jump fun s => dropType 0 s.prev s.rest

/-- Skips a block in braces. -/
def skipBlock : Parser Unit := do
  let _ ← expect (.punct .lbrace)
  fun s => dropBlock 0 s.prev s.rest

/-- Skips a semicolon that layout put before `then` or `else`. -/
def skipSemiBefore (token : Token) : Parser Unit := jump fun s =>
  if s.peek = .punct .semi ∧ s.peekAt 1 = token then s.tail else s

/-! ## Module header -/

/-- Adds the dotted parts of a module name to its first part, `id`. -/
def splitDotted (id : Ident) (prev : Option Span) : List (Located Token) → Ident × Stream
  | ⟨.op ".", _⟩ :: ⟨.conId part, span⟩ :: rest =>
    splitDotted ⟨id.name ++ "." ++ part, id.span.merge span⟩ (some span) rest
  | rest => (id, ⟨prev, rest⟩)

/-- Reads a module name. -/
def moduleName : Parser Ident := do
  match ← peek with
  | .conId name =>
    let span ← advance
    fun s =>
      let (id, rest) := splitDotted ⟨name, span⟩ s.prev s.rest
      .done id rest
  | _ => unexpected "module name"

/-- Reads the rest of an export list. Only names outside inner parentheses, of which `inner` are
open, are exported. -/
def splitExports (inner : Nat) (prev : Option Span) :
    List (Located Token) → Outcome (List Ident)
  | [] => unexpected "export list" ⟨prev, []⟩
  | token :: rest =>
    match token.value with
    | .eof => unexpected "export list" ⟨prev, token :: rest⟩
    | .punct .lparen => splitExports (inner + 1) (some token.span) rest
    | .punct .rparen =>
      if inner = 0 then .done [] ⟨some token.span, rest⟩
      else splitExports (inner - 1) (some token.span) rest
    | .varId name | .conId name =>
      match splitExports inner (some token.span) rest with
      | .done ids s => .done (if inner = 0 then ⟨name, token.span⟩ :: ids else ids) s
      | other => other
    | _ => splitExports inner (some token.span) rest

/-- Reads an export list. -/
def exportList : Parser (List Ident) := do
  let _ ← expect (.punct .lparen)
  fun s => splitExports 0 s.prev s.rest

/-- Reads the header of a module, if there is one. -/
def header : Parser (Option Ident × List Ident) := do
  if ← eat (.keyword .moduleKw) then
    let name ← moduleName
    let ids ← if (← peek) = .punct .lparen then exportList else pure []
    let _ ← expect (.keyword .whereKw)
    return (some name, ids)
  else return (none, [])

/-! ## Declarations and expressions -/

/-- The declarations that are recognised by their first word and not supported. -/
def unsupported? : Token → Option UnsupportedDecl
  | .keyword .dataKw => some .dataDecl
  | .keyword .typeKw => some .typeSynonym
  | .keyword .newtypeKw => some .newtypeDecl
  | .keyword .classKw => some .classDecl
  | .keyword .instanceKw => some .instanceDecl
  | .keyword .importKw => some .importDecl
  | .keyword .infixKw | .keyword .infixlKw | .keyword .infixrKw => some .fixityDecl
  | .keyword .defaultKw => some .defaultDecl
  | .keyword .foreignKw => some .foreignDecl
  | _ => none

/-- Does a token start a pattern other than a name? -/
def startsPattern : Token → Bool
  | .int _ | .str _ | .conId _ | .punct .lparen | .punct .lbracket | .reserved .tilde => true
  | _ => false

/-- Does a token start an atomic expression? -/
def startsAtom : Token → Bool
  | .varId _ | .conId _ | .int _ | .str _ | .punct .lparen | .punct .lbracket => true
  | _ => false

/-- Reads names with commas before them. -/
def splitCommaNames (prev : Option Span) : List (Located Token) → Outcome (List Ident)
  | ⟨.punct .comma, _⟩ :: ⟨.varId name, span⟩ :: rest =>
    match splitCommaNames (some span) rest with
    | .done ids s => .done (⟨name, span⟩ :: ids) s
    | other => other
  | ⟨.punct .comma, span⟩ :: rest => unexpected "identifier" ⟨some span, rest⟩
  | rest => .done [] ⟨prev, rest⟩

/-- Reads a type signature. -/
def signature : Parser Decl := do
  let start ← here
  let first ← expectName
  let more ← fun s => splitCommaNames s.prev s.rest
  let _ ← expect (.reserved .doubleColon)
  skipDecl
  return .signature (first :: more) (start.merge (← before))

/-- Reads the parameters of a binding, up to its equals sign. -/
def bindingParams : Parser (List Ident) := do
  let params ← names
  let next ← peek
  if next = .reserved .equals then return params
  else if startsPattern next || next = .reserved .atSign then
    fail (.unsupportedPattern (← here))
  else unexpected "'=' or a parameter name"

/-- Reads the parameters of a lambda, of which there is at least one, up to its arrow. -/
def lambdaParams : Parser (List Ident) := do
  let params ← names
  let next ← peek
  if next = .reserved .arrow && !params.isEmpty then return params
  else if startsPattern next then fail (.unsupportedPattern (← here))
  else unexpected "lambda parameter"

mutual

/-- Reads a block. -/
def block : Nat → Parser (List Decl)
  | 0 => outOfFuel
  | n + 1 => do
    let _ ← expect (.punct .lbrace)
    decls n

/-- Reads declarations up to the end of their block. -/
def decls : Nat → Parser (List Decl)
  | 0 => outOfFuel
  | n + 1 => do
    jump fun s => s.rest |> Stream.dropSemis s.prev
    if ← eat (.punct .rbrace) then return []
    else
      let first ← decl n
      let next ← peek
      if next = .punct .semi || next = .punct .rbrace then
        let more ← decls n
        return first :: more
      else unexpected "';' or end of block"

/-- Reads a declaration. -/
def decl : Nat → Parser Decl
  | 0 => outOfFuel
  | n + 1 => do
    match unsupported? (← peek) with
    | some what =>
      let start ← here
      skipDecl
      return .unsupported what (start.merge (← before))
    | none =>
      match ← peek with
      | .varId _ =>
        let next ← look (·.peekAt 1)
        if next = .reserved .doubleColon || next = .punct .comma then signature else binding n
      | _ => unexpected "declaration"

/-- Reads a binding. -/
def binding : Nat → Parser Decl
  | 0 => outOfFuel
  | n + 1 => do
    let name ← expectName
    let params ← bindingParams
    let _ ← expect (.reserved .equals)
    let value ← expr n
    let body ← whereBlock n value
    let span := name.span.merge (← before)
    return if params.isEmpty then .value name body span else .function name params body span

/-- Reads the `where` block of a binding with the value given, if it has one. -/
def whereBlock : Nat → Expr → Parser Expr
  | 0, _ => outOfFuel
  | n + 1, value => do
    if ← eat (.keyword .whereKw) then
      let start ← before
      let locals ← block n
      return .letIn locals value ((start.merge value.span).merge (← before))
    else return value

/-- Reads an expression. -/
def expr : Nat → Parser Expr
  | 0 => outOfFuel
  | n + 1 => do
    let value ← chain n 0
    if ← eat (.reserved .doubleColon) then
      skipType
      return value
    else return value

/-- Reads a chain of operators of at least the level given. -/
def chain : Nat → Nat → Parser Expr
  | 0, _ => outOfFuel
  | n + 1, level => do
    let lhs ← operand n
    chainAfter n level lhs

/-- Reads the operators of at least the level given that follow the operand `lhs`. An operator
before a closing parenthesis is left alone. -/
def chainAfter : Nat → Nat → Expr → Parser Expr
  | 0, _, _ => outOfFuel
  | n + 1, level, lhs => do
    match ← look (·.operator?) with
    | none => return lhs
    | some (op, width) =>
      let fixity := Fixity.ofName op.name
      if (← look (·.peekAt width)) = .punct .rparen || fixity.level < level then return lhs
      else
        skip width
        let rhs ← chain n fixity.rightLevel
        let whole := Expr.binOp op lhs rhs (lhs.span.merge rhs.span)
        match ← look (·.operator?) with
        | none => return whole
        | some (next, _) =>
          if fixity.assoc = .none ∧ Fixity.ofName next.name = fixity then
            fail (.nonAssociative next.name next.span)
          else chainAfter n level whole

/-- Reads an operand of an operator, with a minus before it or without. -/
def operand : Nat → Parser Expr
  | 0 => outOfFuel
  | n + 1 => do
    if (← peek) = .op "-" then
      let start ← advance
      let arg ← chain n Fixity.negationLevel
      return .neg arg (start.merge arg.span)
    else compound n

/-- Reads an expression that starts with a keyword or a backslash, or an application. -/
def compound : Nat → Parser Expr
  | 0 => outOfFuel
  | n + 1 => do
    match ← peek with
    | .reserved .backslash =>
      let start ← advance
      let params ← lambdaParams
      let _ ← expect (.reserved .arrow)
      let body ← expr n
      return .lambda params body (start.merge body.span)
    | .keyword .letKw =>
      let start ← advance
      let locals ← block n
      let _ ← expect (.keyword .inKw)
      let body ← expr n
      return .letIn locals body (start.merge body.span)
    | .keyword .ifKw =>
      let start ← advance
      let test ← expr n
      skipSemiBefore (.keyword .thenKw)
      let _ ← expect (.keyword .thenKw)
      let onTrue ← expr n
      skipSemiBefore (.keyword .elseKw)
      let _ ← expect (.keyword .elseKw)
      let onFalse ← expr n
      return .cond test onTrue onFalse (start.merge onFalse.span)
    | .keyword .caseKw =>
      let start ← advance
      let scrutinee ← expr n
      let _ ← expect (.keyword .ofKw)
      skipBlock
      return .caseOf scrutinee (start.merge (← before))
    | .keyword .doKw =>
      let start ← advance
      skipBlock
      return .doBlock (start.merge (← before))
    | _ =>
      let func ← atom n
      args n func

/-- Reads the arguments of a function. -/
def args : Nat → Expr → Parser Expr
  | 0, _ => outOfFuel
  | n + 1, func => do
    if startsAtom (← peek) then
      let arg ← atom n
      args n (.app func arg (func.span.merge arg.span))
    else return func

/-- Reads an atomic expression: a name, a literal, or one in brackets. -/
def atom : Nat → Parser Expr
  | 0 => outOfFuel
  | n + 1 => do
    match ← peek with
    | .varId name => return .var ⟨name, ← advance⟩
    | .conId name => return .con ⟨name, ← advance⟩
    | .int value => return .lit (.int value) (← advance)
    | .str text => return .lit (.str text) (← advance)
    | .punct .lparen => paren n
    | .punct .lbracket =>
      let start ← advance
      let elems ← if (← peek) = .punct .rbracket then pure [] else elements n
      let stop ← expect (.punct .rbracket)
      return .list elems (start.merge stop)
    | _ => unexpected "expression"

/-- Reads an expression in parentheses: the unit value, an operator's name, a tuple, or any
expression. -/
def paren : Nat → Parser Expr
  | 0 => outOfFuel
  | n + 1 => do
    let start ← expect (.punct .lparen)
    if (← peek) = .punct .rparen then
      let stop ← advance
      return .con ⟨"()", start.merge stop⟩
    else
      match ← look (·.operator?) with
      | none => grouped n start
      | some (op, width) =>
        if (← look (·.peekAt width)) = .punct .rparen then
          skip width
          let stop ← advance
          return .var ⟨op.name, start.merge stop⟩
        else if op.name = "-" then grouped n start
        else fail (.unsupportedSection op.name op.span)

/-- Reads what follows the opening parenthesis at `start`: an expression or a tuple. -/
def grouped : Nat → Span → Parser Expr
  | 0, _ => outOfFuel
  | n + 1, start => do
    let first ← expr n
    match ← look (·.operator?) with
    | some (op, _) => fail (.unsupportedSection op.name op.span)
    | none =>
      if (← peek) = .punct .comma then
        let more ← moreElements n
        let stop ← expect (.punct .rparen)
        return .tuple (first :: more) (start.merge stop)
      else
        let _ ← expect (.punct .rparen)
        return first

/-- Reads expressions with commas between them. -/
def elements : Nat → Parser (List Expr)
  | 0 => outOfFuel
  | n + 1 => do
    let first ← expr n
    let more ← moreElements n
    return first :: more

/-- Reads expressions with a comma before each. -/
def moreElements : Nat → Parser (List Expr)
  | 0 => outOfFuel
  | n + 1 => do
    if ← eat (.punct .comma) then elements n else return []

end

/-- Reads a module, up to the end of the input. -/
def wholeModule (n : Nat) : Parser Module := do
  let start ← here
  let (name, ids) ← header
  let decls ← block n
  if (← peek) = .eof then return ⟨name, ids, decls, start.merge (← before)⟩
  else unexpected "end of input"

end Parser

/-- A bound on the nesting of the grammar's rules over a list of tokens: between two tokens that
are read, no more than a dozen rules are entered. -/
def nestingBound (tokens : List (Located Token)) : Nat := 12 * (tokens.length + 2)

/-- The answer of a parser to a list of tokens. -/
def Outcome.result {α : Type} : Outcome α → Except SyntaxError α
  | .done value _ => .ok value
  | .failed e => .error e
  | .exhausted => .error (.unexpectedEnd "expression")

/-- The module that the tokens make up. -/
def parseModule (tokens : List (Located Token)) : Except SyntaxError Module :=
  (Parser.wholeModule (nestingBound tokens) (.ofTokens tokens)).result

/-- The expression that the tokens start with. -/
def parseExpr (tokens : List (Located Token)) : Except SyntaxError Expr :=
  (Parser.expr (nestingBound tokens) (.ofTokens tokens)).result

end Lamina.Surface

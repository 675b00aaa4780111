import Lamina.Flat.Program

/-!
# C text

A flat program as C: declarations of all functions, the record of the global closures, the
functions, an initialiser that fills the record, and a main function that evaluates the entry and
prints its value unless it is the unit value.
-/

namespace Lamina.Flat

namespace CText

/-- The blanks in front of a line at a depth. -/
def indent (depth : Nat) : String := String.ofList (List.replicate (4 * depth) ' ')

/-- A line at a depth. -/
def line (depth : Nat) (text : String) : String := indent depth ++ text ++ "\n"

/-- Text inside a comment: the end mark of a comment is split. -/
def commentText (text : String) : String := String.ofList (split text.toList)
where
  /-- Puts a blank into every end mark. -/
  split : List Char → List Char
    | '*' :: '/' :: rest => '*' :: ' ' :: '/' :: split rest
    | c :: rest => c :: split rest
    | [] => []

/-- An integer constant. The least one cannot be written with a minus sign. -/
def intConstant (value : Int64) : String :=
  if value = Int64.minValue then "(-9223372036854775807LL - 1)"
  else toString value.toInt ++ "LL"

/-- The implementation of a callee. -/
def calleeSymbol (p : Program) : Callee → String
  | .function id => (p.functions[id]?.map (·.symbol)).getD ""
  | .intrinsic op => op.symbol

/-- An expression that makes a closure. -/
def closureText (symbol : String) (arity : Nat) : String :=
  "lz_alloc_closure((lz_code)" ++ symbol ++ ", " ++ toString arity ++ ")"

/-- A declaration of a variable with a value. -/
def setText (depth : Nat) (dst : Var) (value : String) : String :=
  line depth ("lz_val *" ++ dst.text ++ " = " ++ value ++ ";")

mutual

/-- The lines of an instruction. -/
def instrText (p : Program) (depth : Nat) : Instr → String
  | .int dst value => setText depth dst ("lz_alloc_int(" ++ intConstant value ++ ")")
  | .str dst text => setText depth dst ("lz_alloc_str(" ++ Text.quoteC text ++ ")")
  | .con dst tag name =>
    line depth ("lz_val *" ++ dst.text ++ " = lz_alloc_con(" ++ toString tag ++ "); /* " ++
      name ++ " */")
  | .copy dst src => setText depth dst src.text
  | .load dst slot =>
    setText depth dst ("lz_program." ++ (p.globals[slot]?.map (·.field)).getD "")
  | .closure dst callee arity => setText depth dst (closureText (calleeSymbol p callee) arity)
  | .call dst op args =>
    setText depth dst (op.symbol ++ "(" ++ ", ".intercalate (args.map Var.text) ++ ")")
  | .apply dst func arg =>
    setText depth dst ("lz_apply(" ++ func.text ++ ", " ++ arg.text ++ ")")
  | .branch dst cond onTrue trueResult onFalse falseResult =>
    line depth ("lz_val *" ++ dst.text ++ ";") ++
      line depth ("if (lz_truthy(" ++ cond.text ++ ")) \x7b") ++
      instrsText p (depth + 1) onTrue ++
      line (depth + 1) (dst.text ++ " = " ++ trueResult.text ++ ";") ++
      line depth "\x7d else \x7b" ++
      instrsText p (depth + 1) onFalse ++
      line (depth + 1) (dst.text ++ " = " ++ falseResult.text ++ ";") ++
      line depth "\x7d"

/-- The lines of instructions. -/
def instrsText (p : Program) (depth : Nat) : List Instr → String
  | [] => ""
  | i :: rest => instrText p depth i ++ instrsText p depth rest

end

/-- The declaration of a function. -/
def declarationText (f : Function) : String :=
  line 0 ("lz_val *" ++ f.symbol ++ "(" ++
    ", ".intercalate (f.allParams.map fun _ => "lz_val *") ++ ");")

/-- The definition of a function. -/
def functionText (p : Program) (f : Function) : String :=
  line 0 ("/* " ++ commentText f.displayName ++ " */") ++
    line 0 ("lz_val *" ++ f.symbol ++ "(" ++
      ", ".intercalate (f.allParams.map fun v => "lz_val *" ++ v.text) ++ ") \x7b") ++
    instrsText p 1 f.body.instrs ++
    line 1 ("return " ++ f.body.result.text ++ ";") ++
    line 0 "\x7d" ++ "\n"

/-- The record of the global closures. -/
def globalsText (p : Program) : String :=
  if p.globals.isEmpty then ""
  else
    line 0 "static struct \x7b" ++
      String.join (p.globals.toList.map fun slot => line 1 ("lz_val *" ++ slot.field ++ ";")) ++
      line 0 "\x7d lz_program;" ++ "\n"

/-- The initialiser of the global closures. -/
def initText (p : Program) : String :=
  line 0 "static void lz_init(void) \x7b" ++
    String.join (p.globals.toList.map fun slot =>
      line 1 ("lz_program." ++ slot.field ++ " = " ++
        closureText (calleeSymbol p (.function slot.function)) slot.arity ++ ";")) ++
    line 0 "\x7d" ++ "\n"

/-- The main function. -/
def mainText (p : Program) : String :=
  line 0 "int main(void) \x7b" ++
    line 1 "lz_init();" ++
    line 1 ("/* " ++ commentText p.entryName ++ " */") ++
    instrsText p 1 p.entry.instrs ++
    line 1 ("if (!lz_is_unit(" ++ p.entry.result.text ++ ")) \x7b") ++
    line 2 ("lz_print_val(" ++ p.entry.result.text ++ ");") ++
    line 2 "putchar('\\n');" ++
    line 1 "\x7d" ++
    line 1 "return 0;" ++
    line 0 "\x7d"

end CText

/-- The C text of a program. -/
def Program.toC (p : Program) : String :=
  CText.line 0 ("/* generated by lazyc from module " ++ CText.commentText p.moduleName ++ " */") ++
    CText.line 0 "#include <stdio.h>" ++
    CText.line 0 "#include \"lazyc_runtime.h\"" ++ "\n" ++
    String.join (p.functions.toList.map CText.declarationText) ++
    (if p.functions.isEmpty then "" else "\n") ++
    CText.globalsText p ++
    String.join (p.functions.toList.map (CText.functionText p)) ++
    CText.initText p ++
    CText.mainText p

end Lamina.Flat

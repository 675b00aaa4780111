import Lamina.Text.Class.Letter
import Lamina.Text.Class.Numeral

/-!
# Intrinsics

The operations that are built into the language: integer arithmetic, comparisons, showing a
value and printing a line. Each has a fixed arity, the names it goes by in a source text, the
name a core graph shows, and the name of the routine that carries it out in a native program.
-/

namespace Lamina

/-- The built-in operations. -/
inductive Intrinsic
  | plus | minus | mult | div | mod | eq | neq | lt | lte | gt | gte | negate | showValue
  | putStrLn
deriving DecidableEq, Inhabited, Repr

namespace Intrinsic

/-- Every intrinsic, in catalog order. -/
def all : List Intrinsic :=
  [plus, minus, mult, div, mod, eq, neq, lt, lte, gt, gte, negate, showValue, putStrLn]

/-- The name used in messages and in printed core graphs. -/
def name : Intrinsic → String
  | plus => "plus"
  | minus => "minus"
  | mult => "mult"
  | div => "div"
  | mod => "mod"
  | eq => "eq"
  | neq => "neq"
  | lt => "lt"
  | lte => "lte"
  | gt => "gt"
  | gte => "gte"
  | negate => "negate"
  | showValue => "show"
  | putStrLn => "putStrLn"

/-- How many arguments the operation takes. -/
def arity : Intrinsic → Nat
  | negate | showValue | putStrLn => 1
  | _ => 2

/-- The routine of the native runtime. -/
def symbol : Intrinsic → String
  | plus => "lz_plus"
  | minus => "lz_minus"
  | mult => "lz_mult"
  | div => "lz_div"
  | mod => "lz_mod"
  | eq => "lz_eq"
  | neq => "lz_neq"
  | lt => "lz_lt"
  | lte => "lz_lte"
  | gt => "lz_gt"
  | gte => "lz_gte"
  | negate => "lz_negate"
  | showValue => "lz_show"
  | putStrLn => "lz_put_str_ln"

/-- The names of the operation in a source text. -/
def sourceNames : Intrinsic → List String
  | plus => ["+"]
  | minus => ["-"]
  | mult => ["*"]
  | div => ["/", "div"]
  | mod => ["mod"]
  | eq => ["=="]
  | neq => ["/="]
  | lt => ["<"]
  | lte => ["<="]
  | gt => [">"]
  | gte => [">="]
  | negate => ["negate"]
  | showValue => ["show"]
  | putStrLn => ["putStrLn"]

/-- The intrinsic that a source name refers to. -/
def ofSourceName? (text : String) : Option Intrinsic :=
  all.find? (·.sourceNames.contains text)

/-- The intrinsic with a given name. -/
def ofName? (text : String) : Option Intrinsic :=
  all.find? (·.name == text)

end Intrinsic

/-- The operators that the prelude binds. The other operators of the catalog are reached only
when an operator is bound nowhere else. -/
def preludeOperators : List String := ["+", "-", "*", "==", "<=", ">="]

/-- Is a name written with symbols? It is if its first character is neither a letter nor a
numeral nor the underscore. -/
def isOperatorName (text : String) : Bool :=
  text.toList.head?.any fun c => !(Text.isLetter c || Text.isNumeral c) && c != '_'

end Lamina

import Lamina.Core.Printer

/-!
# Events

What the stages of a compilation report while they work. An event is data; its text is made only
when somebody wants to read it, since the text of a definition can be long.
-/

namespace Lamina

/-- How serious an event is, most serious first. -/
inductive Level
  | error | warn | info | debug | trace
deriving DecidableEq, Inhabited, Repr

namespace Level

/-- How much a level lets through: events up to this rank. -/
def rank : Level → Nat
  | error => 1
  | warn => 2
  | info => 3
  | debug => 4
  | trace => 5

/-- The word for a level. -/
def text : Level → String
  | error => "ERROR"
  | warn => "WARN"
  | info => "INFO"
  | debug => "DEBUG"
  | trace => "TRACE"

end Level

/-- Something that happened during a compilation. -/
inductive Event
  | parsed (declarations : Nat)
  /-- A binding got its node. -/
  | reserved (node : Core.NodeId) (name : String)
  | signatureIgnored (names : List String)
  | operatorFallback (name : String) (op : Intrinsic)
  | lowered (name : String) (definitions nodes : Nat)
  /-- A definition is complete. -/
  | defined (module : Core.Module) (name : String) (node : Core.NodeId)
  | lambdaCollected (node : Core.NodeId) (index : Nat)
  /-- The free variables of all functions are known. -/
  | freeSettled (rounds : Nat)
  | arityTooLarge (function : String) (arity limit : Nat)
  | converted (named lifted temporaries : Nat)
  | finished (calls deepest : Nat)
  /-- The executable is in place. -/
  | built (path : String)
deriving Inhabited

namespace Event

/-- How serious an event is. -/
def level : Event → Level
  | operatorFallback .. | arityTooLarge .. => .warn
  | built .. => .info
  | parsed .. | lowered .. | converted .. | finished .. => .debug
  | reserved .. | signatureIgnored .. | defined .. | lambdaCollected .. | freeSettled .. => .trace

/-- The part of the compiler that reports an event. -/
def target : Event → String
  | parsed .. => "lazyc"
  | reserved .. | signatureIgnored .. | operatorFallback .. | lowered .. | defined .. =>
    "lazyc::lower"
  | lambdaCollected .. | freeSettled .. | arityTooLarge .. | converted .. =>
    "lazyc::codegen::closure"
  | finished .. => "lazyc::interp"
  | built .. => "lazyc"

/-- What an event says. -/
def message : Event → String
  | parsed declarations => "parsed " ++ toString declarations ++ " declarations"
  | reserved node name => "reserved " ++ Core.nodeText node ++ " for '" ++ name ++ "'"
  | signatureIgnored names => "ignoring type signature for " ++ ", ".intercalate names
  | operatorFallback name op =>
    "operator '" ++ name ++ "' is not in scope; using intrinsic '" ++ op.name ++ "'"
  | lowered name definitions nodes =>
    "lowered module '" ++ name ++ "': " ++ toString definitions ++ " definitions, " ++
      toString nodes ++ " nodes"
  | defined module name node => name ++ " = " ++ module.printNode node
  | lambdaCollected node index =>
    "collected lambda " ++ Core.nodeText node ++ " as anonymous " ++ toString index
  | freeSettled rounds => "free variables settled after " ++ toString rounds ++ " rounds"
  | arityTooLarge function arity limit =>
    "function '" ++ function ++ "' has arity " ++ toString arity ++
      "; the runtime supports at most " ++ toString limit
  | converted named lifted temporaries =>
    "closure conversion: " ++ toString named ++ " named functions, " ++ toString lifted ++
      " lifted lambdas, " ++ toString temporaries ++ " temporaries"
  | finished calls deepest =>
    "program finished: " ++ toString calls ++ " calls, deepest nesting " ++ toString deepest
  | built path => "built " ++ path

end Event

end Lamina

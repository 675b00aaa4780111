import Lamina.Event
import Lamina.Regex.Basic
import Lamina.Text.Blank

/-!
# Log filters

Which events are written, and how. A filter is a list of directives, `level`, `target` or
`target=level`, with commas between them, and may end in a slash and a pattern that the message has
to match. The directive with the longest target that the event's target starts with decides.
-/

namespace Lamina.Command

/-- Which events of a target are written: those up to a level, or none. -/
structure Directive where
  /-- The target; without one, all targets. -/
  target : Option String
  most : Option Level
deriving DecidableEq, Inhabited, Repr

/-- Which events are written. -/
structure LogFilter where
  /-- The directives, those with a longer target later. -/
  directives : List Directive
  /-- What the message has to match. -/
  pattern : Option Regex.Expr
deriving Inhabited, Repr

namespace LogFilter

/-- The text without the blanks around it. -/
def trim (text : String) : String :=
  String.ofList
    ((text.toList.dropWhile Text.isBlank).reverse.dropWhile Text.isBlank).reverse

/-- The levels by name; `off` is none of them. Case does not matter. -/
def level? (text : String) : Option (Option Level) :=
  [("OFF", none), ("ERROR", some .error), ("WARN", some .warn), ("INFO", some .info),
    ("DEBUG", some .debug), ("TRACE", some .trace)].lookup text.toUpper

/-- What a directive that cannot be understood is answered with. -/
def complaint (what : String) : String :=
  "warning: invalid logging spec " ++ what ++ ", ignoring it\n"

/-- One directive. -/
def directive (text : String) : Except String Directive :=
  match text.splitOn "=" with
  | [target] =>
    match level? target with
    | some most => .ok ⟨none, most⟩
    | none => .ok ⟨some target, some .trace⟩
  | [target, most] =>
    if (trim most).isEmpty then .ok ⟨some target, some .trace⟩
    else
      match level? (trim most) with
      | some most => .ok ⟨some target, most⟩
      | none => .error (complaint ("'" ++ trim most ++ "'"))
  | _ => .error (complaint ("'" ++ text ++ "'"))

/-- Adds a directive; one for the same target is replaced. -/
def insert (directives : List Directive) (d : Directive) : List Directive :=
  if directives.any (·.target == d.target) then
    directives.map fun old => if old.target == d.target then d else old
  else directives ++ [d]

/-- The number of bytes of a directive's target. -/
def targetLength (d : Directive) : Nat := (d.target.map (·.utf8ByteSize)).getD 0

/-- Puts the directives in order. Without any, only errors are written. -/
def ofDirectives (directives : List Directive) (pattern : Option Regex.Expr) : LogFilter :=
  if directives.isEmpty then ⟨[⟨none, some .error⟩], pattern⟩
  else ⟨directives.mergeSort fun a b => decide (targetLength a ≤ targetLength b), pattern⟩

/-- The directives of a list, and complaints about those that cannot be understood. -/
def readDirectives : List String → List Directive × List String
  | [] => ([], [])
  | text :: rest =>
    let (directives, complaints) := readDirectives rest
    if (trim text).isEmpty then (directives, complaints)
    else
      match directive (trim text) with
      | .ok d => (d :: directives, complaints)
      | .error complaint => (directives, complaint :: complaints)

/-- What a pattern that is refused is answered with. -/
def patternComplaint (refusal : Regex.Refusal) : String :=
  "warning: invalid regex filter - " ++ refusal.message ++ ", ignoring it\n"

/-- Reads a filter from its directives and its pattern. A pattern that is refused is ignored. -/
def ofParts (directives : String) (pattern : Option String) : LogFilter × List String :=
  let (directives, complaints) := readDirectives (directives.splitOn ",")
  let directives := directives.foldl insert []
  match pattern.map Regex.compile with
  | none => (ofDirectives directives none, complaints)
  | some (.ok e) => (ofDirectives directives (some e), complaints)
  | some (.error refusal) =>
    (ofDirectives directives none, complaints ++ [patternComplaint refusal])

/-- Reads a filter. -/
def parse (spec : String) : LogFilter × List String :=
  match spec.splitOn "/" with
  | [directives] => ofParts directives none
  | [directives, pattern] => ofParts directives (some pattern)
  | _ => (ofDirectives [] none, [complaint ("'" ++ spec ++ "' (too many '/'s)")])

/-- The filter that lets everything up to a level through. -/
def upTo (level : Level) : LogFilter := ⟨[⟨none, some level⟩], none⟩

/-- Is the level of an event high enough? -/
def admits (filter : LogFilter) (event : Event) : Bool :=
  match filter.directives.reverse.find? fun d =>
      (d.target.map fun target => event.target.startsWith target).getD true with
  | some ⟨_, some most⟩ => event.level.rank ≤ most.rank
  | _ => false

/-- Is an event written? -/
def accepts (filter : LogFilter) (event : Event) : Bool :=
  filter.admits event && filter.pattern.all (·.isMatch event.message)

/-- The line of an event. Further lines of its message are indented. -/
def line (event : Event) : String :=
  let level := event.level.text
  let padding := String.ofList (List.replicate (5 - level.length) ' ')
  "[" ++ level ++ padding ++ " " ++ event.target ++ "] " ++
    "\n    ".intercalate (event.message.splitOn "\n") ++ "\n"

/-- The lines of the events that are written. -/
def lines (filter : LogFilter) (events : List Event) : String :=
  String.join ((events.filter filter.accepts).map line)

end LogFilter

end Lamina.Command

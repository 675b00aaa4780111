import Lamina.Pipeline

/-!
# Command-line arguments

The arguments are read from left to right. `--name value` and `--name=value` set an option, `-o`
and `-v` are short names, and short names without a value can be written together. After `--`
everything is a file name. An option takes effect when the next known argument or the end of the line
is reached; only then is its value looked at.
-/

namespace Lamina.Command

/-- What a command line asks for. -/
structure Arguments where
  /-- The source file. -/
  input : String
  emit : Emit := .c
  /-- The file for the output; the executable in a native build. -/
  output : Option String := none
  /-- Is a native executable built? -/
  build : Bool := false
  /-- The C compiler of a native build. -/
  cc : Option String := none
  limit : Nat := Machine.defaultLimit
  strict : Bool := false
  entry : String := "main"
  verbose : Bool := false
deriving Inhabited, Repr

/-- How the source file is to be compiled. -/
def Arguments.compileOptions (args : Arguments) : CompileOptions where
  emit := args.emit
  lower := { strict := args.strict, entry := args.entry }
  limit := args.limit

/-- Why a command line does not lead to a compilation. -/
inductive UsageError
  | missingInput
  | unknownArgument
  /-- A value is missing or is none of those that are possible. -/
  | invalidValue
  /-- A value is not a number that can be counted up to. -/
  | badNumber
  | repeated
  /-- A value for an argument that takes none. -/
  | unneededValue
  | helpWanted
  | versionWanted
deriving DecidableEq, Inhabited, Repr

/-- The parameters of the command line. -/
inductive Param
  | input | emit | output | build | cc | maxDepth | strictOperators | entry | verbose | help
  | version
deriving DecidableEq, Inhabited, Repr

namespace Param

/-- Does a parameter take a value? -/
def takesValue : Param → Bool
  | input | emit | output | cc | maxDepth | entry => true
  | build | strictOperators | verbose | help | version => false

/-- The parameters with a long name. -/
def longNames : List (String × Param) :=
  [("emit", emit), ("output", output), ("build", build), ("cc", cc), ("max-depth", maxDepth),
    ("strict-operators", strictOperators), ("entry", entry), ("verbose", verbose), ("help", help),
    ("version", version)]

/-- The parameters with a short name. -/
def shortNames : List (Char × Param) := [('o', output), ('v', verbose), ('h', help), ('V', version)]

end Param

/-- The names of the outputs. -/
def emitNames : List (String × Emit) :=
  [("core", .core), ("core-json", .coreJson), ("c", .c), ("run", .run)]

/-- A count: decimal digits, with a plus sign before them or without, below two to the sixty-fourth
power. -/
def count? (text : String) : Option Nat :=
  let digits :=
    match text.toList with
    | '+' :: rest => rest
    | all => all
  if digits.isEmpty || !digits.all Char.isDigit then none
  else
    let n := digits.foldl (fun n c => 10 * n + (c.toNat - '0'.toNat)) 0
    if n < 18446744073709551616 then some n else none

/-- Gives a parameter a value. -/
def Arguments.assign (args : Arguments) (value : String) : Param → Except UsageError Arguments
  | .input => if value.isEmpty then .error .invalidValue else .ok { args with input := value }
  | .output =>
    if value.isEmpty then .error .invalidValue else .ok { args with output := some value }
  | .emit =>
    match emitNames.lookup value with
    | some emit => .ok { args with emit }
    | none => .error .invalidValue
  | .cc => .ok { args with cc := some value }
  | .entry => .ok { args with entry := value }
  | .maxDepth =>
    match count? value with
    | some limit => .ok { args with limit }
    | none => .error .badNumber
  | .build => .ok { args with build := true }
  | .strictOperators => .ok { args with strict := true }
  | .verbose => .ok { args with verbose := true }
  | .help => .error .helpWanted
  | .version => .error .versionWanted

/-- What is known while the arguments are read. -/
structure ArgState where
  args : Arguments
  /-- The parameters that took effect. -/
  given : List Param
  /-- The parameter that takes effect next, with its value if that has been read. -/
  pending : Option (Param × Option String)
  /-- Was there a double dash? -/
  escaped : Bool
deriving Inhabited

namespace ArgState

/-- Nothing has been read. -/
def start : ArgState := ⟨{ input := "" }, [], none, false⟩

/-- Lets a parameter take effect, once. -/
def set (st : ArgState) (param : Param) (value : String) : Except UsageError ArgState :=
  if st.given.contains param then .error .repeated
  else do return { st with args := ← st.args.assign value param, given := param :: st.given }

/-- Lets the pending parameter take effect. -/
def settle (st : ArgState) : Except UsageError ArgState :=
  match st.pending with
  | none => .ok st
  | some (_, none) => .error .invalidValue
  | some (param, some value) => ArgState.set { st with pending := none } param value

/-- Lets the pending parameter take effect, then another one. -/
def give (st : ArgState) (param : Param) (value : String) : Except UsageError ArgState := do
  (← st.settle).set param value

/-- A parameter whose value is the next argument. -/
def await (st : ArgState) (param : Param) : Except UsageError ArgState := do
  return { ← st.settle with pending := some (param, none) }

/-- Reads an argument after a double dash: a name, and a value behind an equals sign. -/
def long (st : ArgState) (text : List Char) : Except UsageError ArgState :=
  let name := text.takeWhile (· ≠ '=')
  let value? := (text.dropWhile (· ≠ '=')).tail?
  match Param.longNames.lookup (String.ofList name) with
  | none => .error .unknownArgument
  | some param =>
    match param.takesValue, value? with
    | true, some value => st.give param (String.ofList value)
    | true, none => st.await param
    | false, some _ => .error .unneededValue
    | false, none => st.give param ""

/-- Reads short names; the rest behind one that takes a value is its value. -/
def short (st : ArgState) : List Char → Except UsageError ArgState
  | [] => .ok st
  | c :: rest =>
    match Param.shortNames.lookup c with
    | none => .error .unknownArgument
    | some param =>
      if param.takesValue then
        match rest with
        | [] => st.await param
        | '=' :: value => st.give param (String.ofList value)
        | value => st.give param (String.ofList value)
      else
        match st.give param "" with
        | .error e => .error e
        | .ok st => short st rest

/-- Was the source file named? -/
def hasInput (st : ArgState) : Bool :=
  st.given.contains .input || (st.pending.map (·.1)) == some .input

/-- Reads an argument that is no name: the value of the option before it, or the source file. -/
def plain (st : ArgState) (value : String) : Except UsageError ArgState :=
  match st.pending, st.escaped with
  | some (param, none), false => .ok { st with pending := some (param, some value) }
  | _, _ =>
    if st.hasInput then .error .unknownArgument
    else do return { ← st.settle with pending := some (.input, some value) }

/-- Reads one argument. -/
def step (st : ArgState) (arg : String) : Except UsageError ArgState :=
  if st.escaped then st.plain arg
  else
    match arg.toList with
    | ['-', '-'] => .ok { st with escaped := true }
    | '-' :: '-' :: text => st.long text
    | '-' :: c :: text => st.short (c :: text)
    | _ => st.plain arg

/-- The arguments, once all have been read. -/
def finish (st : ArgState) : Except UsageError Arguments := do
  let st ← st.settle
  if st.given.contains .input then return st.args else throw .missingInput

end ArgState

/-- What a command line asks for. -/
def Arguments.parse (args : List String) : Except UsageError Arguments := do
  (← args.foldlM ArgState.step .start).finish

end Lamina.Command

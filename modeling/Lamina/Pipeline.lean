import Lamina.Core.Export
import Lamina.Core.Lowering
import Lamina.Diagnostic
import Lamina.Files
import Lamina.Flat.Conversion
import Lamina.Flat.CText
import Lamina.Layout
import Lamina.Machine.Run
import Lamina.Surface.Parser
import Lamina.Token.Lexer

/-!
# The pipeline

From source text to the output that was asked for: tokens, layout, syntax tree, core graph, flat
program, and then C text or a run. The first error ends it; what was reported before stays.
-/

namespace Lamina

/-- The answer of a stage, and what it reported. -/
structure Report (α : Type) where
  result : Except Error α
  events : List Event

namespace Report

/-- The answer of a stage whose errors are wrapped by `wrap`. -/
def of {α ε : Type} (wrap : ε → Error) (answer : Except ε α × List Event) : Report α :=
  ⟨answer.1.mapError wrap, answer.2⟩

instance : Monad Report where
  pure a := ⟨.ok a, []⟩
  bind r f :=
    match r.result with
    | .error e => ⟨.error e, r.events⟩
    | .ok a =>
      let next := f a
      ⟨next.result, r.events ++ next.events⟩

end Report

/-- What a compilation yields. -/
inductive Emit
  /-- The printed core graph. -/
  | core
  | coreJson
  | c
  /-- What the program prints when it is run. -/
  | run
deriving DecidableEq, Inhabited, Repr

/-- How a source text is compiled. -/
structure CompileOptions where
  emit : Emit := .c
  lower : Core.LowerOptions := {}
  /-- Are intrinsics with all their arguments called directly? -/
  direct : Bool := true
  /-- How many calls may nest in a run. -/
  limit : Nat := Machine.defaultLimit
deriving Inhabited, Repr

/-- The syntax tree of a source text. -/
def parseSource (source : String) : Except SyntaxError Surface.Module := do
  Surface.parseModule (← Layout.resolve source (← Token.lex source))

/-- The core graph of a source text. -/
def lowerSource (options : Core.LowerOptions) (source : String) : Report Core.Module :=
  match parseSource source with
  | .error e => ⟨.error (.parse e), []⟩
  | .ok tree => do
    ⟨.ok (), [.parsed tree.decls.length]⟩
    .of .lower (Core.lowerModule options tree)

/-- The flat program of a source text. -/
def flattenSource (options : CompileOptions) (source : String) : Report Flat.Program := do
  let m ← lowerSource options.lower source
  .of .convert (Flat.convert options.direct m)

/-- Compiles a source text to the output that was asked for. -/
def compile (options : CompileOptions) (source : String) : Report String :=
  match options.emit with
  | .core => return (← lowerSource options.lower source).print
  | .coreJson => return (← lowerSource options.lower source).toJson.text
  | .c => return (← flattenSource options source).toC
  | .run => do
    let program ← flattenSource options source
    return (← .of .run (Machine.run options.limit program)).transcript

/-- Compiles the source text in a file, if the file can be read. -/
def compileFile (options : CompileOptions) (bytes : Except FileError ByteArray) : Report String :=
  match bytes >>= decodeText with
  | .error e => ⟨.error (.io e.message), []⟩
  | .ok source => compile options source

end Lamina

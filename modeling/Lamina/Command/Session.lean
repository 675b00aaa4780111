import Lamina.Command.Arguments
import Lamina.Command.LogFilter
import Lamina.Native.Toolchain

/-!
# A session

What the command does: it reads the source file, compiles it, and prints the output, writes it to a
file or builds an executable. What it needs from the outside is a host. The host of the executable
is the operating system; a workspace in memory is another.
-/

namespace Lamina.Command

/-- What a session needs from the outside. -/
structure Host (m : Type → Type) where
  /-- The bytes of a file. -/
  read : String → m (Except FileError ByteArray)
  /-- Writes a text to a file. -/
  write : String → String → m (Except FileError Unit)
  /-- Compiles a flat program to an executable with the C compiler given. -/
  build : (cc : String) → Flat.Program → (path : String) → m (Except Native.BuildError Unit)
  out : String → m Unit
  err : String → m Unit

/-- The part of the environment that a session looks at. -/
structure Environment where
  /-- The log filter. -/
  log : Option String
  /-- The C compiler. -/
  cc : Option String
deriving Inhabited, Repr

variable {m : Type → Type} [Monad m]

namespace Session

/-- The log filter of a session. Its complaints are printed. -/
def logFilter (host : Host m) (env : Environment) (args : Arguments) : m LogFilter := do
  match env.log with
  | some spec =>
    let (filter, complaints) := LogFilter.parse spec
    host.err (String.join complaints)
    return filter
  | none => return .upTo (if args.verbose then .debug else .warn)

/-- Prints what a stage reported, then goes on with its answer, or shows its error and ends. -/
def proceed {α : Type} (host : Host m) (filter : LogFilter) (source : String) (report : Report α)
    (next : α → m Nat) : m Nat := do
  host.err (filter.lines report.events)
  match report.result with
  | .ok a => next a
  | .error e =>
    host.err (e.render source)
    return 1

/-- Builds the executable of a source text. -/
def buildProgram (host : Host m) (env : Environment) (filter : LogFilter) (args : Arguments)
    (source : String) : m Nat :=
  proceed host filter source (flattenSource args.compileOptions source) fun program => do
    let path := args.output.getD "a.out"
    let built ← host.build (Native.compilerCommand args.cc env.cc) program path
    let report : Report Unit :=
      match built with
      | .ok () => ⟨.ok (), [.built path]⟩
      | .error e => ⟨.error (.convert (.toolchain e.message)), []⟩
    proceed host filter source report fun () => do
      host.err ("wrote binary: " ++ path ++ "\n")
      return 0

/-- Compiles a source text and delivers the output. -/
def compileText (host : Host m) (filter : LogFilter) (args : Arguments) (source : String) : m Nat :=
  proceed host filter source (compile args.compileOptions source) fun output => do
    match args.output with
    | none =>
      host.out output
      return 0
    | some path =>
      match ← host.write path output with
      | .ok () => return 0
      | .error e =>
        host.err ("error: cannot write '" ++ path ++ "': " ++ e.message ++ "\n")
        return 1

/-- Carries out what the arguments ask for. Answers with the exit code. -/
def run (host : Host m) (env : Environment) (args : Arguments) : m Nat := do
  let filter ← logFilter host env args
  match (← host.read args.input) >>= decodeText with
  | .error e =>
    host.err ("error: cannot read '" ++ args.input ++ "': " ++ e.message ++ "\n")
    return 1
  | .ok source =>
    if args.build then buildProgram host env filter args source
    else compileText host filter args source

end Session

/-- The text that help consists of. -/
def usage : String :=
  "Compiles a small lazy functional language to C\n\n" ++
  "Usage: lazyc [OPTIONS] <INPUT>\n\n" ++
  "Arguments:\n" ++
  "  <INPUT>  Source file to compile\n\n" ++
  "Options:\n" ++
  "      --emit <EMIT>            What to produce [default: c] " ++
    "[possible values: core, core-json, c, run]\n" ++
  "  -o, --output <OUTPUT>        Write output to this file instead of stdout " ++
    "(the executable with --build)\n" ++
  "      --build                  Build a native executable with the C compiler\n" ++
  "      --cc <CC>                C compiler for --build (default: $LAZYC_CC, else cc)\n" ++
  "      --max-depth <MAX_DEPTH>  Maximum call depth for --emit run [default: 1000]\n" ++
  "      --strict-operators       Report unbound operators instead of falling back to built-ins\n" ++
  "      --entry <ENTRY>          Name of the entry binding [default: main]\n" ++
  "  -v, --verbose                Log pipeline progress (RUST_LOG overrides)\n" ++
  "  -h, --help                   Print help\n" ++
  "  -V, --version                Print version\n"

/-- The whole command: reads its arguments and runs the session. Answers with the exit code. -/
def runCommand (host : Host m) (env : Environment) (args : List String) : m Nat := do
  match Arguments.parse args with
  | .ok args => Session.run host env args
  | .error .helpWanted =>
    host.out usage
    return 0
  | .error .versionWanted =>
    host.out "lazyc 0.1.0\n"
    return 0
  | .error _ =>
    host.err "error: invalid arguments\n\nFor more information, try '--help'.\n"
    return 2

end Lamina.Command

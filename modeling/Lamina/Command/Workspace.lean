import Lamina.Command.Session
import Lamina.Native.Run

/-!
# Workspaces

A directory in memory, with a C compiler beside it. It is a host: sessions can be run in it, and the
executables they build can be run too. An executable is kept as the flat program it was built from.
-/

namespace Lamina.Command

/-- What a file holds. -/
inductive FileBody
  | bytes (contents : ByteArray)
  | executable (program : Flat.Program)
deriving Inhabited

/-- The files of the directory, and what was printed. -/
structure Workspace where
  files : List (String × FileBody)
  stdout : String := ""
  stderr : String := ""
deriving Inhabited

/-- What a path leads to. -/
inductive Place
  /-- A file of the directory, which may be missing. -/
  | file (name : String)
  /-- A place for a file in the directory, with a slash behind its name. -/
  | fileSlash (name : String)
  | directory
  /-- A place below a file. -/
  | belowFile
  /-- A place in a directory that does not exist. -/
  | nowhere
  /-- The file that is always empty. -/
  | null
deriving DecidableEq, Inhabited, Repr

namespace Workspace

/-- The directories outside the workspace that every system has. -/
def systemDirectories : List String :=
  ["", "bin", "dev", "etc", "home", "lib", "opt", "proc", "root", "sys", "tmp", "usr", "var"]

/-- Is there a file of this name? -/
def hasFile (w : Workspace) (name : String) : Bool := w.files.any (·.1 == name)

/-- What a path leads to. -/
def resolve (w : Workspace) (path : String) : Place :=
  let parts := path.splitOn "/"
  let names := parts.filter fun part => part ≠ "" ∧ part ≠ "."
  let slashed := parts.getLast? = some "" ∨ parts.getLast? = some "."
  if path.startsWith "/" then
    match names with
    | [] => .directory
    | ["dev", "null"] => .null
    | [name] => if systemDirectories.contains name then .directory else .file path
    | [top, _] => if systemDirectories.contains top then .file path else .nowhere
    | _ => .nowhere
  else
    match names with
    | [] => .directory
    | [name] =>
      if name = ".." then .directory
      else if slashed then (if w.hasFile name then .belowFile else .fileSlash name)
      else .file name
    | name :: _ => if w.hasFile name then .belowFile else .nowhere

/-- The contents of a file. -/
def read (w : Workspace) (path : String) : Except FileError ByteArray :=
  match w.resolve path with
  | .file name =>
    match w.files.lookup name with
    | some (.bytes contents) => .ok contents
    | some (.executable _) => .error .notText
    | none => .error .missing
  | .null => .ok .empty
  | .directory => .error .isDirectory
  | .belowFile => .error .notDirectory
  | .fileSlash _ | .nowhere => .error .missing

/-- Puts a file into the directory. -/
def put (w : Workspace) (name : String) (body : FileBody) : Workspace :=
  { w with files := (name, body) :: w.files.filter fun file => file.1 != name }

/-- Writes a file. -/
def store (w : Workspace) (path : String) (body : FileBody) : Except FileError Workspace :=
  match w.resolve path with
  | .file name => .ok (w.put name body)
  | .null => .ok w
  | .directory | .fileSlash _ => .error .isDirectory
  | .belowFile => .error .notDirectory
  | .nowhere => .error .missing

/-- What a command does when it is asked to compile. -/
inductive Tool
  | compiler
  /-- It succeeds and does nothing. -/
  | idle
  /-- It fails with an exit code. -/
  | failing (code : Nat)
deriving DecidableEq, Inhabited, Repr

/-- The commands that can be started. -/
def tools : List (String × Tool) :=
  [("cc", .compiler), ("gcc", .compiler), ("c99", .compiler), ("true", .idle),
    ("false", .failing 1)]

/-- The command that a name stands for: one without a directory, or one among the system's. -/
def tool? (cc : String) : Option Tool :=
  (["", "/usr/bin/", "/bin/"].findSome? fun place =>
    tools.findSome? fun (name, tool) => if cc = place ++ name then some tool else none)

/-- Why a name cannot be started. -/
def notStarted (w : Workspace) (cc : String) : String :=
  if cc.toList.contains '/' then
    match w.resolve cc with
    | .file name => if w.hasFile name then "Permission denied (os error 13)" else FileError.missing.message
    | .directory | .null => "Permission denied (os error 13)"
    | .belowFile => FileError.notDirectory.message
    | .fileSlash _ | .nowhere => FileError.missing.message
  else FileError.missing.message

/-- What the linker says when it cannot write the executable. -/
def linkerMessage (path : String) (e : FileError) : String :=
  let reason := String.ofList (e.message.toList.takeWhile (· ≠ '(')).reverse.tail.reverse
  "/usr/bin/ld: cannot open output file " ++ path ++ ": " ++ reason ++
    "\ncollect2: error: ld returned 1 exit status\n"

/-- Builds an executable. -/
def build (w : Workspace) (cc : String) (program : Flat.Program) (path : String) :
    Except Native.BuildError Unit × Workspace :=
  match tool? cc with
  | none => (.error (.notStarted cc (w.notStarted cc)), w)
  | some .idle => (.ok (), w)
  | some (.failing code) => (.error (.failed cc code), w)
  | some .compiler =>
    match w.store path (.executable program) with
    | .ok w => (.ok (), w)
    | .error e =>
      (.error (.failed cc 1), { w with stderr := w.stderr ++ linkerMessage path e })

/-- The workspace as a host. -/
def host : Host (StateM Workspace) where
  read path := return (← get).read path
  write path text := do
    match (← get).store path (.bytes text.toUTF8) with
    | .ok w =>
      set w
      return .ok ()
    | .error e => return .error e
  build cc program path := modifyGet fun w => w.build cc program path
  out text := modify fun w => { w with stdout := w.stdout ++ text }
  err text := modify fun w => { w with stderr := w.stderr ++ text }

/-- Runs the command in the workspace. Answers with the exit code and the workspace after it. -/
def command (w : Workspace) (env : Environment) (args : List String) : Nat × Workspace :=
  (runCommand host env args).run w

/-- Runs an executable of the workspace, if there is one at the path. -/
def execute (w : Workspace) (path : String) : Option Native.Exit :=
  match w.resolve path with
  | .file name =>
    match w.files.lookup name with
    | some (.executable program) => some (Native.run program)
    | _ => none
  | _ => none

end Workspace

/-- Compiles a source text, builds it with the C compiler given, and runs the executable. -/
def runNatively (options : CompileOptions) (cc : String) (source : String) : Report Native.Exit := do
  let program ← flattenSource options source
  let (built, w) := (Workspace.mk [] "" "").build cc program "program"
  match built with
  | .error e => ⟨.error (.convert (.toolchain e.message)), []⟩
  | .ok () =>
    match w.execute "program" with
    | some exit => return exit
    | none => ⟨.error (.io FileError.missing.message), []⟩

end Lamina.Command

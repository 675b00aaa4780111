import Lamina.Core.Module
import Lamina.Text.Quoted

/-!
# Printed core

Each definition is printed as a tree of blocks. A reference to a definition prints as its name,
`&name`; one to an intrinsic as `&+ => #plus`; one to a parameter as `$x`. A reference to a local
binding prints the name and then the bound tree. A node on the path from the root to itself prints
as `<cycle n7>`, so the text is finite, and it depends on the module alone.
-/

namespace Lamina.Core

namespace Printer

/-- The blanks in front of a line at a depth. -/
def indent (depth : Nat) : String := String.ofList (List.replicate (2 * depth) ' ')

/-- The text of a literal. -/
def literal : Literal → String
  | .int value => toString value.toInt
  | .str text => "\"" ++ Text.escapeAscii text ++ "\""

/-- A block: its head, then its lines, one level deeper. -/
def block (head : String) (depth : Nat) (lines : List String) : String :=
  head ++ " \x7b\n" ++ String.join (lines.map fun line => indent (depth + 1) ++ line ++ "\n") ++
    indent depth ++ "\x7d"

/-- The nodes that are printed inside a node, in order. -/
def nested (m : Module) (id : NodeId) : List NodeId :=
  match m.kind id with
  | .indirection target =>
    match m.kind target with
    | .placeholder | .intrinsic _ => []
    | _ => if m.isDefinition target then [] else [target]
  | kind => kind.children

/-- The depth of what is printed inside a node: a reference is no block. -/
def innerDepth (m : Module) (depth : Nat) (id : NodeId) : Nat :=
  match m.kind id with
  | .indirection _ => depth
  | _ => depth + 1

/-- The text of a node, given those of the nodes inside it. -/
def compose (m : Module) (depth : Nat) (id : NodeId) (inner : List String) : String :=
  let fields (labels : List String) : List String :=
    List.zipWith (fun label text => label ++ " = " ++ text) labels inner
  match m.kind id with
  | .noForm => "NO_FORM"
  | .placeholder => "PLACEHOLDER " ++ m.label id
  | .constructor name => "CON " ++ name
  | .indirection target =>
    match m.kind target with
    | .placeholder => "$" ++ m.label target
    | .intrinsic op => "&" ++ m.label target ++ " => #" ++ op.name
    | _ =>
      if m.isDefinition target then "&" ++ m.label target
      else "&" ++ m.label target ++ " => " ++ String.join inner
  | .intrinsic op => "#" ++ op.name
  | .literal value => literal value
  | .application .. => block "APPLY" depth (fields ["fn", "arg"])
  | .lambda .. =>
    block ("LAMBDA (" ++ ", ".intercalate ((m.params id).map m.label) ++ ")") depth
      (fields ["body"])
  | .conditional .. => block "IF" depth (fields ["cond", "then", "else"])

/-- The text of a node, unless more than `limit` nodes are printed inside one another. The state lists
the nodes that are being printed, the innermost first; a node that is among them is not printed
again. -/
def node (m : Module) : (limit depth : Nat) → NodeId → StateT (List NodeId) Option String
  | 0, _, _ => failure
  | limit + 1, depth, id => do
    let path ← get
    if path.contains id then return "<cycle " ++ nodeText id ++ ">"
    set (id :: path)
    let inner ← (nested m id).mapM (node m limit (innerDepth m depth id))
    modify (·.erase id)
    return compose m depth id inner

end Printer

namespace Module

/-- The text of one node. No node is printed inside itself, so the limit is not met. -/
def printNode (m : Module) (id : NodeId) : String :=
  ((Printer.node m (m.graph.size + 1) 0 id).run' []).getD ""

/-- The text of a module: each definition in source order. -/
def print (m : Module) : String :=
  "-- core module: " ++ m.name ++ "\n" ++
    String.join (m.definitions.map fun (name, id) => name ++ " = " ++ m.printNode id ++ "\n")

end Module

end Lamina.Core

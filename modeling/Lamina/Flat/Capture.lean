import Lamina.Core.Reach
import Lamina.Event

/-!
# Captured variables

Which lambdas of a core graph become functions of their own, and which parameters of enclosing
lambdas each of them captures.

A lambda that is a top-level definition is a global; every other lambda that the definitions lead
to is lifted, in the order in which a walk over the definitions meets it. A lifted lambda captures
the parameters that its body mentions and that are not its own. A body that refers to another
lifted lambda has to build its closure, so it mentions what that one captures; the captures are
therefore computed in rounds until nothing changes.
-/

namespace Lamina.Flat

open Lamina.Core (NodeId NodeKind Module)

/-- The top-level definitions that are functions, in source order. -/
def globalsOf (m : Module) : List (NodeId × String) :=
  m.definitions.filterMap fun (name, id) =>
    match m.kind id with
    | .lambda .. => some (id, name)
    | _ => none

/-- The lambdas found so far, and the local values that the walk of the current definition has
entered. -/
structure Found where
  lifted : List NodeId
  entered : List NodeId

/-- Does a reference to a node of this kind lead to code of its own? -/
def NodeKind.isLocalValue : NodeKind → Bool
  | .placeholder | .intrinsic _ | .constructor _ | .literal _ | .noForm => false
  | _ => true

/-- Walks a node in evaluation order and adds the lambdas it meets. References to definitions are
not followed, other references once a walk. -/
def collect (m : Module) (globals : List (NodeId × String)) : (fuel : Nat) → NodeId → Found → Found
  | 0, _, found => found
  | fuel + 1, id, found =>
    match m.kind id with
    | .lambda _ body =>
      if globals.any (·.1 == id) || found.lifted.contains id then found
      else collect m globals fuel body { found with lifted := found.lifted ++ [id] }
    | .application func arg =>
      collect m globals fuel arg (collect m globals fuel func found)
    | .conditional cond onTrue onFalse =>
      collect m globals fuel onFalse
        (collect m globals fuel onTrue (collect m globals fuel cond found))
    | .indirection target =>
      if m.isDefinition target || !NodeKind.isLocalValue (m.kind target)
          || found.entered.contains target then found
      else collect m globals fuel target { found with entered := target :: found.entered }
    | _ => found

/-- A bound on the nesting of a walk: each local value is entered once, and below it no more nodes
nest than there are. -/
def walkBound (m : Module) : Nat := (m.graph.size + 1) * (m.graph.size + 2)

/-- The lambdas that are lifted, in the order in which they are found. -/
def liftedOf (m : Module) (globals : List (NodeId × String)) : List NodeId :=
  m.definitions.foldl (fun lifted (_, root) =>
    let start :=
      match m.kind root with
      | .lambda _ body => body
      | _ => root
    (collect m globals (walkBound m) start ⟨lifted, []⟩).lifted) []

/-- The captures of the lifted lambdas, each in ascending order of nodes. -/
abbrev Captures := List (NodeId × List NodeId)

/-- What a lambda captures. A lambda that is not lifted captures nothing. -/
def Captures.of (captures : Captures) (id : NodeId) : List NodeId :=
  (captures.lookup id).getD []

/-- The nodes whose evaluation belongs to that of a node. Definitions and lambdas have an evaluation
of their own. -/
def evaluated (m : Module) (id : NodeId) : List NodeId :=
  match m.kind id with
  | .application func arg => [func, arg]
  | .conditional cond onTrue onFalse => [cond, onTrue, onFalse]
  | .indirection target => if m.isDefinition target then [] else [target]
  | _ => []

/-- The parameters that the body of a lambda mentions, given the captures known so far, less its
own. -/
def mentioned (m : Module) (captures : Captures) (id : NodeId) : List NodeId :=
  match m.kind id with
  | .lambda _ body =>
    let own := m.params id
    let all := (Core.reachable (evaluated m) m.graph.size [body]).flatMap fun node =>
      match m.kind node with
      | .placeholder => [node]
      | .lambda .. => captures.of node
      | _ => []
    (List.range m.graph.size).filter fun node => all.contains node && !own.contains node
  | _ => []

/-- One round: computes each lambda's captures anew. Also tells whether something changed. -/
def captureRound (m : Module) : List NodeId → Captures → Captures × Bool
  | [], captures => (captures, false)
  | id :: rest, captures =>
    let now := mentioned m captures id
    if captures.lookup id = some now then captureRound m rest captures
    else
      let update := captures.map fun (node, old) => if node == id then (node, now) else (node, old)
      ((captureRound m rest update).1, true)

/-- Rounds until nothing changes, and how many there were. Captures only grow, so there are no more
rounds than there are pairs of a lambda and a node. -/
def captureRounds (m : Module) (lifted : List NodeId) :
    (fuel : Nat) → (round : Nat) → Captures → Captures × Nat
  | 0, round, captures => (captures, round)
  | fuel + 1, round, captures =>
    let (update, changed) := captureRound m lifted captures
    if changed then captureRounds m lifted fuel (round + 1) update else (update, round + 1)

/-- The captures of the lifted lambdas, and in how many rounds they were found. -/
def capturesOf (m : Module) (lifted : List NodeId) : Captures × Nat :=
  captureRounds m lifted (lifted.length * m.graph.size + 2) 0 (lifted.map (·, []))

/-- What the conversion of a module goes by. -/
structure Plan where
  module : Module
  /-- Is an intrinsic with all its arguments called directly? -/
  direct : Bool
  globals : List (NodeId × String)
  lifted : List NodeId
  captures : Captures

namespace Plan

/-- The last place of a node in a list. -/
def lastIndex? (nodes : List NodeId) (id : NodeId) : Option Nat :=
  (nodes.reverse.idxOf? id).map fun i => nodes.length - 1 - i

/-- The global slot of a lambda. -/
def slot? (p : Plan) (id : NodeId) : Option Nat := lastIndex? (p.globals.map (·.1)) id

/-- The function that a lambda becomes: globals first, then the lifted ones. -/
def function? (p : Plan) (id : NodeId) : Option Nat :=
  lastIndex? (p.globals.map (·.1) ++ p.lifted) id

/-- How many parameters the function of a lambda has. -/
def arity (p : Plan) (id : NodeId) : Nat :=
  (p.captures.of id).length + (p.module.params id).length

end Plan

/-- The plan for a module, and what there is to report about it. -/
def planOf (m : Module) (direct : Bool) : Plan × List Event :=
  let globals := globalsOf m
  let lifted := liftedOf m globals
  let (captures, rounds) := capturesOf m lifted
  (⟨m, direct, globals, lifted, captures⟩,
    lifted.zipIdx.map (fun (id, index) => .lambdaCollected id index) ++ [.freeSettled rounds])

end Lamina.Flat

import Lamina.Core.Reach
import Lamina.Text.Json

/-!
# Exported core

A module as JSON: its name, its entry, its definitions, and every node that they lead to, in
ascending order of ids. Shared nodes appear once, and edges are given by id.
-/

namespace Lamina.Core

open Lamina.Text (Json)

/-- The fields of a node that depend on its kind. -/
def NodeKind.fields (m : Module) (id : NodeId) : NodeKind → List (String × Json)
  | noForm | placeholder => []
  | constructor name => [("constructor", .str name)]
  | indirection target => [("target", .ofNat target)]
  | intrinsic op => [("intrinsic", .str op.name), ("arity", .ofNat op.arity)]
  | application func arg => [("func", .ofNat func), ("arg", .ofNat arg)]
  | lambda _ body => [("params", .arr ((m.params id).map .ofNat)), ("body", .ofNat body)]
  | literal (.int value) => [("int", .num value.toInt)]
  | literal (.str text) => [("string", .str text)]
  | conditional cond onTrue onFalse =>
    [("cond", .ofNat cond), ("then", .ofNat onTrue), ("else", .ofNat onFalse)]

namespace Module

/-- One node as JSON. -/
def exportNode (m : Module) (id : NodeId) : Json :=
  .ofFields ([("id", .ofNat id), ("name", ((m.graph.name id).map .str).getD .null),
    ("kind", .str (m.kind id).tag)] ++ (m.kind id).fields m id)

/-- A module as JSON. -/
def toJson (m : Module) : Json :=
  .ofFields
    [("module", .str m.name),
     ("entry", .str m.entry),
     ("definitions", .arr (m.definitions.map fun (name, id) =>
        .ofFields [("name", .str name), ("node", .ofNat id)])),
     ("nodes", .arr (m.exportedNodes.map m.exportNode))]

end Module

end Lamina.Core

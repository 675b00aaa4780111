import Mathlib.Data.List.Forall2
import Lamina.Core.Lowering
import Lamina.Proofs.Surface.Spelled

/-!
# What a lowered graph is

A relation between the expressions of a source text and the nodes of a graph. It says where each
name leads and which node each part of an expression has, and nothing of the order in which the
nodes were made. That lowering makes graphs that are so related is proved in
`Lamina.Proofs.Core.Lowering`.
-/

namespace Lamina.Core

open Lamina.Surface (Ident Expr Decl SourceName)

/-- The bindings in scope, innermost first. -/
abbrev Names := List Bindings

namespace Names

/-- The node that a name stands for: the innermost binding counts. -/
def find? (names : Names) (name : String) : Option NodeId := names.findSome? (·.lookup name)

/-- The nodes of all bindings. -/
def nodes (names : Names) : List NodeId := names.flatMap fun frame => frame.map (·.2)

theorem mem_nodes_of_find {names : Names} {name node} (h : names.find? name = some node) :
    node ∈ names.nodes := by
  obtain ⟨frame, hframe, hlookup⟩ := List.exists_of_findSome?_eq_some h
  obtain ⟨before, after, rfl, _⟩ := List.lookup_eq_some_iff.mp hlookup
  exact List.mem_flatMap.mpr ⟨_, hframe, by simp⟩

end Names

/-- What a use of a name is lowered to. A name that is bound nowhere is that of an intrinsic. -/
inductive Resolves (names : Names) (name : String) : NodeKind → Prop
  | bound {target} (h : names.find? name = some target) : Resolves names name (.indirection target)
  | catalog {op} (h : names.find? name = none) (hop : Intrinsic.ofSourceName? name = some op) :
      Resolves names name (.intrinsic op)

/-- The name under which a parameter is bound; a wildcard is bound under none that can be used. -/
def paramKey (index : Nat) (param : Ident) : String :=
  if param.name = "_" then "_@" ++ toString index else param.name

/-- The names under which parameters are bound, the first of which has the index given. -/
def paramKeys : Nat → List Ident → List String
  | _, [] => []
  | index, param :: rest => paramKey index param :: paramKeys (index + 1) rest

/-- The bindings of the parameters of a lambda that stands where `names` are in scope: each has a
placeholder of its own. -/
structure Parameters (m : Module) (names : Names) (params : List Ident) (frame : Bindings) :
    Prop where
  keys : frame.map (·.1) = paramKeys 0 params
  placeholder : ∀ binding ∈ frame, m.kind binding.2 = .placeholder
  nodup : (frame.map (·.2)).Nodup
  fresh : ∀ binding ∈ frame, binding.2 ∉ names.nodes

/-- A scope was opened directly inside another. -/
structure ScopeTree.Inner (t : ScopeTree) (kind : ScopeKind) (outer inner : ScopeId) : Prop where
  kind : t.kind inner = kind
  parent : t.parent inner = some outer

mutual

/-- An expression that is written in the scope `inside`, where `names` are visible, is lowered to the
contents of a node. -/
inductive Lowered (m : Module) : ScopeId → Names → Expr → NodeKind → Prop
  | var {inside names id kind} (h : Resolves names id.name kind) :
      Lowered m inside names (.var id) kind
  | con {inside names id} : Lowered m inside names (.con id) (.constructor id.name)
  | lit {inside names value span} : Lowered m inside names (.lit value span) (.literal value)
  | neg {inside names e span func arg} (hfunc : m.kind func = .intrinsic .negate)
      (harg : Lowered m inside names e (m.kind arg)) :
      Lowered m inside names (.neg e span) (.application func arg)
  | binOp {inside names op l r span func lhs applied rhs}
      (hop : Resolves names op.name (m.kind func)) (hlhs : Lowered m inside names l (m.kind lhs))
      (happlied : m.kind applied = .application func lhs)
      (hrhs : Lowered m inside names r (m.kind rhs)) :
      Lowered m inside names (.binOp op l r span) (.application applied rhs)
  | app {inside names f a span func arg} (hfunc : Lowered m inside names f (m.kind func))
      (harg : Lowered m inside names a (m.kind arg)) :
      Lowered m inside names (.app f a span) (.application func arg)
  | cond {inside names c t e span test onTrue onFalse}
      (htest : Lowered m inside names c (m.kind test))
      (htrue : Lowered m inside names t (m.kind onTrue))
      (hfalse : Lowered m inside names e (m.kind onFalse)) :
      Lowered m inside names (.cond c t e span) (.conditional test onTrue onFalse)
  | letIn {inside inner} {names : Names} {decls e span frame kind}
      (hinner : m.scopes.Inner .letScope inside inner)
      (hblock : LoweredBlock m inner (frame :: names) decls frame)
      (hbody : Lowered m inner (frame :: names) e kind) :
      Lowered m inside names (.letIn decls e span) kind
  | lambda {inside names params e span kind} (h : LoweredLambda m inside names params e kind) :
      Lowered m inside names (.lambda params e span) kind

/-- A function is lowered to a lambda over the scope of its parameters. -/
inductive LoweredLambda (m : Module) : ScopeId → Names → List Ident → Expr → NodeKind → Prop
  | mk {inside scope names params e body} (hinner : m.scopes.Inner .paramScope inside scope)
      (hparams : Parameters m names params (m.scopes.bindings scope))
      (hbody : Lowered m scope (m.scopes.bindings scope :: names) e (m.kind body)) :
      LoweredLambda m inside names params e (.lambda scope body)

/-- The bindings of a block are lowered to the nodes of a frame, in order. -/
inductive LoweredBlock (m : Module) : ScopeId → Names → List Decl → Bindings → Prop
  | nil {inside names} : LoweredBlock m inside names [] []
  | function {inside names name params e span rest node frame}
      (hnode : LoweredLambda m inside names params e (m.kind node))
      (hrest : LoweredBlock m inside names rest frame) :
      LoweredBlock m inside names (.function name params e span :: rest)
        ((name.name, node) :: frame)
  | value {inside names name e span rest node frame}
      (hnode : Lowered m inside names e (m.kind node))
      (hrest : LoweredBlock m inside names rest frame) :
      LoweredBlock m inside names (.value name e span :: rest) ((name.name, node) :: frame)
  | signature {inside names ids span rest frame} (hrest : LoweredBlock m inside names rest frame) :
      LoweredBlock m inside names (.signature ids span :: rest) frame

end

/-- The bindings of the prelude lead to intrinsics. -/
def LoweredPrelude (m : Module) (operators : Bool) (frame : Bindings) : Prop :=
  List.Forall₂ (fun entry binding => binding.1 = entry.2 ∧ m.kind binding.2 = .intrinsic entry.1)
    (Lowering.preludeNames operators) frame

/-- The graph of a whole module: its definitions, and the prelude around them. -/
structure LoweredModule (m : Module) (operators : Bool) (tree : Surface.Module) : Prop where
  prelude : LoweredPrelude m operators (m.scopes.bindings m.root)
  definitions :
    LoweredBlock m m.top [m.definitions, m.scopes.bindings m.root] tree.decls m.definitions

/-! ## Names of parameters -/

/-- A name of the text finds the parameter of that name, and never a wildcard. -/
theorem paramKey_eq_iff {name : String} (hname : SourceName name) (index : Nat) (param : Ident) :
    paramKey index param = name ↔ param.name = name ∧ name ≠ "_" := by
  unfold paramKey
  split
  · rename_i hwild
    constructor
    · rintro rfl
      exact absurd hname (Surface.wildcard_not_sourceName index)
    · rintro ⟨rfl, hne⟩
      exact absurd hwild hne
  · rename_i hwild
    constructor
    · rintro rfl
      exact ⟨rfl, hwild⟩
    · exact fun h => h.1

theorem toDigits_injective {i k : Nat} (h : Nat.toDigits 10 i = Nat.toDigits 10 k) : i = k := by
  have hsame := congrArg (Nat.ofDigitChars 10 · 0) h
  simpa only [Nat.ofDigitChars_ten_toDigits] using hsame

theorem wildcard_injective {i k : Nat} (h : "_@" ++ toString i = "_@" ++ toString k) : i = k := by
  have hlist := congrArg String.toList h
  simp only [String.toList_append, Nat.toString_eq_ofList_toDigits, String.toList_ofList] at hlist
  exact toDigits_injective (List.append_cancel_left hlist)

/-- A wildcard has its index in its name, so it shares the name with no parameter before it. -/
theorem wildcard_not_mem_paramKeys {params first index}
    (hnames : ∀ param ∈ params, SourceName param.name) (h : first + params.length ≤ index) :
    "_@" ++ toString index ∉ paramKeys first params := by
  induction params generalizing first with
  | nil => exact List.not_mem_nil
  | cons param rest ih =>
    obtain ⟨hparam, hrest⟩ := List.forall_mem_cons.mp hnames
    rw [List.length_cons] at h
    rw [paramKeys, List.mem_cons, not_or]
    refine ⟨?_, ih hrest (by omega)⟩
    unfold paramKey
    split
    · intro heq
      have := wildcard_injective heq
      omega
    · intro heq
      exact Surface.wildcard_not_sourceName index (heq ▸ hparam)

theorem paramKeys_snoc (first : Nat) (params : List Ident) (param : Ident) :
    paramKeys first (params ++ [param]) =
      paramKeys first params ++ [paramKey (first + params.length) param] := by
  induction params generalizing first with
  | nil => rfl
  | cons other rest ih =>
    simp only [List.cons_append, paramKeys, ih, List.length_cons]
    rw [show first + 1 + rest.length = first + (rest.length + 1) by omega]

theorem length_paramKeys (index : Nat) (params : List Ident) :
    (paramKeys index params).length = params.length := by
  induction params generalizing index with
  | nil => rfl
  | cons param rest ih => rw [paramKeys, List.length_cons, List.length_cons, ih]

theorem Parameters.length_eq {m names params frame} (h : Parameters m names params frame) :
    frame.length = params.length := by
  rw [← length_paramKeys 0 params, ← h.keys, List.length_map]

end Lamina.Core

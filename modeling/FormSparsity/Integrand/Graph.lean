import FormSparsity.Integrand.Node
import FormSparsity.Misuse

/-!
Graphs of integrands. A node is built after its operands, so that operands have smaller numbers and
a node shared by several others is kept once. A function belongs to the node that declares it.

| here | there |
| --- | --- |
| `Graph`, `empty`, `node` | `ExprArena`, `ExprArena::new`, `kind` |
| `function?`, `role?`, `evalPoint?`, `discreteEvalPoint` | `ExprArena::function`, `function_role`, `eval_point`, `discrete_eval_point` |
-/
namespace FormSparsity

/-- The integrands of a problem over a space of some dimension. -/
structure Graph where
  dimension : Nat
  nodes : Array Node
deriving DecidableEq, Repr, Inhabited

namespace Graph

/-- The graph without nodes over a space that has one to three directions. -/
def empty (dimension : Nat) : Except Misuse Graph :=
  if 0 < dimension ∧ dimension ≤ maxDimension then .ok ⟨dimension, #[]⟩ else .error .badDimension

/-- The number of nodes. -/
def size (g : Graph) : Nat := g.nodes.size

/-- The node of a number. -/
def node? (g : Graph) (n : NodeId) : Option Node := g.nodes[n]?

/-- The node of a number that has to exist. -/
def node (g : Graph) (n : NodeId) : Except Misuse Node :=
  match g.node? n with
  | some node => .ok node
  | none => .error (.outOfBounds g.size n)

/-- The node that declares a function. -/
def function? (g : Graph) (f : FunctionId) : Option NodeId :=
  g.nodes.findIdx? (·.function? = some f)

/-- The role of a symbolic function. -/
def role? (g : Graph) (f : FunctionId) : Option Role := do
  match ← g.node? (← g.function? f) with
  | .symbolic _ _ role _ => some role
  | _ => none

/-- Where a symbolic function is evaluated. -/
def evalPoint? (g : Graph) (f : FunctionId) : Option EvalPoint := do
  match ← g.node? (← g.function? f) with
  | .symbolic _ _ _ point => some point
  | _ => none

/-- Whether a symbolic function is evaluated at a discrete function. -/
def isLinearized (g : Graph) (f : FunctionId) : Bool :=
  match g.evalPoint? f with
  | some (.discrete _) => true
  | _ => false

/-- The discrete function at which a symbolic function is evaluated. -/
def discreteEvalPoint (g : Graph) (f : FunctionId) : Except Misuse (Option FunctionId) :=
  match g.evalPoint? f with
  | some (.discrete n) => do
    match ← g.node n with
    | .discrete _ h => return some h
    | _ => return none
  | _ => return none

end Graph

end FormSparsity

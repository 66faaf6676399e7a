import FormSparsity.Derivative.Atom
import FormSparsity.Scalar.Binary64

/-!
The nodes of an integrand. A node refers to its operands by their numbers.

| here | there |
| --- | --- |
| `Node`, `children` | `ExprKind`, `ExprKind::children` |
| `Role`, `EvalPoint`, `Nonlinearity` | `FunctionRole`, `EvalPoint`, `UnaryFunction` |
-/
namespace FormSparsity

/-- The number of a node in its graph. -/
abbrev NodeId := Nat

/-- The role of a symbolic function in a form. -/
inductive Role where
  /-- A trial function; pairs with a variation make up the matrix. -/
  | unknown
  /-- A test function; derivatives by it make up the vector. -/
  | variation
deriving DecidableEq, Repr, Inhabited

/-- The word for a role. -/
def Role.text : Role → String
  | unknown => "Unknown"
  | variation => "Variational"

/-- Where a symbolic function is evaluated once all derivatives are taken. -/
inductive EvalPoint where
  /-- At the zero function, as in linear problems. -/
  | zero
  /-- At a discrete function, as in the linearisation of nonlinear problems. -/
  | discrete (node : NodeId)
deriving DecidableEq, Repr, Inhabited

/-- The nonlinear functions of one argument. -/
inductive Nonlinearity where
  | exp
  | log
  | sin
  | cos
  | sqrt
  /-- The power with a constant exponent. -/
  | pow (exponent : Binary64)
deriving DecidableEq, Repr, Inhabited

/-- One operation of an integrand. -/
inductive Node where
  | constant (value : Binary64)
  /-- The space coordinate of a direction. -/
  | coordinate (direction : Nat)
  /-- A function that the form is differentiated by. -/
  | symbolic (name : String) (function : FunctionId) (role : Role) (point : EvalPoint)
  /-- A known function, such as the current iterate of a nonlinear solver. -/
  | discrete (name : String) (function : FunctionId)
  /-- The first derivative in a space direction. -/
  | derivative (direction : Nat) (arg : NodeId)
  | sum (terms : List NodeId)
  | neg (arg : NodeId)
  | product (left right : NodeId)
  | nonlinear (function : Nonlinearity) (arg : NodeId)
deriving DecidableEq, Repr, Inhabited

namespace Node

/-- The operands in order. -/
def children : Node → List NodeId
  | constant _ | coordinate _ | symbolic .. | discrete .. => []
  | derivative _ arg | neg arg | nonlinear _ arg => [arg]
  | sum terms => terms
  | product left right => [left, right]

/-- The function that the node declares. -/
def function? : Node → Option FunctionId
  | symbolic _ f _ _ | discrete _ f => some f
  | _ => none

/-- Whether the node is a known function. -/
def isDiscrete : Node → Bool
  | discrete .. => true
  | _ => false

/-- Whether the node is the constant zero of either sign. -/
def isZeroConstant : Node → Bool
  | constant c => c.isZero
  | _ => false

end Node

end FormSparsity

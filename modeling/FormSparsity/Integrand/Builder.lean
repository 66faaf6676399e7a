import FormSparsity.Integrand.Graph

/-!
Building integrands. Every call adds the nodes that it needs and returns the number of the one asked
for. A call that turns out to be a misuse keeps the nodes that it added before.

| here | there |
| --- | --- |
| `push`, `declare` | `ExprArena::push`, `register_function` |
| `symbolic`, `unknown`, `unknownAt`, `variation`, `discrete` | `ExprArena::symbolic_function`, `unknown_function`, `unknown_function_at`, `test_function`, `discrete_function` |
| `derivative`, `derivativeAlong` | `ExprArena::diff`, `diff_multi_index` |
| the other calls | the `ExprArena` calls of the same names |
-/
namespace FormSparsity

/-- A call that adds nodes to a graph. -/
abbrev Builder := ExceptT Misuse (StateM Graph)

namespace Builder

/-- Adds a node whose operands exist. -/
def push (node : Node) : Builder NodeId := do
  let g ← get
  match node.children.find? (g.size ≤ ·) with
  | some child => throw (.noSuchChild child)
  | none =>
    set { g with nodes := g.nodes.push node }
    return g.size

/-- Adds the node that declares a function. -/
def declare (f : FunctionId) (node : Node) : Builder NodeId := do
  if ((← get).function? f).isSome then
    throw (.functionInUse f)
  push node

/-- A constant. -/
def constant (value : Binary64) : Builder NodeId := push (.constant value)

/-- The constant zero. -/
def zero : Builder NodeId := constant 0

/-- The space coordinate of a direction that space has. -/
def coordinate (direction : Nat) : Builder NodeId := do
  unless direction < (← get).dimension do
    throw .coordinateOutOfSpace
  push (.coordinate direction)

/-- A function that the form is differentiated by. The evaluation point is taken as it is. -/
def symbolic (name : String) (f : FunctionId) (role : Role) (point : EvalPoint) : Builder NodeId :=
  declare f (.symbolic name f role point)

/-- An unknown evaluated at zero. -/
def unknown (name : String) (f : FunctionId) : Builder NodeId := symbolic name f .unknown .zero

/-- An unknown evaluated at a discrete function. -/
def unknownAt (name : String) (f : FunctionId) (point : NodeId) : Builder NodeId := do
  let node ← ofExcept ((← get).node point)
  unless node.isDiscrete do
    throw .notDiscrete
  symbolic name f .unknown (.discrete point)

/-- A variation, which is always evaluated at zero. -/
def variation (name : String) (f : FunctionId) : Builder NodeId := symbolic name f .variation .zero

/-- A known function. -/
def discrete (name : String) (f : FunctionId) : Builder NodeId := declare f (.discrete name f)

/-- The derivative in a direction of space. -/
def derivative (direction : Nat) (arg : NodeId) : Builder NodeId := do
  unless direction < (← get).dimension do
    throw .derivativeOutOfSpace
  push (.derivative direction arg)

/-- The derivative of a first-order multi-index. -/
def derivativeAlong (α : MultiIndex) (arg : NodeId) : Builder NodeId := do
  match α.direction? with
  | some direction => derivative direction arg
  | none => throw (.notFirstOrder α)

/-- The sum of one or more terms. -/
def sum (terms : List NodeId) : Builder NodeId := do
  if terms.isEmpty then
    throw .emptySum
  push (.sum terms)

/-- The sum of two terms. -/
def add (a b : NodeId) : Builder NodeId := sum [a, b]

/-- The negative of a node. -/
def neg (arg : NodeId) : Builder NodeId := push (.neg arg)

/-- The difference of two nodes, as the sum of one and the negative of the other. -/
def sub (a b : NodeId) : Builder NodeId := do sum [a, ← neg b]

/-- The product of two factors. -/
def mul (a b : NodeId) : Builder NodeId := push (.product a b)

/-- The product of one or more factors, associated to the left. -/
def product : List NodeId → Builder NodeId
  | [] => throw .emptyProduct
  | factor :: factors => factors.foldlM mul factor

/-- A nonlinear function of a node. -/
def nonlinear (f : Nonlinearity) (arg : NodeId) : Builder NodeId := push (.nonlinear f arg)

/-- The sum over the directions of space of the products of the derivatives of both arguments. -/
def gradDotGrad (a b : NodeId) : Builder NodeId := do
  let terms ← (List.range (← get).dimension).mapM fun direction => do
    let da ← derivative direction a
    let db ← derivative direction b
    mul da db
  sum terms

end Builder

/-- A construction call and its arguments. -/
inductive Construction where
  | constant (value : Binary64)
  | zero
  | coordinate (direction : Nat)
  | symbolic (name : String) (function : FunctionId) (role : Role) (point : EvalPoint)
  | unknown (name : String) (function : FunctionId)
  | unknownAt (name : String) (function : FunctionId) (point : NodeId)
  | variation (name : String) (function : FunctionId)
  | discrete (name : String) (function : FunctionId)
  | derivative (direction : Nat) (arg : NodeId)
  | derivativeAlong (index : MultiIndex) (arg : NodeId)
  | sum (terms : List NodeId)
  | add (a b : NodeId)
  | neg (arg : NodeId)
  | sub (a b : NodeId)
  | mul (a b : NodeId)
  | product (factors : List NodeId)
  | nonlinear (function : Nonlinearity) (arg : NodeId)
  | gradDotGrad (a b : NodeId)

/-- Carries out a construction call. -/
def Construction.build : Construction → Builder NodeId
  | constant value => Builder.constant value
  | zero => Builder.zero
  | coordinate direction => Builder.coordinate direction
  | symbolic name f role point => Builder.symbolic name f role point
  | unknown name f => Builder.unknown name f
  | unknownAt name f point => Builder.unknownAt name f point
  | variation name f => Builder.variation name f
  | discrete name f => Builder.discrete name f
  | derivative direction arg => Builder.derivative direction arg
  | derivativeAlong index arg => Builder.derivativeAlong index arg
  | sum terms => Builder.sum terms
  | add a b => Builder.add a b
  | neg arg => Builder.neg arg
  | sub a b => Builder.sub a b
  | mul a b => Builder.mul a b
  | product factors => Builder.product factors
  | nonlinear f arg => Builder.nonlinear f arg
  | gradDotGrad a b => Builder.gradDotGrad a b

/-- The function that a construction call declares. -/
def Construction.function? : Construction → Option FunctionId
  | symbolic _ f _ _ | unknown _ f | unknownAt _ f _ | variation _ f | discrete _ f => some f
  | _ => none

end FormSparsity

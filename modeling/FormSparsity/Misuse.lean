import FormSparsity.Derivative.MultiIndex

/-!
Misuses: calls that break a condition which the caller has to keep, such as naming a node that does
not exist. They are told apart from the errors of an analysis, which a correct caller can meet.

| here | there |
| --- | --- |
| `Misuse`, `Misuse.message` | the assertions of `MultiIndex::unit` and of the `ExprArena` calls, and accesses out of bounds, with their messages |
| `Fault` | an error that is returned, beside an assertion that fails |
-/
namespace FormSparsity

/-- A broken condition of a call. -/
inductive Misuse where
  /-- An entry of a table was read past its end. -/
  | outOfBounds (length index : Nat)
  /-- A graph was started for a space without or with too many directions. -/
  | badDimension
  /-- A direction is not one of the three that a multi-index has. -/
  | noSuchAxis (direction : Nat)
  /-- A node was built on one that does not exist. -/
  | noSuchChild (node : Nat)
  /-- A function was declared under a number that is taken. -/
  | functionInUse (function : Nat)
  /-- A coordinate was asked for that space does not have. -/
  | coordinateOutOfSpace
  /-- A derivative was taken in a direction that space does not have. -/
  | derivativeOutOfSpace
  /-- A derivative of an order other than one was asked for in a single step. -/
  | notFirstOrder (index : MultiIndex)
  /-- A function was to be evaluated at something that is no discrete function. -/
  | notDiscrete
  /-- A sum without terms was asked for. -/
  | emptySum
  /-- A product without factors was asked for. -/
  | emptyProduct
deriving DecidableEq, Repr, Inhabited

/-- The wording of a misuse. -/
def Misuse.message : Misuse → String
  | outOfBounds n i => s!"index out of bounds: the len is {n} but the index is {i}"
  | badDimension => s!"Spatial dimension must be in 1..={maxDimension}."
  | noSuchAxis d => s!"Direction {d} exceeds the maximum spatial dimension {maxDimension}."
  | noSuchChild n => s!"Child node NodeId({n}) does not exist."
  | functionInUse f => s!"Function ID {f} is already in use."
  | coordinateOutOfSpace => "Coordinate direction out of bounds."
  | derivativeOutOfSpace => "Differentiation direction out of bounds."
  | notFirstOrder α => s!"Spatial derivative multi-index {α.text} must be of order one."
  | notDiscrete => "Evaluation point must be a discrete function."
  | emptySum => "Sum must have at least one term."
  | emptyProduct => "Product must have at least one factor."

/-- Either an error of the kind that a computation is documented to meet, or a misuse of it. -/
inductive Fault (ε : Type) where
  | error (e : ε)
  | misuse (m : Misuse)
deriving DecidableEq, Repr

end FormSparsity

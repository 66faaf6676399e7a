import FormSparsity.Derivative.MixedSet
import FormSparsity.Integrand.Node
import Std.Data.ExtTreeMap

/-!
Classifications: the required derivatives of a node, each either constant over the domain of
integration or varying over it. An evaluator tree has the classification of a node and those of its
operands, and stops where nothing is required.

| here | there |
| --- | --- |
| `Variability` | `DerivState` |
| `Classification`, `ofOrder`, `withVariability` | `SparsitySuperset`, `derivs_of_order`, `derivs_with_state` |
| `Evaluator`, `isNull`, `classification?` | `Evaluator`, `is_null`, `superset` |
-/
namespace FormSparsity

/-- How the value of a derivative behaves over the domain of integration. -/
inductive Variability where
  | constant
  | varying
deriving DecidableEq, Repr, Inhabited

/-- The word for a variability. -/
def Variability.text : Variability → String
  | constant => "constant"
  | varying => "variable"

/-- The required derivatives with their variability. -/
abbrev Classification := Std.ExtTreeMap Mixed Variability

namespace Classification

/-- All members of a set get the same variability, whatever they had before. -/
def mark (c : Classification) (set : MixedSet) (v : Variability) : Classification :=
  set.toList.foldl (fun c m => c.insert m v) c

/-- The derivatives of some order. -/
def ofOrder (c : Classification) (order : Nat) : List Mixed := c.keys.filter (·.order = order)

/-- The derivatives of some variability. -/
def withVariability (c : Classification) (v : Variability) : MixedSet :=
  SortedSet.ofValues (c.toList.filterMap fun (m, w) => if w = v then some m else none)

/-- One line for every derivative. -/
def text (c : Classification) : String :=
  String.join (c.toList.map fun (m, v) => s!"{m.text}: {v.text}\n")

end Classification

/-- How a node is evaluated. -/
inductive Evaluator where
  /-- No derivative of the node is required. -/
  | null
  /-- The derivatives in the classification are computed from those of the operands. -/
  | active (node : NodeId) (classification : Classification) (operands : List Evaluator)

/-- Whether nothing is evaluated. -/
def Evaluator.isNull : Evaluator → Bool
  | null => true
  | active .. => false

/-- The derivatives that an evaluator computes. -/
def Evaluator.classification? : Evaluator → Option Classification
  | null => none
  | active _ c _ => some c

end FormSparsity

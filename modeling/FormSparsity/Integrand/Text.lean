import FormSparsity.Integrand.Graph
import FormSparsity.Recursion
import FormSparsity.Scalar.Shortest

/-!
The text of an integrand. Functions appear by name, derivatives as `D0[u]`, products without
parentheses as `a*b`. Shared nodes are written out in every place, so that the text can be far
longer than the graph.

| here | there |
| --- | --- |
| `Graph.text`, `describe` | `ExprDisplay`, `ExprArena::display` |
-/
namespace FormSparsity

/-- The name of a nonlinear function, as in `exp` and `pow[2]`. -/
def Nonlinearity.text : Nonlinearity → String
  | exp => "exp"
  | log => "log"
  | sin => "sin"
  | cos => "cos"
  | sqrt => "sqrt"
  | pow e => s!"pow[{e.text}]"

/-- The text of a node whose operands have the given texts. -/
def Node.text (operand : NodeId → String) : Node → String
  | constant c => c.text
  | coordinate d => s!"x{d}"
  | symbolic name .. | discrete name _ => name
  | derivative d arg => s!"D{d}[{operand arg}]"
  | sum terms => "(" ++ " + ".intercalate (terms.map operand) ++ ")"
  | neg arg => "-" ++ operand arg
  | product a b => operand a ++ "*" ++ operand b
  | nonlinear f arg => s!"{f.text}({operand arg})"

namespace Graph

/-- The text of the integrand at a node; empty if there is no such node. -/
def text (g : Graph) : NodeId → String :=
  recurse (fun _ => "") fun n operand =>
    match g.node? n with
    | some node => node.text operand
    | none => ""

/-- The text of the integrand at a node that has to exist. -/
def describe (g : Graph) (n : NodeId) : Except Misuse String := do
  let _ ← g.node n
  return g.text n

end Graph

end FormSparsity

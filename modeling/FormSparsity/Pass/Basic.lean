import FormSparsity.Pass.Domain
import FormSparsity.Pass.Settings

/-!
Passes: one analysis of the integrands of a domain for one computation. What is found in a pass is
kept apart from every other pass, also of the same domain and computation.

The number of a pass stands for one of 32 bits, drawn from a counter. That the counter may overflow, after
which passes would share numbers, is set aside: everything said of passes holds as long as fewer than
`2 ^ 32` of them were opened.

| here | there |
| --- | --- |
| `PassId` | `ContextId`; the next one is drawn by `Session.openPass` |
| `Pass`, `isSame`, `reports`, `text` | `EvalContext`, its equality, `EvalContext::logs` and how it is displayed |
-/
namespace FormSparsity

/-- The number of a pass, taken as unbounded. -/
abbrev PassId := Nat

/-- One pass of an analysis. -/
structure Pass where
  id : PassId
  domain : Domain
  computation : Computation
  verbosity : Verbosity
deriving Repr, Inhabited

namespace Pass

/-- Whether two passes are the same one, as their numbers tell. -/
def isSame (p q : Pass) : Bool := p.id == q.id

/-- Whether a record of some verbosity is reported in the pass. -/
def reports (p : Pass) (record : Verbosity) : Bool := p.verbosity.reports record

/-- Number, domain and computation. -/
def text (p : Pass) : String :=
  s!"EvalContext[id={p.id}, {p.domain.text}, {p.computation.text}]"

end Pass

end FormSparsity

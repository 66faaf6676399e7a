import FormSparsity.Integrand.Node
import FormSparsity.Pass.Domain
import Std.Data.ExtTreeMap

/-!
Forms: sums of integrals.

| here | there |
| --- | --- |
| `Integral`, `Form`, `integrands` | `Integral`, `WeakForm`, `integrands_by_combo` |
-/
namespace FormSparsity

/-- The integral of an integrand over a domain. -/
structure Integral where
  domain : Domain
  integrand : NodeId
deriving DecidableEq, Repr, Inhabited

/-- A sum of integrals. -/
structure Form where
  integrals : List Integral
deriving DecidableEq, Repr, Inhabited

namespace Form

/-- The integrands of every domain, each once and in the order in which they first appear. -/
def integrands (form : Form) : Std.ExtTreeMap Domain (List NodeId) :=
  form.integrals.foldl
    (fun table i =>
      let known := table.getD i.domain []
      table.insert i.domain (if i.integrand ∈ known then known else known ++ [i.integrand]))
    ∅

end Form

end FormSparsity

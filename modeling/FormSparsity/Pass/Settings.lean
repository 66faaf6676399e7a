import FormSparsity.Pass.Computation

/-!
What an analysis computes and how much it reports. Everything reported at some verbosity is also
reported at a higher one.

| here | there |
| --- | --- |
| `Verbosity`, `reports` | `Verbosity`, `EvalContext::logs` |
| `Settings`, `standard` | `AnalysisSettings` and its default |
-/
namespace FormSparsity

/-- How much of an analysis is reported. -/
inductive Verbosity where
  | silent
  /-- The progress over the domains. -/
  | low
  /-- Every demand for derivatives of a node. -/
  | medium
  /-- Every set of derivatives that is found. -/
  | high
deriving DecidableEq, Repr, Inhabited

namespace Verbosity

/-- The word for a verbosity. -/
def text : Verbosity → String
  | silent => "Silent"
  | low => "Low"
  | medium => "Medium"
  | high => "High"

/-- The place of the verbosity, the most silent one first. -/
def rank : Verbosity → Nat
  | silent => 0
  | low => 1
  | medium => 2
  | high => 3

/-- Whether a record of some verbosity is reported where verbosity `v` is asked for. -/
def reports (v record : Verbosity) : Bool := record != silent && record.rank ≤ v.rank

end Verbosity

/-- The choices of an analysis. -/
structure Settings where
  verbosity : Verbosity
  /-- The quantities to be computed from every integrand. -/
  computations : List Computation
  /-- Whether the boundary conditions are analysed too. -/
  includeBoundary : Bool
deriving DecidableEq, Repr

/-- Silently matrix and vector, with the boundary conditions. -/
def Settings.standard : Settings := ⟨.silent, [.matrixAndVector], true⟩

instance : Inhabited Settings := ⟨.standard⟩

end FormSparsity

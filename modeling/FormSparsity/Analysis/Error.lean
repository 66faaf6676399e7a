import FormSparsity.Derivative.Atom

/-!
Errors of an analysis. Expressions, passes and derivatives are held as text, so that an error tells
all there is to tell by itself.

| here | there |
| --- | --- |
| `AnalysisError`, `message`, `cause?` | `SparsityError`, how it is displayed and its source |
-/
namespace FormSparsity

/-- Why an analysis cannot go on. -/
inductive AnalysisError where
  /-- The required derivatives of an expression were asked for before they were determined. -/
  | notReady (expr pass : String)
  /-- More derivatives of an expression became required after the required ones of the order were
  told apart into constant and variable ones. -/
  | grewAfterClassification (expr pass : String) (order : Nat)
  /-- A second derivative of an integrand belongs to no pair of a variation and an unknown. -/
  | malformedSecondOrder (expr deriv : String)
  /-- An atom without multi-index was to be differentiated in space. -/
  | unsupportedOperator (expr deriv : String)
  /-- An atom lacks what was asked of it. -/
  | invalidAtom (expr : String) (cause : AtomError)
deriving DecidableEq, Repr, Inhabited

namespace AnalysisError

/-- The wording of an analysis error. -/
def message : AnalysisError → String
  | notReady expr pass =>
    s!"Required set of expression {expr} requested before it was determined in context {pass}."
  | grewAfterClassification expr pass order =>
    s!"Required set of order {order} of expression {expr} grew after it was classified " ++
      s!"in context {pass}."
  | malformedSecondOrder expr deriv =>
    s!"Second-order derivative {deriv} of expression {expr} is not a (variation, unknown) pair."
  | unsupportedOperator expr deriv =>
    s!"Cannot differentiate {deriv} spatially in expression {expr}: " ++
      "the operator has no multi-index."
  | invalidAtom expr cause => s!"Invalid derivative in expression {expr}. Error: {cause.message}"

/-- The error of an atom that lies behind an analysis error. -/
def cause? : AnalysisError → Option AtomError
  | invalidAtom _ cause => some cause
  | _ => none

/-- The wordings of the error and of what lies behind it. -/
def chain (e : AnalysisError) : List String := e.message :: (e.cause?.map (·.message)).toList

end AnalysisError

end FormSparsity

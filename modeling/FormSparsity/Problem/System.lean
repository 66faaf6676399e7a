import FormSparsity.Analysis.Error
import FormSparsity.Integrand.Graph
import FormSparsity.Problem.Form

/-!
Systems of equations: a form and its boundary conditions together with the functions in which they
are posed. A system is accepted only if its variations and unknowns are functions of the graph with
these roles, each listed once.

| here | there |
| --- | --- |
| `EquationSystem`, `ofForms` | `EquationSet`, `EquationSet::new` |
| `SystemError` | the reports that `EquationSet::new`, `analyze` and `block_pattern` fail with |
-/
namespace FormSparsity

/-- Why a system or an analysis of it is rejected. -/
inductive SystemError where
  | duplicateFunction (f : FunctionId)
  | wrongRole (f : FunctionId) (actual expected : Role)
  | notSymbolic (f : FunctionId)
  /-- A function that couples is no variation of the system. -/
  | notVariation (f : FunctionId)
  /-- A function that couples is no unknown of the system. -/
  | notUnknown (f : FunctionId)
  /-- The block pattern was not taken as one in compressed rows. -/
  | malformedPattern (cause : String)
  /-- The analysis of a pass failed. -/
  | analysisFailed (pass : String) (cause : AnalysisError)
deriving DecidableEq, Repr, Inhabited

/-- The wording of a system error, followed by those of what lies behind it. -/
def SystemError.message : SystemError → String
  | duplicateFunction f => s!"Function {f} is listed more than once."
  | wrongRole f actual expected =>
    s!"Function {f} has role {actual.text}, expected {expected.text}."
  | notSymbolic f => s!"Function {f} is not a symbolic function of the arena."
  | notVariation f => s!"Function {f} is not a variation of the equation."
  | notUnknown f => s!"Function {f} is not an unknown of the equation."
  | malformedPattern cause => s!"Failed to construct block sparsity pattern: {cause}"
  | analysisFailed pass cause =>
    ": ".intercalate (s!"Sparsity analysis failed for {pass}" :: cause.chain)

/-- A form and its boundary conditions with the functions in which they are posed. -/
structure EquationSystem where
  form : Form
  boundary : Form
  variations : List FunctionId
  unknowns : List FunctionId
deriving DecidableEq, Repr, Inhabited

namespace EquationSystem

/-- Accepts functions of one role that are not listed twice; `seen` are those listed before. -/
def checkRoles (g : Graph) (role : Role) (seen : List FunctionId) :
    List FunctionId → Except SystemError Unit
  | [] => .ok ()
  | f :: fs =>
    if f ∈ seen then
      .error (.duplicateFunction f)
    else
      match g.role? f with
      | none => .error (.notSymbolic f)
      | some actual =>
        if actual = role then checkRoles g role (f :: seen) fs
        else .error (.wrongRole f actual role)

/-- The system with the given forms and functions, if its functions have the right roles. -/
def ofForms (g : Graph) (form boundary : Form) (variations unknowns : List FunctionId) :
    Except SystemError EquationSystem := do
  checkRoles g .variation [] variations
  checkRoles g .unknown [] unknowns
  return { form, boundary, variations, unknowns }

end EquationSystem

end FormSparsity

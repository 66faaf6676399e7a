import FormSparsity.Problem.Couplings
import FormSparsity.Session.Require

/-!
The analysis of a system. The integrands of a domain share a pass: first the demand on all of them
is determined, and only then are their required derivatives told apart, because what is told apart
can no longer grow.

| here | there |
| --- | --- |
| `rootDemand` | `top_level_input` |
| `splitPair` | `split_second_order` |
| `analyzePass`, with `addRoot` and `addDerivative` | `analyze_combo` |
| `analyze`, with `analyzeForm` and `analyzeDomain` | `EquationSet::analyze` |
-/
namespace FormSparsity

namespace Session

/-- The demand on a whole integrand for `length` orders: of the orders that the computation takes,
the nonzero derivatives by the given functions alone. -/
def rootDemand (g : Graph) (p : Pass) (functionLists : SortedSet (List FunctionId)) (length : Nat)
    (root : NodeId) : AnalysisM Demand := do
  let parts ← p.computation.orders.mapM fun order => do
    let nonzero ← findNonzero g p root order
    return (order, ← checked (nonzero.selectM (Mixed.isSelected functionLists ∅)))
  return .collect length parts

end Session

namespace EquationSystem

variable (system : EquationSystem) (g : Graph)

/-- The variation and the unknown of a second derivative of an integrand. -/
def splitPair (root : NodeId) (m : Mixed) : Except AnalysisError FunctionPair :=
  match m.atoms.mapM Atom.function with
  | .error cause => .error (.invalidAtom (g.text root) cause)
  | .ok [a, b] =>
    if a ∈ system.variations ∧ b ∈ system.unknowns then .ok ⟨a, b⟩
    else if b ∈ system.variations ∧ a ∈ system.unknowns then .ok ⟨b, a⟩
    else .error (.malformedSecondOrder (g.text root) m.text)
  | .ok _ => .error (.malformedSecondOrder (g.text root) m.text)

/-- The couplings with those that a required derivative of an integrand tells of. -/
def addDerivative (p : Pass) (isBoundary : Bool) (root : NodeId) (c : Couplings) (m : Mixed) :
    Except AnalysisError Couplings :=
  let region := p.domain.region
  if m.order = 1 ∧ p.computation ≠ .functionalOnly then
    .ok <| (m.functions.filter (· ∈ system.variations)).foldl (·.addVariation region) c
  else if m.order = 2 ∧ p.computation = .matrixAndVector then do
    return c.addPair region (← system.splitPair g root m) isBoundary
  else
    .ok c

/-- The couplings with those of one integrand. -/
def addRoot (p : Pass) (isBoundary : Bool) (c : Couplings) (root : NodeId) :
    AnalysisM Couplings := do
  let classification ← Session.classify g p root
  match classification.keys.foldlM (system.addDerivative g p isBoundary root) c with
  | .error e => throw (.error e)
  | .ok c =>
    let record : RootRecord :=
      { domain := p.domain, computation := p.computation, isBoundary, root, classification }
    return { c with roots := c.roots.push record }

/-- The couplings with those of the integrands of a domain. -/
def analyzePass (p : Pass) (isBoundary : Bool) (roots : List NodeId) (c : Couplings) :
    AnalysisM Couplings := do
  let functionLists := p.computation.functionLists system.variations system.unknowns
  let length := p.computation.orders.foldl max 0 + 1
  roots.forM fun root => do
    Session.require g p root (← Session.rootDemand g p functionLists length root)
  roots.foldlM (system.addRoot g p isBoundary) c

/-- An analysis error as the failure of a pass. -/
def passFault (p : Pass) : Fault AnalysisError → Fault SystemError
  | .error e => .error (.analysisFailed p.text e)
  | .misuse m => .misuse m

/-- The couplings with those of the integrands of a domain for one computation, found in a pass
opened for it. -/
def analyzeDomain (settings : Settings) (isBoundary : Bool) (domain : Domain) (roots : List NodeId)
    (c : Couplings) (computation : Computation) : SessionM SystemError Couplings := do
  let p ← Session.openPass domain computation settings.verbosity
  Session.report p .low .info fun _ => do
    return s!"Analyzing {roots.length} integrand(s) in {p.text} " ++
      s!"(boundary conditions: {isBoundary})"
  (system.analyzePass g p isBoundary roots c).adapt (passFault p)

/-- The couplings with those of all domains of a form. -/
def analyzeForm (settings : Settings) (isBoundary : Bool) (form : Form) (c : Couplings) :
    SessionM SystemError Couplings :=
  form.integrands.toList.foldlM
    (fun c (domain, roots) =>
      settings.computations.foldlM (system.analyzeDomain g settings isBoundary domain roots) c)
    c

/-- The couplings of a system: those of its form and, if the settings say so, of its boundary
conditions. -/
def analyze (settings : Settings) : SessionM SystemError Couplings := do
  let c ← system.analyzeForm g settings false system.form {}
  if settings.includeBoundary then
    system.analyzeForm g settings true system.boundary c
  else
    return c

end EquationSystem

end FormSparsity

import FormSparsity.Proofs.Problem.Analyze
import FormSparsity.Proofs.Session.Verbosity

/-!
Verbosity filters messages and does nothing else. Operations on a session are calls in passes, analyses of systems and
openings of passes, each with a verbosity. What comes of them one after the other (`transcript`) is what comes of the
same operations if everything is reported, with the messages cut down to those that are seen at the verbosity of
the operation (`verbosity_only_filters`).
-/
namespace FormSparsity

/-- The settings for an analysis that reports everything. -/
def Settings.loud (settings : Settings) : Settings := { settings with verbosity := .high }

/-! ## Analyses -/

namespace Session

variable {g : Graph} {p : Pass}

theorem alongside_rootDemand {root : NodeId} (hroot : root < g.size) (lists : SortedSet (List FunctionId))
    (length : Nat) : Alongside (Abridges p.verbosity) (rootDemand g p lists length root)
      (rootDemand g p.loud lists length root) := by
  refine (Alongside.mapM fun k _ => ?_).bind fun _ => alongside_pure _
  exact (alongside_findNonzero hroot k).bind fun _ => (alongside_checked _).bind fun _ => alongside_pure _

end Session

namespace EquationSystem

open Session

variable {g : Graph} (hg : g.WellFormed) (system : EquationSystem) {settings : Settings} {p : Pass}
include hg

theorem alongside_addRoot {root : NodeId} (hroot : root < g.size) (isBoundary : Bool) (c : Couplings) :
    Alongside (Abridges p.verbosity) (system.addRoot g p isBoundary c root)
      (system.addRoot g p.loud isBoundary c root) := by
  have hsame : system.addDerivative g p.loud isBoundary root = system.addDerivative g p isBoundary root := rfl
  refine (alongside_classify hg hroot).bind fun classification => ?_
  rw [hsame]
  cases classification.keys.foldlM (system.addDerivative g p isBoundary root) c with
  | error e => exact alongside_throw _
  | ok c => exact alongside_pure _

theorem alongside_analyzePass {roots : List NodeId} (hroots : ∀ root ∈ roots, root < g.size) (isBoundary : Bool)
    (c : Couplings) :
    Alongside (Abridges p.verbosity) (system.analyzePass g p isBoundary roots c)
      (system.analyzePass g p.loud isBoundary roots c) := by
  refine (Alongside.forM fun root hroot => ?_).bind fun _ => Alongside.foldlM fun c root hroot =>
    alongside_addRoot hg system (hroots root hroot) isBoundary c
  exact (alongside_rootDemand (hroots root hroot) _ _).bind fun demand =>
    alongside_require hg (hroots root hroot) demand

theorem alongside_analyzeDomain {roots : List NodeId} (hroots : ∀ root ∈ roots, root < g.size) (isBoundary : Bool)
    (domain : Domain) (c : Couplings) (computation : Computation) :
    Alongside (Abridges settings.verbosity) (system.analyzeDomain g settings isBoundary domain roots c computation)
      (system.analyzeDomain g settings.loud isBoundary domain roots c computation) := by
  simp only [analyzeDomain, openPass, bind_assoc, pure_bind]
  refine .get_bind fun s t h => ?_
  rw [h.passes_eq]
  let p : Pass := ⟨t.passes, domain, computation, settings.verbosity⟩
  refine (alongside_change fun _ _ => rfl).bind fun _ => ?_
  exact (alongside_report (p := p) .info rfl ⟨_, rfl⟩).bind fun _ =>
    (alongside_analyzePass (p := p) hg system hroots isBoundary c).adapt (passFault p)

theorem alongside_analyzeForm {form : Form} (hform : form.IsOver g) (isBoundary : Bool) (c : Couplings) :
    Alongside (Abridges settings.verbosity) (system.analyzeForm g settings isBoundary form c)
      (system.analyzeForm g settings.loud isBoundary form c) := by
  refine Alongside.foldlM fun c entry hentry => Alongside.foldlM fun c computation _ => ?_
  obtain ⟨domain, roots⟩ := entry
  have hlisted := Std.ExtTreeMap.mem_toList_iff_getElem?_eq_some.mp hentry
  refine alongside_analyzeDomain hg system (fun root hroot => ?_) isBoundary domain c computation
  exact hform _ ((Form.mem_integrands_iff hlisted).mp hroot)

theorem alongside_analyze (hform : system.form.IsOver g)
    (hboundary : settings.includeBoundary = true → system.boundary.IsOver g) :
    Alongside (Abridges settings.verbosity) (system.analyze g settings) (system.analyze g settings.loud) := by
  refine (alongside_analyzeForm hg system hform false {}).bind fun c => ?_
  show Alongside _ (if settings.includeBoundary = true then _ else _) (if settings.includeBoundary = true then _ else _)
  split
  · exact alongside_analyzeForm hg system (hboundary ‹_›) true c
  · exact alongside_pure c

end EquationSystem

/-! ## Operations -/

namespace Session

variable {g : Graph} {v : Verbosity} {s t : Session}

/-- An operation on a session. -/
inductive Operation where
  | call (p : Pass) (c : Call)
  | openPass (domain : Domain) (computation : Computation) (verbosity : Verbosity)
  | analyze (system : EquationSystem) (settings : Settings)

/-- What an operation answers. Of a pass that is opened its verbosity is left out. -/
inductive Answer where
  | reply (result : Except (Fault AnalysisError) Reply)
  | opened (result : Except (Fault AnalysisError) (PassId × Domain × Computation))
  | couplings (result : Except (Fault SystemError) Couplings)

namespace Operation

/-- How much an operation reports. -/
def verbosity : Operation → Verbosity
  | call p _ => p.verbosity
  | openPass _ _ verbosity => verbosity
  | analyze _ settings => settings.verbosity

/-- The same operation, reporting everything. -/
def loud : Operation → Operation
  | call p c => call p.loud c
  | openPass domain computation _ => openPass domain computation .high
  | analyze system settings => analyze system settings.loud

/-- Whether the nodes that an operation is about are nodes of a graph. -/
def IsOn (g : Graph) : Operation → Prop
  | call _ c => c.node < g.size
  | openPass .. => True
  | analyze system settings =>
    system.form.IsOver g ∧ (settings.includeBoundary = true → system.boundary.IsOver g)

/-- The answer to an operation and the session that it leaves behind. -/
def perform (g : Graph) (s : Session) : Operation → Answer × Session
  | call p c => (.reply ((c.reply g p).run.run s).1, after (c.reply g p) s)
  | openPass domain computation verbosity =>
    let opened : AnalysisM Pass := Session.openPass domain computation verbosity
    (.opened ((opened.run.run s).1.map fun p => (p.id, p.domain, p.computation)), after opened s)
  | analyze system settings =>
    (.couplings ((system.analyze g settings).run.run s).1, after (system.analyze g settings) s)

theorem isOn_loud (op : Operation) : op.loud.IsOn g ↔ op.IsOn g := by
  cases op <;> rfl

end Operation

/-- What comes of an operation: its answer, what has been found by then, which is the session without its journal, and
the messages that were reported. -/
structure Entry where
  answer : Answer
  found : Session
  records : Array Record

/-- An entry with the messages that are seen at a verbosity. -/
def Entry.abridge (v : Verbosity) (e : Entry) : Entry := { e with records := v.abridge e.records }

/-- The session with no messages in its journal. -/
def clear (s : Session) : Session := { s with journal.records := #[] }

/-- What comes of operations one after the other. An operation that fails does not stop the others. -/
def transcript (g : Graph) : List Operation → Session → List Entry
  | [], _ => []
  | op :: ops, s =>
    let (answer, s') := op.perform g s.clear
    { answer, found := { s' with journal := {} }, records := s'.journal.records } :: transcript g ops s'

theorem Abridges.clear_eq (h : Abridges v s t) : s.clear = t.clear := by
  show ({ s with journal := { isOpen := s.journal.isOpen } } : Session) =
    { t with journal := { isOpen := t.journal.isOpen } }
  rw [h.isOpen_eq, h.rest_eq]

theorem abridges_clear (v : Verbosity) (s : Session) : Abridges v s.clear s.clear where
  rest_eq := rfl
  isOpen_eq := rfl
  records_eq := rfl

theorem alongside_reply (hg : g.WellFormed) (p : Pass) {c : Call} (hc : c.node < g.size) :
    Alongside (Abridges p.verbosity) (c.reply g p) (c.reply g p.loud) := by
  cases c with
  | nonzero n k => exact (alongside_findNonzero hc k).map _
  | required n k => exact (alongside_findRequired n k).map _
  | constant n k => exact (alongside_findConstant hg hc k).map _
  | varying n k => exact (alongside_findVarying hg hc k).map _
  | require n demand => exact (alongside_require hg hc demand).map _
  | classify n => exact (alongside_classify hg hc).map _
  | evaluate n => exact (alongside_findEvaluator hg hc).map _

/-- **One operation:** reporting everything, it answers the same and finds the same, and reports more. -/
theorem Operation.perform_loud (hg : g.WellFormed) {op : Operation} (hop : op.IsOn g)
    (h : Abridges op.verbosity s t) :
    (op.perform g s).1 = (op.loud.perform g t).1 ∧
      Abridges op.verbosity (op.perform g s).2 (op.loud.perform g t).2 := by
  cases op with
  | call p c =>
    obtain ⟨hreply, hsessions⟩ := alongside_reply hg p hop s t h
    exact ⟨congrArg Answer.reply hreply, hsessions⟩
  | openPass domain computation verbosity =>
    have hanswer : ∀ (verbosity : Verbosity) (s : Session), (perform g s (.openPass domain computation verbosity)).1 =
        .opened (.ok (s.passes, domain, computation)) := fun _ _ => rfl
    refine ⟨?_, h.map (f := fun s => { s with passes := s.passes + 1 }) fun _ _ => rfl⟩
    rw [hanswer, loud, hanswer, h.passes_eq]
  | analyze system settings =>
    obtain ⟨hresult, hsessions⟩ := system.alongside_analyze hg hop.1 hop.2 s t h
    exact ⟨congrArg Answer.couplings hresult, hsessions⟩

theorem transcript_loud (hg : g.WellFormed) {ops : List Operation} (hops : ∀ op ∈ ops, op.IsOn g)
    (h : s.clear = t.clear) :
    transcript g ops s = List.zipWith (fun op e => e.abridge op.verbosity) ops
      (transcript g (ops.map Operation.loud) t) := by
  induction ops generalizing s t with
  | nil => rfl
  | cons op ops ih =>
    have hstart : Abridges op.verbosity s.clear t.clear := h ▸ abridges_clear op.verbosity s
    obtain ⟨hanswer, hsessions⟩ := Operation.perform_loud hg (hops op (by simp)) hstart
    have hrest := ih (fun op' hop' => hops op' (by simp [hop'])) hsessions.clear_eq
    simp only [transcript, List.map_cons, List.zipWith_cons_cons, Entry.abridge, hanswer, hrest]
    rw [← hsessions.records_eq, hsessions.rest_eq]

theorem length_transcript (ops : List Operation) (s : Session) : (transcript g ops s).length = ops.length := by
  induction ops generalizing s with
  | nil => rfl
  | cons op ops ih => simp [transcript, ih]

theorem Entry.abridge_silent (v : Verbosity) (e : Entry) : (e.abridge v).abridge .silent = e.abridge .silent := by
  simp [Entry.abridge, Verbosity.abridge, Verbosity.levels]

/-- **Verbosity only filters messages.** What comes of operations on nodes of a graph, from any session on, is what comes
of the same operations if each reports everything, but that the messages of an operation are cut down to those that
are seen at its verbosity: none if it is silent, the progress over the domains if it is low, the demands as well if it
is medium. So operations that differ in their verbosities alone answer the same and find the same. -/
theorem verbosity_only_filters (hg : g.Built) (s : Session) {ops : List Operation} (hops : ∀ op ∈ ops, op.IsOn g) :
    transcript g ops s = List.zipWith (fun op e => e.abridge op.verbosity) ops
      (transcript g (ops.map Operation.loud) s) ∧
    ∀ ops' : List Operation, ops'.map Operation.loud = ops.map Operation.loud →
      (transcript g ops' s).map (Entry.abridge .silent) = (transcript g ops s).map (Entry.abridge .silent) := by
  have hquiet : ∀ ops' : List Operation, (∀ op ∈ ops', op.IsOn g) →
      (transcript g ops' s).map (Entry.abridge .silent) =
        (transcript g (ops'.map Operation.loud) s).map (Entry.abridge .silent) := by
    intro ops' hops'
    rw [transcript_loud hg.wellFormed hops' rfl, List.map_zipWith]
    exact List.ext_getElem (by simp [length_transcript]) (by simp [Entry.abridge_silent])
  refine ⟨transcript_loud hg.wellFormed hops rfl, fun ops' hsame => ?_⟩
  have hops' : ∀ op ∈ ops', op.IsOn g := by
    intro op hop
    have hloud : op.loud ∈ ops.map Operation.loud := hsame ▸ List.mem_map_of_mem hop
    obtain ⟨op', hop', heq⟩ := List.mem_map.mp hloud
    rw [← op.isOn_loud, ← heq, op'.isOn_loud]
    exact hops op' hop'
  rw [hquiet ops' hops', hquiet ops hops, hsame]

/-- Demand on the slope of a product is reported where the verbosity is medium, what is told apart then is not reported
where it is low, and an analysis that reports little says that it begins. -/
theorem verbosity_only_filters_slopeOfProduct :
    let p : Pass := ⟨0, ⟨⟨"interior", 1⟩, ⟨.gauss, 2⟩⟩, .matrixAndVector, .medium⟩
    let ops : List Operation := [.openPass p.domain p.computation p.verbosity,
      .call p (.require 3 [∅, {.ofAtom (.functional 7 .value)}]),
      .call { p with verbosity := .low } (.classify 3),
      .analyze (EquationSystem.slopeSystem [3]) { Settings.standard with verbosity := .low }]
    let s : Session := { journal := { isOpen := true } }
    Graph.slopeOfProduct.Built ∧ (∀ op ∈ ops, op.IsOn Graph.slopeOfProduct) ∧
    transcript Graph.slopeOfProduct ops s = List.zipWith (fun op e => e.abridge op.verbosity) ops
      (transcript Graph.slopeOfProduct (ops.map Operation.loud) s) ∧
    (transcript Graph.slopeOfProduct ops s).map (·.records.map (·.level)) =
      [#[], #[.debug, .debug, .debug, .debug], #[], #[.info]] := by
  intro p ops s
  have hg := Graph.built_slopeOfProduct
  have hops : ∀ op ∈ ops, op.IsOn Graph.slopeOfProduct := by
    simp only [ops, List.forall_mem_cons, List.not_mem_nil, false_imp_iff, implies_true, and_true]
    have hnode : 3 < Graph.slopeOfProduct.size := by decide
    exact ⟨trivial, hnode, hnode, by decide +kernel, fun _ => by decide +kernel⟩
  exact ⟨hg, hops, (verbosity_only_filters hg s hops).1, by decide +kernel⟩

end Session

end FormSparsity

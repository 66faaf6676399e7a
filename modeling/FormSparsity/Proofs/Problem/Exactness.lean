import FormSparsity.Proofs.Problem.Analyze
import FormSparsity.Proofs.Session.ProductRule

/-!
What analyses find. In every session as it is used, whatever was found in it before, an analysis that
succeeds lists for every region exactly those couplings that the nonzero derivatives of the integrands tell
of (`analyze_couplings`). If no integrand is part of another one on the same domain it does succeed, and the
record of an integrand lists exactly the derivatives that its computation takes (`analyze_records`).
-/
namespace FormSparsity

/-! ## Sessions in use -/

namespace Session

variable {g : Graph} {s s' : Session}

/-- One step in the use of a session: a call in a pass that was opened before, the opening of a pass, or the
analysis of some system. What was found before a failure stays in the session. -/
inductive Use (g : Graph) : Session → Session → Prop
  | call (p : Pass) (c : Call) {s : Session} (hp : p.id < s.passes) : Use g s (after (c.run g p) s)
  | openPass (domain : Domain) (computation : Computation) (verbosity : Verbosity) (s : Session) :
      Use g s (after (Session.openPass domain computation verbosity : AnalysisM Pass) s)
  | analyze (system : EquationSystem) (settings : Settings) (s : Session) :
      Use g s (after (system.analyze g settings) s)

/-- Whether a session is reached in use from one that knew nothing. Every pass that is opened has a number of its
own, so what is said of sessions in use is said as long as the counter of 32 bits does not overflow. -/
def IsUsed (g : Graph) (s : Session) : Prop := ∃ s₀ : Session, Relation.ReflTransGen (Use g) s₀.restart s

/-- **One step** in the use of a session keeps it orderly. -/
theorem Use.isOrderly (hg : g.WellFormed) (hs : EquationSystem.IsOrderly g s) (h : Use g s s') :
    EquationSystem.IsOrderly g s' := by
  cases h with
  | call p c hp => exact hs.of_worksIn hp (ends_call hg p c hs.consistent).state
  | openPass domain computation verbosity => exact hs.openPass
  | analyze system settings =>
    exact ((EquationSystem.ends_analysis hg settings hs).mono (fun _ _ h => h.2) fun _ _ h => h.2).state

/-- **Sessions in use** are orderly. -/
theorem IsUsed.isOrderly (hg : g.WellFormed) (h : s.IsUsed g) : EquationSystem.IsOrderly g s := by
  obtain ⟨s₀, h⟩ := h
  induction h with
  | refl => exact EquationSystem.isOrderly_restart g s₀
  | tail _ hstep ih => exact hstep.isOrderly hg ih

/-- Whether a session is reached at all, by calls in any passes or in use. -/
def IsReached (g : Graph) (s : Session) : Prop := s.Reachable g ∨ s.IsUsed g

theorem IsReached.consistent (hg : g.WellFormed) (h : s.IsReached g) : s.Consistent g :=
  h.elim (·.consistent hg) fun h => (h.isOrderly hg).consistent

end Session

namespace EquationSystem

variable {system : EquationSystem} {g : Graph} {settings : Settings} {s : Session} {c : Couplings}
variable {r : Region} {b : Bool} {computation : Computation} {m : Mixed}

/-! ## Records and integrals -/

/-- The tasks of a system are the computations of the integrals that are analysed. -/
theorem mem_tasks_iff {task : Task} : task ∈ system.tasks settings ↔
    (task.isBoundary = true → settings.includeBoundary = true) ∧ task.computation ∈ settings.computations ∧
      ⟨task.domain, task.root⟩ ∈ (system.formOf task.isBoundary).integrals := by
  rw [tasks, List.mem_append, Form.mem_tasks]
  cases hb : task.isBoundary <;> cases hsettings : settings.includeBoundary <;>
    simp [Form.mem_tasks, formOf, hb]

/-- Every integral that is analysed has one task for each entry of the computations. -/
theorem count_tasks {task : Task} : (system.tasks settings).count task =
    if (task.isBoundary = true → settings.includeBoundary = true) ∧
      ⟨task.domain, task.root⟩ ∈ (system.formOf task.isBoundary).integrals
    then settings.computations.count task.computation else 0 := by
  rw [tasks, List.count_append, Form.count_tasks]
  cases hb : task.isBoundary <;> cases hsettings : settings.includeBoundary <;>
    simp [Form.count_tasks, formOf, hb]

/-- Whether couplings cover the tasks of a system with the records of an analysis. -/
def IsResult (system : EquationSystem) (g : Graph) (settings : Settings) (c : Couplings) : Prop :=
  system.Covers (system.tasks settings)
    (fun record => system.IsRecordOf g (system.formOf record.isBoundary) record) {} c

/-- A record is about an integral that is analysed and lists nonzero derivatives of its integrand alone. -/
theorem IsResult.record (h : system.IsResult g settings c) {record : RootRecord} (hrecord : record ∈ c.roots) :
    (record.isBoundary = true → settings.includeBoundary = true) ∧
      record.computation ∈ settings.computations ∧
      ⟨record.domain, record.root⟩ ∈ (system.formOf record.isBoundary).integrals ∧
      ∀ m ∈ record.classification, m ∈ g.nonzero record.root m.order := by
  obtain ⟨htask, roots, -, hfinds⟩ := h.isFound hrecord
  obtain ⟨hb, hc, hi⟩ := mem_tasks_iff.mp htask
  exact ⟨hb, hc, hi, fun m hm => ((hfinds.mem_iff m).mp hm).mem_nonzero⟩

/-- Every integral that is analysed has a record that lists what was demanded of its integrand as a
whole. -/
theorem IsResult.exists_record (hg : g.WellFormed) (h : system.IsResult g settings c) {i : Integral}
    (hb : b = true → settings.includeBoundary = true) (hc : computation ∈ settings.computations)
    (hi : i ∈ (system.formOf b).integrals) :
    ∃ record ∈ c.roots, record.task = ⟨b, i.domain, computation, i.integrand⟩ ∧
      ∀ k m, m ∈ (system.demandOn g computation i.integrand).ofOrder k → m ∈ record.classification := by
  have hmem : ⟨b, i.domain, computation, i.integrand⟩ ∈ system.tasks settings :=
    mem_tasks_iff.mpr ⟨hb, hc, hi⟩
  obtain ⟨record, hrecord, htask, roots, hlisted, hfinds⟩ := Covers.exists_record h hmem
  refine ⟨record, hrecord, htask, fun k m hm => (hfinds.mem_iff m).mpr ?_⟩
  obtain ⟨domain, _, _, root, classification⟩ := record
  cases htask
  have hw := ((mem_demandOn_iff hg).mp hm).2.1
  obtain rfl := Graph.order_of_mem_nonzero hg hw
  exact .call (List.mem_map_of_mem ((Form.mem_integrands_iff hlisted).mpr hi)) hm hw

/-- If no integrand is part of another one on the same domain, the analysis succeeds. -/
theorem exists_isResult (hg : g.Built) (hpoints : g.HasDiscretePoints) (settings : Settings)
    (hs : s.IsUsed g) (hform : system.form.IsOver g)
    (hboundary : settings.includeBoundary = true → system.boundary.IsOver g) (hflat : system.form.IsFlat g)
    (hflat' : settings.includeBoundary = true → system.boundary.IsFlat g) :
    ∃ c s', (system.analyze g settings).run.run s = (.ok c, s') ∧ system.IsResult g settings c := by
  have hw := hg.wellFormed
  have hnever : ∀ form : Form, form.IsOver g → form.IsFlat g → ∀ e, ¬system.Fails g settings form e := by
    rintro form hover hflat e (⟨-, -, h | h⟩ | h)
    · exact h hover
    · exact h hpoints
    · exact (isSplit_of_isFlat hw hflat).not_misses h
  obtain ⟨c, s', hrun, hresult, -⟩ := ((ends_analysis hw settings (hs.isOrderly hw)).mono (fun _ _ h => h)
    fun e _ h => h.1.elim (hnever _ hform hflat e)
      fun h => hnever _ (hboundary h.1) (hflat' h.1) e h.2).exists_ok
  exact ⟨c, s', hrun, hresult⟩

/-! ## Couplings of a region -/

/-- Whether a variation and an unknown meet in the integrands of a form over a region. -/
def Meet (system : EquationSystem) (g : Graph) (form : Form) (r : Region) (q : FunctionPair) : Prop :=
  ∃ i ∈ form.integrals, i.domain.region = r ∧ ∃ m ∈ g.nonzero i.integrand 2, system.IsPairOf q m

/-- The integrals that are analysed. -/
def analysed (system : EquationSystem) (settings : Settings) : List Integral :=
  system.form.integrals ++ if settings.includeBoundary then system.boundary.integrals else []

theorem mem_analysed {i : Integral} : i ∈ system.analysed settings ↔
    ∃ b, (b = true → settings.includeBoundary = true) ∧ i ∈ (system.formOf b).integrals := by
  rw [analysed, List.mem_append]
  cases hsettings : settings.includeBoundary <;> simp [formOf]

/-- Whether an integrand over a region has a nonzero derivative by a variation. -/
def TakesPart (system : EquationSystem) (g : Graph) (settings : Settings) (r : Region) (v : FunctionId) :
    Prop :=
  v ∈ system.variations ∧ ∃ i ∈ system.analysed settings, i.domain.region = r ∧
    ∃ operator, .ofAtom (.functional v operator) ∈ g.nonzero i.integrand 1

theorem implies_variation_iff {v : FunctionId} : system.Implies computation b m (.variation v) ↔
    (computation ≠ .functionalOnly ∧ m.order = 1 ∧ v ∈ m.functions ∧ v ∈ system.variations) ∨
      ∃ u b', system.Implies computation b m (.pair b' ⟨v, u⟩) := by
  constructor
  · rintro (⟨hc, horder, hm, hv⟩ | - | ⟨hc, hq⟩)
    · exact .inl ⟨hc, horder, hm, hv⟩
    · exact .inr ⟨_, _, .pair hc hq⟩
  · rintro (⟨hc, horder, hm, hv⟩ | ⟨u, b', - | ⟨hc, hq⟩⟩)
    · exact .variation hc horder hm hv
    · exact .variationOfPair hc hq

theorem implies_unknown_iff {u : FunctionId} : system.Implies computation b m (.unknown u) ↔
    ∃ v b', system.Implies computation b m (.pair b' ⟨v, u⟩) := by
  constructor
  · rintro (- | - | - | ⟨hc, hq⟩)
    exact ⟨_, _, .pair hc hq⟩
  · rintro ⟨v, b', - | ⟨hc, hq⟩⟩
    exact .unknownOfPair hc hq

/-- The records tell of the pairs that meet in the integrands. -/
theorem IsResult.pair_iff (hg : g.WellFormed) (h : system.IsResult g settings c) {q : FunctionPair} :
    (∃ record ∈ c.roots, record.domain.region = r ∧ ∃ m ∈ record.classification,
      system.Implies record.computation record.isBoundary m (.pair b q)) ↔
    (b = true → settings.includeBoundary = true) ∧ .matrixAndVector ∈ settings.computations ∧
      system.Meet g (system.formOf b) r q := by
  constructor
  · rintro ⟨record, hrecord, hr, m, hm, hpair⟩
    obtain ⟨hb, hc, hi, hw⟩ := h.record hrecord
    obtain ⟨_, computation, _, _, _⟩ := record
    obtain - | ⟨hmatrix, hq⟩ := hpair
    subst hmatrix
    exact ⟨hb, hc, _, hi, hr, m, hq.order_eq ▸ hw m hm, hq⟩
  · rintro ⟨hb, hc, i, hi, hr, m, hm, hq⟩
    obtain ⟨record, hrecord, htask, hlists⟩ := h.exists_record hg hb hc hi
    obtain ⟨_, _, _, _, classification⟩ := record
    cases htask
    refine ⟨_, hrecord, hr, m, hlists 2 m ?_, .pair rfl hq⟩
    obtain ⟨hv, hu, hcoordinate, hperm⟩ := hq
    exact (mem_demandOn_iff hg).mpr ⟨by decide, hm, hcoordinate, _, hv, _, hu, hperm⟩

/-- The records tell of the variations that the integrands have derivatives by. -/
theorem IsResult.variation_iff (hg : g.WellFormed) (h : system.IsResult g settings c) {v : FunctionId} :
    (∃ record ∈ c.roots, record.domain.region = r ∧ ∃ m ∈ record.classification,
      record.computation ≠ .functionalOnly ∧ m.order = 1 ∧ v ∈ m.functions ∧ v ∈ system.variations) ↔
    (∃ computation ∈ settings.computations, computation ≠ .functionalOnly) ∧
      system.TakesPart g settings r v := by
  constructor
  · rintro ⟨record, hrecord, hr, m, hm, hfirst, horder, hfunctions, hv⟩
    obtain ⟨hb, hc, hi, hw⟩ := h.record hrecord
    obtain ⟨operator, rfl⟩ := Mixed.order_one_functions_iff.mp ⟨horder, hfunctions⟩
    exact ⟨⟨_, hc, hfirst⟩, hv, _, mem_analysed.mpr ⟨_, hb, hi⟩, hr, operator, hw _ hm⟩
  · rintro ⟨⟨computation, hc, hfirst⟩, hv, i, hi, hr, operator, hw⟩
    obtain ⟨b, hb, hi⟩ := mem_analysed.mp hi
    obtain ⟨record, hrecord, htask, hlists⟩ := h.exists_record hg hb hc hi
    obtain ⟨_, computation, _, _, classification⟩ := record
    cases htask
    obtain ⟨horder, hfunctions⟩ := Mixed.order_one_functions_iff.mpr ⟨operator, rfl⟩
    refine ⟨_, hrecord, hr, _, hlists 1 _ ?_, hfirst, horder, hfunctions, hv⟩
    refine (mem_demandOn_iff hg).mpr ⟨?_, hw, rfl, v, hv, rfl⟩
    cases computation <;> simp [Computation.orders] at hfirst ⊢

/-- **Couplings are exact.** Whenever the analysis of a system that was accepted succeeds, in whatever session
in use, its tables list for a region: the pairs of a variation and an unknown such that an integrand of the
form over the region has a nonzero second derivative by these functions, if a matrix is computed; the same
for the boundary conditions, if they are analysed; the variations of these pairs and those that some
integrand has a nonzero first derivative by, if anything but functionals is computed; and the unknowns of
these pairs. A region has an entry in a table only if something is listed for it. Overflow of the counter of
passes is set aside (`PassId`). -/
theorem analyze_couplings (hg : g.Built) (settings : Settings) {form boundary : Form}
    {variations unknowns : List FunctionId}
    (hsystem : ofForms g form boundary variations unknowns = .ok system) (hs : s.IsUsed g) {s' : Session}
    (hrun : (system.analyze g settings).run.run s = (.ok c, s')) (r : Region) :
    c.pairs.Lists r (fun q => .matrixAndVector ∈ settings.computations ∧ system.Meet g form r q) ∧
    c.boundaryPairs.Lists r (fun q => settings.includeBoundary = true ∧
      .matrixAndVector ∈ settings.computations ∧ system.Meet g boundary r q) ∧
    c.variations.Lists r (fun v =>
      (∃ computation ∈ settings.computations, computation ≠ .functionalOnly) ∧
        system.TakesPart g settings r v ∨
      ∃ u, ⟨v, u⟩ ∈ c.pairs.getD r ∅ ∨ ⟨v, u⟩ ∈ c.boundaryPairs.getD r ∅) ∧
    c.unknowns.Lists r (fun u => ∃ v, ⟨v, u⟩ ∈ c.pairs.getD r ∅ ∨ ⟨v, u⟩ ∈ c.boundaryPairs.getD r ∅) := by
  have hw := hg.wellFormed
  have hresult : system.IsResult g settings c := ((ends_analysis hw settings (hs.isOrderly hw)).of_ok hrun).1
  have htells := Covers.readOff hresult (system.disjoint_of_ofForms hsystem) isReadOff_empty r
  obtain ⟨rfl, -, -⟩ := system.role?_of_ofForms hsystem
  have hany : ∀ v u, (⟨v, u⟩ ∈ c.pairs.getD r ∅ ∨ ⟨v, u⟩ ∈ c.boundaryPairs.getD r ∅) ↔
      ∃ b', ∃ record ∈ c.roots, record.domain.region = r ∧ ∃ m ∈ record.classification,
        Implies ⟨form, boundary, variations, unknowns⟩ record.computation record.isBoundary m
          (.pair b' ⟨v, u⟩) := by
    intro v u
    rw [Bool.exists_bool, htells.pairs.getD_iff, htells.boundaryPairs.getD_iff]
  refine ⟨htells.pairs.congr fun q => ?_, htells.boundaryPairs.congr fun q => ?_,
    htells.variations.congr fun v => ?_, htells.unknowns.congr fun u => ?_⟩
  · simpa [formOf] using hresult.pair_iff hw (b := false)
  · simpa [formOf] using hresult.pair_iff hw (b := true)
  · simp only [implies_variation_iff, hany, ← hresult.variation_iff hw]
    grind
  · simp only [implies_unknown_iff, hany]
    grind

/-- An unknown and a variation under a derivative over the interior of an interval, once as it stands and
once by the product rule, and their product on its boundary. -/
def mixedSystem : EquationSystem where
  form := ⟨[⟨⟨⟨"interior", 1⟩, ⟨.gauss, 2⟩⟩, 4⟩, ⟨⟨⟨"interior", 1⟩, ⟨.gauss, 2⟩⟩, 9⟩]⟩
  boundary := ⟨[⟨⟨⟨"left", 0⟩, ⟨.gauss, 1⟩⟩, 3⟩]⟩
  variations := [7]
  unknowns := [5]

theorem isUsed_restart (g : Graph) (s : Session) : s.restart.IsUsed g := ⟨s, .refl⟩

/-- What is part of a node is in every list that has the operands of the node and of its members. -/
theorem mem_of_transGen_isOperand {below : List NodeId} {root part : NodeId}
    (hclosed : ∀ n ∈ root :: below, ∀ node, g.node? n = some node → ∀ c ∈ node.children, c ∈ below)
    (h : Relation.TransGen g.IsOperand root part) : part ∈ below := by
  induction h with
  | single hop =>
    obtain ⟨node, hn, hc⟩ := hop
    exact hclosed root List.mem_cons_self node hn _ hc
  | tail _ hop ih =>
    obtain ⟨node, hn, hc⟩ := hop
    exact hclosed _ (List.mem_cons_of_mem _ ih) node hn _ hc

theorem isOver_mixedSystem : mixedSystem.form.IsOver Graph.slopeOfMixedProduct ∧
    mixedSystem.boundary.IsOver Graph.slopeOfMixedProduct := by
  decide +kernel

theorem isFlat_mixedSystem : mixedSystem.form.IsFlat Graph.slopeOfMixedProduct ∧
    mixedSystem.boundary.IsFlat Graph.slopeOfMixedProduct := by
  have hwhole : ∀ part, Relation.TransGen Graph.slopeOfMixedProduct.IsOperand 4 part → part ∈ [3, 1, 2] :=
    fun part => mem_of_transGen_isOperand (by simp [Graph.slopeOfMixedProduct, Graph.node?, Node.children])
  have hexpanded : ∀ part, Relation.TransGen Graph.slopeOfMixedProduct.IsOperand 9 part →
      part ∈ [6, 8, 5, 7, 1, 2] :=
    fun part => mem_of_transGen_isOperand (by simp [Graph.slopeOfMixedProduct, Graph.node?, Node.children])
  have hproduct : ∀ part, Relation.TransGen Graph.slopeOfMixedProduct.IsOperand 3 part → part ∈ [1, 2] :=
    fun part => mem_of_transGen_isOperand (by simp [Graph.slopeOfMixedProduct, Graph.node?, Node.children])
  constructor
  · intro domain roots hlisted root hroot part hpart h
    have hintegrand : ∀ n ∈ roots, n = 4 ∨ n = 9 := fun n hn => by
      have := (Form.mem_integrands_iff hlisted).mp hn
      simp only [mixedSystem, List.mem_cons, Integral.mk.injEq, List.not_mem_nil, or_false] at this
      exact this.imp And.right And.right
    rcases hintegrand root hroot with rfl | rfl
    · rcases hintegrand part hpart with rfl | rfl <;> simpa using hwhole _ h
    · rcases hintegrand part hpart with rfl | rfl <;> simpa using hexpanded _ h
  · intro domain roots hlisted root hroot part hpart h
    have hintegrand : ∀ n ∈ roots, n = 3 := fun n hn => by
      have := (Form.mem_integrands_iff hlisted).mp hn
      simp only [mixedSystem, List.mem_cons, Integral.mk.injEq, List.not_mem_nil, or_false] at this
      exact this.2
    obtain rfl := hintegrand root hroot
    obtain rfl := hintegrand part hpart
    simpa using hproduct _ h

theorem hasDiscretePoints_slopeOfMixedProduct : Graph.slopeOfMixedProduct.HasDiscretePoints := by
  intro n name f role point h
  have hmem := Array.mem_of_getElem? h
  obtain ⟨-, -, -, rfl⟩ : name = "u" ∧ f = 5 ∧ role = .unknown ∧ point = 0 := by
    simpa [Graph.slopeOfMixedProduct] using hmem
  exact ⟨_, rfl, rfl⟩

/-- In both forms the variation and the unknown meet. -/
theorem analyze_couplings_mixedSystem :
    Graph.slopeOfMixedProduct.Built ∧
    ofForms Graph.slopeOfMixedProduct mixedSystem.form mixedSystem.boundary [7] [5] = .ok mixedSystem ∧
    (Session.restart {}).IsUsed Graph.slopeOfMixedProduct ∧
    ∃ c s', (mixedSystem.analyze Graph.slopeOfMixedProduct .standard).run.run (Session.restart {}) =
        (.ok c, s') ∧
      ⟨7, 5⟩ ∈ c.pairs.getD ⟨"interior", 1⟩ ∅ ∧ ⟨7, 5⟩ ∈ c.boundaryPairs.getD ⟨"left", 0⟩ ∅ ∧
      ⟨"left", 0⟩ ∉ c.pairs := by
  have hsystem : ofForms Graph.slopeOfMixedProduct mixedSystem.form mixedSystem.boundary [7] [5] =
      .ok mixedSystem := by decide +kernel
  obtain ⟨hform, hboundary⟩ := isOver_mixedSystem
  obtain ⟨hflat, hflat'⟩ := isFlat_mixedSystem
  obtain ⟨c, s', hrun, -⟩ := exists_isResult Graph.built_slopeOfMixedProduct
    hasDiscretePoints_slopeOfMixedProduct .standard (isUsed_restart _ {}) hform (fun _ => hboundary) hflat
    fun _ => hflat'
  have hcouplings := analyze_couplings Graph.built_slopeOfMixedProduct .standard hsystem
    (isUsed_restart _ _) hrun
  obtain ⟨hinterior, -⟩ := hcouplings ⟨"interior", 1⟩
  obtain ⟨hleft, hboundary, -⟩ := hcouplings ⟨"left", 0⟩
  refine ⟨Graph.built_slopeOfMixedProduct, hsystem, isUsed_restart _ _, c, s', hrun, ?_, ?_, ?_⟩
  · refine (hinterior.getD_iff _).mpr ⟨by decide, ⟨⟨⟨"interior", 1⟩, ⟨.gauss, 2⟩⟩, 9⟩, by decide, rfl,
      .ofAtom (.functional 5 .value) * .ofAtom (.functional 7 (.derivative (.axis 0))), ?_⟩
    exact ⟨by decide +kernel, by decide, by decide, by decide +kernel, by decide +kernel⟩
  · refine (hboundary.getD_iff _).mpr ⟨rfl, by decide, ⟨⟨⟨"left", 0⟩, ⟨.gauss, 1⟩⟩, 3⟩, by decide, rfl,
      .ofAtom (.functional 5 .value) * .ofAtom (.functional 7 .value), ?_⟩
    exact ⟨by decide +kernel, by decide, by decide, by decide +kernel, by decide +kernel⟩
  · intro hentry
    obtain ⟨q, -, i, hi, hr, -⟩ := hleft.mem_iff.mp hentry
    rcases List.mem_pair.mp hi with rfl | rfl <;> simp at hr

/-! ## Records of integrands -/

/-- **Records are exact.** In whatever session in use, the analysis of a system succeeds if its integrands
exist, symbolic functions are evaluated at discrete functions or zero, and no integrand is part of another
one on the same domain, in the form and, if they are analysed, in the boundary conditions. Then every
integral has one record for each entry of the computations, and the record lists exactly the nonzero
derivatives of the integrand that its computation takes: those without coordinates, of an order that it
takes, and by the functions of this order, however the integrands share their subexpressions. Overflow of the
counter of passes is set aside (`PassId`). -/
theorem analyze_records (hg : g.Built) (hpoints : g.HasDiscretePoints) (settings : Settings)
    (hs : s.IsUsed g) (hform : system.form.IsOver g)
    (hboundary : settings.includeBoundary = true → system.boundary.IsOver g) (hflat : system.form.IsFlat g)
    (hflat' : settings.includeBoundary = true → system.boundary.IsFlat g) :
    ∃ c s', (system.analyze g settings).run.run s = (.ok c, s') ∧
      (∀ isBoundary domain computation root,
        (c.roots.toList.map RootRecord.task).count ⟨isBoundary, domain, computation, root⟩ =
          if (isBoundary = true → settings.includeBoundary = true) ∧
            ⟨domain, root⟩ ∈ (system.formOf isBoundary).integrals
          then settings.computations.count computation else 0) ∧
      ∀ record ∈ c.roots, ∀ m, m ∈ record.classification ↔
        ∃ n ∈ record.computation.orders, m ∈ g.nonzero record.root n ∧ m.coordinateOrder = 0 ∧
          system.Takes n m.functions := by
  have hw := hg.wellFormed
  obtain ⟨c, s', hrun, hresult⟩ := exists_isResult hg hpoints settings hs hform hboundary hflat hflat'
  refine ⟨c, s', hrun, fun isBoundary domain computation root => ?_, fun record hrecord m => ?_⟩
  · rw [hresult.tasks_eq, count_tasks]
  · obtain ⟨htask, roots, hlisted, hfinds⟩ := hresult.isFound hrecord
    obtain ⟨hb, -, hi⟩ := mem_tasks_iff.mp htask
    have hroot : record.root ∈ roots := (Form.mem_integrands_iff hlisted).mpr hi
    have hflat : (system.formOf record.isBoundary).IsFlat g := by
      rw [formOf]
      split
      · exact hflat' (hb ‹_›)
      · exact hflat
    rw [hfinds.mem_iff]
    constructor
    · intro hm
      exact ⟨m.order, (mem_demandOn_iff hw).mp (mem_demandOn_of_isFlat hflat hlisted hroot hm)⟩
    · rintro ⟨n, hm⟩
      obtain rfl := Graph.order_of_mem_nonzero hw hm.2.1
      exact .call (List.mem_map_of_mem hroot) ((mem_demandOn_iff hw).mpr hm) hm.2.1

/-- The integrands of that system share `u` and `v`, and each has one record, which for a matrix lists the
second derivatives by both. -/
theorem analyze_records_mixedSystem :
    Graph.slopeOfMixedProduct.Built ∧ Graph.slopeOfMixedProduct.HasDiscretePoints ∧
    (Session.restart {}).IsUsed Graph.slopeOfMixedProduct ∧
    mixedSystem.form.IsOver Graph.slopeOfMixedProduct ∧
    mixedSystem.boundary.IsOver Graph.slopeOfMixedProduct ∧
    mixedSystem.form.IsFlat Graph.slopeOfMixedProduct ∧
    mixedSystem.boundary.IsFlat Graph.slopeOfMixedProduct ∧
    ∃ c s', (mixedSystem.analyze Graph.slopeOfMixedProduct .standard).run.run (Session.restart {}) =
        (.ok c, s') ∧
      (c.roots.toList.map RootRecord.task).count
        ⟨false, ⟨⟨"interior", 1⟩, ⟨.gauss, 2⟩⟩, .matrixAndVector, 9⟩ = 1 ∧
      ∀ record ∈ c.roots, record.computation = .matrixAndVector → record.root = 9 →
        .ofAtom (.functional 5 .value) * .ofAtom (.functional 7 (.derivative (.axis 0))) ∈
          record.classification := by
  have hpoints := hasDiscretePoints_slopeOfMixedProduct
  obtain ⟨hform, hboundary⟩ := isOver_mixedSystem
  obtain ⟨hflat, hflat'⟩ := isFlat_mixedSystem
  obtain ⟨c, s', hrun, hcount, hrecords⟩ := analyze_records Graph.built_slopeOfMixedProduct hpoints .standard
    (isUsed_restart _ {}) hform (fun _ => hboundary) hflat fun _ => hflat'
  refine ⟨Graph.built_slopeOfMixedProduct, hpoints, isUsed_restart _ _, hform, hboundary, hflat, hflat', c, s',
    hrun, ?_, fun record hrecord hc hroot => ?_⟩
  · rw [hcount]
    decide
  · rw [hrecords record hrecord, hc, hroot]
    refine ⟨2, by decide, by decide +kernel, by decide +kernel, 7, by decide, 5, by decide, by decide +kernel⟩

end EquationSystem

end FormSparsity

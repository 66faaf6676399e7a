import FormSparsity.Proofs.Analysis.Linearization
import FormSparsity.Proofs.Problem.Exactness

/-!
Analyses of a graph and of a linearised one. Whatever sessions and passes are compared, nonzero derivatives of
the first graph are found to be nonzero in the second one, required derivatives that vary are found to vary if
they are required there, and the couplings of a system are couplings there (`linearization_loses_nothing`).
-/
namespace FormSparsity

variable {g h : Graph} {s t s' t' : Session} {p q : Pass} {n : NodeId} {k : Nat} {m : Mixed}

namespace EquationSystem

variable {system : EquationSystem} {settings : Settings} {c c' : Couplings} {r : Region}

/-- The pairs that the analysis of a system which was accepted lists, of the form or of the boundary
conditions. -/
theorem mem_pairs_of_analyze (hg : g.WellFormed) (hd : system.variations.Disjoint system.unknowns)
    (hs : s.IsUsed g) (hrun : (system.analyze g settings).run.run s = (.ok c, s')) (r : Region)
    (pair : FunctionPair) :
    (pair ∈ c.pairs.getD r ∅ ↔
      .matrixAndVector ∈ settings.computations ∧ system.Meet g system.form r pair) ∧
    (pair ∈ c.boundaryPairs.getD r ∅ ↔ settings.includeBoundary = true ∧
      .matrixAndVector ∈ settings.computations ∧ system.Meet g system.boundary r pair) := by
  have hresult : system.IsResult g settings c := ((ends_analysis hg settings (hs.isOrderly hg)).of_ok hrun).1
  have htells := Covers.readOff hresult hd isReadOff_empty r
  constructor
  · rw [htells.pairs.getD_iff, hresult.pair_iff hg]
    simp [formOf]
  · rw [htells.boundaryPairs.getD_iff, hresult.pair_iff hg]
    simp [formOf]

theorem Meet.linearized (hl : g.IsLinearizedAs h) (hg : g.WellFormed) (hh : h.WellFormed) {form : Form}
    {pair : FunctionPair} (hmeet : system.Meet g form r pair) : system.Meet h form r pair := by
  obtain ⟨i, hi, hr, m, hm, hpair⟩ := hmeet
  exact ⟨i, hi, hr, m, hl.mem_nonzero hg hh hm, hpair⟩

end EquationSystem

/-- **Linearising loses nothing.** Take a graph, and the same graph with some functions that are evaluated at
zero evaluated at discrete functions instead. In whatever sessions and passes both are looked at: what is found
to be nonzero of a node of the first one is found to be nonzero of the same node of the second one, what is
found to vary there is found to vary here if it is required here, and if the analysis of a system succeeds for
both, the pairs that it lists for a region for the first one are listed for the second one. -/
theorem linearization_loses_nothing (hg : g.Built) (hh : h.Built) (hl : g.IsLinearizedAs h) :
    (∀ (s t : Session) (p q : Pass), s.IsReached g → t.IsReached h → ∀ n < g.size, ∀ k,
      ∃ nonzero nonzero' s' t', (Session.findNonzero g p n k).run.run s = (.ok nonzero, s') ∧
        (Session.findNonzero h q n k).run.run t = (.ok nonzero', t') ∧ ∀ m ∈ nonzero, m ∈ nonzero') ∧
    (∀ (s t : Session) (p q : Pass), s.IsReached g → t.IsReached h → ∀ n, ⟨p.id, n⟩ ∈ s.ready →
      ⟨q.id, n⟩ ∈ t.ready →
      (∀ k, ∃ varying required' varying' s' t', (Session.findVarying g p n k).run.run s = (.ok varying, s') ∧
        (Session.findRequired h q n k).run.run t = (.ok required', t) ∧
        (Session.findVarying h q n k).run.run t = (.ok varying', t') ∧
        ∀ m ∈ varying, m ∈ required' → m ∈ varying') ∧
      ∃ table table' s' t', (Session.classify g p n).run.run s = (.ok table, s') ∧
        (Session.classify h q n).run.run t = (.ok table', t') ∧
        ∀ m, table[m]? = some .varying → m ∈ table' → table'[m]? = some .varying) ∧
    ∀ (form boundary : Form) (variations unknowns : List FunctionId) (system : EquationSystem)
      (settings : Settings) (s t s' t' : Session) (c c' : Couplings),
      EquationSystem.ofForms g form boundary variations unknowns = .ok system →
      s.IsUsed g → (system.analyze g settings).run.run s = (.ok c, s') →
      t.IsUsed h → (system.analyze h settings).run.run t = (.ok c', t') → ∀ r,
        (∀ pair ∈ c.pairs.getD r ∅, pair ∈ c'.pairs.getD r ∅) ∧
        ∀ pair ∈ c.boundaryPairs.getD r ∅, pair ∈ c'.boundaryPairs.getD r ∅ := by
  have hwg := hg.wellFormed
  have hwh := hh.wellFormed
  refine ⟨fun s t p q hs ht n hn k => ?_, fun s t p q hs ht n hready hready' => ⟨fun k => ?_, ?_⟩, ?_⟩
  · obtain ⟨s', hrun, -⟩ := Session.run_findNonzero_consistent hwg p (hs.consistent hwg) hn k
    obtain ⟨t', hrun', -⟩ := Session.run_findNonzero_consistent hwh q (ht.consistent hwh) (hl.size_eq ▸ hn) k
    exact ⟨_, _, s', t', hrun, hrun', fun m hm => hl.mem_nonzero hwg hwh hm⟩
  · obtain ⟨s', hrun⟩ := Session.run_findVarying hwg (hs.consistent hwg) hready k
    obtain ⟨t', hrun'⟩ := Session.run_findVarying hwh (ht.consistent hwh) hready' k
    have hrequired := Session.run_findRequired (ht.consistent hwh) hready' k
    refine ⟨_, _, _, s', t', hrun, hrequired, hrun', fun m hm hm' => ?_⟩
    exact Std.ExtTreeSet.mem_inter_iff.mpr
      ⟨hl.mem_varying hwg hwh (Std.ExtTreeSet.mem_inter_iff.mp hm).1, hm'⟩
  · obtain ⟨table, s', hrun, htable⟩ := Session.run_classify hwg (hs.consistent hwg) hready
    obtain ⟨table', t', hrun', htable'⟩ := Session.run_classify hwh (ht.consistent hwh) hready'
    refine ⟨table, table', s', t', hrun, hrun', fun m hm hm' => ?_⟩
    obtain ⟨horder, -, hvaries⟩ := (htable m .varying).mp hm
    have hvarying : m ∈ g.varying n m.order := by
      by_contra hnot
      rw [if_neg hnot] at hvaries
      cases hvaries
    refine (htable' m .varying).mpr ⟨horder, (htable'.mem_iff (ht.consistent hwh)).mp hm', ?_⟩
    rw [if_pos (hl.mem_varying hwg hwh hvarying)]
  · intro form boundary variations unknowns system settings s t s' t' c c' hsystem hs hrun ht hrun' r
    have hd := system.disjoint_of_ofForms hsystem
    have hpairs := EquationSystem.mem_pairs_of_analyze hwg hd hs hrun r
    have hpairs' := EquationSystem.mem_pairs_of_analyze hwh hd ht hrun' r
    constructor
    · intro pair hpair
      obtain ⟨hmatrix, hmeet⟩ := (hpairs pair).1.mp hpair
      exact (hpairs' pair).1.mpr ⟨hmatrix, hmeet.linearized hl hwg hwh⟩
    · intro pair hpair
      obtain ⟨hboundary, hmatrix, hmeet⟩ := (hpairs pair).2.mp hpair
      exact (hpairs' pair).2.mpr ⟨hboundary, hmatrix, hmeet.linearized hl hwg hwh⟩

/-- The product `x0*(u*v)`, where `u` is evaluated at some point. -/
def Graph.scaledProduct (point : EvalPoint) : Graph where
  dimension := 1
  nodes := #[.discrete "d" 10, .symbolic "u" 5 .unknown point, .symbolic "v" 7 .variation .zero, .product 1 2,
    .coordinate 0, .product 4 3]

theorem Graph.built_scaledProduct_zero : (scaledProduct .zero).Built :=
  built_of_calls [.discrete "d" 10, .unknown "u" 5, .variation "v" 7, .mul 1 2, .coordinate 0, .mul 4 3]
    (by with_unfolding_all rfl)

theorem Graph.built_scaledProduct_discrete : (scaledProduct (.discrete 0)).Built :=
  built_of_calls [.discrete "d" 10, .unknownAt "u" 5 0, .variation "v" 7, .mul 1 2, .coordinate 0, .mul 4 3]
    (by with_unfolding_all rfl)

theorem Graph.isLinearizedAs_scaledProduct :
    (scaledProduct .zero).IsLinearizedAs (scaledProduct (.discrete 0)) where
  dimension_eq := rfl
  size_eq := rfl
  node n node hn := by
    match n, hn with
    | 0, hn | 2, hn | 3, hn | 4, hn | 5, hn => exact .inl hn
    | 1, hn => exact .inr ⟨"u", 5, .unknown, 0, (Option.some.inj hn).symm, rfl, "d", 10, rfl⟩
    | n + 6, hn => simp [node?, scaledProduct] at hn

/-- The product over the interior, and `u*v` on the left. -/
def scaledSystem : EquationSystem where
  form := ⟨[⟨⟨⟨"interior", 1⟩, ⟨.gauss, 2⟩⟩, 5⟩]⟩
  boundary := ⟨[⟨⟨⟨"left", 0⟩, ⟨.gauss, 1⟩⟩, 3⟩]⟩
  variations := [7]
  unknowns := [5]

/-- The derivative of the product by `u` and `v`. -/
def byBoth : Mixed := .ofAtom (.functional 5 .value) * .ofAtom (.functional 7 .value)

/-- A session in which this derivative of the product was demanded. -/
def scaledDemanded (point : EvalPoint) : Session :=
  after ((Session.Call.require 5 [∅, ∅, {byBoth}]).run (Graph.scaledProduct point) default) (Session.restart {})

theorem isReached_scaledDemanded (point : EvalPoint) :
    (scaledDemanded point).IsReached (Graph.scaledProduct point) :=
  .inl (Session.Reachable.call ⟨{}, .refl⟩ default (.require 5 _))

/-- With `u` at zero, the demanded derivative varies, and `v` and `u` meet in the interior and on the left. So
it is with `u` at a discrete function. -/
theorem linearization_loses_nothing_scaledProduct :
    (Graph.scaledProduct .zero).Built ∧ (Graph.scaledProduct (.discrete 0)).Built ∧
    (Graph.scaledProduct .zero).IsLinearizedAs (Graph.scaledProduct (.discrete 0)) ∧
    (∃ table table' s' t',
      (Session.classify (Graph.scaledProduct .zero) default 5).run.run (scaledDemanded .zero) = (.ok table, s') ∧
      (Session.classify (Graph.scaledProduct (.discrete 0)) default 5).run.run (scaledDemanded (.discrete 0)) =
        (.ok table', t') ∧
      table[byBoth]? = some .varying ∧ table'[byBoth]? = some .varying) ∧
    EquationSystem.ofForms (Graph.scaledProduct .zero) scaledSystem.form scaledSystem.boundary [7] [5] =
      .ok scaledSystem ∧
    ∃ c c' s' t', (scaledSystem.analyze (Graph.scaledProduct .zero) .standard).run.run (Session.restart {}) =
        (.ok c, s') ∧
      (scaledSystem.analyze (Graph.scaledProduct (.discrete 0)) .standard).run.run (Session.restart {}) =
        (.ok c', t') ∧
      ⟨7, 5⟩ ∈ c.pairs.getD ⟨"interior", 1⟩ ∅ ∧ ⟨7, 5⟩ ∈ c'.pairs.getD ⟨"interior", 1⟩ ∅ ∧
      ⟨7, 5⟩ ∈ c.boundaryPairs.getD ⟨"left", 0⟩ ∅ ∧ ⟨7, 5⟩ ∈ c'.boundaryPairs.getD ⟨"left", 0⟩ ∅ := by
  obtain ⟨-, hvarying, hanalyze⟩ := linearization_loses_nothing Graph.built_scaledProduct_zero
    Graph.built_scaledProduct_discrete Graph.isLinearizedAs_scaledProduct
  have hsystem : EquationSystem.ofForms (Graph.scaledProduct .zero) scaledSystem.form scaledSystem.boundary
      [7] [5] = .ok scaledSystem := by decide +kernel
  obtain ⟨table, table', s', t', hrun, hrun', hsame⟩ :=
    (hvarying _ _ default default (isReached_scaledDemanded .zero) (isReached_scaledDemanded (.discrete 0)) 5
      (by decide +kernel) (by decide +kernel)).2
  have htable : ((Session.classify (Graph.scaledProduct .zero) default 5).run.run
      (scaledDemanded .zero)).1.toOption.any (·[byBoth]? = some .varying) = true := by decide +kernel
  have htable' : ((Session.classify (Graph.scaledProduct (.discrete 0)) default 5).run.run
      (scaledDemanded (.discrete 0))).1.toOption.any (byBoth ∈ ·) = true := by decide +kernel
  rw [hrun] at htable
  rw [hrun'] at htable'
  have htable : table[byBoth]? = some .varying := by simpa [Except.toOption] using htable
  have htable' : byBoth ∈ table' := by simpa [Except.toOption] using htable'
  obtain ⟨c, s₁, hc, hpairs⟩ := exists_ok_of_any
    (x := scaledSystem.analyze (Graph.scaledProduct .zero) .standard) (s := Session.restart {})
    (P := fun c => ⟨7, 5⟩ ∈ c.pairs.getD ⟨"interior", 1⟩ ∅ ∧ ⟨7, 5⟩ ∈ c.boundaryPairs.getD ⟨"left", 0⟩ ∅)
    (by decide +kernel)
  obtain ⟨c', t₁, hc', -⟩ := exists_ok_of_any
    (x := scaledSystem.analyze (Graph.scaledProduct (.discrete 0)) .standard) (s := Session.restart {})
    (P := fun _ => true) (by decide +kernel)
  obtain ⟨hinterior, hleft⟩ : ⟨7, 5⟩ ∈ c.pairs.getD ⟨"interior", 1⟩ ∅ ∧
      ⟨7, 5⟩ ∈ c.boundaryPairs.getD ⟨"left", 0⟩ ∅ := by simpa using hpairs
  have hmore := hanalyze _ _ _ _ _ .standard _ _ _ _ c c' hsystem
    (EquationSystem.isUsed_restart _ {}) hc (EquationSystem.isUsed_restart _ {}) hc'
  exact ⟨Graph.built_scaledProduct_zero, Graph.built_scaledProduct_discrete, Graph.isLinearizedAs_scaledProduct,
    ⟨table, table', s', t', hrun, hrun', htable, hsame _ htable htable'⟩, hsystem,
    c, c', s₁, t₁, hc, hc', hinterior, (hmore _).1 _ hinterior, hleft, (hmore _).2 _ hleft⟩

end FormSparsity

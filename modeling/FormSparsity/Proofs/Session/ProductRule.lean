import FormSparsity.Proofs.Analysis.ProductRule
import FormSparsity.Proofs.Session.Partition

/-!
The product rule in sessions. The derivative of a product has its nonzero and its varying derivatives found
as it stands and by the product rule. What they are in either case is said by the terms of the product rule
(`nonzero_product_rule`, `told_apart_product_rule`). They agree on derivatives by coordinates and functions
that do not vanish, and in all if functions are evaluated at zero alone or at discrete functions alone. In
the derivative of `u*v`, where `u` is evaluated at a discrete function and `v` at zero, a derivative by `v`
is left out as it stands: by the product rule it is the slope of the discrete function.
-/
namespace FormSparsity

namespace Graph

/-- The graph of `D0[u*v]` and of `D0[u]*v + u*D0[v]` on an interval, with `u` evaluated at a discrete
function and `v` at zero. -/
def slopeOfMixedProduct : Graph where
  dimension := 1
  nodes := #[.discrete "d" 10, .symbolic "u" 5 .unknown (.discrete 0), .symbolic "v" 7 .variation .zero,
    .product 1 2, .derivative 0 3, .derivative 0 1, .product 5 2, .derivative 0 2, .product 1 7, .sum [6, 8]]

theorem built_slopeOfMixedProduct : slopeOfMixedProduct.Built :=
  built_of_calls [.discrete "d" 10, .unknownAt "u" 5 0, .variation "v" 7, .mul 1 2, .derivative 0 3,
    .derivative 0 1, .mul 5 2, .derivative 0 2, .mul 1 7, .add 6 8] (by with_unfolding_all rfl)

/-- The derivative of `u*v` as it stands is node 4, by the product rule it is node 9. -/
def mixedProductRule : slopeOfMixedProduct.ProductRule where
  direction := 0
  left := 1
  right := 2
  product := 3
  whole := 4
  leftSlope := 5
  rightSlope := 7
  leftTerm := 6
  rightTerm := 8
  expanded := 9
  product_eq := rfl
  whole_eq := rfl
  leftSlope_eq := rfl
  rightSlope_eq := rfl
  leftTerm_eq := rfl
  rightTerm_eq := rfl
  expanded_eq := rfl

end Graph

namespace Session

variable {g : Graph} {s t : Session} {k : Nat}

/-! ## Nonzero derivatives -/

/-- **The product rule for nonzero derivatives.** In whichever state a run has left the session, the nonzero
derivatives of the derivative of a product are found as it stands and by the product rule. They are the terms
of the product rule, where the chain rule takes the functions by which the product has a nonzero derivative,
or by which the factor has one. Both have the same derivatives by coordinates and functions that do not
vanish. They are the same if all functions are evaluated at zero or all at discrete functions. -/
theorem nonzero_product_rule (hg : g.Built) (hs : s.Reachable g) (p : Pass) (r : g.ProductRule)
    (hk : k ≤ derivativeMaxOrder) :
    ∃ whole expanded s₁ s₂, (findNonzero g p r.whole k).run.run s = (.ok whole, s₁) ∧
      (findNonzero g p r.expanded k).run.run s = (.ok expanded, s₂) ∧
      (∀ m, m ∈ whole ↔ m.order = k ∧
        (g.SlopeTerm g.nonzero r.direction (g.nonzero r.product 1) r.left r.right m ∨
          g.SlopeTerm g.nonzero r.direction (g.nonzero r.product 1) r.right r.left m)) ∧
      (∀ m, m ∈ expanded ↔ m.order = k ∧
        (g.SlopeTerm g.nonzero r.direction (g.nonzero r.left 1) r.left r.right m ∨
          g.SlopeTerm g.nonzero r.direction (g.nonzero r.right 1) r.right r.left m)) ∧
      (∀ m, (∀ c ∈ m, g.IsNonvanishing c) → (m ∈ whole ↔ m ∈ expanded)) ∧
      (g.HasUniformPoints → whole = expanded) := by
  have hw := hg.wellFormed
  have hX := Graph.followsRules_nonzero hw
  have hs := hs.consistent hw
  obtain ⟨s₁, hwhole⟩ := run_findNonzero (p := p) hw hs r.whole_eq k
  obtain ⟨s₂, hexpanded⟩ := run_findNonzero (p := p) hw hs r.expanded_eq k
  exact ⟨_, _, s₁, s₂, hwhole, hexpanded, fun m => r.mem_whole hX hw hk, fun m => r.mem_expanded hX hw hk,
    fun m hm => r.mem_whole_iff hX hg hk (.inl hm), r.whole_eq_expanded hX hg hk⟩

/-- By the product rule, the derivative of `D0[u*v]` by `v` is nonzero: `u` has a nonzero derivative by itself,
so that its slope is not zero. -/
theorem nonzero_product_rule_mixed :
    Graph.slopeOfMixedProduct.Built ∧ Reachable Graph.slopeOfMixedProduct (restart {}) ∧
    1 ≤ derivativeMaxOrder ∧
    ∃ expanded s',
      (findNonzero Graph.slopeOfMixedProduct default 9 1).run.run (restart {}) = (.ok expanded, s') ∧
      Mixed.ofAtom (.functional 7 .value) ∈ expanded := by
  have hs : Reachable Graph.slopeOfMixedProduct (restart {}) := ⟨{}, .refl⟩
  have hk : 1 ≤ derivativeMaxOrder := by decide
  obtain ⟨whole, expanded, s₁, s₂, -, hexpanded, -, hterms, -⟩ :=
    nonzero_product_rule Graph.built_slopeOfMixedProduct hs default Graph.mixedProductRule hk
  have hz : Mixed.ofAtom (.functional 5 .value) ∈ Graph.slopeOfMixedProduct.linearizedAtoms
      (Graph.slopeOfMixedProduct.nonzero 1 1) (.axis 0) := by decide +kernel
  have hslope : Graph.slopeOfMixedProduct.IsSlope Graph.slopeOfMixedProduct.nonzero 0
      (Graph.slopeOfMixedProduct.nonzero 1 1) 1 1 := .inl ⟨_, hz, by decide +kernel⟩
  have hv : Listed Graph.slopeOfMixedProduct.nonzero 2 (.ofAtom (.functional 7 .value)) := by decide +kernel
  exact ⟨Graph.built_slopeOfMixedProduct, hs, hk, expanded, s₂, hexpanded,
    (hterms _).mpr ⟨Mixed.order_ofAtom _, .inl ⟨1, _, one_mul _, .inl ⟨hslope, hv⟩⟩⟩⟩

/-- The derivative of `D0[u*v]` by `v` is nonzero by the product rule, since it is the slope of the discrete
function; as it stands, it is not found. -/
theorem nonzero_product_rule_fails :
    ∃ whole expanded s₁ s₂,
      (findNonzero Graph.slopeOfMixedProduct default 4 1).run.run (restart {}) = (.ok whole, s₁) ∧
      (findNonzero Graph.slopeOfMixedProduct default 9 1).run.run (restart {}) = (.ok expanded, s₂) ∧
      Mixed.ofAtom (.functional 7 .value) ∈ expanded ∧ Mixed.ofAtom (.functional 7 .value) ∉ whole := by
  have hw := Graph.built_slopeOfMixedProduct.wellFormed
  have hs := consistent_restart Graph.slopeOfMixedProduct {}
  obtain ⟨s₁, hwhole⟩ := run_findNonzero (p := default) hw hs Graph.mixedProductRule.whole_eq 1
  obtain ⟨s₂, hexpanded⟩ := run_findNonzero (p := default) hw hs Graph.mixedProductRule.expanded_eq 1
  exact ⟨_, _, s₁, s₂, hwhole, hexpanded, by decide +kernel, by decide +kernel⟩

/-! ## Varying derivatives -/

/-- **The product rule for varying derivatives.** In whichever states runs have left two sessions, be it one
and the same, if the derivative of a product is ready as it stands in the one and by the product rule in the
other, then both are told apart. A derivative that is listed varies if it is a term of the product rule with
a factor that varies, where the chain rule takes the functions by which the product has a nonzero derivative,
or by which the factor has one. A derivative by coordinates and functions that do not vanish is told apart
alike, and so is every one if all functions are evaluated at zero or all at discrete functions. -/
theorem told_apart_product_rule (hg : g.Built) (hs : s.Reachable g) (ht : t.Reachable g) (p q : Pass)
    (r : g.ProductRule) (hwhole : ⟨p.id, r.whole⟩ ∈ s.ready) (hexpanded : ⟨q.id, r.expanded⟩ ∈ t.ready) :
    ∃ (whole expanded : Classification) (s' t' : Session),
      (classify g p r.whole).run.run s = (.ok whole, s') ∧
      (classify g q r.expanded).run.run t = (.ok expanded, t') ∧
      ∀ (m : Mixed) (v w : Variability), whole[m]? = some v → expanded[m]? = some w →
        (v = .varying ↔ g.SlopeTerm g.varying r.direction (g.nonzero r.product 1) r.left r.right m ∨
          g.SlopeTerm g.varying r.direction (g.nonzero r.product 1) r.right r.left m) ∧
        (w = .varying ↔ g.SlopeTerm g.varying r.direction (g.nonzero r.left 1) r.left r.right m ∨
          g.SlopeTerm g.varying r.direction (g.nonzero r.right 1) r.right r.left m) ∧
        ((∀ c ∈ m, g.IsNonvanishing c) → v = w) ∧ (g.HasUniformPoints → v = w) := by
  have hw := hg.wellFormed
  have hX := Graph.followsRules_varying hw
  have hs := hs.consistent hw
  have ht := ht.consistent hw
  obtain ⟨whole, s', hrun, hlists⟩ := run_classify hw hs hwhole
  obtain ⟨expanded, t', hrun', hlists'⟩ := run_classify hw ht hexpanded
  refine ⟨whole, expanded, s', t', hrun, hrun', ?_⟩
  intro m v w hv hw'
  obtain ⟨-, hrequired, hv⟩ := (hlists m v).mp hv
  obtain ⟨-, -, hw'⟩ := (hlists' m w).mp hw'
  -- what is listed of a spatial derivative is of an order at which it is tracked
  have hk : m.order ≤ derivativeMaxOrder :=
    ((Graph.mem_nonzero_derivative hw r.whole_eq).mp (hs.mem_nonzero hrequired)).1
  have hvarying : v = .varying ↔ m ∈ g.varying r.whole m.order := by
    rw [hv]
    split <;> simp_all
  have hvarying' : w = .varying ↔ m ∈ g.varying r.expanded m.order := by
    rw [hw']
    split <;> simp_all
  have hagree : (m ∈ g.varying r.whole m.order ↔ m ∈ g.varying r.expanded m.order) → v = w := by
    intro h
    simp only [hv, hw', h]
  refine ⟨?_, ?_, fun hm => hagree ?_, fun hpoints => hagree ?_⟩
  · rw [hvarying, r.mem_whole hX hw hk]
    simp only [true_and]
  · rw [hvarying', r.mem_expanded hX hw hk]
    simp only [true_and]
  · exact r.mem_whole_iff hX hg hk (.inl hm)
  · rw [r.whole_eq_expanded hX hg hk hpoints]

end Session

namespace Graph

/-- The graph of `D0[(u + x0)*v]` and of `D0[u + x0]*v + (u + x0)*D0[v]` on an interval, with `u` evaluated at
a discrete function and `v` at zero. -/
def slopeOfShiftedProduct : Graph where
  dimension := 1
  nodes := #[.discrete "d" 10, .symbolic "u" 5 .unknown (.discrete 0), .symbolic "v" 7 .variation .zero,
    .coordinate 0, .sum [1, 3], .product 4 2, .derivative 0 5, .derivative 0 4, .product 7 2, .derivative 0 2,
    .product 4 9, .sum [8, 10]]

theorem built_slopeOfShiftedProduct : slopeOfShiftedProduct.Built :=
  built_of_calls [.discrete "d" 10, .unknownAt "u" 5 0, .variation "v" 7, .coordinate 0, .add 1 3, .mul 4 2,
    .derivative 0 5, .derivative 0 4, .mul 7 2, .derivative 0 2, .mul 4 9, .add 8 10] (by with_unfolding_all rfl)

/-- The derivative of `(u + x0)*v` as it stands is node 6, by the product rule it is node 11. -/
def shiftedProductRule : slopeOfShiftedProduct.ProductRule where
  direction := 0
  left := 4
  right := 2
  product := 5
  whole := 6
  leftSlope := 7
  rightSlope := 9
  leftTerm := 8
  rightTerm := 10
  expanded := 11
  product_eq := rfl
  whole_eq := rfl
  leftSlope_eq := rfl
  rightSlope_eq := rfl
  leftTerm_eq := rfl
  rightTerm_eq := rfl
  expanded_eq := rfl

end Graph

namespace Session

/-- Demand for the first derivative by `v`, with orders zero to two. -/
def variationDemand : Demand := [∅, {.ofAtom (.functional 7 .value)}, ∅]

/-- A session in which that was demanded of the derivative of `(u + x0)*v` as it stands. -/
def wholeDemanded : Session :=
  after (require Graph.slopeOfShiftedProduct default 6 variationDemand) {}

/-- The session in which it was then demanded of the derivative by the product rule. -/
def bothDemanded : Session :=
  after (require Graph.slopeOfShiftedProduct default 11 variationDemand) wholeDemanded

theorem reachable_bothDemanded : bothDemanded.Reachable Graph.slopeOfShiftedProduct :=
  Reachable.require (Reachable.require ⟨{}, .refl⟩ default 6 _) default 11 _

/-- Both demands succeed, and make the derivative by `v` required of both nodes. -/
theorem bothDemanded_required :
    (((require Graph.slopeOfShiftedProduct default 6 variationDemand).run.run {}).1 = .ok () ∧
      ((require Graph.slopeOfShiftedProduct default 11 variationDemand).run.run wholeDemanded).1 = .ok ()) ∧
    ((⟨0, 6⟩ : NodeKey) ∈ bothDemanded.ready ∧ (⟨0, 11⟩ : NodeKey) ∈ bothDemanded.ready) ∧
    Mixed.ofAtom (.functional 7 .value) ∈ bothDemanded.requiredSet 0 6 1 ∧
    Mixed.ofAtom (.functional 7 .value) ∈ bothDemanded.requiredSet 0 11 1 := by
  decide +kernel

/-- In that session the derivative by `v` is listed in both ways; by the product rule it varies with the slope
of `u`. -/
theorem told_apart_product_rule_bothDemanded :
    Graph.slopeOfShiftedProduct.Built ∧ bothDemanded.Reachable Graph.slopeOfShiftedProduct ∧
    (⟨0, 6⟩ : NodeKey) ∈ bothDemanded.ready ∧ (⟨0, 11⟩ : NodeKey) ∈ bothDemanded.ready ∧
    Mixed.ofAtom (.functional 7 .value) ∈ bothDemanded.requiredSet 0 6 1 ∧
    Mixed.ofAtom (.functional 7 .value) ∈ bothDemanded.requiredSet 0 11 1 ∧
    ∃ (whole expanded : Classification) (s' t' : Session),
      (classify Graph.slopeOfShiftedProduct default 6).run.run bothDemanded = (.ok whole, s') ∧
      (classify Graph.slopeOfShiftedProduct default 11).run.run bothDemanded = (.ok expanded, t') ∧
      ∀ v w, whole[Mixed.ofAtom (.functional 7 .value)]? = some v →
        expanded[Mixed.ofAtom (.functional 7 .value)]? = some w → w = .varying := by
  obtain ⟨-, ⟨hwhole, hexpanded⟩, hrequired, hrequired'⟩ := bothDemanded_required
  obtain ⟨whole, expanded, s', t', hrun, hrun', hstates⟩ :=
    told_apart_product_rule Graph.built_slopeOfShiftedProduct reachable_bothDemanded reachable_bothDemanded
      default default Graph.shiftedProductRule hwhole hexpanded
  have hz : Mixed.ofAtom (.functional 5 .value) ∈ Graph.slopeOfShiftedProduct.linearizedAtoms
      (Graph.slopeOfShiftedProduct.nonzero 4 1) (.axis 0) := by decide +kernel
  have hslope : Graph.slopeOfShiftedProduct.IsSlope Graph.slopeOfShiftedProduct.varying 0
      (Graph.slopeOfShiftedProduct.nonzero 4 1) 4 1 := .inl ⟨_, hz, by decide +kernel⟩
  have hv : Listed Graph.slopeOfShiftedProduct.nonzero 2 (.ofAtom (.functional 7 .value)) := by decide +kernel
  refine ⟨Graph.built_slopeOfShiftedProduct, reachable_bothDemanded, hwhole, hexpanded, hrequired,
    hrequired', whole, expanded, s', t', hrun, hrun', fun v w hlisted hlisted' => ?_⟩
  exact (hstates _ v w hlisted hlisted').2.1.mpr (.inl ⟨1, _, one_mul _, .inl ⟨hslope, hv⟩⟩)

/-- Both demands succeed, and then the derivative of `D0[(u + x0)*v]` by `v` is constant as it stands, the
slope of the coordinate. By the product rule it varies with the slope of the discrete function. -/
theorem told_apart_product_rule_fails :
    ∃ (whole expanded : Classification) (s' t' : Session),
      (require Graph.slopeOfShiftedProduct default 6 variationDemand).run.run {} = (.ok (), wholeDemanded) ∧
      (require Graph.slopeOfShiftedProduct default 11 variationDemand).run.run wholeDemanded =
        (.ok (), bothDemanded) ∧
      (classify Graph.slopeOfShiftedProduct default 6).run.run bothDemanded = (.ok whole, s') ∧
      (classify Graph.slopeOfShiftedProduct default 11).run.run bothDemanded = (.ok expanded, t') ∧
      whole[Mixed.ofAtom (.functional 7 .value)]? = some .constant ∧
      expanded[Mixed.ofAtom (.functional 7 .value)]? = some .varying := by
  obtain ⟨⟨hok, hok'⟩, ⟨hwhole, hexpanded⟩, hrequired, hrequired'⟩ := bothDemanded_required
  have hw := Graph.built_slopeOfShiftedProduct.wellFormed
  have hs := reachable_bothDemanded.consistent hw
  obtain ⟨whole, s', hrun, hlists⟩ := run_classify (p := default) hw hs hwhole
  obtain ⟨expanded, t', hrun', hlists'⟩ := run_classify (p := default) hw hs hexpanded
  refine ⟨whole, expanded, s', t', run_eq_of_ok hok, run_eq_of_ok hok', hrun, hrun', ?_, ?_⟩
  · have hv : Mixed.ofAtom (.functional 7 .value) ∉ Graph.slopeOfShiftedProduct.varying 6 1 := by
      decide +kernel
    exact (hlists _ _).mpr ⟨by decide, hrequired, (if_neg hv).symm⟩
  · have hv : Mixed.ofAtom (.functional 7 .value) ∈ Graph.slopeOfShiftedProduct.varying 11 1 := by
      decide +kernel
    exact (hlists' _ _).mpr ⟨by decide, hrequired', (if_pos hv).symm⟩

end Session

end FormSparsity

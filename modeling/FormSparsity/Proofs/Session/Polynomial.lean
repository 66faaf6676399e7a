import FormSparsity.Proofs.Analysis.Polynomial
import FormSparsity.Proofs.Session.Evaluators
import FormSparsity.Proofs.Session.Fulfilment
import FormSparsity.Proofs.Session.Partition

/-!
Nodes with the same polynomial in sessions. Sums and products obey the laws of a commutative semiring, and signs do not
matter: nodes that multiply out to the same have the same nonzero derivatives, and if the same is demanded of both, the
same derivatives of both are required and told apart alike (`laws_of_arithmetic`). What is demanded of the nodes between
them and the operands that they have in common may be quite different.
-/
namespace FormSparsity

namespace Graph

/-- The graph of `(u*v)*(x0 + d)` and of `(x0*v)*-u + (d*v)*-u` on an interval, with `u` evaluated at the discrete
function `d` and `v` at zero. -/
def expandedProduct : Graph where
  dimension := 1
  nodes := #[.coordinate 0, .discrete "d" 10, .symbolic "u" 5 .unknown (.discrete 1),
    .symbolic "v" 7 .variation .zero, .sum [0, 1], .product 2 3, .product 5 4, .neg 2, .product 0 3, .product 8 7,
    .product 1 3, .product 10 7, .sum [9, 11]]

theorem built_expandedProduct : expandedProduct.Built :=
  built_of_calls [.coordinate 0, .discrete "d" 10, .unknownAt "u" 5 1, .variation "v" 7, .add 0 1, .mul 2 3, .mul 5 4,
    .neg 2, .mul 0 3, .mul 8 7, .mul 1 3, .mul 10 7, .add 9 11] (by decide +kernel)

/-- Both multiply out to `x0*u*v + d*u*v`, up to signs. -/
theorem polynomial_expandedProduct : expandedProduct.polynomial 6 = expandedProduct.polynomial 12 := by
  have hw := built_expandedProduct.wellFormed
  have hfactor : expandedProduct.Multiplies ({2} + {3}) 5 := .product rfl (.factor 2) (.factor 3)
  have hterm : expandedProduct.Multiplies ({0} + {3} + {2}) 9 :=
    .product rfl (.product rfl (.factor 0) (.factor 3)) (.neg rfl (.factor 2))
  have hterm' : expandedProduct.Multiplies ({1} + {3} + {2}) 11 :=
    .product rfl (.product rfl (.factor 1) (.factor 3)) (.neg rfl (.factor 2))
  have hne : ([0, 1] : List NodeId) ≠ [] := List.cons_ne_nil _ _
  refine polynomial_product_sum hw rfl rfl hne rfl ?_
  simp only [List.map_cons, List.map_nil, hfactor.polynomial_eq hw, hterm.polynomial_eq hw, hterm'.polynomial_eq hw,
    Multiset.map_add, Multiset.map_singleton, Multiset.prod_add, Multiset.prod_singleton, List.cons.injEq, and_true]
  constructor <;> ring

end Graph

namespace Session

variable {g : Graph} {p : Pass} {q : PassId} {s s' s'' : Session} {n n' : NodeId} {k : Nat} {m : Mixed}
variable {demand : Demand}

/-! ## The same demand on both nodes -/

/-- Demanding the same of two nodes with the same polynomial, one after the other, makes required of either what is
demanded and nonzero, next to what was required of it before. -/
theorem mem_requiredSet_of_polynomial_eq (hg : g.WellFormed) (hs : s.Reachable g)
    (h : g.polynomial n = g.polynomial n') (hrun : (require g p n demand).run.run s = (.ok (), s'))
    (hrun' : (require g p n' demand).run.run s' = (.ok (), s'')) :
    (m ∈ s''.requiredSet p.id n k ↔
      m ∈ s.requiredSet p.id n k ∨ m ∈ demand.ofOrder k ∧ m ∈ g.nonzero n k) ∧
    (m ∈ s''.requiredSet p.id n' k ↔
      m ∈ s.requiredSet p.id n' k ∨ m ∈ demand.ofOrder k ∧ m ∈ g.nonzero n' k) := by
  have hs' : s'.Reachable g := by
    have := hs.require p n demand
    rwa [after, hrun] at this
  simp only [hs'.mem_requiredSet_iff hg hrun', hs.mem_requiredSet_iff hg hrun, or_assoc]
  constructor
  · refine or_congr_right ⟨?_, fun hm => .inl (Graph.brings_self hm.1 hm.2)⟩
    rintro (hm | hm)
    · exact ⟨Graph.mem_ofOrder_of_brings hg rfl hm, hm.mem_nonzero⟩
    · exact ⟨Graph.mem_ofOrder_of_brings hg h.symm hm, hm.mem_nonzero⟩
  · refine or_congr_right ⟨?_, fun hm => .inr (Graph.brings_self hm.1 hm.2)⟩
    rintro (hm | hm)
    · exact ⟨Graph.mem_ofOrder_of_brings hg h hm, hm.mem_nonzero⟩
    · exact ⟨Graph.mem_ofOrder_of_brings hg rfl hm, hm.mem_nonzero⟩

/-- What is ready can be classified one node after the other. -/
theorem run_classify_both (hg : g.WellFormed) (hs : s.Consistent g) (hn : ⟨p.id, n⟩ ∈ s.ready)
    (hn' : ⟨p.id, n'⟩ ∈ s.ready) :
    ∃ table table' s₁ s₂, (classify g p n).run.run s = (.ok table, s₁) ∧
      (classify g p n').run.run s₁ = (.ok table', s₂) ∧
      s.Classifies g p.id n (List.range (maxOrder + 1)) table ∧
      s.Classifies g p.id n' (List.range (maxOrder + 1)) table' := by
  obtain ⟨table, s₁, hrun, htable, -, hs₁, ht⟩ :=
    ((ends_classify hg p hs n).mono (fun _ _ h => h) fun _ _ h => absurd hn h.1).exists_ok
  obtain ⟨table', s₂, hrun', htable'⟩ := run_classify hg hs₁ (ht.ready.symm ▸ hn')
  refine ⟨table, table', s₁, s₂, hrun, hrun', htable, ?_⟩
  intro m v
  rw [htable' m v, ht.required]

/-- Nodes with the same polynomial are classified alike where the same is required of both. -/
theorem Classifies.getElem?_eq (hg : g.WellFormed) (h : g.polynomial n = g.polynomial n') {orders : List Nat}
    {table table' : Classification} (ht : s.Classifies g q n orders table)
    (ht' : s.Classifies g q n' orders table')
    (hm : m ∈ s.requiredSet q n m.order ↔ m ∈ s.requiredSet q n' m.order) : table[m]? = table'[m]? := by
  have hv : g.varying n m.order = g.varying n' m.order :=
    (Graph.followsArithmetic_varying hg).eq_of_polynomial_eq hg h m.order
  refine Option.ext fun v => ?_
  rw [ht m v, ht' m v, hm, hv]

/-- Demand for the derivatives by `v` and by `u` and `v`, with orders zero to two. -/
def mixedDemand : Demand :=
  [∅, {.ofAtom (.functional 7 .value)}, {.ofAtom (.functional 5 .value) * .ofAtom (.functional 7 .value)}]

/-- A session in which that was demanded of the product. -/
def productDemanded : Session := after (require Graph.expandedProduct default 6 mixedDemand) {}

/-- The session in which it was then demanded of the expanded product. -/
def expansionDemanded : Session := after (require Graph.expandedProduct default 12 mixedDemand) productDemanded

/-- **Sums and products obey the laws of a commutative semiring, and signs do not matter.** Consider two nodes with the
same polynomial, such as products of the same nodes (`Graph.Multiplies.polynomial_eq`) or a product with a sum and the
sum of the products (`Graph.polynomial_product_sum`), in whichever state a run has left the session. Their nonzero
derivatives are found to be the same. If the same is demanded of both, one after the other, and both demands are
determined, then both nodes can be classified, and both tables say the same of what was demanded. The tables are the
same if the same was required of both nodes before, such as nothing. -/
theorem laws_of_arithmetic (hg : g.Built) (hs : s.Reachable g) (p : Pass) (hn : n < g.size) (hn' : n' < g.size)
    (h : g.polynomial n = g.polynomial n') :
    (∀ k, ∃ nonzero s₁ s₂, (findNonzero g p n k).run.run s = (.ok nonzero, s₁) ∧
      (findNonzero g p n' k).run.run s₁ = (.ok nonzero, s₂)) ∧
    ∀ demand s₁ s₂, (require g p n demand).run.run s = (.ok (), s₁) →
      (require g p n' demand).run.run s₁ = (.ok (), s₂) →
      ∃ (table table' : Classification) (s₃ s₄ : Session), (classify g p n).run.run s₂ = (.ok table, s₃) ∧
        (classify g p n').run.run s₃ = (.ok table', s₄) ∧
        (∀ m ∈ demand.ofOrder m.order, table[m]? = table'[m]?) ∧
        ((∀ k, s.requiredSet p.id n k = s.requiredSet p.id n' k) → table = table') := by
  have hw := hg.wellFormed
  have hnonzero : ∀ k, g.nonzero n k = g.nonzero n' k :=
    (Graph.followsArithmetic_nonzero hw).eq_of_polynomial_eq hw h
  have hconsistent := hs.consistent hw
  refine ⟨fun k => ?_, fun demand s₁ s₂ hrun hrun' => ?_⟩
  · obtain ⟨s₁, hrun, hs₁⟩ := run_findNonzero_consistent hw p hconsistent hn k
    obtain ⟨s₂, hrun', -⟩ := run_findNonzero_consistent hw p hs₁ hn' k
    rw [← hnonzero k] at hrun'
    exact ⟨_, s₁, s₂, hrun, hrun'⟩
  · have hmeets := (ends_require hw p hconsistent n demand).of_ok hrun
    have hmeets' := (ends_require hw p hmeets.progress.consistent n' demand).of_ok hrun'
    have hready : ⟨p.id, n⟩ ∈ s₂.ready :=
      hmeets'.progress.determines.ready _ (hmeets.provides n demand (List.mem_singleton_self _)).1
    have hready' : ⟨p.id, n'⟩ ∈ s₂.ready := (hmeets'.provides n' demand (List.mem_singleton_self _)).1
    obtain ⟨table, table', s₃, s₄, hclassify, hclassify', htable, htable'⟩ :=
      run_classify_both hw hmeets'.progress.consistent hready hready'
    have hrequired := fun {m k} => mem_requiredSet_of_polynomial_eq (m := m) (k := k) hw hs h hrun hrun'
    refine ⟨table, table', s₃, s₄, hclassify, hclassify', fun m hm => ?_, fun hsame => ?_⟩
    · -- what is demanded is required of either node exactly if it is nonzero
      refine htable.getElem?_eq hw h htable' ?_
      rw [hrequired.1, hrequired.2, hnonzero, and_iff_right hm, or_iff_right_of_imp (hconsistent.mem_nonzero ·),
        or_iff_right_of_imp fun hr => hnonzero m.order ▸ hconsistent.mem_nonzero hr]
    · refine Std.ExtTreeMap.ext_getElem? fun m => htable.getElem?_eq hw h htable' ?_
      rw [hrequired.1, hrequired.2, hsame, hnonzero]

/-- The derivatives by `v` and by `u` and `v` are required of both nodes, and the nodes are classified alike. -/
theorem laws_of_arithmetic_expandedProduct :
    Graph.expandedProduct.Built ∧ Reachable Graph.expandedProduct {} ∧
    6 < Graph.expandedProduct.size ∧ 12 < Graph.expandedProduct.size ∧
    Graph.expandedProduct.polynomial 6 = Graph.expandedProduct.polynomial 12 ∧
    (require Graph.expandedProduct default 6 mixedDemand).run.run {} = (.ok (), productDemanded) ∧
    (require Graph.expandedProduct default 12 mixedDemand).run.run productDemanded = (.ok (), expansionDemanded) ∧
    (∀ k ∈ [1, 2], expansionDemanded.requiredSet 0 6 k = mixedDemand.ofOrder k ∧
      expansionDemanded.requiredSet 0 12 k = mixedDemand.ofOrder k) ∧
    ∃ (table : Classification) (s s' : Session),
      (classify Graph.expandedProduct default 6).run.run expansionDemanded = (.ok table, s) ∧
      (classify Graph.expandedProduct default 12).run.run s = (.ok table, s') := by
  have hs : Reachable Graph.expandedProduct {} := ⟨{}, .refl⟩
  have hproduct : ((require Graph.expandedProduct default 6 mixedDemand).run.run {}).1 = .ok () ∧
      ((require Graph.expandedProduct default 12 mixedDemand).run.run productDemanded).1 = .ok () := by
    decide +kernel
  have hrun := run_eq_of_ok hproduct.1
  have hrun' := run_eq_of_ok hproduct.2
  obtain ⟨-, htables⟩ := laws_of_arithmetic Graph.built_expandedProduct hs default (by decide) (by decide)
    Graph.polynomial_expandedProduct
  obtain ⟨table, table', s, s', hclassify, hclassify', -, heq⟩ := htables mixedDemand _ _ hrun hrun'
  obtain rfl : table = table' := heq fun _ => rfl
  exact ⟨Graph.built_expandedProduct, hs, by decide, by decide, Graph.polynomial_expandedProduct, hrun, hrun',
    by decide +kernel, table, s, s', hclassify, hclassify'⟩

end Session

end FormSparsity

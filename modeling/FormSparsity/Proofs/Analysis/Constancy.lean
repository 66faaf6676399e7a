import FormSparsity.Proofs.Analysis.Interpretation
import FormSparsity.Proofs.Analysis.Varying

/-!
What constant derivatives mean. Two points of the domain differ in their coordinates, in the values of
discrete functions, and in those of the functions that are evaluated at discrete functions; constants and
nonlinear functions are the same everywhere (`Interpretation.IsElsewhere`). For nodes built without spatial
derivatives, a mixed derivative that is not among the varying ones has the same value at any two points
(`Interpretation.IsElsewhere.partialDerivative_eq`).
-/
namespace FormSparsity.Interpretation

variable {K : Type} [CommRing K] {I J : Interpretation K} {g : Graph} {n : NodeId} {m : Mixed}

/-- Whether two interpretations differ only in what varies from point to point. -/
structure IsElsewhere (I J : Interpretation K) : Prop where
  constant : I.constant = J.constant
  nonlinear : I.nonlinear = J.nonlinear

/-! ## One node -/

/-- What is known at two points of the derivatives of an operand up to some order: those that are not nonzero
vanish at both, and those that do not vary agree. -/
structure IsUnderstood (I J : Interpretation K) (g : Graph) (c : NodeId) (order : Nat) : Prop where
  zero : ∀ s : Mixed, s.order ≤ order → s ∉ g.nonzero c s.order →
    I.partialDerivative g c s = 0 ∧ J.partialDerivative g c s = 0
  agree : ∀ s : Mixed, s.order ≤ order → s ∉ g.varying c s.order →
    I.partialDerivative g c s = J.partialDerivative g c s

/-- A term of Leibniz's rule agrees at two points, unless one of its factors varies where the other one does
not vanish. -/
theorem IsUnderstood.mul_eq_mul {a b : NodeId} {order : Nat} (ha : IsUnderstood I J g a order)
    (hb : IsUnderstood I J g b order) {s t : Mixed} (hs : s.order ≤ order) (ht : t.order ≤ order)
    (h : ¬(s ∈ g.varying a s.order ∧ t ∈ g.nonzero b t.order ∨ s ∈ g.nonzero a s.order ∧ t ∈ g.varying b t.order)) :
    I.partialDerivative g a s * I.partialDerivative g b t =
      J.partialDerivative g a s * J.partialDerivative g b t := by
  by_cases hws : s ∈ g.nonzero a s.order
  · by_cases hwt : t ∈ g.nonzero b t.order
    · rw [ha.agree s hs fun hv => h (.inl ⟨hv, hwt⟩), hb.agree t ht fun hv => h (.inr ⟨hws, hv⟩)]
    · rw [(hb.zero t ht hwt).1, (hb.zero t ht hwt).2, mul_zero, mul_zero]
  · rw [(ha.zero s hs hws).1, (ha.zero s hs hws).2, zero_mul, zero_mul]

/-- A product over the blocks of a partition agrees at two points, unless the blocks make up a factorization
of which some factor varies. -/
theorem IsUnderstood.prod_eq_prod {c : NodeId} (hc : IsUnderstood I J g c m.order)
    (h : ∀ factors, IsFactorization (g.nonzero c) m factors → ∀ f ∈ factors, f ∉ g.varying c f.order)
    (π : Finpartition (Finset.univ : Finset (Fin m.atoms.length))) :
    ∏ S ∈ π.parts, I.partialDerivative g c (m.part S) = ∏ S ∈ π.parts, J.partialDerivative g c (m.part S) := by
  by_cases hall : ∀ S ∈ π.parts, m.part S ∈ g.nonzero c (m.part S).order
  · refine Finset.prod_congr rfl fun S hS => hc.agree _ (Mixed.order_part_le S) ?_
    exact h _ (IsFactorization.of_parts hall) _ (List.mem_map_of_mem (Finset.mem_toList.mpr hS))
  · push Not at hall
    obtain ⟨S, hS, hnot⟩ := hall
    obtain ⟨hI, hJ⟩ := hc.zero _ (Mixed.order_part_le S) hnot
    rw [Finset.prod_eq_zero hS hI, Finset.prod_eq_zero hS hJ]

/-- A derivative of a product that does not vary agrees at two points, term by term of Leibniz's rule. -/
theorem IsUnderstood.ofNode_product_eq {a b : NodeId} (ha : IsUnderstood I J g a m.order)
    (hb : IsUnderstood I J g b m.order) (h : ¬(Node.product a b).Varies g g.nonzero g.varying n m.order m) :
    I.ofNode g n (I.partialDerivative g) m (.product a b) =
      J.ofNode g n (J.partialDerivative g) m (.product a b) := by
  simp only [ofNode]
  refine Finset.sum_congr rfl fun S _ => ?_
  refine ha.mul_eq_mul hb (Mixed.order_part_le S) (Mixed.order_part_le Sᶜ) fun hv => h ?_
  refine ⟨(m.part S).order, Mixed.order_part_le S, _, _, Mixed.part_mul_part_compl S, ?_⟩
  rwa [Mixed.order_sub_order_part]

/-- If a nonzero derivative of a nonlinear function does not vary, neither does the value of its operand, nor any
factor that the chain rule makes of the derivative. -/
theorem not_mem_varying_of_nonlinear {f : Nonlinearity} {arg : NodeId} (hw : m ∈ g.nonzero n m.order)
    (h : ¬(Node.nonlinear f arg).Varies g g.nonzero g.varying n m.order m) :
    1 ∉ g.varying arg 0 ∧ ∀ factors, IsFactorization (g.nonzero arg) m factors →
      ∀ f ∈ factors, f ∉ g.varying arg f.order := by
  rw [Node.Varies] at h
  by_cases hzero : m.order = 0
  · rw [if_pos hzero] at h
    refine ⟨fun hv => h ⟨Mixed.order_eq_zero.mp hzero, hv⟩, fun factors hfac f hf => ?_⟩
    -- the value has no factors
    have hpos : 0 < f.order := hfac.order_pos f hf
    have hle : f.order ≤ m.order := hfac.order_le hf
    omega
  · rw [if_neg hzero] at h
    exact ⟨fun hv => h ⟨hw, .inl hv⟩, fun factors hfac f hf hv => h ⟨hw, .inr ⟨factors, hfac, f, hf, hv⟩⟩⟩

theorem IsUnderstood.ofNode_nonlinear_eq (hIJ : I.IsElsewhere J) {f : Nonlinearity} {arg : NodeId}
    (harg : IsUnderstood I J g arg m.order) (hw : m ∈ g.nonzero n m.order)
    (h : ¬(Node.nonlinear f arg).Varies g g.nonzero g.varying n m.order m) :
    I.ofNode g n (I.partialDerivative g) m (.nonlinear f arg) =
      J.ofNode g n (J.partialDerivative g) m (.nonlinear f arg) := by
  obtain ⟨hvalue, hfactor⟩ := not_mem_varying_of_nonlinear hw h
  simp only [ofNode, hIJ.nonlinear, harg.agree 1 (Nat.zero_le _) hvalue]
  exact Finset.sum_congr rfl fun π _ => by rw [harg.prod_eq_prod hfactor π]

/-! ## All nodes -/

/-- **Derivatives that do not vary are constant.** If a node is built without spatial derivatives, then a mixed
derivative of an order that is tracked has the same value at any two points, unless it is among the varying
derivatives of the node. -/
theorem IsElsewhere.partialDerivative_eq (hIJ : I.IsElsewhere J) (hg : g.WellFormed) (hfree : g.IsDerivativeFree n)
    (hm : m.order ≤ maxOrder) (h : m ∉ g.varying n m.order) :
    I.partialDerivative g n m = J.partialDerivative g n m := by
  induction n using Nat.strongRecOn generalizing m with
  | ind n ih =>
    by_cases hw : m ∈ g.nonzero n m.order
    · obtain ⟨node, hn⟩ := Graph.exists_node?_of_mem_nonzero hw
      have operand : ∀ c ∈ node.children, IsUnderstood I J g c m.order := fun c hc =>
        have hfree := hfree.operand ⟨node, hn, hc⟩
        { zero := fun s hs hnot =>
            ⟨I.partialDerivative_eq_zero hg hfree (Nat.le_trans hs hm) hnot,
              J.partialDerivative_eq_zero hg hfree (Nat.le_trans hs hm) hnot⟩
          agree := fun s hs hnot => ih c (hg.child_lt n node hn c hc) hfree (Nat.le_trans hs hm) hnot }
      rw [Graph.mem_varying hg hn hm] at h
      rw [I.partialDerivative_eq hg hn, J.partialDerivative_eq hg hn]
      cases node with
      | constant c => simp only [ofNode, hIJ.constant]
      | coordinate d =>
        have hone : m ≠ 1 := by
          rintro rfl
          exact h ⟨rfl, rfl⟩
        simp only [ofNode, hone, if_false]
      | symbolic name f role point =>
        simp only [ofNode]
        split
        · rename_i hone
          subst hone
          cases point with
          | zero => rfl
          | discrete p => exact absurd ⟨rfl, rfl, p, rfl⟩ h
        · rfl
      | discrete name f => exact absurd hw h
      | derivative d arg => exact absurd hn (hfree n .refl d arg)
      | sum terms =>
        simp only [ofNode]
        refine congrArg List.sum (List.map_congr_left fun term hterm => ?_)
        exact (operand term hterm).agree m (Nat.le_refl _) fun hv => h ⟨term, hterm, hv⟩
      | neg arg => simp only [ofNode, (operand arg (List.mem_singleton_self arg)).agree m (Nat.le_refl _) h]
      | product a b =>
        have hb := operand b (by simp [Node.children])
        exact (operand a (by simp [Node.children])).ofNode_product_eq hb h
      | nonlinear f arg => exact (operand arg (List.mem_singleton_self arg)).ofNode_nonlinear_eq hIJ hw h
    · rw [I.partialDerivative_eq_zero hg hfree hm hw, J.partialDerivative_eq_zero hg hfree hm hw]

end FormSparsity.Interpretation

import FormSparsity.Proofs.Analysis.Passing
import FormSparsity.Proofs.Analysis.ProductRule
import FormSparsity.Proofs.Integrand.Polynomial
import Mathlib.Algebra.DualNumber
import Mathlib.Data.Set.Semiring

/-!
Derivatives of nodes with the same polynomial. Sets of derivatives make up a semiring, with the union as the sum and the
derivatives of products as the product. Next to the nonzero derivatives of a node, those of a family that follows the
rules for sums, negations and products, such as the varying ones, are the second part of a dual number over that
semiring: of a product, one factor is in the family and the other one is nonzero. So the derivatives of a node are what
its polynomial says, up to `maxOrder` (`FollowsArithmetic.listed_iff`), and nodes with the same polynomial have the same
nonzero and the same varying derivatives (`FollowsArithmetic.eq_of_polynomial_eq`). A demand on one of them, if it is
passed on to the other one at all, gets there as it is (`mem_ofOrder_of_brings`).
-/
namespace FormSparsity.Graph

open MvPolynomial Relation TrivSqZeroExt

variable {g : Graph} {X : NodeId → Nat → MixedSet} {n n' c : NodeId} {j k : Nat} {r m : Mixed} {demand : Demand}

/-- Whether a family that follows the rules has the derivatives of a negation that it has of the operand. -/
structure FollowsArithmetic (g : Graph) (X : NodeId → Nat → MixedSet) : Prop extends g.FollowsRules X where
  neg : ∀ {n m arg}, g.node? n = some (.neg arg) → (Listed X n m ↔ Listed X arg m)

theorem followsArithmetic_nonzero (hg : g.WellFormed) : g.FollowsArithmetic g.nonzero where
  toFollowsRules := followsRules_nonzero hg
  neg hn := by rw [Listed, nonzero_neg hg hn, Listed]

theorem followsArithmetic_varying (hg : g.WellFormed) : g.FollowsArithmetic g.varying where
  toFollowsRules := followsRules_varying hg
  neg {n m arg} hn := by
    by_cases hk : m.order ≤ maxOrder
    · exact mem_varying hg hn hk
    · simp [Listed, varying_of_maxOrder_lt (Nat.lt_of_not_le hk)]

/-! ## Derivatives as dual numbers -/

/-- The nonzero derivatives of a node, with those of a family as the other part. -/
noncomputable def listing (g : Graph) (X : NodeId → Nat → MixedSet) (n : NodeId) : DualNumber (SetSemiring Mixed) :=
  inl (Set.up {m | Listed g.nonzero n m}) + inr (Set.up {m | Listed X n m})

section DualNumber

variable {P Q : DualNumber (SetSemiring Mixed)} {R : NodeId → DualNumber (SetSemiring Mixed)} {l : List NodeId}

theorem mem_fst_mul : m ∈ (P * Q).fst.down ↔ ∃ s t, s * t = m ∧ s ∈ P.fst.down ∧ t ∈ Q.fst.down := by
  rw [fst_mul, SetSemiring.down_mul, Set.mem_mul]
  constructor
  · rintro ⟨s, hs, t, ht, h⟩
    exact ⟨s, t, h, hs, ht⟩
  · rintro ⟨s, t, h, hs, ht⟩
    exact ⟨s, hs, t, ht, h⟩

theorem mem_snd_mul : m ∈ (P * Q).snd.down ↔
    ∃ s t, s * t = m ∧ (s ∈ P.snd.down ∧ t ∈ Q.fst.down ∨ s ∈ P.fst.down ∧ t ∈ Q.snd.down) := by
  rw [snd_mul, smul_eq_mul, op_smul_eq_mul, SetSemiring.down_add, SetSemiring.down_mul, SetSemiring.down_mul,
    Set.mem_union, Set.mem_mul, Set.mem_mul]
  constructor
  · rintro (⟨s, hs, t, ht, h⟩ | ⟨s, hs, t, ht, h⟩)
    · exact ⟨s, t, h, .inr ⟨hs, ht⟩⟩
    · exact ⟨s, t, h, .inl ⟨hs, ht⟩⟩
  · rintro ⟨s, t, h, ⟨hs, ht⟩ | ⟨hs, ht⟩⟩
    · exact .inr ⟨s, hs, t, ht, h⟩
    · exact .inl ⟨s, hs, t, ht, h⟩

theorem mem_fst_sum : m ∈ (l.map R).sum.fst.down ↔ ∃ c ∈ l, m ∈ (R c).fst.down := by
  induction l with
  | nil => simp
  | cons c l ih => simp [ih, SetSemiring.down_add]

theorem mem_snd_sum : m ∈ (l.map R).sum.snd.down ↔ ∃ c ∈ l, m ∈ (R c).snd.down := by
  induction l with
  | nil => simp
  | cons c l ih => simp [ih, SetSemiring.down_add]

end DualNumber

theorem FollowsRules.order_le (hX : g.FollowsRules X) (h : Listed X n m) : m.order ≤ maxOrder :=
  le_maxOrder_of_mem_nonzero (hX.mem_nonzero h)

/-- **The derivatives of a node are what its polynomial says,** up to the highest order that is tracked. -/
theorem FollowsArithmetic.listed_iff (hX : g.FollowsArithmetic X) (hg : g.WellFormed) (n : NodeId) (m : Mixed) :
    (Listed g.nonzero n m ↔ m.order ≤ maxOrder ∧ m ∈ (aeval (g.listing X) (g.polynomial n)).fst.down) ∧
      (Listed X n m ↔ m.order ≤ maxOrder ∧ m ∈ (aeval (g.listing X) (g.polynomial n)).snd.down) := by
  have hW := followsArithmetic_nonzero hg
  induction n using arithmetic_induction hg generalizing m with
  | leaf n hn =>
    rw [polynomial_leaf hg hn, aeval_X]
    constructor
    · simpa [listing] using hW.order_le
    · simpa [listing] using hX.order_le
  | neg n arg hn ih =>
    rw [polynomial_neg hg hn, hW.neg hn, hX.neg hn]
    exact ih m
  | product n a b hn iha ihb =>
    -- the factors are of no higher order than the product
    have hle : ∀ s t : Mixed, (s * t).order ≤ maxOrder → s.order ≤ maxOrder ∧ t.order ≤ maxOrder := by
      intro s t h
      rw [Mixed.order_mul] at h
      omega
    rw [polynomial_product hg hn, map_mul, mem_fst_mul, mem_snd_mul, hW.product hn, hX.product hn]
    constructor
    · refine and_congr_right fun hm => exists_congr fun s => exists_congr fun t => and_congr_right fun hst => ?_
      obtain ⟨hs, ht⟩ := hle s t (hst ▸ hm)
      rw [IsSplit, or_self_iff, (iha s).1, (ihb t).1]
      simp only [hs, ht, true_and]
    · refine and_congr_right fun hm => exists_congr fun s => exists_congr fun t => and_congr_right fun hst => ?_
      obtain ⟨hs, ht⟩ := hle s t (hst ▸ hm)
      rw [IsSplit, (iha s).1, (iha s).2, (ihb t).1, (ihb t).2]
      simp only [hs, ht, true_and]
  | sum n terms hn hne ih =>
    rw [polynomial_sum hg hn hne, map_list_sum, List.map_map, mem_fst_sum, mem_snd_sum, hW.sum hn, hX.sum hn]
    simp only [← exists_and_left, and_left_comm (a := m.order ≤ maxOrder)]
    constructor
    · exact exists_congr fun term => and_congr_right fun hterm => (ih term hterm m).1
    · exact exists_congr fun term => and_congr_right fun hterm => (ih term hterm m).2

/-- **Nodes with the same polynomial have the same derivatives.** -/
theorem FollowsArithmetic.eq_of_polynomial_eq (hX : g.FollowsArithmetic X) (hg : g.WellFormed)
    (h : g.polynomial n = g.polynomial n') (k : Nat) : X n k = X n' k := by
  apply Std.ExtTreeSet.ext_mem
  intro m
  rw [hX.mem_iff hg, hX.mem_iff hg, (hX.listed_iff hg n m).2, (hX.listed_iff hg n' m).2, h]

/-! ## Demand -/

/-- A sum, a negation or a product that weighs no more than one of its operands asks the operand for what is demanded of
it: it is no product. -/
theorem Asks.eq_of_weight_le (hg : g.WellFormed) {node : Node} (hn : g.node? n = some node)
    (hnode : node.IsArithmetic) (hweight : g.weight n ≤ g.weight c) (h : g.Asks n j r c k m) : j = k ∧ r = m := by
  cases h with
  | term | negated => exact ⟨rfl, rfl⟩
  | left hproduct => exact absurd (weight_lt_of_product hg hproduct (.inl rfl)) hweight.not_gt
  | right hproduct => exact absurd (weight_lt_of_product hg hproduct (.inr rfl)) hweight.not_gt
  | value hn' | factor hn' | chain hn' | shift hn' =>
    obtain rfl := Option.some.inj (hn.symm.trans hn')
    exact hnode.elim

theorem AsksAlways.not_isArithmetic {node : Node} (hn : g.node? n = some node) (h : g.AsksAlways n c k m) :
    ¬node.IsArithmetic := by
  cases h with
  | value hn' | direction hn' =>
    obtain rfl := Option.some.inj (hn.symm.trans hn')
    exact id

/-- **A demand reaches a node with the same polynomial as it is:** it brings no derivatives there but those that are
demanded. -/
theorem mem_ofOrder_of_brings (hg : g.WellFormed) (h : g.polynomial n = g.polynomial n')
    (hm : g.Brings (n, demand) n' k m) : m ∈ demand.ofOrder k := by
  obtain ⟨part, hpath, hm, hw⟩ := hm
  have hweight : g.weight n = g.weight n' := by rw [weight, h, weight]
  -- on the way down to the node, what is no lighter is asked for the same
  have key : ∀ call : NodeId × Demand, ReflTransGen g.Gives (n, demand) call → n' ≤ call.1 →
      g.weight n ≤ g.weight call.1 → ∀ k m, m ∈ call.2.ofOrder k → m ∈ g.nonzero call.1 k → m ∈ demand.ofOrder k := by
    intro call hpath
    induction hpath with
    | refl => exact fun _ _ _ _ hm _ => hm
    | @tail above below hpath hgives ih =>
      intro hbelow hweight k m hm hw
      have hop : g.IsOperand above.1 below.1 := hgives.isOperand hg
      have habove : n' < above.1 := hbelow.trans_lt (hg.lt_of_transGen (.single hop))
      have hoperands : ReflTransGen g.IsOperand n above.1 := hpath.lift Prod.fst fun _ _ h => h.isOperand hg
      obtain ⟨node, hn, hnode⟩ := isArithmetic_above hg h hoperands habove
      have hle : g.weight above.1 ≤ g.weight n := weight_le_above hg h hoperands habove
      rcases hgives.sound hg hm hw with ⟨j, r, hr, hrw, hasks⟩ | halways
      · obtain ⟨rfl, rfl⟩ := hasks.eq_of_weight_le hg hn hnode (hle.trans hweight)
        obtain ⟨node', hn', hc⟩ := hop
        obtain rfl := Option.some.inj (hn.symm.trans hn')
        exact ih habove.le (hweight.trans (weight_le_of_isArithmetic hg hn hnode hc)) _ _ hr hrw
      · exact absurd hnode (halways.not_isArithmetic hn)
  exact key (n', part) hpath (Nat.le_refl _) hweight.le k m hm hw

end FormSparsity.Graph

import FormSparsity.Proofs.Analysis.Nonvanishing
import FormSparsity.Proofs.Analysis.Varying

/-!
The product rule. The spatial derivative of a product can be taken as it stands, by the rule for spatial
derivatives, or by the product rule, by the rules for sums and products (`ProductRule`); both can be built
of any two factors (`Builder.ends_productRule`). Both ways lead to terms in which one factor is
differentiated (`Graph.SlopeTerm`). They differ in the functions that the chain rule takes: as it stands,
those by which the product has a nonzero derivative (`ProductRule.mem_whole`); by the product rule, those by
which the factor has one (`ProductRule.mem_expanded`). A function by which a factor has a nonzero derivative
is not among the first ones if the other factor vanishes, and then there are fewer terms.

There is no difference for derivatives by coordinates and by functions that do not vanish
(`ProductRule.mem_whole_iff`), and none at all if all functions are evaluated at zero or all at discrete
functions (`ProductRule.whole_eq_expanded`). All this holds of nonzero and of varying derivatives, whose
rules for sums, products and spatial derivatives are of one kind (`Graph.FollowsRules`).
-/
namespace FormSparsity

/-! ## Families that follow the rules -/

/-- Whether a family of sets of derivatives has a derivative of a node, under its own order. -/
def Listed (X : NodeId → Nat → MixedSet) (n : NodeId) (m : Mixed) : Prop := m ∈ X n m.order

instance (X : NodeId → Nat → MixedSet) (n : NodeId) (m : Mixed) : Decidable (Listed X n m) :=
  inferInstanceAs (Decidable (m ∈ X n m.order))

namespace Graph

variable {g : Graph} {X : NodeId → Nat → MixedSet} {d : Nat} {first first' : MixedSet}
variable {a b n : NodeId} {k : Nat} {m s t : Mixed}

/-- Whether one of two derivatives is in the family `X` and the other one is nonzero. -/
def IsSplit (g : Graph) (X : NodeId → Nat → MixedSet) (a : NodeId) (s : Mixed) (b : NodeId) (t : Mixed) :
    Prop :=
  Listed X a s ∧ Listed g.nonzero b t ∨ Listed g.nonzero a s ∧ Listed X b t

theorem IsSplit.symm (h : g.IsSplit X a s b t) : g.IsSplit X b t a s := by
  rcases h with ⟨hs, ht⟩ | ⟨hs, ht⟩
  · exact .inr ⟨ht, hs⟩
  · exact .inl ⟨ht, hs⟩

/-- Whether the spatial derivative of a node has a derivative: the node has one that is nonzero with one
more function out of `first`, one in the family `X` with the coordinate, or one in `X` that is shifted to
it. -/
def IsSlope (g : Graph) (X : NodeId → Nat → MixedSet) (d : Nat) (first : MixedSet) (a : NodeId)
    (m : Mixed) : Prop :=
  (∃ z ∈ g.linearizedAtoms first (.axis d), Listed g.nonzero a (z * m)) ∨
    Listed X a (.ofAtom (.coordinate d) * m) ∨ ∃ m', Listed X a m' ∧ m ∈ m'.shifts (.axis d)

/-- Whether a family of nonzero derivatives has those of sums, products and spatial derivatives by the
rules: of products and spatial derivatives, one part is in the family and the others are nonzero. -/
structure FollowsRules (g : Graph) (X : NodeId → Nat → MixedSet) : Prop where
  mem_nonzero : ∀ {n k m}, m ∈ X n k → m ∈ g.nonzero n k
  sum : ∀ {n m terms}, g.node? n = some (.sum terms) → (Listed X n m ↔ ∃ term ∈ terms, Listed X term m)
  product : ∀ {n m a b}, g.node? n = some (.product a b) →
    (Listed X n m ↔ m.order ≤ maxOrder ∧ ∃ s t, s * t = m ∧ g.IsSplit X a s b t)
  derivative : ∀ {n m d arg}, g.node? n = some (.derivative d arg) →
    (Listed X n m ↔ m.order ≤ derivativeMaxOrder ∧ g.IsSlope X d (g.nonzero arg 1) arg m)

theorem FollowsRules.mem_iff (hX : g.FollowsRules X) (hg : g.WellFormed) :
    m ∈ X n k ↔ m.order = k ∧ Listed X n m := by
  constructor
  · intro h
    obtain rfl := order_of_mem_nonzero hg (hX.mem_nonzero h)
    exact ⟨rfl, h⟩
  · rintro ⟨rfl, h⟩
    exact h

/-- A spatial derivative looks at its operand at the own order of what it looks at. -/
theorem isSlope_iff : g.IsSlope X d first a m ↔
    (∃ z ∈ g.linearizedAtoms first (.axis d), z * m ∈ g.nonzero a (m.order + 1)) ∨
      .ofAtom (.coordinate d) * m ∈ X a (m.order + 1) ∨ ∃ m' ∈ X a m.order, m ∈ m'.shifts (.axis d) := by
  refine or_congr (exists_congr fun z => and_congr_right fun hz => ?_) (or_congr ?_ ?_)
  · rw [Listed, Mixed.order_mul, order_of_mem_linearizedAtoms hz, Nat.add_comm]
  · rw [Listed, Mixed.order_mul, Mixed.order_ofAtom, Nat.add_comm]
  · refine exists_congr fun m' => and_congr_left fun hm' => ?_
    rw [Listed, Mixed.order_of_mem_shifts hm']

theorem followsRules_nonzero (hg : g.WellFormed) : g.FollowsRules g.nonzero where
  mem_nonzero h := h
  sum hn := mem_nonzero_sum hg hn
  product {n m a b} hn := by
    rw [Listed, mem_nonzero_product hg hn]
    refine and_congr_right fun _ => ⟨?_, ?_⟩
    · rintro ⟨j, hj, s, hs, t, ht, rfl⟩
      have hsorder := order_of_mem_nonzero hg hs
      have htorder := order_of_mem_nonzero hg ht
      refine ⟨s, t, rfl, .inl ⟨?_, ?_⟩⟩
      · rwa [Listed, hsorder]
      · rwa [Listed, htorder]
    · rintro ⟨s, t, rfl, hst⟩
      obtain ⟨hs, ht⟩ := or_self_iff.mp hst
      rw [Mixed.order_mul]
      refine ⟨s.order, Nat.le_add_right _ _, s, hs, t, ?_, rfl⟩
      rwa [Nat.add_sub_cancel_left]
  derivative {n m d arg} hn := by
    rw [Listed, mem_nonzero_derivative hg hn, isSlope_iff]
    simp only [mem_chainAtoms, or_and_right, exists_or, exists_eq_left, or_assoc]

theorem followsRules_varying (hg : g.WellFormed) : g.FollowsRules g.varying where
  mem_nonzero := mem_nonzero_of_mem_varying hg
  sum {n m terms} hn := by
    by_cases hk : m.order ≤ maxOrder
    · exact mem_varying hg hn hk
    · simp [Listed, varying_of_maxOrder_lt (Nat.lt_of_not_le hk)]
  product {n m a b} hn := by
    by_cases hk : m.order ≤ maxOrder
    · rw [Listed, mem_varying hg hn hk]
      constructor
      · rintro ⟨j, hj, s, t, rfl, hst⟩
        -- varying or not, both derivatives are nonzero, which tells their orders
        have hnonzero : s ∈ g.nonzero a j ∧ t ∈ g.nonzero b ((s * t).order - j) := by
          rcases hst with ⟨hs, ht⟩ | ⟨hs, ht⟩
          · exact ⟨mem_nonzero_of_mem_varying hg hs, ht⟩
          · exact ⟨hs, mem_nonzero_of_mem_varying hg ht⟩
        have hsorder := order_of_mem_nonzero hg hnonzero.1
        have htorder := order_of_mem_nonzero hg hnonzero.2
        refine ⟨hk, s, t, rfl, ?_⟩
        rwa [IsSplit, Listed, Listed, Listed, Listed, hsorder, htorder]
      · rintro ⟨-, s, t, rfl, hst⟩
        rw [Mixed.order_mul]
        refine ⟨s.order, Nat.le_add_right _ _, s, t, rfl, ?_⟩
        rwa [Nat.add_sub_cancel_left]
    · simp [Listed, varying_of_maxOrder_lt (Nat.lt_of_not_le hk), hk]
  derivative {n m d arg} hn := by
    by_cases hk : m.order ≤ maxOrder
    · rw [Listed, mem_varying hg hn hk, isSlope_iff]
      rfl
    · have hk2 : ¬m.order ≤ derivativeMaxOrder := fun h => hk (Nat.le_succ_of_le h)
      simp [Listed, varying_of_maxOrder_lt (Nat.lt_of_not_le hk), hk2]

/-! ## The terms of the product rule -/

/-- Whether the product of the spatial derivative of `a` with `b` has a derivative, where the chain rule
takes functions out of `first`. -/
def SlopeTerm (g : Graph) (X : NodeId → Nat → MixedSet) (d : Nat) (first : MixedSet) (a b : NodeId)
    (m : Mixed) : Prop :=
  ∃ s t, s * t = m ∧ (g.IsSlope X d first a s ∧ Listed g.nonzero b t ∨
    g.IsSlope g.nonzero d first a s ∧ Listed X b t)

/-- A term of the product rule is a derivative of the spatial derivative of a node that has the splits
of the product. -/
theorem SlopeTerm.isSlope (hX : g.FollowsRules X)
    (hsplit : ∀ s t, (s * t).order ≤ maxOrder → g.IsSplit X a s b t → Listed X n (s * t))
    (hnonzero : ∀ s t, (s * t).order ≤ maxOrder → g.IsSplit g.nonzero a s b t → Listed g.nonzero n (s * t))
    (hm : m.order ≤ derivativeMaxOrder) (h : g.SlopeTerm X d first a b m) : g.IsSlope X d first n m := by
  obtain ⟨s, t, rfl, h⟩ := h
  have hnext : ∀ c : Mixed, c.order = 1 → (c * s * t).order ≤ maxOrder := by
    intro c hc
    simp only [Mixed.order_mul, derivativeMaxOrder, maxOrder] at hm ⊢
    omega
  have hsame : ∀ s' : Mixed, s'.order = s.order → (s' * t).order ≤ maxOrder := by
    intro s' hs'
    simp only [Mixed.order_mul, derivativeMaxOrder, maxOrder] at hm ⊢
    omega
  have hfunction : ∀ z ∈ g.linearizedAtoms first (.axis d), Listed g.nonzero a (z * s) →
      Listed g.nonzero b t → g.IsSlope X d first n (s * t) := by
    intro z hz hs ht
    refine .inl ⟨z, hz, ?_⟩
    rw [← mul_assoc]
    exact hnonzero _ t (hnext z (order_of_mem_linearizedAtoms hz)) (.inl ⟨hs, ht⟩)
  have hdirection : g.IsSplit X a (.ofAtom (.coordinate d) * s) b t → g.IsSlope X d first n (s * t) := by
    intro hst
    refine .inr (.inl ?_)
    rw [← mul_assoc]
    exact hsplit _ t (hnext _ (Mixed.order_ofAtom _)) hst
  have hshift : ∀ s', g.IsSplit X a s' b t → s ∈ s'.shifts (.axis d) → g.IsSlope X d first n (s * t) := by
    intro s' hst hs
    have horder := Mixed.order_of_mem_shifts hs
    exact .inr (.inr ⟨s' * t, hsplit s' t (hsame s' horder.symm) hst,
      Mixed.mem_shifts_mul.mpr (.inl ⟨s, hs, rfl⟩)⟩)
  rcases h with ⟨⟨z, hz, hs⟩ | hs | ⟨s', hs', hs⟩, ht⟩ | ⟨⟨z, hz, hs⟩ | hs | ⟨s', hs', hs⟩, ht⟩
  · exact hfunction z hz hs ht
  · exact hdirection (.inl ⟨hs, ht⟩)
  · exact hshift s' (.inl ⟨hs', ht⟩) hs
  · exact hfunction z hz hs (hX.mem_nonzero ht)
  · exact hdirection (.inr ⟨hs, ht⟩)
  · exact hshift s' (.inr ⟨hs', ht⟩) hs

/-- **Spatial derivatives of products have the terms of the product rule,** in both of which the chain
rule takes the functions that it takes for the product. -/
theorem FollowsRules.isSlope_product (hX : g.FollowsRules X) (hg : g.WellFormed)
    (hn : g.node? n = some (.product a b)) (hm : m.order ≤ derivativeMaxOrder) :
    g.IsSlope X d first n m ↔ g.SlopeTerm X d first a b m ∨ g.SlopeTerm X d first b a m := by
  have hW := followsRules_nonzero hg
  constructor
  · rintro (⟨z, hz, hzm⟩ | hxm | ⟨m', hm', hshift⟩)
    · obtain ⟨-, f, p, β, rfl, -⟩ := mem_linearizedAtoms.mp hz
      obtain ⟨-, s, t, hst, hsplit⟩ := (hW.product hn).mp hzm
      obtain ⟨hs, ht⟩ := or_self_iff.mp hsplit
      rcases Mixed.ofAtom_mul_eq_mul hst.symm with ⟨s', rfl, rfl⟩ | ⟨t', rfl, rfl⟩
      · exact .inl ⟨s', t, rfl, .inl ⟨.inl ⟨_, hz, hs⟩, ht⟩⟩
      · exact .inr ⟨t', s, mul_comm t' s, .inl ⟨.inl ⟨_, hz, ht⟩, hs⟩⟩
    · obtain ⟨-, s, t, hst, hsplit⟩ := (hX.product hn).mp hxm
      rcases Mixed.ofAtom_mul_eq_mul hst.symm with ⟨s', rfl, rfl⟩ | ⟨t', rfl, rfl⟩
      · refine .inl ⟨s', t, rfl, ?_⟩
        exact hsplit.imp (fun h => ⟨.inr (.inl h.1), h.2⟩) fun h => ⟨.inr (.inl h.1), h.2⟩
      · refine .inr ⟨t', s, mul_comm t' s, ?_⟩
        exact hsplit.symm.imp (fun h => ⟨.inr (.inl h.1), h.2⟩) fun h => ⟨.inr (.inl h.1), h.2⟩
    · obtain ⟨-, s, t, rfl, hsplit⟩ := (hX.product hn).mp hm'
      rcases Mixed.mem_shifts_mul.mp hshift with ⟨s', hs', rfl⟩ | ⟨t', ht', rfl⟩
      · refine .inl ⟨s', t, rfl, ?_⟩
        exact hsplit.imp (fun h => ⟨.inr (.inr ⟨s, h.1, hs'⟩), h.2⟩) fun h => ⟨.inr (.inr ⟨s, h.1, hs'⟩), h.2⟩
      · refine .inr ⟨t', s, mul_comm t' s, ?_⟩
        exact hsplit.symm.imp (fun h => ⟨.inr (.inr ⟨t, h.1, ht'⟩), h.2⟩)
          fun h => ⟨.inr (.inr ⟨t, h.1, ht'⟩), h.2⟩
  · have hsplit : ∀ {Y}, g.FollowsRules Y → ∀ s t, (s * t).order ≤ maxOrder → g.IsSplit Y a s b t →
        Listed Y n (s * t) := fun hY s t hst h => (hY.product hn).mpr ⟨hst, s, t, rfl, h⟩
    have hsplit' : ∀ {Y}, g.FollowsRules Y → ∀ t s, (t * s).order ≤ maxOrder → g.IsSplit Y b t a s →
        Listed Y n (t * s) := fun hY t s hts h =>
      (hY.product hn).mpr ⟨hts, s, t, mul_comm s t, h.symm⟩
    rintro (h | h)
    · exact h.isSlope hX (hsplit hX) (hsplit hW) hm
    · exact h.isSlope hX (hsplit' hX) (hsplit' hW) hm

/-- The product of the spatial derivative of `a` with `b` has the terms in which the chain rule takes the
functions that it takes for `a`. -/
theorem FollowsRules.slope_mul (hX : g.FollowsRules X) (hg : g.WellFormed) {da : NodeId}
    (hda : g.node? da = some (.derivative d a)) (hm : m.order ≤ derivativeMaxOrder) :
    (∃ s t, s * t = m ∧ g.IsSplit X da s b t) ↔ g.SlopeTerm X d (g.nonzero a 1) a b m := by
  refine exists_congr fun s => exists_congr fun t => and_congr_right fun hst => ?_
  have hs : s.order ≤ derivativeMaxOrder := by
    rw [← hst, Mixed.order_mul] at hm
    omega
  rw [IsSplit, hX.derivative hda, (followsRules_nonzero hg).derivative hda]
  simp only [hs, true_and]

/-- Functions that the chain rule may take from one set can be taken from another one that has them. -/
theorem SlopeTerm.of_first (hX : g.FollowsRules X) (h : g.SlopeTerm X d first a b m)
    (hfirst : ∀ z ∈ g.linearizedAtoms first (.axis d), ∀ s t, s * t = m → Listed g.nonzero a (z * s) →
      Listed g.nonzero b t → z ∈ first') : g.SlopeTerm X d first' a b m := by
  obtain ⟨s, t, rfl, h⟩ := h
  have hslope : ∀ {Y}, Listed g.nonzero b t → g.IsSlope Y d first a s → g.IsSlope Y d first' a s := by
    intro Y ht
    refine Or.imp_left ?_
    rintro ⟨z, hz, hs⟩
    have hz' : z ∈ first' := hfirst z hz s t rfl hs ht
    exact ⟨z, mem_linearizedAtoms.mpr ⟨hz', (mem_linearizedAtoms.mp hz).2⟩, hs⟩
  refine ⟨s, t, rfl, h.imp (fun h => ⟨hslope h.2 h.1, h.2⟩) fun h => ⟨hslope ?_ h.1, h.2⟩⟩
  exact hX.mem_nonzero h.2

/-- Terms of the product rule by functions that do not vanish do not depend on whether the chain rule
takes them for the product or for the factor; nor do any terms if there are no functions to take. -/
theorem slopeTerm_iff (hX : g.FollowsRules X) (hg : g.Built) {n : NodeId}
    (hn : ∀ s t, (s * t).order ≤ maxOrder → Listed g.nonzero a s → Listed g.nonzero b t →
      Listed g.nonzero n (s * t))
    (hk : m.order ≤ derivativeMaxOrder)
    (hm : (∀ c ∈ m, g.IsNonvanishing c) ∨ ∀ f, g.isLinearized f = false) :
    g.SlopeTerm X d (g.nonzero n 1) a b m ↔ g.SlopeTerm X d (g.nonzero a 1) a b m := by
  have hw := hg.wellFormed
  -- what the chain rule takes does not vanish, and neither does its product with the parts of `m`
  have hv : ∀ {first : MixedSet} {z}, z ∈ g.linearizedAtoms first (.axis d) → z.order = 1 ∧
      ∀ c ∈ z * m, g.IsNonvanishing c := by
    intro first z hz
    obtain ⟨-, f, p, -, rfl, -, -, hf⟩ := mem_linearizedAtoms.mp hz
    refine ⟨rfl, ?_⟩
    intro c hc
    rcases Mixed.mem_mul.mp hc with hc | hc
    · obtain rfl := Mixed.mem_ofAtom.mp hc
      exact hf
    · rcases hm with hm | hm
      · exact hm c hc
      · simp [hm f] at hf
  constructor
  · intro h
    refine h.of_first hX fun z hz s t hst hs _ => ?_
    obtain ⟨hz1, hzv⟩ := hv hz
    rw [← hz1]
    refine mem_nonzero_of_mul_mem hw hg.declaresOnce hs fun c hc => hzv c ?_
    rw [← hst, ← mul_assoc]
    exact Mixed.mem_mul.mpr (.inl hc)
  · intro h
    refine h.of_first hX fun z hz s t hst hs ht => ?_
    obtain ⟨hz1, hzv⟩ := hv hz
    have horder : (z * s * t).order ≤ maxOrder := by
      rw [mul_assoc, hst, Mixed.order_mul, hz1, maxOrder]
      rw [derivativeMaxOrder] at hk
      omega
    have hzst : Listed g.nonzero n (z * s * t) := hn _ t horder hs ht
    rw [mul_assoc, hst] at hzst
    rw [← hz1]
    exact mem_nonzero_of_mul_mem hw hg.declaresOnce hzst hzv

/-! ## The two ways to take the derivative of a product -/

/-- The nodes of the spatial derivative of a product, as it stands (`whole`) and by the product rule
(`expanded`). -/
structure ProductRule (g : Graph) where
  direction : Nat
  left : NodeId
  right : NodeId
  product : NodeId
  whole : NodeId
  leftSlope : NodeId
  rightSlope : NodeId
  leftTerm : NodeId
  rightTerm : NodeId
  expanded : NodeId
  product_eq : g.node? product = some (.product left right)
  whole_eq : g.node? whole = some (.derivative direction product)
  leftSlope_eq : g.node? leftSlope = some (.derivative direction left)
  rightSlope_eq : g.node? rightSlope = some (.derivative direction right)
  leftTerm_eq : g.node? leftTerm = some (.product leftSlope right)
  rightTerm_eq : g.node? rightTerm = some (.product left rightSlope)
  expanded_eq : g.node? expanded = some (.sum [leftTerm, rightTerm])

/-- Whether all symbolic functions are evaluated at zero, or all at discrete functions. -/
def HasUniformPoints (g : Graph) : Prop :=
  (∀ f, g.isLinearized f = false) ∨ ∀ n name f role, g.node? n ≠ some (.symbolic name f role .zero)

namespace ProductRule

variable (r : g.ProductRule)

/-- **The derivative of a product as it stands** has the terms of the product rule in which the chain rule
takes functions by which the product has a nonzero derivative. -/
theorem mem_whole (hX : g.FollowsRules X) (hg : g.WellFormed) (hk : k ≤ derivativeMaxOrder) :
    m ∈ X r.whole k ↔ m.order = k ∧
      (g.SlopeTerm X r.direction (g.nonzero r.product 1) r.left r.right m ∨
        g.SlopeTerm X r.direction (g.nonzero r.product 1) r.right r.left m) := by
  rw [hX.mem_iff hg]
  apply and_congr_right
  intro hm
  rw [hX.derivative r.whole_eq, hm, hX.isSlope_product hg r.product_eq (hm ▸ hk)]
  simp only [hk, true_and]

/-- **The derivative of a product by the product rule** has the terms of the product rule in which the
chain rule takes functions by which the factor has a nonzero derivative. -/
theorem mem_expanded (hX : g.FollowsRules X) (hg : g.WellFormed) (hk : k ≤ derivativeMaxOrder) :
    m ∈ X r.expanded k ↔ m.order = k ∧
      (g.SlopeTerm X r.direction (g.nonzero r.left 1) r.left r.right m ∨
        g.SlopeTerm X r.direction (g.nonzero r.right 1) r.right r.left m) := by
  rw [hX.mem_iff hg]
  apply and_congr_right
  intro hm
  have hm2 : m.order ≤ derivativeMaxOrder := hm ▸ hk
  have hm3 : m.order ≤ maxOrder := Nat.le_succ_of_le hm2
  have hright : (∃ s t, s * t = m ∧ g.IsSplit X r.left s r.rightSlope t) ↔
      ∃ t s, t * s = m ∧ g.IsSplit X r.rightSlope t r.left s := by
    constructor
    · rintro ⟨s, t, hst, h⟩
      exact ⟨t, s, (mul_comm t s).trans hst, h.symm⟩
    · rintro ⟨t, s, hts, h⟩
      exact ⟨s, t, (mul_comm s t).trans hts, h.symm⟩
  rw [← hX.slope_mul hg r.leftSlope_eq hm2, ← hX.slope_mul hg r.rightSlope_eq hm2, ← hright,
    hX.sum r.expanded_eq]
  simp [hX.product r.leftTerm_eq, hX.product r.rightTerm_eq, hm3]

/-- **The product rule holds for functions that do not vanish:** derivatives by coordinates and by such
functions are derivatives of the product as it stands if and only if they are by the product rule. -/
theorem mem_whole_iff (hX : g.FollowsRules X) (hg : g.Built) (hk : k ≤ derivativeMaxOrder)
    (hm : (∀ c ∈ m, g.IsNonvanishing c) ∨ ∀ f, g.isLinearized f = false) :
    m ∈ X r.whole k ↔ m ∈ X r.expanded k := by
  have hw := hg.wellFormed
  have hproduct : ∀ s t, (s * t).order ≤ maxOrder → Listed g.nonzero r.left s → Listed g.nonzero r.right t →
      Listed g.nonzero r.product (s * t) := fun s t hst hs ht =>
    ((followsRules_nonzero hw).product r.product_eq).mpr ⟨hst, s, t, rfl, .inl ⟨hs, ht⟩⟩
  rw [r.mem_whole hX hw hk, r.mem_expanded hX hw hk]
  apply and_congr_right
  intro horder
  have hm2 : m.order ≤ derivativeMaxOrder := horder ▸ hk
  refine or_congr (slopeTerm_iff hX hg hproduct hm2 hm) (slopeTerm_iff hX hg (fun t s hts ht hs => ?_) hm2 hm)
  rw [mul_comm] at hts ⊢
  exact hproduct s t hts hs ht

/-- **The product rule holds for uniform points:** if all functions are evaluated at zero or all at
discrete functions, the product has the same derivatives as it stands and by the product rule. -/
theorem whole_eq_expanded (hX : g.FollowsRules X) (hg : g.Built) (hk : k ≤ derivativeMaxOrder)
    (hpoints : g.HasUniformPoints) : X r.whole k = X r.expanded k := by
  apply Std.ExtTreeSet.ext_mem
  intro m
  rcases hpoints with hpoints | hpoints
  · exact r.mem_whole_iff hX hg hk (.inr hpoints)
  · have hv : ∀ {n}, m ∈ X n k → ∀ c ∈ m, g.IsNonvanishing c := fun h =>
      isNonvanishing_of_mem_nonzero hg.wellFormed hg.declaresOnce hpoints (hX.mem_nonzero h)
    constructor
    · intro h
      exact (r.mem_whole_iff hX hg hk (.inl (hv h))).mp h
    · intro h
      exact (r.mem_whole_iff hX hg hk (.inl (hv h))).mpr h

end ProductRule

end Graph

namespace Builder

variable {g : Graph} {a b : NodeId} {d : Nat}

/-- Builds the derivative of a product, as it stands and by the product rule. -/
def productRule (d : Nat) (a b : NodeId) : Builder (NodeId × NodeId) := do
  let whole ← derivative d (← mul a b)
  let leftTerm ← mul (← derivative d a) b
  let rightTerm ← mul a (← derivative d b)
  return (whole, ← add leftTerm rightTerm)

/-- **The derivative of every product can be taken in both ways.** -/
theorem ends_productRule (hg : g.Built) (hd : d < g.dimension) (ha : a < g.size) (hb : b < g.size) :
    Ends (productRule d a b) g
      (fun p g' => g'.Built ∧ Graph.Extends g g' ∧ ∃ r : g'.ProductRule,
        r.direction = d ∧ r.left = a ∧ r.right = b ∧ p = (r.whole, r.expanded)) fun _ _ => False := by
  rw [productRule, ends_bind]
  refine (ends_mul hg ha hb).mono (fun product g₁ ⟨hg₁, h₁, hproduct⟩ => ?_) fun _ _ h => h
  rw [ends_bind]
  refine (ends_derivative hg₁ (h₁.dimension_eq ▸ hd) (Graph.node?_lt hproduct)).mono
    (fun whole g₂ ⟨hg₂, h₂, hwhole⟩ => ?_) fun _ _ h => h
  have hgrows₂ := h₁.trans h₂
  rw [ends_bind]
  refine (ends_derivative hg₂ (hgrows₂.dimension_eq ▸ hd) (hgrows₂.lt_size ha)).mono
    (fun leftSlope g₃ ⟨hg₃, h₃, hleftSlope⟩ => ?_) fun _ _ h => h
  have hgrows₃ := hgrows₂.trans h₃
  rw [ends_bind]
  refine (ends_mul hg₃ (Graph.node?_lt hleftSlope) (hgrows₃.lt_size hb)).mono
    (fun leftTerm g₄ ⟨hg₄, h₄, hleftTerm⟩ => ?_) fun _ _ h => h
  have hgrows₄ := hgrows₃.trans h₄
  rw [ends_bind]
  refine (ends_derivative hg₄ (hgrows₄.dimension_eq ▸ hd) (hgrows₄.lt_size hb)).mono
    (fun rightSlope g₅ ⟨hg₅, h₅, hrightSlope⟩ => ?_) fun _ _ h => h
  have hgrows₅ := hgrows₄.trans h₅
  rw [ends_bind]
  refine (ends_mul hg₅ (hgrows₅.lt_size ha) (Graph.node?_lt hrightSlope)).mono
    (fun rightTerm g₆ ⟨hg₆, h₆, hrightTerm⟩ => ?_) fun _ _ h => h
  have hgrows₆ := hgrows₅.trans h₆
  rw [ends_bind]
  refine (ends_add hg₆ ((h₅.trans h₆).lt_size (Graph.node?_lt hleftTerm)) (Graph.node?_lt hrightTerm)).mono
    (fun expanded g₇ ⟨hg₇, h₇, hexpanded⟩ => ?_) fun _ _ h => h
  -- all nodes are still there when the last one is built
  have hrest₅ := h₆.trans h₇
  have hrest₄ := h₅.trans hrest₅
  have hrest₃ := h₄.trans hrest₄
  have hrest₂ := h₃.trans hrest₃
  have hrest₁ := h₂.trans hrest₂
  let r : g₇.ProductRule :=
    ⟨d, a, b, product, whole, leftSlope, rightSlope, leftTerm, rightTerm, expanded,
      hrest₁.node?_eq hproduct, hrest₂.node?_eq hwhole, hrest₃.node?_eq hleftSlope,
      hrest₅.node?_eq hrightSlope, hrest₄.node?_eq hleftTerm, h₇.node?_eq hrightTerm, hexpanded⟩
  exact ⟨hg₇, h₁.trans hrest₁, r, rfl, rfl, rfl, rfl⟩

end Builder

end FormSparsity

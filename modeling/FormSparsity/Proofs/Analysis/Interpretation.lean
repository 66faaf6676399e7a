import FormSparsity.Proofs.Analysis.Demand
import Mathlib.Algebra.BigOperators.Fin
import Mathlib.Algebra.BigOperators.Ring.Finset
import Mathlib.Order.Partition.Finpartition

/-!
What nonzero derivatives mean. An interpretation takes values in a commutative ring for what integrands
are made of at a point: coordinates, functions and their derivatives, constants, and the nonlinear functions
with theirs. The mixed derivatives of a node then have values by the rules of calculus
(`Interpretation.partialDerivative`): that of a product is the sum over all ways to distribute the atoms over
both factors, and that of a nonlinear function the sum over all partitions of the atoms.

Spatial derivatives are given no meaning here. For nodes built without them, a derivative that is not among
the nonzero ones is zero in every interpretation (`Interpretation.partialDerivative_eq_zero`).
-/
namespace FormSparsity

/-! ## Parts of a mixed derivative -/

namespace Mixed

variable {m : Mixed}

/-- The mixed derivative by some of the atoms, which are told by their places. -/
def part (m : Mixed) (S : Finset (Fin m.atoms.length)) : Mixed := ∏ i ∈ S, ofAtom (m.atoms.get i)

theorem prod_ofAtom (m : Mixed) : ∏ i : Fin m.atoms.length, ofAtom (m.atoms.get i) = m := by
  have hlist : ∀ l : List Atom, (l.map ofAtom).prod = ofList l := by
    intro l
    induction l with
    | nil => rfl
    | cons a l ih =>
      rw [List.map_cons, List.prod_cons, ih]
      apply eq_of_perm
      exact perm_ofAtom_mul.trans ((perm_ofList.cons a).trans perm_ofList.symm)
  have hofFn : List.ofFn (fun i => ofAtom (m.atoms.get i)) = m.atoms.map ofAtom := by
    conv_rhs => rw [← List.ofFn_get m.atoms, List.map_ofFn]
    rfl
  rw [← List.prod_ofFn, hofFn, hlist, ofList_atoms]

theorem part_mul_part_compl (S : Finset (Fin m.atoms.length)) : m.part S * m.part Sᶜ = m := by
  rw [part, part, Finset.prod_mul_prod_compl, prod_ofAtom]

theorem order_part (S : Finset (Fin m.atoms.length)) : (m.part S).order = S.card := by
  induction S using Finset.induction_on with
  | empty => rfl
  | insert i S hi ih =>
    rw [part, Finset.prod_insert hi, order_mul, order_ofAtom, Finset.card_insert_of_notMem hi, Nat.add_comm,
      ← ih]
    rfl

theorem order_part_le (S : Finset (Fin m.atoms.length)) : (m.part S).order ≤ m.order := by
  rw [order_part]
  exact card_finset_fin_le S

theorem order_sub_order_part (S : Finset (Fin m.atoms.length)) : m.order - (m.part S).order = (m.part Sᶜ).order := by
  have horder : (m.part S).order + (m.part Sᶜ).order = m.order := by rw [← order_mul, part_mul_part_compl]
  omega

theorem prod_part (π : Finpartition (Finset.univ : Finset (Fin m.atoms.length))) :
    ∏ S ∈ π.parts, m.part S = m := by
  calc ∏ S ∈ π.parts, m.part S = ∏ i ∈ π.parts.biUnion id, ofAtom (m.atoms.get i) :=
        (Finset.prod_biUnion π.disjoint).symm
    _ = m := by rw [π.biUnion_parts, prod_ofAtom]

end Mixed

/-- The blocks of a partition of the atoms make up a factorization if all of them are listed. -/
theorem IsFactorization.of_parts {w : Nat → MixedSet} {m : Mixed}
    {π : Finpartition (Finset.univ : Finset (Fin m.atoms.length))}
    (h : ∀ S ∈ π.parts, m.part S ∈ w (m.part S).order) :
    IsFactorization w m (π.parts.toList.map m.part) where
  prod_eq := by
    rw [Finset.prod_map_toList, Mixed.prod_part]
  order_pos s hs := by
    obtain ⟨S, hS, rfl⟩ := List.mem_map.mp hs
    rw [Mixed.order_part]
    exact (π.nonempty_of_mem_parts (Finset.mem_toList.mp hS)).card_pos
  mem s hs := by
    obtain ⟨S, hS, rfl⟩ := List.mem_map.mp hs
    exact h S (Finset.mem_toList.mp hS)

/-! ## Interpretations -/

/-- Values in a commutative ring of what integrands are made of at a point. -/
structure Interpretation (K : Type) [CommRing K] where
  constant : Binary64 → K
  constant_eq_zero : ∀ c, c.isZero = true → constant c = 0
  /-- The coordinates of the point. -/
  coordinate : Nat → K
  /-- The values of symbolic functions that are evaluated at discrete functions. -/
  symbolic : FunctionId → K
  /-- The values of discrete functions and of their derivatives by coordinates. -/
  discrete : FunctionId → Mixed → K
  /-- The values of nonlinear functions and of their derivatives. -/
  nonlinear : Nonlinearity → Nat → K → K
  /-- The values of the derivatives of spatial derivatives, of which nothing is assumed. -/
  spatial : NodeId → Mixed → K

namespace Interpretation

variable {K : Type} [CommRing K] (I : Interpretation K) (g : Graph)

/-- The value of a symbolic function where it is evaluated. -/
def valueAt (f : FunctionId) : EvalPoint → K
  | .zero => 0
  | .discrete _ => I.symbolic f

/-- The value of a mixed derivative of a node whose operands have mixed derivatives of the given values:
by linearity for sums, by Leibniz's rule for products, where every set of atoms goes to the left factor once,
and by the rule of Faà di Bruno for nonlinear functions. A discrete function depends on the coordinates of space
and on nothing else. -/
def ofNode (n : NodeId) (operand : NodeId → Mixed → K) (m : Mixed) : Node → K
  | .constant c => if m = 1 then I.constant c else 0
  | .coordinate d => if m = 1 then I.coordinate d else if m = .ofAtom (.coordinate d) then 1 else 0
  | .symbolic _ f _ point =>
    if m = 1 then I.valueAt f point else if m = .ofAtom (.functional f .value) then 1 else 0
  | .discrete _ f => if ∀ a ∈ m.atoms, ∃ d < g.dimension, a = .coordinate d then I.discrete f m else 0
  | .derivative .. => I.spatial n m
  | .sum terms => (terms.map fun term => operand term m).sum
  | .neg arg => -operand arg m
  | .product a b => ∑ S : Finset (Fin m.atoms.length), operand a (m.part S) * operand b (m.part Sᶜ)
  | .nonlinear f arg => ∑ π : Finpartition (Finset.univ : Finset (Fin m.atoms.length)),
      I.nonlinear f π.parts.card (operand arg 1) * ∏ S ∈ π.parts, operand arg (m.part S)

/-- The value of a mixed derivative of a node; zero if there is no such node. -/
def partialDerivative : NodeId → Mixed → K :=
  recurse (fun _ _ => 0) fun n operand m =>
    match g.node? n with
    | some node => I.ofNode g n operand m node
    | none => 0

variable {g} {n : NodeId} {m : Mixed}

/-- Only the mixed derivatives of operands matter. -/
theorem ofNode_congr {operand operand' : NodeId → Mixed → K} {node : Node}
    (h : ∀ c ∈ node.children, operand c = operand' c) :
    I.ofNode g n operand m node = I.ofNode g n operand' m node := by
  cases node with
  | constant | coordinate | symbolic | discrete | derivative => rfl
  | sum terms =>
    simp only [ofNode]
    exact congrArg List.sum (List.map_congr_left fun term hterm => congrFun (h term hterm) m)
  | neg arg => simp only [ofNode, h arg (List.mem_singleton_self arg)]
  | product a b => simp only [ofNode, h a (by simp [Node.children]), h b (by simp [Node.children])]
  | nonlinear f arg => simp only [ofNode, h arg (List.mem_singleton_self arg)]

/-- The mixed derivatives of a node have the values that those of its operands make up. -/
theorem partialDerivative_eq (hg : g.WellFormed) {node : Node} (hn : g.node? n = some node) :
    I.partialDerivative g n m = I.ofNode g n (I.partialDerivative g) m node := by
  rw [partialDerivative, recurse_eq, hn]
  exact I.ofNode_congr fun c hc => if_pos (hg.child_lt n node hn c hc)

/-- Where the coordinate is three, the derivative of `x0*v` by `v` is three. -/
example : (⟨fun _ => 0, fun _ _ => rfl, fun _ => 3, fun _ => 0, fun _ _ => 0, fun _ _ _ => 0, fun _ _ => 0⟩ :
    Interpretation ℤ).partialDerivative Graph.slopeOfProduct 2 (.ofAtom (.functional 7 .value)) = 3 := by
  decide +kernel

end Interpretation

/-! ## Nodes built without spatial derivatives -/

/-- Whether a node is built without spatial derivatives. -/
def Graph.IsDerivativeFree (g : Graph) (n : NodeId) : Prop :=
  ∀ c, Relation.ReflTransGen g.IsOperand n c → ∀ d arg, g.node? c ≠ some (.derivative d arg)

theorem Graph.IsDerivativeFree.operand {g : Graph} {n c : NodeId} (h : g.IsDerivativeFree n)
    (hc : g.IsOperand n c) : g.IsDerivativeFree c := fun c' hc' => h c' (.head hc hc')

/-- Only nodes up to the number of a node matter. -/
theorem Graph.isDerivativeFree_of_le {g : Graph} (hg : g.WellFormed) {n : NodeId}
    (h : ∀ c ≤ n, ∀ d arg, g.node? c ≠ some (.derivative d arg)) : g.IsDerivativeFree n := by
  intro c hc
  rcases Relation.reflTransGen_iff_eq_or_transGen.mp hc with rfl | hbelow
  · exact h c (Nat.le_refl c)
  · exact h c (Nat.le_of_lt (hg.lt_of_transGen hbelow))

/-- The product in `D0[x0*v]` is built without spatial derivatives. -/
theorem Graph.isDerivativeFree_slopeOfProduct : Graph.slopeOfProduct.IsDerivativeFree 2 := by
  refine Graph.isDerivativeFree_of_le Graph.built_slopeOfProduct.wellFormed fun c hc d arg h => ?_
  match c, hc, h with
  | 0, _, h | 1, _, h | 2, _, h => cases h

namespace Interpretation

variable {K : Type} [CommRing K] (I : Interpretation K) {g : Graph} {n : NodeId} {m : Mixed}

/-! ### One node -/

variable {operand : NodeId → Mixed → K}

theorem ofNode_constant_eq_zero (hg : g.WellFormed) {c : Binary64} (hn : g.node? n = some (.constant c))
    (h : m ∉ g.nonzero n m.order) : I.ofNode g n operand m (.constant c) = 0 := by
  by_cases hone : m = 1
  · subst hone
    have hzero : c.isZero = true := by
      by_contra hc
      exact h ((Graph.mem_nonzero_constant hg hn).mpr ⟨rfl, by simpa using hc, rfl⟩)
    simp only [ofNode, if_true, I.constant_eq_zero c hzero]
  · simp only [ofNode, hone, if_false]

theorem ofNode_coordinate_eq_zero (hg : g.WellFormed) {d : Nat} (hn : g.node? n = some (.coordinate d))
    (h : m ∉ g.nonzero n m.order) : I.ofNode g n operand m (.coordinate d) = 0 := by
  have hone : m ≠ 1 := by
    rintro rfl
    exact h ((Graph.mem_nonzero_coordinate hg hn).mpr (.inl ⟨rfl, rfl⟩))
  have hatom : m ≠ .ofAtom (.coordinate d) := by
    rintro rfl
    exact h ((Graph.mem_nonzero_coordinate hg hn).mpr (.inr ⟨rfl, rfl⟩))
  simp only [ofNode, hone, hatom, if_false]

/-- The value of a symbolic function is not among the nonzero derivatives only if it is evaluated at zero. -/
theorem ofNode_symbolic_eq_zero (hg : g.WellFormed) {name : String} {f : FunctionId} {role : Role} {point : EvalPoint}
    (hn : g.node? n = some (.symbolic name f role point)) (h : m ∉ g.nonzero n m.order) :
    I.ofNode g n operand m (.symbolic name f role point) = 0 := by
  have hatom : m ≠ .ofAtom (.functional f .value) := by
    rintro rfl
    exact h ((Graph.mem_nonzero_symbolic hg hn).mpr (.inr ⟨rfl, rfl⟩))
  by_cases hone : m = 1
  · subst hone
    cases point with
    | zero => simp only [ofNode, if_true, valueAt]
    | discrete p => exact absurd ((Graph.mem_nonzero_symbolic hg hn).mpr (.inl ⟨rfl, rfl, p, rfl⟩)) h
  · simp only [ofNode, hone, hatom, if_false]

/-- All derivatives of a discrete function by coordinates of space are listed. -/
theorem ofNode_discrete_eq_zero (hg : g.WellFormed) {name : String} {f : FunctionId}
    (hn : g.node? n = some (.discrete name f)) (hm : m.order ≤ maxOrder) (h : m ∉ g.nonzero n m.order) :
    I.ofNode g n operand m (.discrete name f) = 0 := by
  have hcoordinates : ¬∀ a ∈ m.atoms, ∃ d < g.dimension, a = .coordinate d := fun hall =>
    h ((Graph.mem_nonzero_discrete hg hn).mpr ⟨hm, Graph.mem_ofCoordinates.mpr ⟨rfl, hall⟩⟩)
  simp only [ofNode, hcoordinates, if_false]

theorem ofNode_sum_eq_zero (hg : g.WellFormed) {terms : List NodeId} (hn : g.node? n = some (.sum terms))
    (hterms : ∀ term ∈ terms, m ∉ g.nonzero term m.order → operand term m = 0) (h : m ∉ g.nonzero n m.order) :
    I.ofNode g n operand m (.sum terms) = 0 := by
  simp only [ofNode]
  apply List.sum_eq_zero
  intro value hvalue
  obtain ⟨term, hterm, rfl⟩ := List.mem_map.mp hvalue
  exact hterms term hterm fun hmem => h ((Graph.mem_nonzero_sum hg hn).mpr ⟨term, hterm, hmem⟩)

/-- A term of Leibniz's rule vanishes: if both of its factors were among the nonzero derivatives of the operands, the
whole would be among those of the product. -/
theorem ofNode_product_eq_zero (hg : g.WellFormed) {a b : NodeId} (hn : g.node? n = some (.product a b))
    (ha : ∀ s : Mixed, s.order ≤ m.order → s ∉ g.nonzero a s.order → operand a s = 0)
    (hb : ∀ s : Mixed, s.order ≤ m.order → s ∉ g.nonzero b s.order → operand b s = 0)
    (hm : m.order ≤ maxOrder) (h : m ∉ g.nonzero n m.order) : I.ofNode g n operand m (.product a b) = 0 := by
  simp only [ofNode]
  apply Finset.sum_eq_zero
  intro S _
  by_cases hleft : m.part S ∈ g.nonzero a (m.part S).order
  · have hright : m.part Sᶜ ∉ g.nonzero b (m.part Sᶜ).order := by
      intro hright
      rw [← Mixed.order_sub_order_part] at hright
      exact h ((Graph.mem_nonzero_product hg hn).mpr
        ⟨hm, _, Mixed.order_part_le S, _, hleft, _, hright, Mixed.part_mul_part_compl S⟩)
    rw [hb _ (Mixed.order_part_le Sᶜ) hright, mul_zero]
  · rw [ha _ (Mixed.order_part_le S) hleft, zero_mul]

/-- The blocks of a partition of the atoms are factors of a mixed derivative. If none of them vanishes on an
expression, they make up a factorization. -/
theorem isFactorization_of_partition {w : Nat → MixedSet} {inner : Mixed → K}
    (h : ∀ s : Mixed, s.order ≤ m.order → s ∉ w s.order → inner s = 0)
    (π : Finpartition (Finset.univ : Finset (Fin m.atoms.length)))
    (hπ : ∏ S ∈ π.parts, inner (m.part S) ≠ 0) : IsFactorization w m (π.parts.toList.map m.part) := by
  refine IsFactorization.of_parts fun S hS => ?_
  by_contra hnot
  exact hπ (Finset.prod_eq_zero hS (h _ (Mixed.order_part_le S) hnot))

/-- A term of the rule of Faà di Bruno vanishes: its blocks would make up a factorization otherwise. -/
theorem ofNode_nonlinear_eq_zero (hg : g.WellFormed) {f : Nonlinearity} {arg : NodeId}
    (hn : g.node? n = some (.nonlinear f arg))
    (harg : ∀ s : Mixed, s.order ≤ m.order → s ∉ g.nonzero arg s.order → operand arg s = 0)
    (hm : m.order ≤ maxOrder) (h : m ∉ g.nonzero n m.order) : I.ofNode g n operand m (.nonlinear f arg) = 0 := by
  simp only [ofNode]
  apply Finset.sum_eq_zero
  intro π _
  by_cases hπ : ∏ S ∈ π.parts, operand arg (m.part S) = 0
  · rw [hπ, mul_zero]
  · have hfactors := isFactorization_of_partition harg π hπ
    exact absurd ((Graph.mem_nonzero_nonlinear hg hn).mpr ⟨hm, rfl, _, hfactors⟩) h

/-! ### All nodes -/

/-- **Derivatives that are not nonzero are zero.** If a node is built without spatial derivatives, then a
mixed derivative of an order that is tracked is zero in every interpretation unless it is among the nonzero
derivatives of the node. -/
theorem partialDerivative_eq_zero (hg : g.WellFormed) (hfree : g.IsDerivativeFree n)
    (hm : m.order ≤ maxOrder) (h : m ∉ g.nonzero n m.order) : I.partialDerivative g n m = 0 := by
  induction n using Nat.strongRecOn generalizing m with
  | ind n ih =>
    cases hn : g.node? n with
    | none => rw [partialDerivative, recurse_eq, hn]
    | some node =>
      have ih : ∀ c ∈ node.children, ∀ s : Mixed, s.order ≤ m.order → s ∉ g.nonzero c s.order →
          I.partialDerivative g c s = 0 := fun c hc s hs =>
        ih c (hg.child_lt n node hn c hc) (hfree.operand ⟨node, hn, hc⟩) (Nat.le_trans hs hm)
      rw [I.partialDerivative_eq hg hn]
      cases node with
      | constant c => exact I.ofNode_constant_eq_zero hg hn h
      | coordinate d => exact I.ofNode_coordinate_eq_zero hg hn h
      | symbolic name f role point => exact I.ofNode_symbolic_eq_zero hg hn h
      | discrete name f => exact I.ofNode_discrete_eq_zero hg hn hm h
      | derivative d arg => exact absurd hn (hfree n .refl d arg)
      | sum terms => exact I.ofNode_sum_eq_zero hg hn (fun term hterm => ih term hterm m (Nat.le_refl _)) h
      | neg arg =>
        rw [Graph.nonzero_neg hg hn] at h
        simp only [ofNode, ih arg (List.mem_singleton_self arg) m (Nat.le_refl _) h, neg_zero]
      | product a b =>
        have ha : a ∈ (Node.product a b).children := by simp [Node.children]
        have hb : b ∈ (Node.product a b).children := by simp [Node.children]
        exact I.ofNode_product_eq_zero hg hn (ih a ha) (ih b hb) hm h
      | nonlinear f arg => exact I.ofNode_nonlinear_eq_zero hg hn (ih arg (List.mem_singleton_self arg)) hm h

end Interpretation

end FormSparsity

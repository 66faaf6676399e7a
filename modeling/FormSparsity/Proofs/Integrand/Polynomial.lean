import FormSparsity.Proofs.Integrand.Construction
import Mathlib.Algebra.MvPolynomial.Eval
import Mathlib.Algebra.Order.BigOperators.Group.List

/-!
Nodes as polynomials. With its sums, negations and products written out, a node is a polynomial in the nodes that are
none of these, up to signs (`Graph.polynomial`). Nodes that multiply the same nodes have the same polynomial, in
whichever order, with whichever brackets and signs (`Graph.Multiplies.polynomial_eq`), and factors can be taken out of
sums (`Graph.polynomial_product_sum`).

One of two nodes with the same polynomial may lie below the other, but there is little in between. Evaluating the
polynomial gives both the same weight, to which every product and every other term of a sum would add, so that there are
sums of one term and negations alone (`Graph.isArithmetic_above`, `Graph.weight_le_above`).
-/
namespace FormSparsity

open MvPolynomial Relation

/-- Whether the node is a product, a negation or a sum of one or more terms. -/
def Node.IsArithmetic : Node → Prop
  | product .. | neg _ => True
  | sum terms => terms ≠ []
  | _ => False

/-- The polynomial of the node of number `n`, from those of its operands. -/
noncomputable def Node.polynomial (n : NodeId) (operand : NodeId → MvPolynomial NodeId ℕ) :
    Node → MvPolynomial NodeId ℕ
  | product a b => operand a * operand b
  | neg arg => operand arg
  | sum (term :: terms) => ((term :: terms).map operand).sum
  | _ => X n

namespace Graph

/-- What a node is, up to signs, in terms of the nodes that are neither sums, negations nor products. -/
noncomputable def polynomial (g : Graph) : NodeId → MvPolynomial NodeId ℕ :=
  recurse X fun n operand => ((g.node? n).map (Node.polynomial n operand)).getD (X n)

variable {g : Graph} {a b c n n' y : NodeId} {terms : List NodeId} {f : NodeId → ℕ}

/-! ## The polynomials of sums, negations and products -/

section Rules

variable (hg : g.WellFormed)
include hg

theorem polynomial_eq {node : Node} (hn : g.node? n = some node) :
    g.polynomial n = node.polynomial n g.polynomial := by
  have hlt : ∀ c ∈ node.children, c < n := hg.child_lt n node hn
  rw [polynomial, recurse_eq, hn]
  show node.polynomial n _ = _
  cases node with
  | product a b =>
    simp only [Node.polynomial, if_pos (hlt a (by simp [Node.children])), if_pos (hlt b (by simp [Node.children]))]
  | neg arg => simp only [Node.polynomial, if_pos (hlt arg (by simp [Node.children]))]
  | sum terms =>
    cases terms with
    | nil => rfl
    | cons term terms => exact congrArg List.sum (List.map_congr_left fun c hc => if_pos (hlt c hc))
  | _ => rfl

theorem polynomial_neg (hn : g.node? n = some (.neg a)) : g.polynomial n = g.polynomial a := polynomial_eq hg hn

theorem polynomial_product (hn : g.node? n = some (.product a b)) :
    g.polynomial n = g.polynomial a * g.polynomial b :=
  polynomial_eq hg hn

theorem polynomial_sum (hn : g.node? n = some (.sum terms)) (hne : terms ≠ []) :
    g.polynomial n = (terms.map g.polynomial).sum := by
  cases terms with
  | nil => exact absurd rfl hne
  | cons term terms => exact polynomial_eq hg hn

theorem eval_product (hn : g.node? n = some (.product a b)) :
    eval f (g.polynomial n) = eval f (g.polynomial a) * eval f (g.polynomial b) := by
  rw [polynomial_product hg hn, map_mul]

theorem eval_sum (hn : g.node? n = some (.sum terms)) (hne : terms ≠ []) :
    eval f (g.polynomial n) = (terms.map fun term => eval f (g.polynomial term)).sum := by
  rw [polynomial_sum hg hn hne, map_list_sum, List.map_map]
  rfl

/-- A node that is no sum, negation or product stands for itself. -/
theorem polynomial_leaf (hn : ∀ node, g.node? n = some node → ¬node.IsArithmetic) : g.polynomial n = X n := by
  cases hnode : g.node? n with
  | none =>
    rw [polynomial, recurse_eq, hnode]
    rfl
  | some node =>
    rw [polynomial_eq hg hnode]
    have hn := hn node hnode
    cases node with
    | product | neg => exact absurd trivial hn
    | sum terms =>
      obtain rfl : terms = [] := by simpa [Node.IsArithmetic] using hn
      rfl
    | _ => rfl

/-- **Induction over sums, negations and products,** down to the nodes that are none of these. -/
theorem arithmetic_induction {P : NodeId → Prop}
    (leaf : ∀ n, (∀ node, g.node? n = some node → ¬node.IsArithmetic) → P n)
    (neg : ∀ n arg, g.node? n = some (.neg arg) → P arg → P n)
    (product : ∀ n a b, g.node? n = some (.product a b) → P a → P b → P n)
    (sum : ∀ n terms, g.node? n = some (.sum terms) → terms ≠ [] → (∀ term ∈ terms, P term) → P n)
    (n : NodeId) : P n := by
  induction n using Nat.strongRecOn with
  | ind n ih =>
    by_cases hleaf : ∀ node, g.node? n = some node → ¬node.IsArithmetic
    · exact leaf n hleaf
    · push Not at hleaf
      obtain ⟨node, hn, hnode⟩ := hleaf
      have ih : ∀ c ∈ node.children, P c := fun c hc => ih c (hg.child_lt n node hn c hc)
      cases node with
      | neg arg => exact neg n arg hn (ih arg (by simp [Node.children]))
      | product a b => exact product n a b hn (ih a (by simp [Node.children])) (ih b (by simp [Node.children]))
      | sum terms => exact sum n terms hn hnode ih
      | _ => exact hnode.elim

end Rules

/-! ## Products of the same nodes -/

/-- Whether a node is, up to signs, the product of some nodes, in whichever order and with whichever brackets. -/
inductive Multiplies (g : Graph) : Multiset NodeId → NodeId → Prop
  | factor (n : NodeId) : Multiplies g {n} n
  | neg {n arg factors} : g.node? n = some (.neg arg) → Multiplies g factors arg → Multiplies g factors n
  | product {n a b left right} : g.node? n = some (.product a b) → Multiplies g left a → Multiplies g right b →
      Multiplies g (left + right) n

/-- **Products of the same nodes have the same polynomial,** whatever the order and the brackets. -/
theorem Multiplies.polynomial_eq (hg : g.WellFormed) {factors : Multiset NodeId} (h : g.Multiplies factors n) :
    g.polynomial n = (factors.map g.polynomial).prod := by
  induction h with
  | factor => simp
  | neg hn _ ih => rw [polynomial_neg hg hn, ih]
  | product hn _ _ iha ihb => rw [polynomial_product hg hn, iha, ihb, Multiset.map_add, Multiset.prod_add]

/-- **Factors can be taken out of sums.** A product with a sum has the polynomial of the sum of products with the
terms. -/
theorem polynomial_product_sum (hg : g.WellFormed) {terms' : List NodeId} (hn : g.node? n = some (.product a b))
    (hb : g.node? b = some (.sum terms)) (hne : terms ≠ []) (hn' : g.node? n' = some (.sum terms'))
    (hterms : terms'.map g.polynomial = terms.map fun term => g.polynomial a * g.polynomial term) :
    g.polynomial n = g.polynomial n' := by
  have hne' : terms' ≠ [] := by
    rintro rfl
    exact hne (List.map_eq_nil_iff.mp hterms.symm)
  rw [polynomial_product hg hn, polynomial_sum hg hb hne, polynomial_sum hg hn' hne', hterms, List.sum_map_mul_left]

/-! ## Weights -/

/-- The weight of a node: what the node would be if all that is no sum, negation or product were two, but for signs. -/
noncomputable def weight (g : Graph) (n : NodeId) : ℕ := eval (fun _ => 2) (g.polynomial n)

section Weight

variable (hg : g.WellFormed)
include hg

theorem two_le_weight (n : NodeId) : 2 ≤ g.weight n := by
  rw [weight]
  induction n using arithmetic_induction hg with
  | leaf n hn => rw [polynomial_leaf hg hn, eval_X]
  | neg n arg hn ih => rwa [polynomial_neg hg hn]
  | product n a b hn iha ihb =>
    rw [eval_product hg hn]
    exact iha.trans (Nat.le_mul_of_pos_right _ (by omega))
  | sum n terms hn hne ih =>
    obtain ⟨term, hterm⟩ := List.exists_mem_of_ne_nil terms hne
    rw [eval_sum hg hn hne]
    exact (ih term hterm).trans (List.le_sum_of_mem (List.mem_map_of_mem hterm))

theorem weight_lt_of_product (hn : g.node? n = some (.product a b)) (hc : c = a ∨ c = b) :
    g.weight c < g.weight n := by
  have hweight : g.weight n = g.weight a * g.weight b := eval_product hg hn
  have ha := two_le_weight hg a
  have hb := two_le_weight hg b
  rw [hweight]
  rcases hc with rfl | rfl
  · exact lt_mul_of_one_lt_right (by omega) (by omega)
  · exact lt_mul_of_one_lt_left (by omega) (by omega)

/-- Operands of sums, negations and products weigh no more than these. -/
theorem weight_le_of_isArithmetic {node : Node} (hn : g.node? n = some node) (hnode : node.IsArithmetic)
    (hc : c ∈ node.children) : g.weight c ≤ g.weight n := by
  cases node with
  | sum terms =>
    rw [weight, weight, eval_sum hg hn hnode]
    exact List.le_sum_of_mem (List.mem_map_of_mem hc)
  | neg arg =>
    obtain rfl := List.mem_singleton.mp hc
    rw [weight, weight, polynomial_neg hg hn]
  | product a b => exact (weight_lt_of_product hg hn (by simpa [Node.children] using hc)).le
  | _ => exact hnode.elim

/-! ## Between nodes with the same polynomial -/

theorem weight_le_eval (hf : ∀ c, 2 ≤ f c) (n : NodeId) : g.weight n ≤ eval f (g.polynomial n) := by
  rw [weight]
  induction n using arithmetic_induction hg with
  | leaf n hn => simpa only [polynomial_leaf hg hn, eval_X] using hf n
  | neg n arg hn ih => rwa [polynomial_neg hg hn]
  | product n a b hn iha ihb =>
    rw [eval_product hg hn, eval_product hg hn]
    exact Nat.mul_le_mul iha ihb
  | sum n terms hn hne ih =>
    rw [eval_sum hg hn hne, eval_sum hg hn hne]
    exact List.sum_le_sum ih

/-- Nodes that come after a node do not count for its weight. -/
theorem eval_eq_weight (hf : ∀ c ≤ n, f c = 2) : eval f (g.polynomial n) = g.weight n := by
  rw [weight]
  induction n using arithmetic_induction hg with
  | leaf n hn => simpa only [polynomial_leaf hg hn, eval_X] using hf n (Nat.le_refl n)
  | neg n arg hn ih =>
    have harg : arg < n := hg.child_lt n _ hn arg (by simp [Node.children])
    rw [polynomial_neg hg hn, ih fun c hc => hf c (hc.trans harg.le)]
  | product n a b hn iha ihb =>
    have ha : a < n := hg.child_lt n _ hn a (by simp [Node.children])
    have hb : b < n := hg.child_lt n _ hn b (by simp [Node.children])
    rw [eval_product hg hn, eval_product hg hn, iha fun c hc => hf c (hc.trans ha.le),
      ihb fun c hc => hf c (hc.trans hb.le)]
  | sum n terms hn hne ih =>
    rw [eval_sum hg hn hne, eval_sum hg hn hne]
    refine congrArg List.sum (List.map_congr_left fun term hterm => ih term hterm fun c hc => hf c ?_)
    exact hc.trans (hg.child_lt n _ hn term hterm).le

/-- A node that has one below it which is no sum, negation or product gets heavier if that weighs more, and all that
come after it. -/
theorem weight_lt_eval (hpath : ReflTransGen g.IsOperand n y)
    (hy : ∀ node, g.node? y = some node → ¬node.IsArithmetic) (hf : ∀ c, 2 ≤ f c) (hlt : ∀ c, y ≤ c → 2 < f c) :
    g.weight n < eval f (g.polynomial n) := by
  have hle := weight_le_eval hg hf
  induction hpath using ReflTransGen.head_induction_on with
  | refl => simpa only [weight, polynomial_leaf hg hy, eval_X] using hlt y (Nat.le_refl y)
  | @head n c hop hpath ih =>
    obtain ⟨node, hn, hc⟩ := hop
    have hyn : y ≤ n := (hg.le_of_reflTransGen hpath).trans (hg.child_lt n node hn c hc).le
    rw [weight] at ih ⊢
    cases node with
    | sum terms =>
      rw [eval_sum hg hn (List.ne_nil_of_mem hc), eval_sum hg hn (List.ne_nil_of_mem hc)]
      exact List.sum_lt_sum _ _ (fun term _ => hle term) ⟨c, hc, ih⟩
    | neg arg =>
      obtain rfl := List.mem_singleton.mp hc
      rwa [polynomial_neg hg hn]
    | product a b =>
      have ha : 0 < g.weight a := Nat.lt_of_lt_of_le Nat.two_pos (two_le_weight hg a)
      have hb : 0 < g.weight b := Nat.lt_of_lt_of_le Nat.two_pos (two_le_weight hg b)
      rw [eval_product hg hn, eval_product hg hn]
      obtain rfl | rfl : c = a ∨ c = b := by simpa [Node.children] using hc
      · exact Nat.mul_lt_mul_of_lt_of_le ih (hle b) (hb.trans_le (hle b))
      · exact Nat.mul_lt_mul_of_le_of_lt (hle a) ih (ha.trans_le (hle a))
    | _ =>
      have hleaf : ∀ node, g.node? n = some node → ¬node.IsArithmetic := by simp [hn, Node.IsArithmetic]
      simpa only [polynomial_leaf hg hleaf, eval_X] using hlt n hyn

/-- **Above a node with the same polynomial** there are sums, negations and products alone. -/
theorem isArithmetic_above (h : g.polynomial n = g.polynomial n') (hpath : ReflTransGen g.IsOperand n y)
    (hy : n' < y) : ∃ node, g.node? y = some node ∧ node.IsArithmetic := by
  by_contra hleaf
  push Not at hleaf
  -- a node that is none of these adds to the weight of `n` when it counts for three, but not to that of `n'`
  let f : NodeId → ℕ := fun c => if c < y then 2 else 3
  have hlt : g.weight n < eval f (g.polynomial n) := by
    refine weight_lt_eval hg hpath hleaf (fun c => ?_) fun c hc => ?_
    · dsimp only [f]
      split <;> omega
    · simp [f, Nat.not_lt.mpr hc]
  have heq : eval f (g.polynomial n') = g.weight n' := eval_eq_weight hg fun c hc => if_pos (hc.trans_lt hy)
  rw [h, heq, weight, weight, h] at hlt
  exact Nat.lt_irrefl _ hlt

/-- Nodes above a node with the same polynomial weigh no more than the first one. -/
theorem weight_le_above (h : g.polynomial n = g.polynomial n') (hpath : ReflTransGen g.IsOperand n y)
    (hy : n' < y) : g.weight y ≤ g.weight n := by
  induction hpath with
  | refl => exact Nat.le_refl _
  | @tail b y hpath hop ih =>
    have hb : n' < b := hy.trans (hg.lt_of_transGen (.single hop))
    obtain ⟨node, hn, hy⟩ := hop
    obtain ⟨node', hn', hnode⟩ := isArithmetic_above hg h hpath hb
    obtain rfl : node = node' := by simpa [hn] using hn'
    exact (weight_le_of_isArithmetic hg hn hnode hy).trans (ih hb)

end Weight

end Graph

end FormSparsity

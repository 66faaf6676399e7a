import FormSparsity.Proofs.Integrand.Construction
import Mathlib.Data.List.Forall2

/-!
What stands at a node, written out as an expression tree (`Graph.expansion?`), and what construction calls
ask for (`Construction.expression?`). Operands come before the nodes built on them, so that writing out
comes to an end (`Graph.WellFormed.exists_expansion?`), and nodes that are added later change nothing about
those there are (`Graph.Extends.expansion?_eq`). A call that is no misuse builds what it asks for
(`Construction.ends_build`); what its operands stand for is read off the graph after the call, because a
call of several steps can be given the number of a node that its own first steps build.
-/
namespace FormSparsity

/-- An integrand as a tree. -/
inductive Expression where
  | constant (value : Binary64)
  | coordinate (direction : Nat)
  | symbolic (name : String) (function : FunctionId) (role : Role) (point : EvalPoint)
  | discrete (name : String) (function : FunctionId)
  | derivative (direction : Nat) (arg : Expression)
  | sum (terms : List Expression)
  | neg (arg : Expression)
  | product (left right : Expression)
  | nonlinear (function : Nonlinearity) (arg : Expression)

/-- The expression of a node whose operands have the given expressions. -/
def Node.expression? (operand : NodeId → Option Expression) : Node → Option Expression
  | constant value => some (.constant value)
  | coordinate d => some (.coordinate d)
  | symbolic name f role point => some (.symbolic name f role point)
  | discrete name f => some (.discrete name f)
  | derivative d arg => return .derivative d (← operand arg)
  | sum terms => return .sum (← terms.mapM operand)
  | neg arg => return .neg (← operand arg)
  | product a b => return .product (← operand a) (← operand b)
  | nonlinear f arg => return .nonlinear f (← operand arg)

/-- The expression at a node, if there is such a node. -/
def Graph.expansion? (g : Graph) : NodeId → Option Expression :=
  recurse (fun _ => none) fun n operand => do (← g.node? n).expression? operand

/-- The expression that a construction call asks for in a space of some dimension, from the expressions at its
operands. -/
def Construction.expression? (dimension : Nat) (operand : NodeId → Option Expression) :
    Construction → Option Expression
  | constant value => some (.constant value)
  | zero => some (.constant 0)
  | coordinate d => some (.coordinate d)
  | symbolic name f role point => some (.symbolic name f role point)
  | unknown name f => some (.symbolic name f .unknown .zero)
  | unknownAt name f point => some (.symbolic name f .unknown (.discrete point))
  | variation name f => some (.symbolic name f .variation .zero)
  | discrete name f => some (.discrete name f)
  | derivative d arg => return .derivative d (← operand arg)
  | derivativeAlong α arg => do
    let d ← (List.range maxDimension).find? (α = .axis ·)
    return .derivative d (← operand arg)
  | sum terms => return .sum (← terms.mapM operand)
  | add a b => return .sum [← operand a, ← operand b]
  | neg arg => return .neg (← operand arg)
  | sub a b => return .sum [← operand a, .neg (← operand b)]
  | mul a b => return .product (← operand a) (← operand b)
  | product [] => none
  | product (factor :: factors) => do
    let e ← operand factor
    return (← factors.mapM operand).foldl .product e
  | nonlinear f arg => return .nonlinear f (← operand arg)
  | gradDotGrad a b => do
    let terms ← (List.range dimension).mapM fun d =>
      return .product (.derivative d (← operand a)) (.derivative d (← operand b))
    return .sum terms

/-! ## Writing out a node -/

theorem mapM_eq_of_forall₂ {α β γ : Type} {f : α → Option γ} {f' : β → Option γ} {l : List α} {l' : List β}
    (h : List.Forall₂ (fun a b => f a = f' b) l l') : l.mapM f = l'.mapM f' := by
  induction h with
  | nil => rfl
  | cons hab _ ih => rw [List.mapM_cons, List.mapM_cons, hab, ih]

theorem exists_mapM_eq_some {α β : Type} {f : α → Option β} {l : List α} (h : ∀ a ∈ l, ∃ b, f a = some b) :
    ∃ bs, l.mapM f = some bs := by
  induction l with
  | nil => exact ⟨[], rfl⟩
  | cons a l ih =>
    obtain ⟨b, hb⟩ := h a (by simp)
    obtain ⟨bs, hbs⟩ := ih fun a' ha' => h a' (by simp [ha'])
    exact ⟨b :: bs, by simp [List.mapM_cons, hb, hbs]⟩

namespace Node

variable {operand operand' : NodeId → Option Expression}

/-- The expression of a node is made of those of its operands alone. -/
theorem expression?_congr {node : Node} (h : ∀ c ∈ node.children, operand c = operand' c) :
    node.expression? operand = node.expression? operand' := by
  cases node with
  | sum terms =>
    have hterms : terms.mapM operand = terms.mapM operand' := mapM_eq_of_forall₂ (List.forall₂_same.mpr h)
    simp only [expression?, hterms]
  | product a b => simp [expression?, h a (by simp [children]), h b (by simp [children])]
  | derivative _ arg | neg arg | nonlinear _ arg => simp [expression?, h arg (by simp [children])]
  | constant | coordinate | symbolic | discrete => rfl

theorem exists_expression? {node : Node} (h : ∀ c ∈ node.children, ∃ e, operand c = some e) :
    ∃ e, node.expression? operand = some e := by
  cases node with
  | sum terms =>
    obtain ⟨es, hes⟩ : ∃ es, terms.mapM operand = some es := exists_mapM_eq_some h
    exact ⟨.sum es, by simp [expression?, hes]⟩
  | product a b =>
    obtain ⟨e, ha⟩ := h a (by simp [children])
    obtain ⟨e', hb⟩ := h b (by simp [children])
    exact ⟨.product e e', by simp [expression?, ha, hb]⟩
  | derivative _ arg | neg arg | nonlinear _ arg =>
    obtain ⟨e, he⟩ := h arg (by simp [children])
    exact ⟨_, by simp [expression?, he]; rfl⟩
  | constant | coordinate | symbolic | discrete => exact ⟨_, rfl⟩

end Node

namespace Graph

variable {g g' : Graph}

theorem WellFormed.expansion?_eq (hg : g.WellFormed) {n : NodeId} {node : Node} (hn : g.node? n = some node) :
    g.expansion? n = node.expression? g.expansion? := by
  rw [expansion?, recurse_eq, hn]
  refine Node.expression?_congr fun c hc => ?_
  rw [if_pos (hg.child_lt n node hn c hc)]

/-- Every node can be written out. -/
theorem WellFormed.exists_expansion? (hg : g.WellFormed) {n : NodeId} (hn : n < g.size) :
    ∃ e, g.expansion? n = some e := by
  induction n using Nat.strongRecOn with
  | _ n ih =>
    obtain ⟨node, hnode⟩ := exists_node? hn
    rw [hg.expansion?_eq hnode]
    refine Node.exists_expression? fun c hc => ?_
    have hlt := hg.child_lt n node hnode c hc
    exact ih c hlt (Nat.lt_trans hlt hn)

/-- What stands at a node stays the same when nodes are added. -/
theorem Extends.expansion?_eq (h : Extends g g') (hg : g.WellFormed) (hg' : g'.WellFormed) {n : NodeId}
    (hn : n < g.size) : g'.expansion? n = g.expansion? n := by
  induction n using Nat.strongRecOn with
  | _ n ih =>
    obtain ⟨node, hnode⟩ := exists_node? hn
    rw [hg.expansion?_eq hnode, hg'.expansion?_eq (h.node?_eq hnode)]
    refine Node.expression?_congr fun c hc => ?_
    have hlt := hg.child_lt n node hnode c hc
    exact ih c hlt (Nat.lt_trans hlt hn)

theorem Extends.refl (g : Graph) : Extends g g := ⟨rfl, fun hn => hn⟩

end Graph

/-! ## What calls build -/

namespace MultiIndex

/-- The direction of a first-order index is the one whose axis the index is. -/
theorem direction?_eq_find? (α : MultiIndex) :
    α.direction? = (List.range maxDimension).find? (α = .axis ·) := by
  obtain ⟨x, y, z⟩ := α
  have hrange : List.range maxDimension = [0, 1, 2] := rfl
  by_cases h : 0 ≤ x ∧ 0 ≤ y ∧ 0 ≤ z ∧ x + y + z = 1
  · obtain ⟨rfl, rfl, rfl⟩ | ⟨rfl, rfl, rfl⟩ | ⟨rfl, rfl, rfl⟩ :
        (x = 1 ∧ y = 0 ∧ z = 0) ∨ (x = 0 ∧ y = 1 ∧ z = 0) ∨ (x = 0 ∧ y = 0 ∧ z = 1) := by omega
    all_goals rfl
  · have hnone : (List.range maxDimension).find? ((⟨x, y, z⟩ : MultiIndex) = .axis ·) = none := by
      simp [hrange, axis]
      omega
    have hfirst : ¬((⟨x, y, z⟩ : MultiIndex).isValid = true ∧ (⟨x, y, z⟩ : MultiIndex).order = 1) := by
      simp only [isValid, entries, order, List.all_cons, List.all_nil, Bool.and_true, Bool.and_eq_true,
        decide_eq_true_eq]
      omega
    rw [hnone, direction?, if_neg]
    simpa using hfirst

end MultiIndex

namespace Builder

open FormSparsity.Graph

variable {g : Graph}

/-- A node is added at the end or not at all. -/
theorem ends_push_eq (node : Node) :
    Ends (push node) g (fun n g' => n = g.size ∧ g' = { g with nodes := g.nodes.push node })
      fun _ g' => g' = g := by
  simp only [push, ends_bind, ends_get]
  split
  · rfl
  · exact ⟨rfl, rfl⟩

/-- A node that is added stands under its number, after the nodes that were there. -/
theorem ends_push_extends (node : Node) :
    Ends (push node) g (fun n g' => Extends g g' ∧ g'.node? n = some node) fun _ _ => True := by
  refine (ends_push_eq node).mono (fun n g' hpush => ?_) fun _ _ _ => trivial
  obtain ⟨rfl, rfl⟩ := hpush
  exact ⟨extends_push g node, by simp [node?_push]⟩

theorem ends_declare_extends (f : FunctionId) (node : Node) :
    Ends (declare f node) g (fun n g' => Extends g g' ∧ g'.node? n = some node) fun _ _ => True := by
  simp only [declare, ends_bind, ends_get]
  split
  · trivial
  · exact ends_push_extends node

theorem ends_coordinate_extends (d : Nat) :
    Ends (coordinate d) g (fun n g' => Extends g g' ∧ g'.node? n = some (.coordinate d))
      fun _ _ => True := by
  simp only [coordinate, ends_bind, ends_get]
  split
  · exact ends_push_extends _
  · trivial

theorem ends_unknownAt_extends (name : String) (f : FunctionId) (point : NodeId) :
    Ends (unknownAt name f point) g
      (fun n g' => Extends g g' ∧ g'.node? n = some (.symbolic name f .unknown (.discrete point)))
      fun _ _ => True := by
  simp only [unknownAt, ends_bind, ends_get]
  cases g.node point with
  | error e => trivial
  | ok node =>
    refine ends_ite.mpr ⟨fun _ => ?_, fun _ => ?_⟩
    · exact ends_declare_extends _ _
    · trivial

theorem ends_derivative_extends (d : Nat) (arg : NodeId) :
    Ends (derivative d arg) g (fun n g' => Extends g g' ∧ g'.node? n = some (.derivative d arg))
      fun _ _ => True := by
  simp only [derivative, ends_bind, ends_get]
  split
  · exact ends_push_extends _
  · trivial

theorem ends_sum_extends (terms : List NodeId) :
    Ends (sum terms) g (fun n g' => Extends g g' ∧ g'.node? n = some (.sum terms)) fun _ _ => True := by
  simp only [sum]
  split
  · trivial
  · exact ends_push_extends _

/-- A difference is a sum with a negative. -/
theorem ends_sub_extends (a b : NodeId) :
    Ends (sub a b) g
      (fun n g' => Extends g g' ∧ ∃ m, g'.node? m = some (.neg b) ∧ g'.node? n = some (.sum [a, m]))
      fun _ _ => True := by
  simp only [sub, ends_bind]
  refine (ends_push_extends (.neg b)).mono (fun m g₁ hm => ?_) fun _ _ h => h
  refine (ends_sum_extends [a, m]).mono (fun n g' hn => ?_) fun _ _ h => h
  exact ⟨hm.1.trans hn.1, m, hn.1.node?_eq hm.2, hn.2⟩

/-- Factors are multiplied from the left, one after the other. -/
theorem ends_foldlM_mul (acc : NodeId) (factors : List NodeId) :
    Ends (factors.foldlM mul acc) g (fun n g' => Extends g g' ∧ (n = acc ∧ factors = [] ∨ n < g'.size) ∧
      (g'.WellFormed → g'.expansion? n = do
        let e ← g'.expansion? acc
        return (← factors.mapM g'.expansion?).foldl .product e)) fun _ _ => True := by
  induction factors generalizing acc g with
  | nil => exact ⟨.refl g, .inl ⟨rfl, rfl⟩, fun _ => by simp⟩
  | cons factor factors ih =>
    rw [List.foldlM_cons, ends_bind]
    refine (ends_push_extends (.product acc factor)).mono (fun m g₁ hm => ?_) fun _ _ h => h
    refine (ih m).mono (fun n g' hn => ?_) fun _ _ h => h
    obtain ⟨hext, hsize, hexpansion⟩ := hn
    have hnode : g'.node? m = some (.product acc factor) := hext.node?_eq hm.2
    refine ⟨hm.1.trans hext, .inr ?_, fun hg' => ?_⟩
    · rcases hsize with ⟨rfl, -⟩ | h
      · exact node?_lt hnode
      · exact h
    · rw [hexpansion hg', hg'.expansion?_eq hnode, List.mapM_cons]
      simp [Node.expression?, Option.bind_assoc]

/-- Whether a node is the product of the derivatives of two nodes in a direction. -/
def IsGradTerm (a b : NodeId) (g : Graph) (d : Nat) (n : NodeId) : Prop :=
  ∃ da db, g.node? da = some (.derivative d a) ∧ g.node? db = some (.derivative d b) ∧
    g.node? n = some (.product da db)

theorem ends_gradDotGrad_extends (a b : NodeId) :
    Ends (gradDotGrad a b) g
      (fun n g' => Extends g g' ∧ ∃ terms, g'.node? n = some (.sum terms) ∧
        List.Forall₂ (IsGradTerm a b g') (List.range g'.dimension) terms)
      fun _ _ => True := by
  have hmono : ∀ {g₁ g₂ : Graph} {d t}, Extends g₁ g₂ → IsGradTerm a b g₁ d t → IsGradTerm a b g₂ d t :=
    fun hext ⟨da, db, hda, hdb, ht⟩ =>
      ⟨da, db, hext.node?_eq hda, hext.node?_eq hdb, hext.node?_eq ht⟩
  simp only [gradDotGrad, ends_bind, ends_get]
  refine (Ends.mapM_done (fun done terms g' => Extends g g' ∧ List.Forall₂ (IsGradTerm a b g') done terms)
    (fun done terms d _ g₁ h₁ => ?_) ⟨.refl g, .nil⟩).mono (fun terms g₁ h₁ => ?_) fun _ _ h => h
  · obtain ⟨hext, hterms⟩ := h₁
    rw [ends_bind]
    refine (ends_derivative_extends d a).mono (fun da g₂ h₂ => ?_) fun _ _ h => h
    rw [ends_bind]
    refine (ends_derivative_extends d b).mono (fun db g₃ h₃ => ?_) fun _ _ h => h
    refine (ends_push_extends (.product da db)).mono (fun t g₄ h₄ => ?_) fun _ _ h => h
    have hterm : IsGradTerm a b g₄ d t :=
      ⟨da, db, (h₃.1.trans h₄.1).node?_eq h₂.2, h₄.1.node?_eq h₃.2, h₄.2⟩
    have hext' := h₂.1.trans (h₃.1.trans h₄.1)
    exact ⟨hext.trans hext', List.rel_append (hterms.imp fun _ _ => hmono hext') (.cons hterm .nil)⟩
  · refine (ends_sum_extends terms).mono (fun n g' hn => ?_) fun _ _ h => h
    have hext := h₁.1.trans hn.1
    refine ⟨hext, terms, hn.2, ?_⟩
    rw [hext.dimension_eq]
    exact h₁.2.imp fun _ _ => hmono hn.1

end Builder

namespace Construction

open FormSparsity.Graph Builder

variable {g g' : Graph} {n : NodeId}

/-- Whether a call that led to a graph has built what it asks for under a number. A product of one factor is
that factor, and nothing is built for it. -/
def HasBuilt (c : Construction) (n : NodeId) (g : Graph) : Prop :=
  g.expansion? n = c.expression? g.dimension g.expansion? ∧ (n < g.size ∨ c = .product [n])

/-- A call whose node says what it asks for has built it. -/
theorem hasBuilt_of_node {c : Construction} (hg : g.WellFormed) {node : Node} (hn : g.node? n = some node)
    (hc : node.expression? g.expansion? = c.expression? g.dimension g.expansion?) : c.HasBuilt n g :=
  ⟨(hg.expansion?_eq hn).trans hc, .inl (node?_lt hn)⟩

/-- A call that is no misuse builds what it asks for. -/
theorem ends_build (c : Construction) (g : Graph) :
    Ends c.build g (fun n g' => g'.WellFormed → c.HasBuilt n g') fun _ _ => True := by
  -- all but the calls of several steps
  have single : ∀ {x : Builder NodeId} {node : Node} {c : Construction},
      Ends x g (fun n g' => Extends g g' ∧ g'.node? n = some node) (fun _ _ => True) →
      (∀ g' : Graph, node.expression? g'.expansion? = c.expression? g'.dimension g'.expansion?) →
      Ends x g (fun n g' => g'.WellFormed → c.HasBuilt n g') fun _ _ => True := by
    intro x node c hx hc
    exact hx.mono (fun n g' hn hg' => hasBuilt_of_node hg' hn.2 (hc g')) fun _ _ h => h
  cases c with
  | constant value => exact single (ends_push_extends (.constant value)) fun _ => rfl
  | zero => exact single (ends_push_extends (.constant 0)) fun _ => rfl
  | neg | mul | nonlinear => exact single (ends_push_extends _) fun _ => rfl
  | coordinate d => exact single (ends_coordinate_extends d) fun _ => rfl
  | symbolic | unknown | variation | discrete => exact single (ends_declare_extends _ _) fun _ => rfl
  | unknownAt name f point => exact single (ends_unknownAt_extends name f point) fun _ => rfl
  | derivative d arg => exact single (ends_derivative_extends d arg) fun _ => rfl
  | derivativeAlong α arg =>
    show Ends (Builder.derivativeAlong α arg) g _ _
    unfold Builder.derivativeAlong
    split
    · rename_i d hd
      rw [MultiIndex.direction?_eq_find?] at hd
      exact single (ends_derivative_extends d arg) fun _ => by simp [Node.expression?, expression?, hd]
    · trivial
  | sum terms => exact single (ends_sum_extends terms) fun _ => rfl
  | add a b =>
    exact single (ends_sum_extends [a, b]) fun _ => by simp [Node.expression?, expression?, Option.bind_assoc]
  | sub a b =>
    refine (ends_sub_extends a b).mono (fun n g' hn hg' => ?_) fun _ _ h => h
    obtain ⟨-, m, hm, hn⟩ := hn
    refine hasBuilt_of_node hg' hn ?_
    simp [Node.expression?, expression?, hg'.expansion?_eq hm, Option.bind_assoc]
  | product factors =>
    cases factors with
    | nil => trivial
    | cons factor factors =>
      refine (ends_foldlM_mul factor factors).mono (fun n g' hn hg' => ⟨hn.2.2 hg', ?_⟩) fun _ _ h => h
      rcases hn.2.1 with ⟨rfl, rfl⟩ | h
      · exact .inr rfl
      · exact .inl h
  | gradDotGrad a b =>
    refine (ends_gradDotGrad_extends a b).mono (fun n g' hn hg' => ?_) fun _ _ h => h
    obtain ⟨-, terms, hn, hterms⟩ := hn
    refine hasBuilt_of_node hg' hn ?_
    have hmapM : terms.mapM g'.expansion? = (List.range g'.dimension).mapM fun d => do
        return Expression.product (.derivative d (← g'.expansion? a)) (.derivative d (← g'.expansion? b)) := by
      refine (mapM_eq_of_forall₂ (hterms.imp fun d t ht => ?_)).symm
      obtain ⟨da, db, hda, hdb, ht⟩ := ht
      simp [hg'.expansion?_eq ht, hg'.expansion?_eq hda, hg'.expansion?_eq hdb, Node.expression?,
        Option.bind_assoc]
    simp only [Node.expression?, expression?, hmapM]

end Construction

end FormSparsity

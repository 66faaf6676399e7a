import FormSparsity.Proofs.Problem.Exactness

/-!
What is remembered of nonzero sets does not show. The recursion that finds them is written out here once
more, as equations between sets in which nothing is asked and nothing is kept (`Node.nonzeroFrom`). One family
of sets satisfies them on the nodes of a graph (`Graph.IsNonzeroFamily.eq_nonzero`), and it is what every
session answers, whatever was asked of it before (`Session.findNonzero_transparent`).
-/
namespace FormSparsity

open Inquiry

/-! ## The recursion as equations -/

/-- The products of sets of orders one and above whose orders add up to `k`. -/
def MixedSet.chainProducts (w : Nat → MixedSet) (k : Nat) : MixedSet :=
  match k with
  | 0 => 1
  | k + 1 => SortedSet.unions <| (List.range (k + 1)).map fun j => w (j + 1) * chainProducts w (k - j)
termination_by k

/-- The nonzero derivatives of order `k` of a node from those of its operands. -/
def Node.nonzeroFrom (g : Graph) (w : NodeId → Nat → MixedSet) (k : Nat) : Node → MixedSet
  | constant c => if k = 0 ∧ ¬c.isZero then 1 else ∅
  | coordinate d => if k = 0 then 1 else if k = 1 then .ofDirection d else ∅
  | symbolic _ f _ point =>
      if k = 1 then {.ofAtom (.functional f .value)} else if k = 0 ∧ point ≠ .zero then 1 else ∅
  | discrete .. => .ofCoordinates g.dimension k
  | derivative d arg =>
      if derivativeMaxOrder < k then ∅
      else w arg (k + 1) / g.chainAtoms (w arg 1) d ∪ .shift (.axis d) (w arg k)
  | sum terms => SortedSet.unions (terms.map fun term => w term k)
  | neg arg => w arg k
  | product a b => SortedSet.unions <| (List.range (k + 1)).map fun j => w a j * w b (k - j)
  | nonlinear _ arg => .chainProducts (w arg) k

theorem value_chainProducts (w : NodeId → Nat → MixedSet) (arg : NodeId) (k : Nat) :
    (Inquiry.chainProducts arg k).value (fun place => w place.node place.order) =
      MixedSet.chainProducts (w arg) k := by
  induction k using Nat.strongRecOn with
  | ind k ih =>
    cases k with
    | zero =>
      rw [chainProducts_zero, MixedSet.chainProducts]
      rfl
    | succ k =>
      rw [chainProducts_succ, MixedSet.chainProducts, value_union]
      refine congrArg SortedSet.unions (List.map_congr_left fun j hj => ?_)
      have hj := List.mem_range.mp hj
      -- a split whose first set is empty is left out, and has no products
      simp only [value_bind, value_answer, value_ite, value_pure]
      rw [ih (k - j) (by omega)]
      split
      · rename_i hempty
        rw [Std.ExtTreeSet.isEmpty_iff.mp hempty]
        exact Std.ExtTreeSet.ext_mem fun m => by simp [MixedSet.mem_mul]
      · rfl

/-- The rule for a node computes the right side of its equation. -/
theorem Node.value_nonzero (g : Graph) (w : NodeId → Nat → MixedSet) (k : Nat) (node : Node) :
    (node.nonzero g k).value (fun place => w place.node place.order) = node.nonzeroFrom g w k := by
  cases node with
  | constant c => simp [nonzero, nonzeroFrom]
  | coordinate d => rcases k with _ | _ | k <;> simp [nonzero, nonzeroFrom]
  | symbolic name f role point => rcases k with _ | _ | k <;> cases point <;> simp [nonzero, nonzeroFrom]
  | discrete name f => rfl
  | derivative d arg => simp [nonzero, nonzeroFrom]
  | sum terms => simp [nonzero, nonzeroFrom]
  | neg arg => rfl
  | product a b => simp [nonzero, nonzeroFrom]
  | nonlinear f arg => exact value_chainProducts w arg k

namespace Graph

variable {g : Graph} {w w' : NodeId → Nat → MixedSet}

/-- Whether a family of sets satisfies the equations at every node. No derivatives are nonzero above
`maxOrder`. -/
def IsNonzeroFamily (g : Graph) (w : NodeId → Nat → MixedSet) : Prop :=
  ∀ n node, g.node? n = some node → ∀ k, w n k = if maxOrder < k then ∅ else node.nonzeroFrom g w k

theorem isNonzeroFamily_nonzero (hg : g.WellFormed) : g.IsNonzeroFamily g.nonzero := by
  intro n node hn k
  split
  · exact nonzero_of_maxOrder_lt ‹_›
  · rw [nonzero_eq hg hn (Nat.not_lt.mp ‹_›)]
    exact node.value_nonzero g g.nonzero k

/-- **The equations have one solution,** since operands come before the nodes built on them. -/
theorem IsNonzeroFamily.eq_nonzero (hg : g.WellFormed) (h : g.IsNonzeroFamily w) {n : NodeId}
    (hn : n < g.size) (k : Nat) : w n k = g.nonzero n k := by
  induction n using Nat.strongRecOn generalizing k with
  | ind n ih =>
    obtain ⟨node, hnode⟩ := exists_node? hn
    rw [h n node hnode, isNonzeroFamily_nonzero hg n node hnode]
    congr 1
    rw [← node.value_nonzero g w, ← node.value_nonzero g g.nonzero]
    refine value_congr (node.asksOnly_nonzero g k) fun place hplace => ?_
    have hlt := hg.child_lt n node hnode _ hplace
    exact ih place.node hlt (hlt.trans hn) place.order

end Graph

/-! ## Sessions -/

namespace Session

/-- **Remembering is transparent.** For every graph there is one family of sets that satisfies the equations
of nonzero derivatives at all its nodes. In every session, reached by whatever calls and analyses and however
many of them failed, in every pass, and for every node and order, the nonzero derivatives are found, and they
are those of this family. -/
theorem findNonzero_transparent {g : Graph} (hg : g.Built) :
    ∃ w, g.IsNonzeroFamily w ∧
      (∀ w', g.IsNonzeroFamily w' → ∀ n < g.size, ∀ k, w' n k = w n k) ∧
      ∀ s : Session, s.IsReached g → ∀ (p : Pass), ∀ n < g.size, ∀ k,
        ∃ s', (findNonzero g p n k).run.run s = (.ok (w n k), s') := by
  have hw := hg.wellFormed
  refine ⟨g.nonzero, Graph.isNonzeroFamily_nonzero hw, fun w' h n hn k => h.eq_nonzero hw hn k,
    fun s hs p n hn k => ?_⟩
  obtain ⟨s', hrun, -⟩ := run_findNonzero_consistent hw p (hs.consistent hw) hn k
  exact ⟨s', hrun⟩

/-- The constant derivatives of `x0*v` were asked for before they could be told. -/
def askedTooEarly : Session :=
  after ((Call.constant 2 1).run Graph.slopeOfProduct default) (restart {})

/-- After that call has failed, the second derivatives of the derivative of `x0*v` are those of the
equations still. -/
theorem findNonzero_transparent_askedTooEarly :
    Graph.slopeOfProduct.Built ∧ askedTooEarly.IsReached Graph.slopeOfProduct ∧
    ((findConstant Graph.slopeOfProduct default 2 1).run.run (restart {})).1.toOption = none ∧
    3 < Graph.slopeOfProduct.size ∧
    ∃ w s', Graph.slopeOfProduct.IsNonzeroFamily w ∧
      (findNonzero Graph.slopeOfProduct default 3 2).run.run askedTooEarly = (.ok (w 3 2), s') ∧
      (w 3 2).toList = [.ofList [.coordinate 0, .functional 7 (.derivative (.axis 0))]] := by
  have hs : askedTooEarly.IsReached Graph.slopeOfProduct :=
    .inl (Reachable.call ⟨{}, .refl⟩ default (.constant 2 1))
  have hlt : 3 < Graph.slopeOfProduct.size := by decide
  obtain ⟨w, hfamily, hunique, hfinds⟩ := findNonzero_transparent Graph.built_slopeOfProduct
  obtain ⟨s', hrun⟩ := hfinds askedTooEarly hs default 3 hlt 2
  refine ⟨Graph.built_slopeOfProduct, hs, by decide +kernel, hlt, w, s', hfamily, hrun, ?_⟩
  rw [← hunique _ (Graph.isNonzeroFamily_nonzero Graph.built_slopeOfProduct.wellFormed) 3 hlt]
  decide +kernel

end Session

end FormSparsity

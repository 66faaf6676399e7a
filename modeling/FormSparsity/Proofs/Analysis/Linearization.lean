import FormSparsity.Proofs.Analysis.Varying

/-!
Linearisation about discrete functions. A graph is linearised by evaluating some of its symbolic functions at
discrete functions instead of at zero (`Graph.IsLinearizedAs`). More leaves have a nonzero value then, and more
functions one that varies, so that nothing gets lost at any node: what is nonzero stays nonzero
(`IsLinearizedAs.mem_nonzero`), and what varies varies still (`IsLinearizedAs.mem_varying`).
-/
namespace FormSparsity

theorem IsFactorization.mono {w w' : Nat → MixedSet} (h : ∀ k, ∀ m ∈ w k, m ∈ w' k) {m : Mixed}
    {fs : List Mixed} (hfs : IsFactorization w m fs) : IsFactorization w' m fs :=
  ⟨hfs.prod_eq, hfs.order_pos, fun f hf => h _ f (hfs.mem f hf)⟩

namespace Graph

/-- Whether the second graph differs from the first one at most in that symbolic functions which are evaluated
at zero in the first one are evaluated at discrete functions in the second one. -/
structure IsLinearizedAs (g h : Graph) : Prop where
  dimension_eq : h.dimension = g.dimension
  size_eq : h.size = g.size
  node : ∀ n node, g.node? n = some node → h.node? n = some node ∨
    ∃ name f role point, node = .symbolic name f role .zero ∧
      h.node? n = some (.symbolic name f role (.discrete point)) ∧
      ∃ name' f', h.node? point = some (.discrete name' f')

variable {g h : Graph} {n : NodeId} {k : Nat} {m : Mixed}

namespace IsLinearizedAs

/-! ## Leaves -/

/-- Nodes that are no symbolic functions are the same. -/
theorem node?_eq (hl : g.IsLinearizedAs h) {node : Node} (hn : g.node? n = some node)
    (hsymbolic : ∀ name f role point, node ≠ .symbolic name f role point) : h.node? n = some node := by
  rcases hl.node n node hn with hn' | ⟨name, f, role, point, rfl, -⟩
  · exact hn'
  · exact absurd rfl (hsymbolic name f role .zero)

/-- Functions are declared by the same nodes. -/
theorem function?_eq (hl : g.IsLinearizedAs h) (f : FunctionId) : h.function? f = g.function? f := by
  have hdeclared : h.nodes.map Node.function? = g.nodes.map Node.function? := by
    refine Array.ext_getElem? fun n => ?_
    rw [Array.getElem?_map, Array.getElem?_map]
    show (h.node? n).map Node.function? = (g.node? n).map Node.function?
    cases hn : g.node? n with
    | none =>
      have hlt : ¬n < h.size := fun hlt => node?_ne_none (hl.size_eq ▸ hlt) hn
      have hn' : h.node? n = none := Array.getElem?_eq_none (Nat.not_lt.mp hlt)
      rw [hn']
    | some node =>
      rcases hl.node n node hn with hn' | ⟨_, _, _, _, rfl, hn', -⟩
      · rw [hn']
      · rw [hn']
        rfl
  have hfind : ∀ g : Graph, g.function? f = (g.nodes.map Node.function?).findIdx? (· = some f) := by
    intro g
    rw [Array.findIdx?_map]
    rfl
  rw [hfind, hfind, hdeclared]

/-- A function that is evaluated at a discrete function stays there. -/
theorem evalPoint?_eq (hl : g.IsLinearizedAs h) {f : FunctionId} {point : NodeId}
    (hf : g.evalPoint? f = some (.discrete point)) : h.evalPoint? f = some (.discrete point) := by
  simp only [Graph.evalPoint?, Option.bind_eq_bind, Option.bind_eq_some_iff] at hf ⊢
  obtain ⟨n, hfn, node, hn, hpoint⟩ := hf
  rw [hl.function?_eq]
  refine ⟨n, hfn, node, ?_, hpoint⟩
  rcases hl.node n node hn with hn' | ⟨_, _, _, _, rfl, -⟩
  · exact hn'
  · cases hpoint

theorem isLinearized (hl : g.IsLinearizedAs h) {f : FunctionId} (hf : g.isLinearized f = true) :
    h.isLinearized f = true := by
  unfold Graph.isLinearized at hf ⊢
  split at hf
  · rename_i point hpoint
    rw [hl.evalPoint?_eq hpoint]
  · cases hf

theorem mem_linearizedAtoms (hl : g.IsLinearizedAs h) {first first' : MixedSet} {α : MultiIndex}
    (hfirst : ∀ m ∈ first, m ∈ first') (hm : m ∈ g.linearizedAtoms first α) :
    m ∈ h.linearizedAtoms first' α := by
  obtain ⟨hm, f, p, β, rfl, hβ, hvalid, hf⟩ := Graph.mem_linearizedAtoms.mp hm
  exact Graph.mem_linearizedAtoms.mpr ⟨hfirst _ hm, f, p, β, rfl, hβ, hvalid, hl.isLinearized hf⟩

theorem mem_chainAtoms (hl : g.IsLinearizedAs h) {first first' : MixedSet} {d : Nat}
    (hfirst : ∀ m ∈ first, m ∈ first') (hm : m ∈ g.chainAtoms first d) : m ∈ h.chainAtoms first' d :=
  Graph.mem_chainAtoms.mpr ((Graph.mem_chainAtoms.mp hm).imp_left (hl.mem_linearizedAtoms hfirst))

/-! ## Nonzero derivatives -/

/-- **Nothing nonzero gets lost.** -/
theorem mem_nonzero (hl : g.IsLinearizedAs h) (hg : g.WellFormed) (hh : h.WellFormed)
    (hm : m ∈ g.nonzero n k) : m ∈ h.nonzero n k := by
  induction n using Nat.strongRecOn generalizing k m with
  | ind n ih =>
    obtain ⟨node, hn⟩ := exists_node?_of_mem_nonzero hm
    have ih : ∀ c ∈ node.children, ∀ {k : Nat} {m : Mixed}, m ∈ g.nonzero c k → m ∈ h.nonzero c k :=
      fun c hc _ _ => ih c (hg.child_lt n node hn c hc)
    cases node with
    | constant c =>
      have hn' := hl.node?_eq hn (by simp)
      exact (mem_nonzero_constant hh hn').mpr ((mem_nonzero_constant hg hn).mp hm)
    | coordinate d =>
      have hn' := hl.node?_eq hn (by simp)
      exact (mem_nonzero_coordinate hh hn').mpr ((mem_nonzero_coordinate hg hn).mp hm)
    | symbolic name f role point =>
      rw [mem_nonzero_symbolic hg hn] at hm
      rcases hl.node n _ hn with hn' | ⟨name, f, role, point', heq, hn', -⟩
      · exact (mem_nonzero_symbolic hh hn').mpr hm
      · cases heq
        refine (mem_nonzero_symbolic hh hn').mpr (hm.imp_left ?_)
        rintro ⟨hk, hm, -⟩
        exact ⟨hk, hm, point', rfl⟩
    | discrete name f =>
      have hn' := hl.node?_eq hn (by simp)
      rw [mem_nonzero_discrete hh hn', hl.dimension_eq]
      exact (mem_nonzero_discrete hg hn).mp hm
    | derivative d arg =>
      have hn' := hl.node?_eq hn (by simp)
      have ih := fun {k m} => ih arg (List.mem_singleton_self arg) (k := k) (m := m)
      obtain ⟨hk, ⟨c, hc, hm⟩ | ⟨m', hm', hm⟩⟩ := (mem_nonzero_derivative hg hn).mp hm
      · exact (mem_nonzero_derivative hh hn').mpr ⟨hk, .inl ⟨c, hl.mem_chainAtoms (fun _ => ih) hc, ih hm⟩⟩
      · exact (mem_nonzero_derivative hh hn').mpr ⟨hk, .inr ⟨m', ih hm', hm⟩⟩
    | sum terms =>
      have hn' := hl.node?_eq hn (by simp)
      obtain ⟨term, hterm, hm⟩ := (mem_nonzero_sum hg hn).mp hm
      exact (mem_nonzero_sum hh hn').mpr ⟨term, hterm, ih term hterm hm⟩
    | neg arg =>
      have hn' := hl.node?_eq hn (by simp)
      rw [nonzero_neg hg hn] at hm
      rw [nonzero_neg hh hn']
      exact ih arg (List.mem_singleton_self arg) hm
    | product a b =>
      have hn' := hl.node?_eq hn (by simp)
      obtain ⟨hk, j, hj, s, hs, t, ht, hst⟩ := (mem_nonzero_product hg hn).mp hm
      exact (mem_nonzero_product hh hn').mpr
        ⟨hk, j, hj, s, ih a (by simp [Node.children]) hs, t, ih b (by simp [Node.children]) ht, hst⟩
    | nonlinear f arg =>
      have hn' := hl.node?_eq hn (by simp)
      obtain ⟨hk, horder, factors, hfactors⟩ := (mem_nonzero_nonlinear hg hn).mp hm
      exact (mem_nonzero_nonlinear hh hn').mpr ⟨hk, horder, factors,
        hfactors.mono fun _ _ => ih arg (List.mem_singleton_self arg)⟩

/-! ## Varying derivatives -/

/-- **What varies varies still.** -/
theorem mem_varying (hl : g.IsLinearizedAs h) (hg : g.WellFormed) (hh : h.WellFormed)
    (hm : m ∈ g.varying n k) : m ∈ h.varying n k := by
  induction n using Nat.strongRecOn generalizing k m with
  | ind n ih =>
    have hk := le_maxOrder_of_mem_nonzero (mem_nonzero_of_mem_varying hg hm)
    obtain ⟨node, hn⟩ := exists_node?_of_mem_nonzero (mem_nonzero_of_mem_varying hg hm)
    have ih : ∀ c ∈ node.children, ∀ {k : Nat} {m : Mixed}, m ∈ g.varying c k → m ∈ h.varying c k :=
      fun c hc _ _ => ih c (hg.child_lt n node hn c hc)
    have hw : ∀ {c : NodeId} {k : Nat} {m : Mixed}, m ∈ g.nonzero c k → m ∈ h.nonzero c k :=
      hl.mem_nonzero hg hh
    rw [Graph.mem_varying hg hn hk] at hm
    cases node with
    | constant => exact hm.elim
    | coordinate d =>
      obtain ⟨hk', hm⟩ := hm
      exact (Graph.mem_varying hh (hl.node?_eq hn (by simp)) hk).mpr ⟨hk', hm⟩
    | symbolic name f role point =>
      obtain ⟨hk', hm, p, rfl⟩ := hm
      rcases hl.node n _ hn with hn' | ⟨_, _, _, _, heq, -⟩
      · exact (Graph.mem_varying hh hn' hk).mpr ⟨hk', hm, p, rfl⟩
      · cases heq
    | discrete name f => exact (Graph.mem_varying hh (hl.node?_eq hn (by simp)) hk).mpr (hw hm)
    | derivative d arg =>
      rw [Graph.mem_varying hh (hl.node?_eq hn (by simp)) hk]
      have ih := fun {k m} => ih arg (List.mem_singleton_self arg) (k := k) (m := m)
      obtain ⟨hk', ⟨a, ha, hm⟩ | hm | ⟨m', hm', hm⟩⟩ := hm
      · exact ⟨hk', .inl ⟨a, hl.mem_linearizedAtoms (fun _ => hw) ha, hw hm⟩⟩
      · exact ⟨hk', .inr (.inl (ih hm))⟩
      · exact ⟨hk', .inr (.inr ⟨m', ih hm', hm⟩)⟩
    | sum terms =>
      rw [Graph.mem_varying hh (hl.node?_eq hn (by simp)) hk]
      obtain ⟨term, hterm, hm⟩ := hm
      exact ⟨term, hterm, ih term hterm hm⟩
    | neg arg =>
      rw [Graph.mem_varying hh (hl.node?_eq hn (by simp)) hk]
      exact ih arg (List.mem_singleton_self arg) hm
    | product a b =>
      rw [Graph.mem_varying hh (hl.node?_eq hn (by simp)) hk]
      obtain ⟨j, hj, s, t, hst, ⟨hs, ht⟩ | ⟨hs, ht⟩⟩ := hm
      · exact ⟨j, hj, s, t, hst, .inl ⟨ih a (by simp [Node.children]) hs, hw ht⟩⟩
      · exact ⟨j, hj, s, t, hst, .inr ⟨hw hs, ih b (by simp [Node.children]) ht⟩⟩
    | nonlinear f arg =>
      rw [Graph.mem_varying hh (hl.node?_eq hn (by simp)) hk]
      have ih := fun {k m} => ih arg (List.mem_singleton_self arg) (k := k) (m := m)
      rw [Node.Varies] at hm ⊢
      split at hm
      · rename_i h0
        rw [if_pos h0]
        exact ⟨hm.1, ih hm.2⟩
      · rename_i h0
        rw [if_neg h0]
        -- the value of the operand varies, or a factor does, of which there are only more
        refine ⟨hw hm.1, hm.2.imp ih ?_⟩
        rintro ⟨factors, hfactors, f', hf', hv⟩
        exact ⟨factors, hfactors.mono fun _ _ => hw, f', hf', ih hv⟩

end IsLinearizedAs

end Graph

end FormSparsity

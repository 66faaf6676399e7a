import FormSparsity.Analysis.Varying
import FormSparsity.Proofs.Analysis.Demand

/-!
Varying derivatives. `Graph.varying` applies the rules to all nonzero derivatives, as if each of them
were required, and finds nonzero derivatives alone (`mem_nonzero_of_mem_varying`). An analysis applies
the same rules to what is required. That makes no difference for a required derivative, as long as
what it asks of the operands is required as well (`Node.varies_restrict`).
-/
namespace FormSparsity

/-! ## Tests that do not fail -/

theorem MixedSet.exists_selectM {s : MixedSet} {p : Mixed → Except Misuse Bool} {q : Mixed → Bool}
    (h : ∀ m ∈ s, p m = .ok (q m)) : ∃ t, s.selectM p = .ok t ∧ ∀ m, m ∈ t ↔ m ∈ s ∧ q m = true := by
  have key : ∀ l acc : List Mixed, (∀ m ∈ l, p m = .ok (q m)) →
      l.filterAuxM p acc = .ok ((l.filter q).reverse ++ acc) := by
    intro l
    induction l with
    | nil => intro acc _; rfl
    | cons m l ih =>
      intro acc hl
      rw [List.filterAuxM, hl m (by simp)]
      refine (ih _ fun m' hm' => hl m' (by simp [hm'])).trans ?_
      cases hq : q m <;> simp [hq]
  refine ⟨SortedSet.ofValues (s.toList.filter q), ?_, fun m => by simp⟩
  rw [selectM, List.filterM, key s.toList [] fun m hm => h m (Std.ExtTreeSet.mem_toList.mp hm)]
  simp [bind, Except.bind, pure, Except.pure]

theorem hasVaryingFactor_orderTable {v : Nat → MixedSet} {factors : List Mixed}
    (h : ∀ f ∈ factors, f.order ≤ maxOrder) :
    hasVaryingFactor (orderTable v) factors = .ok (factors.any fun f => decide (f ∈ v f.order)) := by
  induction factors with
  | nil => rfl
  | cons f factors ih =>
    have ih := ih fun f' hf' => h f' (by simp [hf'])
    rw [hasVaryingFactor] at ih ⊢
    rw [List.anyM_cons, getElem?_orderTable (h f (by simp)), ih]
    by_cases hf : f ∈ v f.order <;> simp [hf, bind, Except.bind, pure, Except.pure]

/-! ## The rules -/

open Inquiry

/-- The questions that the rule for a node may ask: about its operands, and about what is required and
nonzero of the node itself. -/
def Question.IsAbout (n : NodeId) (operands : List NodeId) : Question → Prop
  | nonzero place => place.node ∈ operands ∨ place.node = n
  | required place => place.node = n
  | varying place => place.node ∈ operands

theorem Node.asksOnly_varying (g : Graph) (n : NodeId) (k : Nat) (node : Node) :
    (node.varying g n k).AsksOnly (Question.IsAbout n node.children) := by
  cases node with
  | constant | coordinate | symbolic => exact asksOnly_pure _
  | discrete => exact asksOnly_map (asksOnly_answer (.inr rfl)) _
  | neg arg =>
    refine asksOnly_map (i := answer (Question.varying ⟨arg, k⟩)) ?_ Except.ok
    exact asksOnly_answer (List.mem_singleton_self arg)
  | sum terms =>
    refine asksOnly_map (i := union (fun term => answer (Question.varying ⟨term, k⟩)) terms) ?_ Except.ok
    exact asksOnly_union fun term hterm => asksOnly_answer hterm
  | derivative d arg =>
    have harg : arg ∈ (Node.derivative d arg).children := List.mem_singleton_self arg
    refine asksOnly_ite (fun _ => asksOnly_pure _) fun _ => ?_
    exact asksOnly_bind (asksOnly_answer (.inl harg)) fun _ =>
      asksOnly_bind (asksOnly_answer (.inl harg)) fun _ =>
      asksOnly_bind (asksOnly_answer harg) fun _ =>
      asksOnly_bind (asksOnly_answer harg) fun _ => asksOnly_pure _
  | product a b =>
    have ha : a ∈ (Node.product a b).children := by simp [children]
    have hb : b ∈ (Node.product a b).children := by simp [children]
    refine asksOnly_map (asksOnly_union fun j _ => ?_) _
    exact asksOnly_bind (asksOnly_answer ha) fun _ =>
      asksOnly_bind (asksOnly_answer (.inl ha)) fun _ =>
      asksOnly_bind (asksOnly_answer hb) fun _ =>
      asksOnly_bind (asksOnly_answer (.inl hb)) fun _ => asksOnly_pure _
  | nonlinear f arg =>
    have harg : arg ∈ (Node.nonlinear f arg).children := List.mem_singleton_self arg
    refine asksOnly_bind (asksOnly_answer harg) fun _ => asksOnly_ite (fun _ => asksOnly_pure _) fun _ => ?_
    refine asksOnly_bind (asksOnly_answer rfl) fun _ => asksOnly_ite (fun _ => asksOnly_pure _) fun _ => ?_
    refine asksOnly_bind (asksOnly_gather fun j _ => asksOnly_answer (.inl harg)) fun _ => ?_
    exact asksOnly_bind (asksOnly_gather fun j _ => asksOnly_answer harg) fun _ => asksOnly_pure _

/-- The answers that the nonzero derivatives of a graph and given required and varying ones make up. -/
def Graph.answers (g : Graph) (required varying : NodeId → Nat → MixedSet) : Question → MixedSet
  | .nonzero place => g.nonzero place.node place.order
  | .required place => required place.node place.order
  | .varying place => varying place.node place.order

/-- Whether the rule for a node finds a derivative of order `k`. -/
def Node.Varies (g : Graph) (required varying : NodeId → Nat → MixedSet) (n : NodeId)
    (k : Nat) (m : Mixed) :
    Node → Prop
  | constant _ => False
  | coordinate _ => k = 0 ∧ m = 1
  | symbolic _ _ _ point => k = 0 ∧ m = 1 ∧ ∃ p, point = .discrete p
  | discrete .. => m ∈ g.nonzero n k
  | derivative d arg => k ≤ derivativeMaxOrder ∧
      ((∃ a ∈ g.linearizedAtoms (g.nonzero arg 1) (.axis d), a * m ∈ g.nonzero arg (k + 1)) ∨
        .ofAtom (.coordinate d) * m ∈ varying arg (k + 1) ∨
        ∃ m' ∈ varying arg k, m ∈ m'.shifts (.axis d))
  | sum terms => ∃ term ∈ terms, m ∈ varying term k
  | neg arg => m ∈ varying arg k
  | product a b => ∃ j ≤ k, ∃ s t, s * t = m ∧
      (s ∈ varying a j ∧ t ∈ g.nonzero b (k - j) ∨ s ∈ g.nonzero a j ∧ t ∈ varying b (k - j))
  | nonlinear _ arg =>
      if k = 0 then m = 1 ∧ 1 ∈ varying arg 0
      else m ∈ required n k ∧ (1 ∈ varying arg 0 ∨
        ∃ factors, IsFactorization (g.nonzero arg) m factors ∧ ∃ f ∈ factors, f ∈ varying arg f.order)

/-- **The rule for varying derivatives does not fail,** and it finds the derivatives of `Node.Varies`. -/
theorem Node.exists_varying {g : Graph} (hg : g.WellFormed) (required varying : NodeId → Nat → MixedSet)
    (n : NodeId) (k : Nat) (node : Node) :
    ∃ set, (node.varying g n k).value (g.answers required varying) = .ok set ∧
      ∀ m, m ∈ set ↔ node.Varies g required varying n k m := by
  cases node with
  | constant => exact ⟨∅, rfl, by simp [Varies]⟩
  | coordinate d =>
    refine ⟨_, rfl, fun m => ?_⟩
    split <;> simp [Varies, MixedSet.mem_one, *]
  | symbolic name f role point =>
    refine ⟨_, rfl, fun m => ?_⟩
    match k, point with
    | 0, .zero => simp [Varies]
    | 0, .discrete p => simp [Varies, MixedSet.mem_one]
    | k + 1, _ => simp [Varies]
  | discrete => exact ⟨_, rfl, fun _ => Iff.rfl⟩
  | neg arg => exact ⟨_, rfl, fun _ => Iff.rfl⟩
  | sum terms =>
    simp only [Node.varying, value_map]
    exact ⟨_, rfl, fun m => by simp [Varies, Graph.answers]⟩
  | derivative d arg =>
    simp only [Node.varying, value_ite, value_pure, value_bind, value_answer]
    split
    · rename_i hk
      exact ⟨∅, rfl, fun m => by simp [Varies, Nat.not_le.mpr hk]⟩
    · rename_i hk
      refine ⟨_, rfl, fun m => ?_⟩
      simp [Varies, Nat.not_lt.mp hk, Graph.answers, Std.ExtTreeSet.mem_union_iff, MixedSet.mem_div_iff,
        MixedSet.mem_shift, or_assoc]
  | product a b =>
    simp only [Node.varying, value_map]
    refine ⟨_, rfl, fun m => ?_⟩
    simp only [value_union, value_bind, value_answer, value_pure, Graph.answers, SortedSet.mem_unions,
      List.mem_map, List.mem_range, Nat.lt_succ_iff, exists_exists_and_eq_and,
      Std.ExtTreeSet.mem_union_iff, MixedSet.mem_mul, Varies]
    refine exists_congr fun j => and_congr_right fun _ => ?_
    constructor
    · rintro (⟨s, hs, t, ht, h⟩ | ⟨s, hs, t, ht, h⟩)
      · exact ⟨s, t, h, .inl ⟨hs, ht⟩⟩
      · exact ⟨s, t, h, .inr ⟨hs, ht⟩⟩
    · rintro ⟨s, t, h, ⟨hs, ht⟩ | ⟨hs, ht⟩⟩
      · exact .inl ⟨s, hs, t, ht, h⟩
      · exact .inr ⟨s, hs, t, ht, h⟩
  | nonlinear f arg =>
    have hfactors : ∀ m, ∀ f ∈ (factorizations (orderTable (g.nonzero arg)) m).flatten,
        f.order ≤ maxOrder := by
      intro m f hf
      obtain ⟨factors, hfac, hf⟩ := (mem_flatten_factorizations (Graph.isGraded_nonzero hg arg)).mp hf
      exact Graph.le_maxOrder_of_mem_nonzero (hfac.mem f hf)
    simp only [Node.varying, value_ite, value_pure, value_bind, value_answer, value_gather, Varies]
    split
    · refine ⟨_, rfl, fun m => ?_⟩
      split <;> simp_all [Graph.answers, MixedSet.mem_one]
    · split
      · rename_i hvalue
        refine ⟨_, rfl, fun m => ?_⟩
        simp only [Graph.answers] at hvalue ⊢
        simp [hvalue]
      · rename_i hvalue
        simp only [Graph.answers] at hvalue ⊢
        obtain ⟨set, hset, hmem⟩ := MixedSet.exists_selectM (s := required n k)
          (p := fun m => hasVaryingFactor (orderTable (varying arg))
            (factorizations (orderTable (g.nonzero arg)) m).flatten)
          fun m _ => hasVaryingFactor_orderTable (hfactors m)
        refine ⟨set, hset, fun m => ?_⟩
        simp only [hmem, hvalue, false_or, List.any_eq_true, decide_eq_true_eq,
          mem_flatten_factorizations (Graph.isGraded_nonzero hg arg)]
        refine and_congr_right fun _ => ?_
        constructor
        · rintro ⟨f, ⟨factors, hfac, hf⟩, hv⟩
          exact ⟨factors, hfac, f, hf, hv⟩
        · rintro ⟨factors, hfac, f, hf, hv⟩
          exact ⟨f, ⟨factors, hfac, hf⟩, hv⟩

/-! ## The unrestricted recursion -/

namespace Graph

/-- The derivatives of a node that vary over the domain, by order, when all nonzero derivatives are
looked at. None is tracked above `maxOrder`. -/
def varying (g : Graph) : NodeId → Nat → MixedSet :=
  recurse (fun _ _ => ∅) fun n operand k =>
    if maxOrder < k then
      ∅
    else
      match g.node? n with
      | some node => ((node.varying g n k).value (g.answers g.nonzero operand)).toOption.getD ∅
      | none => ∅

variable {g : Graph} {n : NodeId} {k : Nat} {m : Mixed}

theorem varying_of_maxOrder_lt (h : maxOrder < k) : g.varying n k = ∅ := by
  rw [varying, recurse_eq, if_pos h]

theorem varying_of_node?_eq_none (h : g.node? n = none) : g.varying n k = ∅ := by
  rw [varying, recurse_eq]
  simp [h]

variable (hg : g.WellFormed)
include hg

/-- The varying derivatives of a node are what its rule yields from those of its operands. -/
theorem varying_eq {node : Node} (hn : g.node? n = some node) (hk : k ≤ maxOrder) :
    (node.varying g n k).value (g.answers g.nonzero g.varying) = .ok (g.varying n k) := by
  obtain ⟨set, hset, -⟩ := node.exists_varying hg g.nonzero g.varying n k
  rw [hset, varying, recurse_eq, if_neg (Nat.not_lt.mpr hk), hn]
  congr 1
  have hoperand : (node.varying g n k).value (g.answers g.nonzero fun m =>
      if m < n then g.varying m else fun _ => ∅) = .ok set := by
    rw [← hset]
    refine value_congr (node.asksOnly_varying g n k) fun q hq => ?_
    cases q with
    | nonzero | required => rfl
    | varying place =>
      have hlt : place.node < n := hg.child_lt n node hn _ hq
      simp only [answers, hlt, if_true]
  exact (congrArg (fun r => r.toOption.getD ∅) hoperand).symm

theorem mem_varying {node : Node} (hn : g.node? n = some node) (hk : k ≤ maxOrder) :
    m ∈ g.varying n k ↔ node.Varies g g.nonzero g.varying n k m := by
  obtain ⟨set, hset, hmem⟩ := node.exists_varying hg g.nonzero g.varying n k
  rw [varying_eq hg hn hk] at hset
  obtain rfl : g.varying n k = set := by simpa using hset
  exact hmem m

/-- **Only nonzero derivatives vary.** -/
theorem mem_nonzero_of_mem_varying (h : m ∈ g.varying n k) : m ∈ g.nonzero n k := by
  induction n using Nat.strongRecOn generalizing k m with
  | ind n ih =>
    have hk : k ≤ maxOrder := by
      by_contra hk
      simp [varying_of_maxOrder_lt (Nat.lt_of_not_le hk)] at h
    cases hn : g.node? n with
    | none => simp [varying_of_node?_eq_none hn] at h
    | some node =>
      have ih : ∀ c ∈ node.children, ∀ {k : Nat} {m : Mixed}, m ∈ g.varying c k → m ∈ g.nonzero c k :=
        fun c hc _ _ => ih c (hg.child_lt n node hn c hc)
      rw [mem_varying hg hn hk] at h
      cases node with
      | constant => exact h.elim
      | coordinate d => exact (mem_nonzero_coordinate hg hn).mpr (.inl h)
      | symbolic => exact (mem_nonzero_symbolic hg hn).mpr (.inl h)
      | discrete => exact h
      | neg arg =>
        rw [nonzero_neg hg hn]
        exact ih arg (List.mem_singleton_self arg) h
      | sum terms =>
        obtain ⟨term, hterm, h⟩ := h
        exact (mem_nonzero_sum hg hn).mpr ⟨term, hterm, ih term hterm h⟩
      | derivative d arg =>
        have ih := fun {k m} => ih arg (List.mem_singleton_self arg) (k := k) (m := m)
        obtain ⟨hk, ⟨a, ha, h⟩ | h | ⟨m', hm', h⟩⟩ := h
        · exact (mem_nonzero_derivative hg hn).mpr ⟨hk, .inl ⟨a, mem_chainAtoms.mpr (.inl ha), h⟩⟩
        · exact (mem_nonzero_derivative hg hn).mpr ⟨hk, .inl ⟨_, mem_chainAtoms.mpr (.inr rfl), ih h⟩⟩
        · exact (mem_nonzero_derivative hg hn).mpr ⟨hk, .inr ⟨m', ih hm', h⟩⟩
      | product a b =>
        obtain ⟨j, hj, s, t, rfl, ⟨hs, ht⟩ | ⟨hs, ht⟩⟩ := h
        · exact (mem_nonzero_product hg hn).mpr
            ⟨hk, j, hj, s, ih a (by simp [Node.children]) hs, t, ht, rfl⟩
        · exact (mem_nonzero_product hg hn).mpr
            ⟨hk, j, hj, s, hs, t, ih b (by simp [Node.children]) ht, rfl⟩
      | nonlinear f arg =>
        rw [Node.Varies] at h
        split at h
        · rename_i h0
          obtain ⟨rfl, -⟩ := h
          exact (mem_nonzero_nonlinear hg hn).mpr ⟨hk, h0.symm, [], .nil⟩
        · exact h.1

end Graph

/-! ## Restriction to what is required -/

/-- **The rule for varying derivatives looks only at what is required.** For a required derivative it
makes no difference if the answers are cut down to a family of required derivatives, provided the
family has what the derivative asks of the operands. -/
theorem Node.varies_restrict {g : Graph} (hg : g.WellFormed) {n : NodeId} {k : Nat}
    {m : Mixed} {node : Node}
    (hn : g.node? n = some node) {required varying : NodeId → Nat → MixedSet}
    (hm : m ∈ required n k) (hmw : m ∈ g.nonzero n k)
    (hclosed : ∀ c j m', g.Asks n k m c j m' → m' ∈ required c j)
    (hvarying : ∀ c ∈ node.children, ∀ j m', m' ∈ varying c j ↔ m' ∈ g.varying c j ∧ m' ∈ required c j) :
    node.Varies g required varying n k m ↔ node.Varies g g.nonzero g.varying n k m := by
  have hw := fun {c j m} => Graph.mem_nonzero_of_mem_varying hg (n := c) (k := j) (m := m)
  cases node with
  | constant | coordinate | symbolic | discrete => rfl
  | neg arg =>
    simp only [Varies, hvarying arg (List.mem_singleton_self arg)]
    exact and_iff_left_of_imp fun h => hclosed _ _ _ (.negated hn (hw h))
  | sum terms =>
    refine exists_congr fun term => and_congr_right fun hterm => ?_
    rw [hvarying term hterm]
    exact and_iff_left_of_imp fun h => hclosed _ _ _ (.term hn hterm (hw h))
  | derivative d arg =>
    simp only [Varies, hvarying arg (List.mem_singleton_self arg)]
    refine and_congr_right fun hk => or_congr_right (or_congr ?_ (exists_congr fun m' => ?_))
    · refine and_iff_left_of_imp fun h => hclosed _ _ _ (.chain hn hk ?_ (hw h))
      exact Graph.mem_chainAtoms.mpr (.inr rfl)
    · constructor
      · rintro ⟨⟨hv, -⟩, h⟩
        exact ⟨hv, h⟩
      · rintro ⟨hv, h⟩
        exact ⟨⟨hv, hclosed _ _ _ (.shift hn hk (hw hv) h)⟩, h⟩
  | product a b =>
    simp only [Varies, hvarying a (by simp [children]), hvarying b (by simp [children])]
    refine exists_congr fun j => and_congr_right fun hj => exists_congr fun s => exists_congr fun t =>
      and_congr_right fun hst => or_congr ?_ ?_
    · refine ⟨fun h => ⟨h.1.1, h.2⟩, fun h => ⟨⟨h.1, hclosed _ _ _ ?_⟩, h.2⟩⟩
      have := Graph.Asks.left hn (hw h.1) h.2
      rwa [hst, Nat.add_sub_cancel' hj] at this
    · refine ⟨fun h => ⟨h.1, h.2.1⟩, fun h => ⟨h.1, h.2, hclosed _ _ _ ?_⟩⟩
      have := Graph.Asks.right hn h.1 (hw h.2)
      rwa [hst, Nat.add_sub_cancel' hj] at this
  | nonlinear f arg =>
    have hvalue : 1 ∈ varying arg 0 ↔ 1 ∈ g.varying arg 0 := by
      rw [hvarying arg (List.mem_singleton_self arg)]
      exact and_iff_left_of_imp fun h => hclosed _ _ _ (.value hn (hw h))
    simp only [Varies, hvalue, hm, hmw, true_and]
    split
    · rfl
    · refine or_congr_right (exists_congr fun factors => and_congr_right fun hfac => exists_congr fun f =>
        and_congr_right fun hf => ?_)
      rw [hvarying arg (List.mem_singleton_self arg)]
      refine and_iff_left_of_imp fun _ => hclosed _ _ _ ?_
      have := Graph.Asks.factor hn hfac hf
      rwa [Graph.order_of_mem_nonzero hg hmw] at this

end FormSparsity

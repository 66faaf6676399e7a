import FormSparsity.Proofs.Session.Find

/-!
Classifications. In a consistent session the classification of a node that is ready lists its required
derivatives up to `maxOrder`, each as varying or constant (`ends_classify`). Evaluators need nothing else
and change nothing that sets depend on.
-/
namespace FormSparsity

namespace Classification

variable {table : Classification} {set : MixedSet} {v : Variability} {m : Mixed}

theorem getElem?_mark : (table.mark set v)[m]? = if m ∈ set then some v else table[m]? := by
  have key : ∀ (l : List Mixed) (table : Classification),
      (l.foldl (fun table m => table.insert m v) table)[m]? = if m ∈ l then some v else table[m]? := by
    intro l
    induction l with
    | nil => simp
    | cons m' l ih =>
      intro table
      rw [List.foldl_cons, ih]
      by_cases hm : m = m'
      · simp [hm]
      · simp [hm, Std.ExtTreeMap.getElem?_insert, Ne.symm hm]
  simp [mark, key]

end Classification

namespace Session

variable {g : Graph} {p : Pass} {s s' : Session} {n : NodeId}

theorem NotReady.of_tellsApart {e : Fault AnalysisError} {s'' : Session} (ht : TellsApart s s')
    (h : NotReady g p s' n e s'') : NotReady g p s n e s'' :=
  ⟨by rw [← ht.ready]; exact h.1, h.2.1, h.2.2.1, ht.trans h.2.2.2⟩

/-- Whether a classification lists the required derivatives of a node of the given orders. -/
def Classifies (g : Graph) (s : Session) (p : PassId) (n : NodeId) (orders : List Nat)
    (table : Classification) : Prop :=
  ∀ m v, table[m]? = some v ↔ m.order ∈ orders ∧ m ∈ s.requiredSet p n m.order ∧
    v = if m ∈ g.varying n m.order then .varying else .constant

/-- A classification of all orders lists what is required. -/
theorem Classifies.mem_iff (hs : s.Consistent g) {q : PassId} {table : Classification}
    (h : s.Classifies g q n (List.range (maxOrder + 1)) table) {m : Mixed} :
    m ∈ table ↔ m ∈ s.requiredSet q n m.order := by
  rw [Std.ExtTreeMap.mem_iff_isSome_getElem?, Option.isSome_iff_exists]
  simp only [h m, exists_and_left, exists_eq, and_true, List.mem_range]
  refine and_iff_right_of_imp fun hm => ?_
  exact Nat.lt_succ_of_le (Graph.le_maxOrder_of_mem_nonzero (hs.mem_nonzero hm))

/-- The constant and the varying derivatives of one more order leave those of other orders as they
are. -/
theorem Classifies.mark (hs : s.Consistent g) (hg : g.WellFormed) {q : PassId} {orders : List Nat} {k : Nat}
    {c : Classification} (h : s.Classifies g q n orders c) :
    s.Classifies g q n (orders ++ [k]) ((c.mark (s.requiredSet q n k \ g.varying n k) .constant).mark
      (g.varying n k ∩ s.requiredSet q n k) .varying) := by
  intro m v
  have horder : m ∈ s.requiredSet q n k → m.order = k := fun hm =>
    Graph.order_of_mem_nonzero hg (hs.mem_nonzero hm)
  simp only [Classification.getElem?_mark, Std.ExtTreeSet.mem_inter_iff, Std.ExtTreeSet.mem_diff_iff,
    List.mem_append, List.mem_singleton]
  by_cases hm : m ∈ s.requiredSet q n k
  · obtain rfl := horder hm
    by_cases hv : m ∈ g.varying n m.order <;> simp [hm, hv, eq_comm]
  · simp only [hm, and_false, false_and, if_false, h m v]
    refine and_congr_left fun h => ?_
    have : m.order ≠ k := fun hk => hm (hk ▸ h.1)
    simp [this]

/-- Whether required derivatives of a node were told apart in some orders: the constant and the varying ones
are kept. -/
def ToldApart (s : Session) (q : PassId) (n : NodeId) (orders : List Nat) : Prop :=
  ∀ (kind : SetKind) k, kind.IsClass → k ∈ orders → ∃ set, s.sets[(⟨kind, q, n, k⟩ : SetKey)]? = some set

theorem ToldApart.isClassified {q : PassId} {orders : List Nat} {k : Nat} (h : s.ToldApart q n orders)
    (hk : k ∈ orders) : s.isClassified q n k = true := by
  obtain ⟨set, hset⟩ := h .constant k (.inl rfl) hk
  exact isClassified_iff.mpr ⟨.constant, .inl rfl, set, hset⟩

theorem ToldApart.of_classes {q : PassId} {orders : List Nat} (h : s.ToldApart q n orders)
    (hclasses : ∀ (key : SetKey) set, key.kind.IsClass → s.sets[key]? = some set → s'.sets[key]? = some set) :
    s'.ToldApart q n orders := by
  intro kind k hkind hk
  obtain ⟨set, hset⟩ := h kind k hkind hk
  exact ⟨set, hclasses _ set hkind hset⟩

/-- **Classifications list what is required,** in every consistent session for every node that is
ready, and tell the required derivatives of all orders up to `maxOrder` apart. -/
theorem ends_classify_toldApart (hg : g.WellFormed) (p : Pass) (hs : s.Consistent g) (n : NodeId) :
    Ends (classify g p n) s
      (fun c s' => s.Classifies g p.id n (List.range (maxOrder + 1)) c ∧ ⟨p.id, n⟩ ∈ s.ready ∧
        s'.Consistent g ∧ TellsApart s s' ∧ s'.ToldApart p.id n (List.range (maxOrder + 1)))
      (NotReady g p s n) := by
  refine Ends.mono (Ends.foldlM
    (fun orders c s' => s.Classifies g p.id n orders c ∧ (orders ≠ [] → ⟨p.id, n⟩ ∈ s.ready) ∧
      s'.Consistent g ∧ TellsApart s s' ∧ s'.ToldApart p.id n orders)
    (fun orders k hk c s' h => ?_) ⟨by simp [Classifies], by simp, hs, .refl s, by simp [ToldApart]⟩)
    (fun c s' h => ⟨h.1, h.2.1 (by simp), h.2.2⟩) fun _ _ he => he
  obtain ⟨hc, -, hs', ht, htold⟩ := h
  have hk : k ≤ maxOrder := Nat.lt_succ_iff.mp (List.mem_range.mp hk)
  rw [ends_bind]
  refine (ends_findConstant hg p hs' n k).mono (fun constant s₁ h => ?_) fun _ _ he => he.of_tellsApart ht
  obtain ⟨⟨rfl, hready⟩, hs₁, ht₁, hconstant⟩ := h
  rw [ends_bind]
  refine (ends_findVarying hg p hs₁ n k).mono (fun varying s₂ h => ?_) fun _ _ he =>
    he.of_tellsApart (ht.trans ht₁)
  obtain ⟨⟨rfl, -⟩, hs₂, ht₂, hvarying⟩ := h
  rw [ht₁.required, ht.required] at hvarying ⊢
  rw [ht.required] at hconstant
  refine ⟨hc.mark hs hg, fun _ => ht.ready ▸ hready hk, hs₂, (ht.trans ht₁).trans ht₂, fun kind j hkind hj => ?_⟩
  rcases List.mem_append.mp hj with hj | hj
  · exact (htold.of_classes (ht₁.trans ht₂).classes) kind j hkind hj
  · obtain rfl := List.mem_singleton.mp hj
    obtain rfl | rfl := hkind
    · exact ⟨_, ht₂.classes _ _ (.inl rfl) hconstant⟩
    · exact ⟨_, hvarying⟩

theorem ends_classify (hg : g.WellFormed) (p : Pass) (hs : s.Consistent g) (n : NodeId) :
    Ends (classify g p n) s
      (fun c s' => s.Classifies g p.id n (List.range (maxOrder + 1)) c ∧ ⟨p.id, n⟩ ∈ s.ready ∧
        s'.Consistent g ∧ TellsApart s s') (NotReady g p s n) :=
  (ends_classify_toldApart hg p hs n).mono (fun _ _ h => ⟨h.1, h.2.1, h.2.2.1, h.2.2.2.1⟩) fun _ _ he => he

/-! ## Nodes that are not ready -/

/-- How a search fails that finds nothing: the node is not ready, and the session is left as it was. -/
def FindsNothing (g : Graph) (p : Pass) (n : NodeId) (s : Session) (e : Fault AnalysisError)
    (s' : Session) : Prop :=
  (e = .error (.notReady (g.text n) p.text) ∨ (∃ m, e = .misuse m) ∧ g.node? n = none) ∧ s' = s

section NotReady

variable {k : Nat} (hn : ⟨p.id, n⟩ ∉ s.ready)
include hn

theorem ends_findRequired_of_not_ready (g : Graph) (k : Nat) :
    Ends (findRequired g p n k) s (fun _ _ => False) (FindsNothing g p n s) := by
  rw [findRequired, ends_bind, ends_get, if_neg hn, ends_bind]
  exact ends_checked_describe ⟨.inl rfl, rfl⟩ fun hnone m => ⟨.inr ⟨⟨m, rfl⟩, hnone⟩, rfl⟩

/-- Nothing is kept of a node that is not ready where something is told apart. -/
theorem ends_remember_of_not_ready (hs : s.Consistent g) (hk : k ≤ maxOrder) {kind : SetKind}
    (hkind : kind.IsClass) {compute : MixedSet → AnalysisM MixedSet} :
    Ends (remember g p kind n k (findRequired g p n k >>= compute)) s (fun _ _ => False)
      (FindsNothing g p n s) := by
  refine ends_remember (fun set hset => ?_) (ends_ite.mpr ⟨fun hlt => absurd hk (Nat.not_le.mpr hlt), fun _ => ?_⟩)
  · exact hn (hs.ready_of_isClassified hk (isClassified_iff.mpr ⟨kind, hkind, set, hset⟩))
  · rw [ends_bind]
    exact (ends_findRequired_of_not_ready hn g k).mono (fun _ _ h => h.elim) fun _ _ he => he

theorem ends_findVarying_of_not_ready (hs : s.Consistent g) (hk : k ≤ maxOrder) :
    Ends (findVarying g p n k) s (fun _ _ => False) (FindsNothing g p n s) := by
  rw [findVarying, recurse_eq]
  exact ends_remember_of_not_ready hn hs hk (.inr rfl)

theorem ends_findConstant_of_not_ready (hs : s.Consistent g) (hk : k ≤ maxOrder) :
    Ends (findConstant g p n k) s (fun _ _ => False) (FindsNothing g p n s) :=
  ends_remember_of_not_ready hn hs hk (.inl rfl)

theorem ends_classify_of_not_ready (hs : s.Consistent g) :
    Ends (classify g p n) s (fun _ _ => False) (FindsNothing g p n s) := by
  -- the order zero comes first
  rw [classify, List.range_succ_eq_map, List.foldlM_cons, ends_bind, ends_bind]
  exact (ends_findConstant_of_not_ready hn hs (Nat.zero_le _)).mono (fun _ _ h => h.elim) fun _ _ he => he

end NotReady

/-! ## Evaluators -/

/-- Finding evaluators keeps a session consistent and adds no demand. -/
theorem keeps_findEvaluator (hg : g.WellFormed) (p : Pass) (s : Session) (n : NodeId) :
    Keeps (fun s' => s'.Consistent g ∧ TellsApart s s') (findEvaluator g p n) := by
  induction n using Nat.strongRecOn with
  | ind n ih =>
    intro s' hs'
    rw [findEvaluator, recurse_eq, ends_bind, ends_get]
    split
    · exact hs'
    · have hoperand : ∀ c, Keeps (fun s' => s'.Consistent g ∧ TellsApart s s')
          (if c < n then findEvaluator g p c else unorderedNode g c) := by
        intro c
        split
        · exact ih c ‹_›
        · exact keeps_throw _
      have hclassify : Keeps (fun s' => s'.Consistent g ∧ TellsApart s s') (classify g p n) := fun s₁ hs₁ =>
        (ends_classify hg p hs₁.1 n).mono (fun _ _ h => ⟨h.2.2.1, hs₁.2.trans h.2.2.2⟩)
          fun _ _ h => ⟨h.2.2.1, hs₁.2.trans h.2.2.2⟩
      have hnode : Keeps (fun s' => s'.Consistent g ∧ TellsApart s s')
          (checked (g.node n) : AnalysisM Node) := fun s₁ hs₁ => by simp [hs₁]
      refine hnode.bind (fun node => (Keeps.mapM fun c _ => hoperand c).bind fun operands =>
        hclassify.bind fun c => ?_) s' hs'
      intro s₁ hs₁
      rw [ends_bind, ends_modify, ends_pure]
      have hlooks := looks_evaluators s₁ (s₁.evaluators.insert ⟨p.id, n⟩
        (if c.isEmpty then .null else .active n c operands))
      exact ⟨hs₁.1.of_sets_eq hlooks rfl, hs₁.2.trans hlooks.tellsApart⟩

end Session

end FormSparsity

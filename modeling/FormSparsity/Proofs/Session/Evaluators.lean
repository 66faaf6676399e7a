import FormSparsity.Proofs.Session.Fulfilment
import FormSparsity.Proofs.Session.Isolation

/-!
Evaluators. An evaluator that is kept of a node has the classification of the node and the evaluators kept of
its operands, and the required derivatives of the node have been told apart in all orders (`Evaluated`). So
nothing that comes later can make it wrong: demand for more derivatives of the node is refused, also if it is
made elsewhere and only passed on to the node (`evaluators_stay_valid`). Nothing but finding evaluators adds to
them (`keeps_evaluators`).
-/
namespace FormSparsity.Session

variable {g : Graph} {p : Pass} {q : PassId} {s s' s'' t : Session} {n c m : NodeId} {e : Evaluator}

/-! ## Other calls -/

/-- Whether a call finds evaluators. -/
def Call.IsEvaluate : Call → Prop
  | evaluate _ => True
  | _ => False

theorem BearsDemand.respects_call {I : Session → Session → Prop} (hI : BearsDemand p.id I) (call : Call)
    (hcall : ¬call.IsEvaluate) : Respects I (call.run g p) := by
  cases call with
  | nonzero n k => exact (hI.respects_findNonzero n k).map _
  | required n k => exact (hI.bearsRequired.respects_findRequired n k).map _
  | constant n k => exact (hI.respects_findConstant n k).map _
  | varying n k => exact (hI.respects_findVarying n k).map _
  | classify n => exact (hI.respects_classify n).map _
  | require n demand => exact hI.respects_require n demand
  | evaluate n => exact absurd trivial hcall

theorem bearsDemand_evaluators (q : PassId) (E : Std.ExtTreeMap NodeKey Evaluator) :
    BearsDemand q fun s t => s = t ∧ s.evaluators = E :=
  .of_eq (.of_eq (fun _ h _ _ _ _ => h) fun _ h _ => h) (fun _ h _ _ => h) (fun _ h _ _ => h) fun _ h _ => h

/-- Calls that find no evaluators leave them alone, whether they fail or not. -/
theorem keeps_evaluators (E : Std.ExtTreeMap NodeKey Evaluator) (call : Call) (hcall : ¬call.IsEvaluate) :
    Keeps (fun s => s.evaluators = E) (call.run g p) :=
  ((bearsDemand_evaluators p.id E).respects_call call hcall).keeps

/-! ## The evaluator of a node -/

/-- Evaluators are kept of all nodes of a list if they are listed. -/
theorem exists_evaluator {l : List NodeId} {operands : List Evaluator}
    (h : (l.map fun c => s.evaluators[(⟨q, c⟩ : NodeKey)]?) = operands.map some) (hc : c ∈ l) :
    ∃ e, s.evaluators[(⟨q, c⟩ : NodeKey)]? = some e := by
  have hmem : s.evaluators[(⟨q, c⟩ : NodeKey)]? ∈ operands.map some := h ▸ List.mem_map_of_mem hc
  obtain ⟨e, -, he⟩ := List.mem_map.mp hmem
  exact ⟨e, he.symm⟩

theorem map_evaluators {l : List NodeId} {operands : List Evaluator}
    (h : (l.map fun c => s.evaluators[(⟨q, c⟩ : NodeKey)]?) = operands.map some)
    (hkept : ∀ (key : NodeKey) e, s.evaluators[key]? = some e → s'.evaluators[key]? = some e) :
    (l.map fun c => s'.evaluators[(⟨q, c⟩ : NodeKey)]?) = operands.map some := by
  rw [← h]
  refine List.map_congr_left fun c hc => ?_
  obtain ⟨e, he⟩ := exists_evaluator h hc
  rw [he, hkept _ e he]

/-- Whether an evaluator is the one of a node: it has the classification of the node and the evaluators that
are kept of the operands, and there is nothing to it if nothing is required. -/
def IsEvaluator (g : Graph) (s : Session) (q : PassId) (n : NodeId) (e : Evaluator) : Prop :=
  ∃ (node : Node) (table : Classification) (operands : List Evaluator), g.node? n = some node ∧
    s.Classifies g q n (List.range (maxOrder + 1)) table ∧
    (node.children.map fun c => s.evaluators[(⟨q, c⟩ : NodeKey)]?) = operands.map some ∧
    e = if table.isEmpty then .null else .active n table operands

/-- Whether the evaluators that are kept are right, and the required derivatives of their nodes have been told
apart. -/
structure Evaluated (g : Graph) (s : Session) : Prop where
  right : ∀ q n e, s.evaluators[(⟨q, n⟩ : NodeKey)]? = some e → s.IsEvaluator g q n e
  toldApart : ∀ q n e, s.evaluators[(⟨q, n⟩ : NodeKey)]? = some e →
    s.ToldApart q n (List.range (maxOrder + 1))

/-- The evaluator of a node stays the one as long as the same is required and the evaluators of the operands are
kept. -/
theorem IsEvaluator.of_kept (h : s.IsEvaluator g q n e)
    (hrequired : ∀ k ∈ List.range (maxOrder + 1), s'.requiredSet q n k = s.requiredSet q n k)
    (hkept : ∀ (key : NodeKey) e, s.evaluators[key]? = some e → s'.evaluators[key]? = some e) :
    s'.IsEvaluator g q n e := by
  obtain ⟨node, table, operands, hn, htable, hoperands, rfl⟩ := h
  refine ⟨node, table, operands, hn, fun m v => ?_, map_evaluators hoperands hkept, rfl⟩
  rw [htable m v]
  exact and_congr_right fun hk => by rw [hrequired _ hk]

theorem evaluated_restart (g : Graph) (s : Session) : s.restart.Evaluated g where
  right q n e h := by simp [restart] at h
  toldApart q n e h := by simp [restart] at h

theorem Evaluated.isClassified (hs : s.Evaluated g) (h : s.evaluators[(⟨q, n⟩ : NodeKey)]? = some e) {k : Nat}
    (hk : k ≤ maxOrder) : s.isClassified q n k = true :=
  (hs.toldApart q n e h).isClassified (List.mem_range.mpr (Nat.lt_succ_of_le hk))

/-- The evaluators of a node and of all nodes below it are kept together. -/
theorem Evaluated.below (hs : s.Evaluated g) (h : s.evaluators[(⟨q, n⟩ : NodeKey)]? = some e)
    (hm : Relation.ReflTransGen g.IsOperand n m) : ∃ e', s.evaluators[(⟨q, m⟩ : NodeKey)]? = some e' := by
  induction hm with
  | refl => exact ⟨e, h⟩
  | tail _ hop ih =>
    obtain ⟨e', he'⟩ := ih
    obtain ⟨node, table, operands, hn, -, hoperands, -⟩ := hs.right q _ e' he'
    obtain ⟨node', hn', hc⟩ := hop
    obtain rfl : node = node' := by simpa [hn] using hn'
    exact exists_evaluator hoperands hc

theorem Evaluated.ready (hs : s.Evaluated g) (hconsistent : s.Consistent g)
    (h : s.evaluators[(⟨q, n⟩ : NodeKey)]? = some e) : ⟨q, n⟩ ∈ s.ready :=
  hconsistent.ready_of_isClassified (Nat.zero_le _) (hs.isClassified h (Nat.zero_le _))

/-- Evaluators stay right in sessions that follow, as long as no others are found. -/
theorem Evaluated.of_extends (hs : s.Evaluated g) (h : Extends s s') (he : s'.evaluators = s.evaluators) :
    s'.Evaluated g where
  right q n e hn := by
    rw [he] at hn
    refine (hs.right q n e hn).of_kept (fun k hk => ?_) fun _ _ h => by rwa [he]
    exact h.frozen q n k ((hs.toldApart q n e hn).isClassified hk)
  toldApart q n e hn := by
    rw [he] at hn
    exact (hs.toldApart q n e hn).of_classes h.classes

/-! ## Finding evaluators -/

/-- What finding the evaluator of a node leaves behind, whether it fails or not: more evaluators of the node and
of nodes below it, whose required derivatives have been told apart, and no others. -/
structure Evaluates (g : Graph) (q : PassId) (n : NodeId) (s s' : Session) : Prop where
  consistent : s'.Consistent g
  evaluated : s'.Evaluated g
  tellsApart : TellsApart s s'
  kept : ∀ (key : NodeKey) e, s.evaluators[key]? = some e → s'.evaluators[key]? = some e
  below : ∀ (key : NodeKey) e, s'.evaluators[key]? = some e →
    s.evaluators[key]? = some e ∨ key.pass = q ∧ Relation.ReflTransGen g.IsOperand n key.node
  classes : ∀ (key : SetKey) set, key.kind.IsClass → s'.sets[key]? = some set →
    s.sets[key]? = some set ∨ key.pass = q ∧ ∃ e, s'.evaluators[(⟨q, key.node⟩ : NodeKey)]? = some e

theorem Evaluates.refl (hs : s.Consistent g) (he : s.Evaluated g) : Evaluates g q n s s :=
  ⟨hs, he, .refl s, fun _ _ h => h, fun _ _ h => .inl h, fun _ _ _ h => .inl h⟩

theorem Evaluates.trans (h : Evaluates g q n s s') (h' : Evaluates g q c s' s'')
    (hc : Relation.ReflTransGen g.IsOperand n c) : Evaluates g q n s s'' where
  consistent := h'.consistent
  evaluated := h'.evaluated
  tellsApart := h.tellsApart.trans h'.tellsApart
  kept key e he := h'.kept key e (h.kept key e he)
  below key e he := by
    rcases h'.below key e he with he | ⟨hpass, hbelow⟩
    · exact h.below key e he
    · exact .inr ⟨hpass, hc.trans hbelow⟩
  classes key set hkind hset := by
    rcases h'.classes key set hkind hset with hset | hnew
    · exact (h.classes key set hkind hset).imp_right fun ⟨hpass, e, he⟩ => ⟨hpass, e, h'.kept _ e he⟩
    · exact .inr hnew

/-- How finding an evaluator fails: a node is not ready, from this one on downwards. -/
def LacksReady (g : Graph) (p : Pass) (n : NodeId) (s : Session) (e : Fault AnalysisError) : Prop :=
  (∃ c, Relation.ReflTransGen g.IsOperand n c ∧ ⟨p.id, c⟩ ∉ s.ready ∧
    e = .error (.notReady (g.text c) p.text)) ∨ g.node? n = none ∧ ∃ m, e = .misuse m

/-- All nodes below one that is ready are ready. -/
theorem Consistent.ready_below (hs : s.Consistent g) (h : ⟨q, n⟩ ∈ s.ready)
    (hc : Relation.ReflTransGen g.IsOperand n c) : ⟨q, c⟩ ∈ s.ready := by
  induction hc with
  | refl => exact h
  | tail _ hop ih => exact hs.operand_ready q _ _ ih hop

theorem LacksReady.operand {e : Fault AnalysisError} (hg : g.WellFormed) (hc : g.IsOperand n c)
    (ht : TellsApart s s') (h : LacksReady g p c s' e) : LacksReady g p n s e := by
  rcases h with ⟨c', hc', hnot, rfl⟩ | ⟨hnone, -⟩
  · exact .inl ⟨c', .head hc hc', by rwa [← ht.ready], rfl⟩
  · obtain ⟨node, hn, hc⟩ := hc
    obtain ⟨child, hchild⟩ := hg.node?_child hn hc
    simp [hnone] at hchild

theorem LacksReady.not_ready {e : Fault AnalysisError} (hs : s.Consistent g) (h : LacksReady g p n s e) :
    ⟨p.id, n⟩ ∉ s.ready := by
  intro hready
  rcases h with ⟨c, hc, hnot, -⟩ | ⟨hnone, -⟩
  · exact hnot (hs.ready_below hready hc)
  · obtain ⟨node, hn⟩ := hs.exists_node _ _ hready
    simp [hnone] at hn

/-- The last part of finding an evaluator: the node has been classified, and the evaluator is kept. -/
theorem Evaluates.insert {node : Node} {table : Classification} {operands : List Evaluator}
    (h : Evaluates g q n s s') (hnone : s'.evaluators[(⟨q, n⟩ : NodeKey)]? = none) (hn : g.node? n = some node)
    (hoperands : (node.children.map fun c => s'.evaluators[(⟨q, c⟩ : NodeKey)]?) = operands.map some)
    (htable : s'.Classifies g q n (List.range (maxOrder + 1)) table) (hs : s''.Consistent g)
    (ht : TellsApart s' s'') (htold : s''.ToldApart q n (List.range (maxOrder + 1)))
    (hevaluators : s''.evaluators = s'.evaluators)
    (hclasses : KeepsOutside q (Relation.ReflTransGen g.IsOperand n) s' s'')
    (he : e = if table.isEmpty then .null else .active n table operands) :
    Evaluates g q n s { s'' with evaluators := s''.evaluators.insert ⟨q, n⟩ e } := by
  have hlooks := looks_evaluators s'' (s''.evaluators.insert ⟨q, n⟩ e)
  have hget : ∀ key : NodeKey, (s''.evaluators.insert ⟨q, n⟩ e)[key]? =
      if ⟨q, n⟩ = key then some e else s'.evaluators[key]? := by
    intro key
    simp [Std.ExtTreeMap.getElem?_insert, hevaluators]
  -- nothing that was kept is replaced
  have hkept : ∀ (key : NodeKey) e', s'.evaluators[key]? = some e' →
      (s''.evaluators.insert ⟨q, n⟩ e)[key]? = some e' := by
    intro key e' he'
    rw [hget, if_neg, he']
    rintro rfl
    simp [hnone] at he'
  have hold : s''.Evaluated g := h.evaluated.of_extends ht.extends hevaluators
  have hright : IsEvaluator g { s'' with evaluators := s''.evaluators.insert ⟨q, n⟩ e } q n e := by
    refine ⟨node, table, operands, hn, fun m v => ?_, map_evaluators hoperands hkept, he⟩
    rw [htable m v, hlooks.requiredSet, ht.required]
  refine
    { consistent := hs.of_sets_eq hlooks rfl
      evaluated := ⟨fun q' c e' hc => ?_, fun q' c e' hc => ?_⟩
      tellsApart := (h.tellsApart.trans ht).trans hlooks.tellsApart
      kept := fun key e' he' => hkept key e' (h.kept key e' he')
      below := fun key e' he' => ?_
      classes := fun key set hkind hset => ?_ }
  · rw [hget] at hc
    split at hc
    · rename_i hkey
      cases hkey
      obtain rfl : e = e' := by simpa using hc
      exact hright
    · refine (hold.right q' c e' (by rwa [hevaluators])).of_kept (fun k _ => hlooks.requiredSet q' c k) ?_
      exact fun key e'' he'' => hkept key e'' (by rwa [← hevaluators])
  · rw [hget] at hc
    split at hc
    · rename_i hkey
      cases hkey
      exact htold
    · exact hold.toldApart q' c e' (by rwa [hevaluators])
  · rw [hget] at he'
    split at he'
    · rename_i hkey
      exact .inr (hkey ▸ ⟨rfl, .refl⟩)
    · exact h.below key e' he'
  · by_cases hbelow : key.pass = q ∧ Relation.ReflTransGen g.IsOperand n key.node
    · refine .inr ⟨hbelow.1, ?_⟩
      rcases Relation.ReflTransGen.cases_head hbelow.2 with heq | ⟨c, ⟨node', hn', hc⟩, hc'⟩
      · exact ⟨e, by rw [hget, if_pos (by rw [heq])]⟩
      · obtain rfl : node = node' := by simpa [hn] using hn'
        obtain ⟨e', he'⟩ := exists_evaluator hoperands hc
        obtain ⟨e'', he''⟩ := h.evaluated.below he' hc'
        exact ⟨e'', hkept _ e'' he''⟩
    · have hset : s'.sets[key]? = some set := (hclasses key hkind hbelow).symm.trans hset
      exact (h.classes key set hkind hset).imp_right fun ⟨hpass, e', he'⟩ => ⟨hpass, e', hkept _ e' he'⟩

/-- **Evaluators are found** in every consistent session for every node that is ready. -/
theorem ends_findEvaluator (hg : g.WellFormed) (p : Pass) (hs : s.Consistent g) (he : s.Evaluated g) (n : NodeId) :
    Ends (findEvaluator g p n) s
      (fun e s' => Evaluates g p.id n s s' ∧ s'.evaluators[(⟨p.id, n⟩ : NodeKey)]? = some e)
      (fun e s' => Evaluates g p.id n s s' ∧ LacksReady g p n s e) := by
  induction n using Nat.strongRecOn generalizing s with
  | ind n ih =>
    rw [findEvaluator, recurse_eq, ends_bind, ends_get]
    split
    · rename_i e hkept
      exact ⟨.refl hs he, hkept⟩
    · rename_i hnone
      rw [ends_bind]
      cases hn : g.node? n with
      | none =>
        rw [Graph.node_eq_error hn]
        exact ⟨.refl hs he, .inr ⟨hn, _, rfl⟩⟩
      | some node =>
        refine ends_checked_node hn ?_
        have hlt : ∀ c ∈ node.children, c < n := hg.child_lt n node hn
        rw [ends_bind]
        refine (Ends.mapM_done (fun done operands s₁ => Evaluates g p.id n s s₁ ∧
          s₁.evaluators[(⟨p.id, n⟩ : NodeKey)]? = none ∧
          (done.map fun c => s₁.evaluators[(⟨p.id, c⟩ : NodeKey)]?) = operands.map some)
          (fun done operands c hc s₁ h => ?_) ⟨.refl hs he, hnone, rfl⟩).mono (fun operands s₁ h => ?_)
          fun _ _ h => h
        · obtain ⟨heval, hnone, hdone⟩ := h
          rw [if_pos (hlt c hc)]
          have hchild : g.IsOperand n c := ⟨node, hn, hc⟩
          refine (ih c (hlt c hc) heval.consistent heval.evaluated).mono (fun e s₂ h => ?_) fun e s₂ h => ?_
          · obtain ⟨heval', hkept⟩ := h
            refine ⟨heval.trans heval' (.single hchild), ?_, ?_⟩
            · rw [Option.eq_none_iff_forall_ne_some]
              intro e' he'
              rcases heval'.below _ e' he' with he' | ⟨-, hbelow⟩
              · simp [hnone] at he'
              · exact absurd (hlt c hc) (Nat.not_lt.mpr (hg.le_of_reflTransGen hbelow))
            · rw [List.map_append, List.map_append, ← hdone, List.map_singleton, List.map_singleton, hkept]
              rw [hdone, map_evaluators hdone heval'.kept]
          · obtain ⟨heval', hlacks⟩ := h
            exact ⟨heval.trans heval' (.single hchild), hlacks.operand hg hchild heval.tellsApart⟩
        · obtain ⟨heval, hnone, hoperands⟩ := h
          rw [ends_bind]
          by_cases hready : ⟨p.id, n⟩ ∈ s₁.ready
          · have hkeeps : Keeps (fun s₂ => s₂.evaluators = s₁.evaluators) (classify g p n) :=
              ((bearsDemand_evaluators p.id s₁.evaluators).respects_classify n).keeps
            have hclasses : Keeps (KeepsOutside p.id (Relation.ReflTransGen g.IsOperand n) s₁) (classify g p n) :=
              (admits_keepsOutside _ _ s₁).keeps_classify (fun _ _ h hop => h.tail hop) .refl
            refine (((ends_classify_toldApart hg p heval.consistent n).and (hclasses s₁ fun _ _ _ => rfl)).and
              (hkeeps s₁ rfl)).mono (fun table s₂ h => ?_) fun _ _ h => absurd hready h.1.1.1
            obtain ⟨⟨⟨htable, -, hs₂, ht₂, htold⟩, hclasses⟩, hevaluators⟩ := h
            rw [ends_bind, ends_modify, ends_pure]
            exact ⟨heval.insert hnone hn hoperands htable hs₂ ht₂ htold hevaluators hclasses rfl, by simp⟩
          · refine (ends_classify_of_not_ready hready heval.consistent).mono (fun _ _ h => h.elim) fun e s₂ h => ?_
            obtain ⟨rfl | ⟨-, hmissing⟩, rfl⟩ := h
            · exact ⟨heval, .inl ⟨n, .refl, by rwa [← heval.tellsApart.ready], rfl⟩⟩
            · simp [hn] at hmissing

/-- An evaluator that is kept is found at once. -/
theorem run_findEvaluator_of_kept (h : s.evaluators[(⟨p.id, n⟩ : NodeKey)]? = some e) :
    (findEvaluator g p n).run.run s = (.ok e, s) := by
  have hends : Ends (findEvaluator g p n) s (fun e' s' => e' = e ∧ s' = s) fun _ _ => False := by
    rw [findEvaluator, recurse_eq, ends_bind, ends_get]
    simp only [h]
    exact ⟨rfl, rfl⟩
  obtain ⟨e', s', hrun, rfl, rfl⟩ := hends.exists_ok
  exact hrun

theorem run_operands {l : List NodeId} {operands : List Evaluator}
    (h : (l.map fun c => s.evaluators[(⟨p.id, c⟩ : NodeKey)]?) = operands.map some) :
    (l.map fun c => (findEvaluator g p c).run.run s) = operands.map fun e => (.ok e, s) := by
  induction l generalizing operands with
  | nil => simp_all
  | cons c l ih =>
    cases operands with
    | nil => simp at h
    | cons e operands =>
      rw [List.map_cons, List.map_cons, List.cons.injEq] at h
      rw [List.map_cons, List.map_cons, run_findEvaluator_of_kept h.1, ih h.2]

/-! ## Runs -/

theorem after_map {α β : Type} (f : α → β) (x : AnalysisM α) (s : Session) : after (f <$> x) s = after x s := by
  have h : Ends x s (fun _ s' => s' = after x s) fun _ s' => s' = after x s := by
    unfold Ends after
    split <;> simp_all
  exact ((ends_map f).mpr h).state

/-- **One step** of a run keeps all evaluators, and keeps them right. -/
theorem Step.evaluated (hg : g.WellFormed) (hs : s.Consistent g) (he : s.Evaluated g) (h : Step g s s') :
    s'.Evaluated g ∧ ∀ (key : NodeKey) e, s.evaluators[key]? = some e → s'.evaluators[key]? = some e := by
  have hextends := (h.consistent_extends hg hs).2
  cases h with
  | call p call =>
    by_cases hcall : call.IsEvaluate
    · cases call with
      | evaluate n =>
        have heval := (ends_discard ((ends_findEvaluator hg p hs he n).mono (fun _ _ h => h.1)
          fun _ _ h => h.1)).state
        exact ⟨heval.evaluated, heval.kept⟩
      | _ => exact hcall.elim
    · have hevaluators := (keeps_evaluators (g := g) (p := p) s.evaluators call hcall s rfl).state
      exact ⟨he.of_extends hextends hevaluators, fun key e hkey => by rwa [hevaluators]⟩
  | openPass => exact ⟨he.of_extends hextends rfl, fun _ _ h => h⟩

/-- **A run** keeps all evaluators, and keeps them right. -/
theorem Later.evaluated (hg : g.WellFormed) (hs : s.Consistent g) (he : s.Evaluated g) (h : Later g s s') :
    s'.Evaluated g ∧ ∀ (key : NodeKey) e, s.evaluators[key]? = some e → s'.evaluators[key]? = some e := by
  induction h with
  | refl => exact ⟨he, fun _ _ h => h⟩
  | tail hlater hstep ih =>
    obtain ⟨he', hkept⟩ := hstep.evaluated hg (Later.consistent_extends hg hs hlater).1 ih.1
    exact ⟨he', fun key e h => hkept key e (ih.2 key e h)⟩

theorem Reachable.evaluated (hg : g.WellFormed) (h : s.Reachable g) : s.Evaluated g := by
  obtain ⟨s₀, h⟩ := h
  exact (h.evaluated hg (consistent_restart g s₀) (evaluated_restart g s₀)).1

/-- Two classifications of the same required derivatives are the same. -/
theorem Classifies.eq {orders : List Nat} {table table' : Classification} (h : s.Classifies g q n orders table)
    (h' : s.Classifies g q n orders table') : table = table' := by
  refine Std.ExtTreeMap.ext_getElem? fun m => Option.ext fun v => ?_
  rw [h m v, h' m v]

/-! ## Evaluators stay valid -/

/-- What is known of a node of which the evaluator is kept in a session, at any later time. -/
structure StaysEvaluated (g : Graph) (p : Pass) (n : NodeId) (e : Evaluator) (s t : Session) : Prop where
  required : ∀ k, ∃ required, (findRequired g p n k).run.run s = (.ok required, s) ∧
    (findRequired g p n k).run.run t = (.ok required, t)
  found : (findEvaluator g p n).run.run s = (.ok e, s) ∧ (findEvaluator g p n).run.run t = (.ok e, t)
  /-- The evaluator is made up of the classification of the node and the evaluators of the operands. -/
  form : ∃ (node : Node) (table : Classification) (operands : List Evaluator) (s' t' : Session),
    g.node? n = some node ∧ (classify g p n).run.run s = (.ok table, s') ∧
    (classify g p n).run.run t = (.ok table, t') ∧
    (node.children.map fun c => (findEvaluator g p c).run.run t) = operands.map (fun e => (.ok e, t)) ∧
    e = if table.isEmpty then .null else .active n table operands
  /-- Demand that would require one more derivative of the node is refused, wherever it is made. -/
  refuses : ∀ c demand k m, g.Brings (c, demand) n k m → m ∉ t.requiredSet p.id n k →
    ∃ error t', (require g p c demand).run.run t = (.error error, t')

theorem StaysEvaluated.of_kept (hg : g.WellFormed) (hs : s.Reachable g) (hlater : Later g s t)
    (h : s.evaluators[(⟨p.id, n⟩ : NodeKey)]? = some e) : StaysEvaluated g p n e s t := by
  have hs' := hs.consistent hg
  have he := hs.evaluated hg
  obtain ⟨ht, hextends⟩ := hlater.consistent_extends hg hs'
  obtain ⟨he', hkept⟩ := hlater.evaluated hg hs' he
  have hready := he.ready hs' h
  have hready' := he'.ready ht (hkept _ e h)
  have hrequired : ∀ k, t.requiredSet p.id n k = s.requiredSet p.id n k := by
    intro k
    by_cases hk : k ≤ maxOrder
    · exact hextends.frozen _ _ _ (he.isClassified h hk)
    · rw [hs'.requiredSet_of_maxOrder_lt (Nat.not_le.mp hk), ht.requiredSet_of_maxOrder_lt (Nat.not_le.mp hk)]
  refine
    { required := fun k => ⟨_, run_findRequired hs' hready k, by rw [run_findRequired ht hready' k, hrequired k]⟩
      found := ⟨run_findEvaluator_of_kept h, run_findEvaluator_of_kept (hkept _ e h)⟩
      form := ?_
      refuses := fun c demand k m hbrings hm => ?_ }
  · obtain ⟨node, table, operands, hn, htable, hoperands, rfl⟩ := he.right _ _ e h
    have htable' : t.Classifies g p.id n (List.range (maxOrder + 1)) table := fun m v => by
      rw [htable m v, hrequired]
    obtain ⟨found, s', hrun, hfound⟩ := run_classify hg hs' hready
    obtain ⟨found', t', hrun', hfound'⟩ := run_classify hg ht hready'
    obtain rfl := hfound.eq htable
    obtain rfl := hfound'.eq htable'
    exact ⟨node, _, operands, s', t', hn, hrun, hrun', run_operands (map_evaluators hoperands hkept), rfl⟩
  · rcases hrun : (Session.require g p c demand).run.run t with ⟨⟨⟩ | error, t'⟩
    · exact ⟨_, t', rfl⟩
    · -- the derivative would be required now, although nothing changes where derivatives were told apart
      have hm' := ((hs.later hlater).mem_requiredSet_iff hg hrun).mpr (.inr hbrings)
      have hk := Graph.le_maxOrder_of_mem_nonzero hbrings.mem_nonzero
      have hfrozen := ((ends_require hg p ht c demand).of_ok hrun).progress.determines.frozen p.id n k
        (he'.isClassified (hkept _ e h) hk)
      exact absurd (hfrozen ▸ hm') hm

/-- **Evaluators stay valid.** Suppose that the evaluator of a node is found in some session that a run reaches.
However the run goes on from there, and whatever fails in it, the same is required of the node and of each node
below it, they have the same classifications and the same evaluators. The evaluator of each of these nodes is
null if its classification is empty, and otherwise made up of its classification and the evaluators of its
operands in their order. Any demand that would require one more derivative of one of them is refused; for a
demand that is determined requires what it brings. -/
theorem evaluators_stay_valid (hg : g.Built) (hs : s.Reachable g) (p : Pass) (n : NodeId)
    (hrun : (findEvaluator g p n).run.run s = (.ok e, s')) (hlater : Later g s' t) :
    StaysEvaluated g p n e s' t ∧
    (∀ m, Relation.ReflTransGen g.IsOperand n m → ∃ e', StaysEvaluated g p m e' s' t) ∧
    ∀ c demand u, (require g p c demand).run.run t = (.ok (), u) → ∀ m k x,
      x ∈ u.requiredSet p.id m k ↔ x ∈ t.requiredSet p.id m k ∨ g.Brings (c, demand) m k x := by
  have hw := hg.wellFormed
  obtain ⟨heval, hkept⟩ := (ends_findEvaluator hw p (hs.consistent hw) (hs.evaluated hw) n).of_ok hrun
  have hs' : s'.Reachable g := by
    have hstate : s' = after (findEvaluator g p n) s := by rw [after, hrun]
    have hreach := hs.call p (.evaluate n)
    rwa [hstate, ← after_map]
  refine ⟨.of_kept hw hs' hlater hkept, fun m hm => ?_, fun c demand u hrequire m k x => ?_⟩
  · obtain ⟨e', he'⟩ := heval.evaluated.below hkept hm
    exact ⟨e', .of_kept hw hs' hlater he'⟩
  · exact (hs'.later hlater).mem_requiredSet_iff hw hrequire

/-- The evaluator of a node that is ready is found. -/
theorem run_findEvaluator (hg : g.WellFormed) (hs : s.Reachable g) (h : ⟨p.id, n⟩ ∈ s.ready) :
    ∃ e, (findEvaluator g p n).run.run s = (.ok e, after (findEvaluator g p n) s) := by
  have hconsistent := hs.consistent hg
  obtain ⟨e, s', hrun, -⟩ := ((ends_findEvaluator hg p hconsistent (hs.evaluated hg) n).mono (fun _ _ h => h)
    fun _ _ h' => h'.2.not_ready hconsistent h).exists_ok
  exact ⟨e, by rw [after, hrun]⟩

/-- The session in which the evaluator of `x0*v` has been found, and another demand on `-v` determined. -/
def productEvaluated : Session :=
  after (require Graph.sumWithProduct default 3 [∅, {.ofAtom (.functional 7 .value)}])
    (after (findEvaluator Graph.sumWithProduct default 2) productToldApart)

/-- After that the derivative of the sum by `v` is refused, as it is none that is required of the product. -/
theorem evaluators_stay_valid_productEvaluated :
    Graph.sumWithProduct.Built ∧ productToldApart.Reachable Graph.sumWithProduct ∧
    ∃ e, (findEvaluator Graph.sumWithProduct default 2).run.run productToldApart =
        (.ok e, after (findEvaluator Graph.sumWithProduct default 2) productToldApart) ∧
      Later Graph.sumWithProduct (after (findEvaluator Graph.sumWithProduct default 2) productToldApart)
        productEvaluated ∧
      StaysEvaluated Graph.sumWithProduct default 2 e
        (after (findEvaluator Graph.sumWithProduct default 2) productToldApart) productEvaluated ∧
      ∃ error t, (require Graph.sumWithProduct default 4 [∅, {.ofAtom (.functional 7 .value)}]).run.run
        productEvaluated = (.error error, t) := by
  have hg := Graph.built_sumWithProduct
  obtain ⟨e, hrun⟩ := run_findEvaluator (p := default) hg.wellFormed reachable_productToldApart
    (show (⟨0, 2⟩ : NodeKey) ∈ productToldApart.ready by decide +kernel)
  have hlater : Later Graph.sumWithProduct
      (after (findEvaluator Graph.sumWithProduct default 2) productToldApart) productEvaluated :=
    .single (.call default (.require 3 _) _)
  have hstays := (evaluators_stay_valid hg reachable_productToldApart default 2 hrun hlater).1
  -- the derivative by `v` is passed on from the sum to the product
  have hasks : Graph.sumWithProduct.Asks 4 1 (.ofAtom (.functional 7 .value)) 2 1 (.ofAtom (.functional 7 .value)) :=
    .term (rfl : Graph.sumWithProduct.node? 4 = some (.sum [3, 2])) (by decide) (by decide +kernel)
  obtain ⟨part, hpart, hm⟩ : ∃ part, Graph.sumWithProduct.Gives (4, [∅, {.ofAtom (.functional 7 .value)}])
      (2, part) ∧ .ofAtom (.functional 7 .value) ∈ part.ofOrder 1 :=
    hasks.exists_gives hg.wellFormed (by decide +kernel) (by decide +kernel)
  refine ⟨hg, reachable_productToldApart, e, hrun, hlater, hstays, ?_⟩
  exact hstays.refuses 4 _ 1 _ ((Graph.brings_self hm hasks.mem_nonzero).gives hpart) (by decide +kernel)

end FormSparsity.Session

import FormSparsity.Proofs.Session.Comparison

/-!
Evaluations that fail. Finding the evaluator of a node fails if the node is not ready. By then the evaluators of
some operands may have been found, and their required derivatives are told apart for good. This is all that the
failure leaves behind (`leftByFailure`): later calls reply what they would have replied without it, until one
demands more of a node that was told apart.
-/
namespace FormSparsity.Session

variable {g : Graph} {p : Pass} {q : PassId} {s s' u v : Session} {n : NodeId}
variable {D : NodeId → Prop} {e : Fault AnalysisError} {call : NodeId × Demand} {calls : List (Pass × Call)}

/-- Whether a demand requires nothing more where derivatives were told apart from the first to the second
session. -/
def Spares (g : Graph) (q : PassId) (s s' : Session) (call : NodeId × Demand) : Prop :=
  ∀ c k m, g.Brings call c k m → ToldApartSince q s s' c k → m ∈ s.requiredSet q c k

/-- Whether a call is about a node that exists, finds no evaluators, and requires nothing more where derivatives
were told apart in a pass from the first to the second session. -/
def Undisturbed (g : Graph) (q : PassId) (s s' : Session) : Pass × Call → Prop
  | (p, c) => ¬c.IsEvaluate ∧ c.node < g.size ∧
    ∀ n demand, c = .require n demand → p.id = q → Spares g q s s' (n, demand)

/-- The session that calls leave behind, one after the other. -/
def afterCalls (g : Graph) : List (Pass × Call) → Session → Session
  | [], s => s
  | (p, c) :: calls, s => afterCalls g calls (after (c.reply g p) s)

theorem after_reply (c : Call) (s : Session) : after (c.reply g p) s = after (c.run g p) s := by
  cases c with
  | require n demand => exact after_map _ _ s
  | _ => exact (after_map _ _ s).trans (after_map (fun _ => ()) _ s).symm

theorem later_afterCalls (calls : List (Pass × Call)) (s : Session) : Later g s (afterCalls g calls s) := by
  induction calls generalizing s with
  | nil => exact .refl
  | cons call calls ih =>
    obtain ⟨p, c⟩ := call
    refine .head ?_ (ih (after (c.reply g p) s))
    rw [after_reply]
    exact .call p c s

/-! ## What a failure leaves behind -/

/-- The sessions before and after an evaluator is searched for agree but for what was told apart. -/
theorem Evaluates.twins (hs : s.Consistent g) (h : Evaluates g q n s s')
    (hopen : s'.journal.isOpen = s.journal.isOpen) :
    Twins g q (fun c => ∃ e, s'.evaluators[(⟨q, c⟩ : NodeKey)]? = some e) s s' where
  required q' c k := (h.tellsApart.required q' c k).symm
  classes key hkey hout := by
    refine Option.ext fun set => ⟨h.tellsApart.classes key set hkey, fun hset => ?_⟩
    exact (h.classes key set hkey hset).resolve_right hout
  toldApart c := fun ⟨e, he⟩ => h.evaluated.toldApart q c e he
  propagated := h.tellsApart.propagated.symm
  ready := h.tellsApart.ready.symm
  isOpen := hopen.symm
  left := hs
  right := h.consistent

/-- A later demand is spoiled only where derivatives were told apart by the failure. -/
theorem Twins.of_spoils (h : Twins g q D u v)
    (hD : ∀ c, D c → s'.ToldApart q c (List.range (maxOrder + 1))) (hu : Extends s u)
    (hspoils : Spoils g p u v call e) : p.id = q ∧ ∃ c k m, ToldApartSince q s s' c k ∧ g.Brings call c k m ∧
      m ∉ s.requiredSet q c k ∧ e = .error (.grewAfterClassification (g.text c) p.text k) := by
  obtain ⟨c, k, m, hsince, hm, hr, he⟩ := hspoils
  obtain ⟨rfl, hc⟩ := h.toAgreeBut.of_toldApartSince hsince
  have hk : k ∈ List.range (maxOrder + 1) :=
    List.mem_range.mpr (Nat.lt_succ_of_le (Graph.le_maxOrder_of_mem_nonzero hm.mem_nonzero))
  exact ⟨rfl, c, k, m, ⟨(hD c hc).isClassified hk, fun hs => hsince.2 (hu.isClassified hs)⟩, hm,
    fun hm => hr (hu.required _ _ _ _ hm), he⟩

theorem Twins.not_spoils (h : Twins g q D u v)
    (hD : ∀ c, D c → s'.ToldApart q c (List.range (maxOrder + 1))) (hu : Extends s u)
    (hspares : p.id = q → Spares g q s s' call) : ¬Spoils g p u v call e := by
  intro hspoils
  obtain ⟨hq, c, k, m, hsince, hm, hr, -⟩ := h.of_spoils hD hu hspoils
  exact hr (hspares hq c k m hm hsince)

/-- **One call** that is not disturbed replies the same, and leaves sessions like before. -/
theorem Twins.reply (hg : g.WellFormed) (hbelow : ∀ n c, D n → g.IsOperand n c → D c) (h : Twins g q D u v)
    (hD : ∀ c, D c → s'.ToldApart q c (List.range (maxOrder + 1))) (hu : Extends s u) {c : Call}
    (hc : Undisturbed g q s s' (p, c)) :
    ((c.reply g p).run.run u).1 = ((c.reply g p).run.run v).1 ∧
      Twins g q D (after (c.reply g p) u) (after (c.reply g p) v) := by
  obtain ⟨hevaluate, hn, hspares⟩ := hc
  have hn := Graph.exists_node? hn
  cases c with
  | nonzero n k => exact (respects_twins_findNonzero hg hn k).map _ u v h
  | required n k => exact ((bearsRequired_twins q D p.id).respects_findRequired n k).map _ u v h
  | constant n k => exact (respects_twins_findConstant hg hbelow hn k).map _ u v h
  | varying n k => exact (respects_twins_findVarying hg hbelow hn k).map _ u v h
  | classify n => exact (respects_twins_classify hg hbelow hn).map _ u v h
  | evaluate n => exact absurd trivial hevaluate
  | require n demand =>
    refine (((h.together_require hg hn demand).map _).mono (fun _ _ h => h) fun e he => ?_).alike
    exact h.not_spoils hD hu (hspares n demand rfl) he

/-- **Calls** that are not disturbed reply the same, one after the other. -/
theorem Twins.replies (hg : g.WellFormed) (hbelow : ∀ n c, D n → g.IsOperand n c → D c) (h : Twins g q D u v)
    (hD : ∀ c, D c → s'.ToldApart q c (List.range (maxOrder + 1))) (hu : Extends s u)
    (hcalls : ∀ call ∈ calls, Undisturbed g q s s' call) :
    Session.replies g calls v = Session.replies g calls u ∧
      Twins g q D (afterCalls g calls u) (afterCalls g calls v) := by
  induction calls generalizing u v with
  | nil => exact ⟨rfl, h⟩
  | cons call calls ih =>
    obtain ⟨p, c⟩ := call
    obtain ⟨hreply, h'⟩ := h.reply hg hbelow hD hu (hcalls (p, c) List.mem_cons_self)
    have hu' : Extends s (after (c.reply g p) u) := by
      rw [after_reply]
      exact hu.trans (ends_call hg p c h.left).state.extension
    obtain ⟨hreplies, h''⟩ := ih h' hu' fun call hcall => hcalls call (List.mem_cons_of_mem _ hcall)
    exact ⟨by rw [Session.replies, Session.replies, hreply, hreplies], h''⟩

/-- What a failed search for the evaluator of a node leaves of a session. -/
structure LeftByFailure (g : Graph) (p : Pass) (n : NodeId) (e : Fault AnalysisError) (s s' : Session) :
    Prop where
  cause : ∃ c, Relation.ReflTransGen g.IsOperand n c ∧ ⟨p.id, c⟩ ∉ s.ready ∧
    e = .error (.notReady (g.text c) p.text)
  required : ∀ q c k, s'.requiredSet q c k = s.requiredSet q c k
  ready : s'.ready = s.ready
  samples : s'.samples = s.samples
  /-- Nothing but derivatives of ready nodes below the node are told apart. -/
  toldApart : ∀ q c k, k ≤ maxOrder → ToldApartSince q s s' c k →
    q = p.id ∧ ⟨q, c⟩ ∈ s.ready ∧ Relation.TransGen g.IsOperand n c
  same : ∀ calls, (∀ call ∈ calls, Undisturbed g p.id s s' call) → replies g calls s' = replies g calls s
  /-- Demand that would have been determined still is, unless it requires more where derivatives were told apart.
  It fails as it would have failed, or else for this reason. -/
  next : ∀ calls, (∀ call ∈ calls, Undisturbed g p.id s s' call) → ∀ (p' : Pass) c demand, c < g.size →
    (((require g p' c demand).run.run (afterCalls g calls s')).1 = .ok () ↔
      ((require g p' c demand).run.run (afterCalls g calls s)).1 = .ok () ∧
        (p'.id = p.id → Spares g p.id s s' (c, demand))) ∧
    ∀ e', ((require g p' c demand).run.run (afterCalls g calls s')).1 = .error e' →
      ((require g p' c demand).run.run (afterCalls g calls s)).1 = .error e' ∨
        ∃ c' k, ToldApartSince p.id s s' c' k ∧
          e' = .error (.grewAfterClassification (g.text c') p'.text k)

/-- Demand that is determined after the failure requires nothing more where derivatives were told apart by it. -/
theorem spares_of_ok (hg : g.WellFormed) (hv : v.Reachable g) (hextends : Extends s' v)
    (hrequired : ∀ q c k, s'.requiredSet q c k = s.requiredSet q c k) {c : NodeId} {demand : Demand}
    (hok : ((require g p c demand).run.run v).1 = .ok ()) : Spares g p.id s s' (c, demand) := by
  intro c' k m hm hsince
  have hrun := run_eq_of_ok hok
  have hm' := (hv.mem_requiredSet_iff hg hrun).mpr (.inr hm)
  have hfrozen := ((ends_require hg p (hv.consistent hg) c demand).of_ok hrun).progress.determines.frozen p.id c' k
    (hextends.isClassified hsince.1)
  rwa [hfrozen, hextends.frozen p.id c' k hsince.1, hrequired] at hm'

/-- **The next demand** is determined after the failure exactly if it would be determined otherwise and requires
nothing more where derivatives were told apart. -/
theorem Twins.next (hg : g.WellFormed) (h : Twins g q D u v)
    (hD : ∀ c, D c → s'.ToldApart q c (List.range (maxOrder + 1))) (hu : Extends s u) (hv : v.Reachable g)
    (hextends : Extends s' v) (hrequired : ∀ q c k, s'.requiredSet q c k = s.requiredSet q c k) {c : NodeId}
    (hc : ∃ node, g.node? c = some node) (demand : Demand) :
    (((require g p c demand).run.run v).1 = .ok () ↔
      ((require g p c demand).run.run u).1 = .ok () ∧ (p.id = q → Spares g q s s' (c, demand))) ∧
    ∀ e, ((require g p c demand).run.run v).1 = .error e →
      ((require g p c demand).run.run u).1 = .error e ∨
        ∃ c' k, ToldApartSince q s s' c' k ∧ e = .error (.grewAfterClassification (g.text c') p.text k) := by
  have htogether := h.together_require hg hc (p := p) demand
  refine ⟨⟨fun hok => ?_, fun hok => ?_⟩, fun e he => ?_⟩
  · rcases htogether with ⟨hsame, -⟩ | ⟨e, he, -⟩
    · refine ⟨hsame.trans hok, ?_⟩
      rintro rfl
      exact spares_of_ok hg hv hextends hrequired hok
    · simp [he] at hok
  · obtain ⟨hok, hspares⟩ := hok
    rcases htogether with ⟨hsame, -⟩ | ⟨e, -, hspoils⟩
    · exact hsame.symm.trans hok
    · exact absurd hspoils (h.not_spoils hD hu hspares)
  · rcases htogether with ⟨hsame, -⟩ | ⟨e', he', hspoils⟩
    · exact .inl (hsame.trans he)
    · obtain rfl : e = e' := by simpa [he] using he'
      obtain ⟨-, c', k, m, hsince, -, -, rfl⟩ := h.of_spoils hD hu hspoils
      exact .inr ⟨c', k, hsince, rfl⟩

/-- **What a failed evaluation leaves behind.** If the evaluator of a node is not found, then the node or one
below it is not ready. Nothing has changed but that derivatives of ready nodes below the node were told apart.
So later calls reply the same values and errors as if the evaluator had not been searched for, as long as none
of them demands that more be required where derivatives were told apart now. Demand that does is refused, and no
other demand is that would be determined otherwise. -/
theorem leftByFailure (hg : g.Built) (hs : s.Reachable g) (p : Pass) (hn : n < g.size)
    (hrun : (findEvaluator g p n).run.run s = (.error e, s')) : LeftByFailure g p n e s s' := by
  have hw := hg.wellFormed
  have hconsistent := hs.consistent hw
  obtain ⟨heval, hlacks⟩ := (ends_findEvaluator hw p hconsistent (hs.evaluated hw) n).of_error hrun
  have hnot := hlacks.not_ready hconsistent
  have hafter : s' = after (findEvaluator g p n) s := by rw [after, hrun]
  have hopen : s'.journal.isOpen = s.journal.isOpen := by
    have hbears : Bears p.id fun t t' => t = t' ∧ t.journal.isOpen = s.journal.isOpen :=
      .of_eq (fun _ h _ _ _ _ => h) (fun _ h _ _ => h) fun _ h _ => h
    rw [hafter]
    exact ((hbears.respects_findEvaluator n).keeps s rfl).state
  have hsamples : s'.samples = s.samples := by
    rw [hafter]
    exact (((isFrame_samples.bears p.id).respects_findEvaluator n).keeps s rfl).state
  have hs' : s'.Reachable g := by
    rw [hafter, ← after_map]
    exact hs.call p (.evaluate n)
  have htwins := heval.twins hconsistent hopen
  have hbelow : ∀ c c', (∃ e, s'.evaluators[(⟨p.id, c⟩ : NodeKey)]? = some e) → g.IsOperand c c' →
      ∃ e, s'.evaluators[(⟨p.id, c'⟩ : NodeKey)]? = some e := by
    rintro c c' ⟨_, he⟩ hop
    exact heval.evaluated.below he (.single hop)
  have htold : ∀ c, (∃ e, s'.evaluators[(⟨p.id, c⟩ : NodeKey)]? = some e) →
      s'.ToldApart p.id c (List.range (maxOrder + 1)) := by
    rintro c ⟨e, he⟩
    exact heval.evaluated.toldApart _ c e he
  refine
    { cause := ?_
      required := heval.tellsApart.required
      ready := heval.tellsApart.ready
      samples := hsamples
      toldApart := fun q c k hk hsince => ?_
      same := fun calls hcalls => (htwins.replies hw hbelow htold (.refl s) hcalls).1
      next := fun calls hcalls p' c demand hc => ?_ }
  · refine hlacks.resolve_right fun h => ?_
    obtain ⟨node, hnode⟩ := Graph.exists_node? hn
    simp [h.1] at hnode
  · obtain ⟨rfl, e', he'⟩ := htwins.toAgreeBut.of_toldApartSince hsince
    have hready : ⟨p.id, c⟩ ∈ s.ready := heval.tellsApart.ready ▸ heval.evaluated.ready heval.consistent he'
    refine ⟨rfl, hready, ?_⟩
    rcases heval.below _ e' he' with hold | ⟨-, hreach⟩
    · exact absurd ((hs.evaluated hw).isClassified hold hk) hsince.2
    · refine (Relation.reflTransGen_iff_eq_or_transGen.mp hreach).resolve_left ?_
      rintro rfl
      exact hnot hready
  · have hu := (later_afterCalls (g := g) calls s).consistent_extends hw hconsistent
    have hlater := later_afterCalls (g := g) calls s'
    obtain ⟨-, h⟩ := htwins.replies hw hbelow htold (.refl s) hcalls
    exact h.next hw htold hu.2 (hs'.later hlater) (hlater.consistent_extends hw heval.consistent).2
      heval.tellsApart.required (Graph.exists_node? hc) demand

/-- A session in which nothing is required of `v` but to be there. -/
def variationReady : Session := after (require Graph.sumWithProduct default 1 [∅]) {}

theorem reachable_variationReady : variationReady.Reachable Graph.sumWithProduct :=
  Reachable.require ⟨{}, .refl⟩ default 1 _

/-- The session in which the evaluator of `-v` was not found. -/
def negationFailed : Session := after (findEvaluator Graph.sumWithProduct default 3) variationReady

theorem run_negationFailed : (findEvaluator Graph.sumWithProduct default 3).run.run variationReady =
    (.error (.error (.notReady "-v" (Pass.text default))), negationFailed) := by
  refine Prod.ext ?_ rfl
  -- evaluators cannot be compared, but there is none here
  have h : ((findEvaluator Graph.sumWithProduct default 3).run.run variationReady).1.map (fun _ => ()) =
      .error (.error (.notReady "-v" (Pass.text default))) := by decide +kernel
  revert h
  cases ((findEvaluator Graph.sumWithProduct default 3).run.run variationReady).1 with
  | ok e => simp [Except.map]
  | error e => simp [Except.map]

/-- The failure has told the derivatives of `v` apart, which is ready. -/
theorem leftByFailure_variationReady :
    Graph.sumWithProduct.Built ∧ variationReady.Reachable Graph.sumWithProduct ∧
    3 < Graph.sumWithProduct.size ∧
    (findEvaluator Graph.sumWithProduct default 3).run.run variationReady =
      (.error (.error (.notReady "-v" (Pass.text default))), negationFailed) ∧
    ToldApartSince 0 variationReady negationFailed 1 1 ∧
    LeftByFailure Graph.sumWithProduct default 3 (.error (.notReady "-v" (Pass.text default))) variationReady
      negationFailed := by
  have hsize : 3 < Graph.sumWithProduct.size := by decide
  refine ⟨Graph.built_sumWithProduct, reachable_variationReady, hsize, run_negationFailed,
    ⟨by decide +kernel, by decide +kernel⟩, ?_⟩
  exact leftByFailure Graph.built_sumWithProduct reachable_variationReady default hsize run_negationFailed

/-- The failure leaves a trace: a demand on `v` that would be determined without it is refused. -/
theorem not_same_after_failure : Graph.sumWithProduct.Built ∧ variationReady.Reachable Graph.sumWithProduct ∧
    (findEvaluator Graph.sumWithProduct default 3).run.run variationReady =
      (.error (.error (.notReady "-v" (Pass.text default))), negationFailed) ∧
    ((require Graph.sumWithProduct default 1 [∅, {.ofAtom (.functional 7 .value)}]).run.run variationReady).1 =
      .ok () ∧
    ((require Graph.sumWithProduct default 1 [∅, {.ofAtom (.functional 7 .value)}]).run.run negationFailed).1 =
      .error (.error (.grewAfterClassification "v" (Pass.text default) 1)) ∧
    replies Graph.sumWithProduct [(default, .require 1 [∅, {.ofAtom (.functional 7 .value)}])] negationFailed ≠
      replies Graph.sumWithProduct [(default, .require 1 [∅, {.ofAtom (.functional 7 .value)}])]
        variationReady := by
  refine ⟨Graph.built_sumWithProduct, reachable_variationReady, run_negationFailed, by decide +kernel,
    by decide +kernel, fun h => ?_⟩
  have hok := congrArg (List.map fun reply => reply.2.isOk) h
  revert hok
  decide +kernel

end FormSparsity.Session

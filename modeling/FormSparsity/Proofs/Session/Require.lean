import FormSparsity.Proofs.Session.Visit

/-!
Determining required sets in a consistent session. By induction over the graph, demand on a node determines
required sets there and below, and keeps the session consistent, also if it fails below the node
(`ends_require`): all that is demanded gets required, and nothing gets required but what is demanded.
-/
namespace FormSparsity

namespace Session

variable {g : Graph} {p : Pass} {q : PassId} {s s' s'' : Session} {n : NodeId} {k : Nat}
variable {calls calls' : List (NodeId × Demand)}

/-! ## How a visit fails -/

/-- What is added to required sets between two sessions is demanded by calls in one pass. -/
structure AddsOnly (g : Graph) (p : PassId) (calls : List (NodeId × Demand)) (s s' : Session) : Prop where
  required : ∀ q n k m, m ∈ s'.requiredSet q n k → m ∈ s.requiredSet q n k ∨ q = p ∧ g.Demanded calls n k m
  ready : ∀ q n, ⟨q, n⟩ ∈ s'.ready → ⟨q, n⟩ ∈ s.ready ∨ q = p ∧ g.IsVisited calls n

/-- Why the required sets that follow from calls cannot be determined: a derivative that is demanded is
missing where required derivatives were told apart, a call names no node, or a symbolic function is
evaluated at a node that does not exist. -/
inductive Refuses (g : Graph) (p : Pass) (calls : List (NodeId × Demand)) (s : Session) :
    Fault AnalysisError → Prop
  | grew {n k m} : s.isClassified p.id n k = true → g.Demanded calls n k m → m ∉ s.requiredSet p.id n k →
      Refuses g p calls s (.error (.grewAfterClassification (g.text n) p.text k))
  | noNode {call} (m : Misuse) : call ∈ calls → g.node? call.1 = none → Refuses g p calls s (.misuse m)
  | noPoint (m : Misuse) : ¬g.HasDiscretePoints → Refuses g p calls s (.misuse m)


theorem AddsOnly.of_looks (h : Looks s s') : AddsOnly g q calls s s' where
  required q' n k m hm := .inl (by rwa [← h.requiredSet])
  ready q' n hn := .inl (by rwa [← h.ready])

theorem AddsOnly.trans (h : AddsOnly g q calls s s') (h' : AddsOnly g q calls s' s'') :
    AddsOnly g q calls s s'' where
  required q' n k m hm := (h'.required q' n k m hm).elim (h.required q' n k m) .inr
  ready q' n hn := (h'.ready q' n hn).elim (h.ready q' n) .inr

theorem AddsOnly.of_calls (h : AddsOnly g q calls s s')
    (hvisited : ∀ call ∈ calls, g.IsVisited calls' call.1)
    (hcalls : ∀ n k m, g.Demanded calls n k m → g.Demanded calls' n k m) : AddsOnly g q calls' s s' where
  required q' n k m hm := (h.required q' n k m hm).imp_right fun h => ⟨h.1, hcalls n k m h.2⟩
  ready q' n hn := (h.ready q' n hn).imp_right fun h => ⟨h.1, h.2.trans hvisited⟩

/-- A refusal in a later session is one in the earlier session, also of calls that demand more. -/
theorem Refuses.of_determines {e : Fault AnalysisError} (h : Refuses g p calls s' e) (hd : Determines s s')
    (hnode : ∀ call ∈ calls, g.node? call.1 = none → ∃ call' ∈ calls', g.node? call'.1 = none)
    (hcalls : ∀ n k m, g.Demanded calls n k m → g.Demanded calls' n k m) : Refuses g p calls' s e := by
  cases h with
  | grew hc hm hr =>
    rw [hd.isClassified] at hc
    rw [hd.frozen _ _ _ hc] at hr
    exact .grew hc (hcalls _ _ _ hm) hr
  | noNode m hcall hn =>
    obtain ⟨call', hcall', hn'⟩ := hnode _ hcall hn
    exact .noNode m hcall' hn'
  | noPoint m hp => exact .noPoint m hp

theorem Refuses.of_looks {e : Fault AnalysisError} (h : Refuses g p calls s' e) (hl : Looks s s') :
    Refuses g p calls s e :=
  h.of_determines hl.determines (fun call hcall hn => ⟨call, hcall, hn⟩) fun _ _ _ hm => hm

/-! ## What a visit leaves behind -/

/-- What determining required sets leaves behind, whether it fails or not. -/
structure Progress (g : Graph) (p : PassId) (calls : List (NodeId × Demand)) (s s' : Session) : Prop where
  consistent : s'.Consistent g
  determines : s.Determines s'
  addsOnly : AddsOnly g p calls s s'

theorem Progress.refl (hs : s.Consistent g) : Progress g q calls s s := ⟨hs, .refl s, .of_looks (.refl s)⟩

theorem Progress.of_looks (hs : s'.Consistent g) (h : Looks s s') : Progress g q calls s s' :=
  ⟨hs, h.determines, .of_looks h⟩

theorem Progress.trans (h : Progress g q calls s s') (h' : Progress g q calls s' s'') :
    Progress g q calls s s'' :=
  ⟨h'.consistent, h.determines.trans h'.determines, h.addsOnly.trans h'.addsOnly⟩

theorem Progress.of_mem {demand : Demand} (h : Progress g q [(n, demand)] s s')
    (hcall : (n, demand) ∈ calls) :
    Progress g q calls s s' :=
  ⟨h.consistent, h.determines, h.addsOnly.of_calls (by simpa using ⟨_, hcall, .refl⟩)
    fun _ _ _ => Graph.Demanded.mono (by simpa using hcall)⟩

/-- Whether all nodes that are ready in a pass have answered a demand that covers some order. -/
def IsFed (s : Session) (p : PassId) : Prop := ∀ n, ⟨p, n⟩ ∈ s.ready → s.passed p n ≠ []

theorem IsFed.of_tellsApart (hs : s.IsFed q) (h : TellsApart s s') : s'.IsFed q := by
  intro n hn
  rw [passed, h.propagated]
  exact hs n (by rwa [← h.ready])

theorem IsFed.of_looks (hs : s.IsFed q) (h : Looks s s') : s'.IsFed q := hs.of_tellsApart h.tellsApart

theorem IsFed.of_adds {q' : PassId} {demand addition : Demand} (hs : s.IsFed q)
    (h : Adds q' n demand addition s s') (hd : demand ≠ []) : s'.IsFed q := by
  intro c hc
  rw [passed_eq, h.propagated]
  split
  · exact fun hnil => hd (Demand.merge_eq_nil.mp hnil).2
  · rename_i hne
    rw [← passed_eq]
    refine hs c (((h.ready _).mp hc).resolve_right ?_)
    rintro ⟨⟩
    exact hne rfl

/-- Whether demands on nodes are met: the nodes are ready and what is demanded of them is required. -/
def Provides (g : Graph) (p : PassId) (s : Session) (parts : List (NodeId × Demand)) : Prop :=
  ∀ c part, (c, part) ∈ parts → ⟨p, c⟩ ∈ s.ready ∧
    ∀ k m, m ∈ Demand.ofOrder part k → m ∈ g.nonzero c k → m ∈ s.requiredSet p c k

/-- If demands on all operands of a node are met, the operands are ready. -/
theorem Provides.operand_ready {node : Node} {demand : Demand} {parts : List (NodeId × Demand)}
    (h : Provides g q s parts) (hparts : g.PassesOn n node demand parts) {c : NodeId} (hc : c ∈ node.children) :
    ⟨q, c⟩ ∈ s.ready := by
  obtain ⟨part, hpart⟩ := hparts.exists_part c hc
  exact (h c part hpart).1

theorem Provides.of_determines {parts : List (NodeId × Demand)} (h : Provides g q s parts)
    (hd : Determines s s') :
    Provides g q s' parts := fun c part hpart =>
  ⟨hd.ready _ (h c part hpart).1, fun k m hm hw => hd.required _ _ _ _ ((h c part hpart).2 k m hm hw)⟩

/-- What determining required sets has done if it does not fail. -/
structure Meets (g : Graph) (p : PassId) (n : NodeId) (demand : Demand) (s s' : Session) : Prop where
  progress : Progress g p [(n, demand)] s s'
  provides : Provides g p s' [(n, demand)]
  fed : demand ≠ [] → s.IsFed p → s'.IsFed p

theorem Meets.of_looks {demand : Demand} (h : Meets g q n demand s' s'') (hs : s'.Consistent g)
    (hl : Looks s s') :
    Meets g q n demand s s'' :=
  ⟨(Progress.of_looks hs hl).trans h.progress, h.provides, fun hne hfed => h.fed hne (hfed.of_looks hl)⟩

theorem isVisited_self {demand : Demand} : g.IsVisited [(n, demand)] n :=
    ⟨_, List.mem_singleton_self _, .refl⟩

/-- What the parts of a demand demand is demanded by the whole. -/
theorem demanded_of_passesOn {node : Node} (hn : g.node? n = some node) {demand fresh : Demand}
    {parts : List (NodeId × Demand)} (h : g.PassesOn n node fresh parts)
    (hfresh : ∀ k m, m ∈ fresh.ofOrder k → m ∈ demand.ofOrder k) {c : NodeId} {part : Demand}
    (hpart : (c, part) ∈ parts) {c' : NodeId} {m : Mixed} (hm : g.Demanded [(c, part)] c' k m) :
    g.Demanded [(n, demand)] c' k m := by
  have hc : g.IsVisited [(n, demand)] c := isVisited_self.operand ⟨node, hn, h.mem_children c part hpart⟩
  refine hm.trans (by simpa using hc) fun c' part' k' m' hcall hm' hw => ?_
  obtain ⟨rfl, rfl⟩ : c' = c ∧ part' = part := by simpa using hcall
  rcases h.sound _ _ _ _ hpart hm' hw with ⟨j, r, hr, hrw, hasks⟩ | halways
  · exact .asked (.call (List.mem_singleton_self _) (hfresh j r hr) hrw) hasks
  · exact .always isVisited_self halways

/-- The second part of a visit: the operands are given what the node asks of them, if demand on them is
determined as it should be. -/
theorem ends_passOn (hg : g.WellFormed) (p : Pass) {node : Node} (hn : g.node? n = some node)
    {demand fresh : Demand} {parts : List (NodeId × Demand)} (h : g.PassesOn n node fresh parts)
    (hfresh : ∀ k m, m ∈ fresh.ofOrder k → m ∈ demand.ofOrder k)
    {operand : NodeId → Demand → AnalysisM Unit}
    (hoperand : ∀ c ∈ node.children, ∀ part s, s.Consistent g →
      Ends (operand c part) s (fun _ s' => Meets g p.id c part s s')
        (fun e s' => Refuses g p [(c, part)] s e ∧ Progress g p.id [(c, part)] s s'))
    (hs : s.Consistent g) :
    Ends (parts.forM fun (c, part) => operand c part) s
      (fun _ s' => Progress g p.id [(n, demand)] s s' ∧ (fresh ≠ [] → s.IsFed p.id → s'.IsFed p.id) ∧
        Provides g p.id s' parts)
      (fun e s' => Refuses g p [(n, demand)] s e ∧ Progress g p.id [(n, demand)] s s') := by
  have hprogress : ∀ {c part} {s' s'' : Session}, (c, part) ∈ parts → Progress g p.id [(c, part)] s' s'' →
      Progress g p.id [(n, demand)] s' s'' := by
    intro c part s' s'' hpart hp
    have hc : g.IsVisited [(n, demand)] c := isVisited_self.operand ⟨node, hn, h.mem_children c part hpart⟩
    exact ⟨hp.consistent, hp.determines, hp.addsOnly.of_calls (by simpa using hc)
      fun _ _ _ => demanded_of_passesOn hn h hfresh hpart⟩
  refine Ends.forM (fun done s' => Progress g p.id [(n, demand)] s s' ∧
    (fresh ≠ [] → s.IsFed p.id → s'.IsFed p.id) ∧ Provides g p.id s' done)
    (fun done b hb s' hdone => ?_) ⟨.refl hs, fun _ => id, by simp [Provides]⟩
  obtain ⟨c, part⟩ := b
  obtain ⟨hp, hfed, hdone⟩ := hdone
  refine (hoperand c (h.mem_children c part hb) part s' hp.consistent).mono (fun _ s'' hm => ?_)
    fun e s'' he => ?_
  · have hp' := hprogress hb hm.progress
    refine ⟨hp.trans hp', fun hne hs => hm.fed (h.ne_nil c part hne hb) (hfed hne hs), fun c' part' hpart => ?_⟩
    rcases List.mem_append.mp hpart with hpart | hpart
    · exact hdone.of_determines hp'.determines c' part' hpart
    · obtain ⟨rfl, rfl⟩ : c' = c ∧ part' = part := by simpa using hpart
      exact hm.provides _ _ (List.mem_singleton_self _)
  · obtain ⟨he, hp'⟩ := he
    obtain ⟨child, hchild⟩ := hg.node?_child hn (h.mem_children c part hb)
    refine ⟨he.of_determines hp.determines (by simp [hchild]) fun _ _ _ => ?_, hp.trans (hprogress hb hp')⟩
    exact demanded_of_passesOn hn h hfresh hb

/-- The last part of a visit: once the operands are provided for, what was accepted is required. -/
theorem Progress.meets {node : Node} (hn : g.node? n = some node) (hs : s.Consistent g)
    {demand fresh : Demand}
    (hfresh : s.unpropagated ⟨q, n⟩ demand = some fresh) {parts : List (NodeId × Demand)}
    (hparts : g.PassesOn n node fresh parts)
    (hguard : ∀ k, s.isClassified q n k = true →
      ∀ m ∈ (g.accepted n fresh).ofOrder k, m ∈ s.requiredSet q n k)
    (hp : Progress g q [(n, demand)] s s') (hprovides : Provides g q s' parts)
    (hfed : fresh ≠ [] → s.IsFed q → s'.IsFed q) (hadds : Adds q n fresh (g.accepted n fresh) s' s'') :
    Meets g q n demand s s'' := by
  obtain ⟨hlength, hsub, hall⟩ := unpropagated_eq_some hfresh
  have hguard' : ∀ k, s'.isClassified q n k = true →
      ∀ m ∈ (g.accepted n fresh).ofOrder k, m ∈ s'.requiredSet q n k := fun k hc m hm =>
    hp.determines.required _ _ _ _ (hguard k (by rwa [← hp.determines.isClassified]) m hm)
  have hconsistent : s''.Consistent g := by
    refine hadds.consistent hp.consistent hn hguard' (fun c hc => ?_) (fun j r c k m hr hw hasks => ?_)
      fun c k m hne hasks => ?_
    · exact hprovides.operand_ready hparts hc
    · obtain ⟨part, hpart, hm⟩ := hparts.complete j r c k m hr hw hasks
      exact (hprovides c part hpart).2 k m hm hasks.mem_nonzero
    · obtain ⟨part, hpart, hm⟩ := hparts.complete_always c k m hne hasks
      exact (hprovides c part hpart).2 k m hm hasks.mem_nonzero
  have hdetermines := hp.determines.trans (hadds.determines hguard')
  refine ⟨⟨hconsistent, hdetermines, hp.addsOnly.trans ⟨fun q' c k m hm => ?_, fun q' c hc => ?_⟩⟩,
    fun c part hpart => ?_, fun hd hs => ?_⟩
  · refine ((hadds.required q' c k m).mp hm).imp_right fun h => ⟨h.1.1, ?_⟩
    obtain ⟨⟨-, rfl⟩, hm⟩ := h
    obtain ⟨hm, hw⟩ := Graph.mem_ofOrder_accepted.mp hm
    exact .call (List.mem_singleton_self _) (hsub k m hm) hw
  · refine ((hadds.ready _).mp hc).imp_right fun h => ?_
    cases h
    exact ⟨rfl, isVisited_self⟩
  · obtain ⟨rfl, rfl⟩ : c = n ∧ part = demand := by simpa using hpart
    refine ⟨(hadds.ready _).mpr (.inr rfl), fun k m hm hw => ?_⟩
    rcases hall k m hm with hm | hm
    · exact (hadds.required _ _ _ _).mpr (.inr ⟨⟨rfl, rfl⟩, Graph.mem_ofOrder_accepted.mpr ⟨hm, hw⟩⟩)
    · exact hdetermines.required _ _ _ _ ((hs.mem_required _ _ _ _).mpr ⟨hm, hw⟩)
  · have hne : fresh ≠ [] := by
      rwa [← List.length_pos_iff, hlength, List.length_pos_iff]
    exact (hfed hne hs).of_adds hadds hne

/-- A visit of a node, from the acceptance of demand on: `demand` is determined for the node if demand is
determined for its operands. -/
theorem ends_visit (hg : g.WellFormed) (p : Pass) {node : Node} (hn : g.node? n = some node)
    (hs : s.Consistent g) {demand fresh : Demand} (hfresh : s.unpropagated ⟨p.id, n⟩ demand = some fresh)
    (operand : NodeId → Demand → AnalysisM Unit)
    (hoperand : ∀ c ∈ node.children, ∀ part s, s.Consistent g →
      Ends (operand c part) s (fun _ s' => Meets g p.id c part s s')
        (fun e s' => Refuses g p [(c, part)] s e ∧ Progress g p.id [(c, part)] s s')) :
    Ends (visit g p n operand fresh) s (fun _ s' => Meets g p.id n demand s s')
      (fun e s' => Refuses g p [(n, demand)] s e ∧ Progress g p.id [(n, demand)] s s') := by
  have hsub := (unpropagated_eq_some hfresh).2.1
  refine ends_visit_of_parts hg p hs hn (fun k s' hk hs' hl => ?_) fun parts s₁ hnone _ hparts hs₁ hl₁ => ?_
  · obtain ⟨hc, m, hm, hw, hr⟩ := refusedOrder_eq_some hk
    exact ⟨.grew hc (.call (List.mem_singleton_self _) (hsub k m hm) hw) hr, .of_looks hs' hl⟩
  · have hp₁ : Progress g p.id [(n, demand)] s s₁ := .of_looks hs₁ hl₁
    refine (ends_passOn hg p hn hparts hsub hoperand hs₁).mono (fun _ s₂ h => ?_)
      fun e s₂ h => ⟨h.1.of_looks hl₁, hp₁.trans h.2⟩
    obtain ⟨hp₂, hfed, hprovides⟩ := h
    refine ⟨hp₂.consistent, fun c part hpart => (hprovides c part hpart).1, fun s₃ hs₃ hl₃ => ?_⟩
    have hp₃ := (hp₁.trans hp₂).trans (.of_looks hs₃ hl₃)
    refine ⟨fun s₄ hadds => ?_, fun hpoints m => ⟨.noPoint m hpoints, hp₃⟩⟩
    exact hp₃.meets hn hs hfresh hparts (fun _ => refusedOrder_eq_none hnone)
      (hprovides.of_determines hl₃.determines) (fun hne hs => (hfed hne (hs.of_looks hl₁)).of_looks hl₃) hadds

/-- A node that does not exist is a misuse at the latest when the demand has been accepted. -/
theorem ends_prepare_of_none (hg : g.WellFormed) (p : Pass) (hs : s.Consistent g) (hn : g.node? n = none)
    (fresh : Demand) :
    Ends (prepare g p n fresh) s (fun _ _ => False)
      fun e s' => (∃ m, e = .misuse m) ∧ s'.Consistent g ∧ Looks s s' := by
  rw [prepare, ends_bind]
  refine Ends.mono (Ends.mapM (fun s' => s'.Consistent g ∧ Looks s s') (fun _ => True)
    (fun b => b.1 ∩ g.nonzero n b.2) (fun b _ s' h => ?_) ⟨hs, .refl s⟩) (fun _ s' h => ?_) fun _ _ he => he
  · obtain ⟨demanded, k⟩ := b
    refine (ends_accept hg p h.1 n k demanded).mono (fun set s'' h' => ?_) fun e s'' h' => ?_
    · exact ⟨h'.1, trivial, h'.2.2.1, h.2.trans h'.2.2.2⟩
    · obtain ⟨⟨m, rfl, -⟩ | ⟨-, hrefuses⟩, hs'', hl⟩ := h'
      · exact ⟨⟨m, rfl⟩, hs'', h.2.trans hl⟩
      · obtain ⟨-, m, -, hw, -⟩ := refuses_iff.mp hrefuses
        simp [Graph.nonzero_of_node?_eq_none hn] at hw
  · rw [ends_bind, ends_checked, Graph.node_eq_error hn]
    exact ⟨fun node h => (by cases h), fun m _ => ⟨⟨m, rfl⟩, h.2.2⟩⟩

/-- Demand on a node that does not exist is a misuse, and finds nonzero sets at most. -/
theorem ends_require_of_none (hg : g.WellFormed) (p : Pass) (hs : s.Consistent g) (hn : g.node? n = none)
    (demand : Demand) :
    Ends (require g p n demand) s (fun _ _ => False)
      fun e s' => (∃ m, e = .misuse m) ∧ s'.Consistent g ∧ Looks s s' := by
  refine ends_require_of_visit (fun hseen => ?_) (fun _ m => ⟨⟨m, rfl⟩, hs, .refl s⟩) fun fresh j _ => ?_
  · obtain ⟨node, hnode⟩ := hs.exists_node _ _ ((hs.ready_iff _ _).mpr (unpropagated_eq_none_iff.mp hseen).1)
    simp [hn] at hnode
  · rw [visit_eq, ends_bind]
    exact (ends_prepare_of_none hg p (hs.journal j) hn fresh).mono (fun _ _ h => h.elim) fun _ _ h =>
      ⟨h.1, h.2.1, (looks_journal s j).trans h.2.2⟩

/-- **Demand determines required sets.** In a consistent session, a demand on a node either makes the
nodes from there on downwards ready, with all that is demanded of them required, or it is refused. In
both cases the session stays consistent, and nothing gets required but what is demanded. -/
theorem ends_require (hg : g.WellFormed) (p : Pass) (hs : s.Consistent g) (n : NodeId) (demand : Demand) :
    Ends (require g p n demand) s (fun _ s' => Meets g p.id n demand s s')
      (fun e s' => Refuses g p [(n, demand)] s e ∧ Progress g p.id [(n, demand)] s s') := by
  induction n using Nat.strongRecOn generalizing s demand with
  | ind n ih =>
    cases hn : g.node? n with
    | none =>
      refine (ends_require_of_none hg p hs hn demand).mono (fun _ _ h => h.elim) fun e s' h => ?_
      obtain ⟨⟨m, rfl⟩, hs', hl⟩ := h
      exact ⟨.noNode m (List.mem_singleton_self _) hn, .of_looks hs' hl⟩
    | some node =>
      refine ends_require_of_visit (fun hnone => ?_) (by simp [hn]) fun fresh j hsome => ?_
      · obtain ⟨hseen, -, hall⟩ := unpropagated_eq_none_iff.mp hnone
        refine ⟨.refl hs, fun c part hpart => ?_, fun _ => id⟩
        obtain ⟨rfl, rfl⟩ : c = n ∧ part = demand := by simpa using hpart
        exact ⟨(hs.ready_iff _ _).mpr hseen, fun k m hm hw => (hs.mem_required _ _ _ _).mpr ⟨hall k m hm, hw⟩⟩
      · have hl := looks_journal s j
        refine (ends_visit hg p hn (hs.journal j) hsome
          (fun c => if c < n then require g p c else fun _ => unorderedNode g c)
          fun c hc part s hs => ?_).mono (fun _ s' h => h.of_looks (hs.journal j) hl)
          fun e s' h => ⟨h.1.of_looks hl, (Progress.of_looks (hs.journal j) hl).trans h.2⟩
        have hlt : c < n := hg.child_lt n node hn c hc
        rw [if_pos hlt]
        exact ih c hlt hs part

/-! ## Several demands -/

/-- Determines the required sets that follow from demands on nodes, one demand after the other. -/
def requireAll (g : Graph) (p : Pass) (calls : List (NodeId × Demand)) : AnalysisM Unit :=
  calls.forM fun (n, demand) => require g p n demand

/-- One more demand that is met, after others. -/
theorem Progress.append {done : List (NodeId × Demand)} {demand : Demand} (hcall : (n, demand) ∈ calls)
    (hp : Progress g q calls s s') (hprovides : Provides g q s' done) (hm : Meets g q n demand s' s'') :
    Progress g q calls s s'' ∧ Provides g q s'' (done ++ [(n, demand)]) := by
  refine ⟨hp.trans (hm.progress.of_mem hcall), fun c part hpart => ?_⟩
  rcases List.mem_append.mp hpart with hpart | hpart
  · exact hprovides.of_determines hm.progress.determines c part hpart
  · exact hm.provides c part hpart

/-- The failure of one more demand, after others that were met, is a failure of all. -/
theorem Progress.refuses {demand : Demand} {e : Fault AnalysisError} (hcall : (n, demand) ∈ calls)
    (hp : Progress g p.id calls s s')
    (he : Refuses g p [(n, demand)] s' e ∧ Progress g p.id [(n, demand)] s' s'') :
    Refuses g p calls s e ∧ Progress g p.id calls s s'' := by
  refine ⟨he.1.of_determines hp.determines (fun call hc hn => ⟨call, ?_, hn⟩) fun _ _ _ => ?_,
    hp.trans (he.2.of_mem hcall)⟩
  · rwa [List.mem_singleton.mp hc]
  · exact Graph.Demanded.mono (by simpa using hcall)

/-- **Demands determine required sets** one after the other as each of them does. -/
theorem ends_requireAll (hg : g.WellFormed) (p : Pass) (hs : s.Consistent g)
    (calls : List (NodeId × Demand)) :
    Ends (requireAll g p calls) s
      (fun _ s' => Progress g p.id calls s s' ∧ Provides g p.id s' calls ∧
        ((∀ call ∈ calls, call.2 ≠ []) → s.IsFed p.id → s'.IsFed p.id))
      (fun e s' => Refuses g p calls s e ∧ Progress g p.id calls s s') := by
  refine Ends.forM (fun done s' => Progress g p.id calls s s' ∧ Provides g p.id s' done ∧
    ((∀ call ∈ calls, call.2 ≠ []) → s.IsFed p.id → s'.IsFed p.id))
    (fun done b hb s' hdone => ?_) ⟨.refl hs, by simp [Provides], fun _ => id⟩
  obtain ⟨n, demand⟩ := b
  obtain ⟨hp, hprovides, hfed⟩ := hdone
  refine (ends_require hg p hp.consistent n demand).mono (fun _ s'' hm => ?_) fun e s'' he =>
    hp.refuses hb he
  obtain ⟨hp', hprovides'⟩ := hp.append hb hprovides hm
  exact ⟨hp', hprovides', fun hne hs => hm.fed (hne _ hb) (hfed hne hs)⟩

/-- In a pass in which no node is ready, what is refused lacks a node or a discrete function. -/
theorem Refuses.lacks (hs : s.Consistent g) (hfresh : ∀ n, ⟨p.id, n⟩ ∉ s.ready) {e : Fault AnalysisError}
    (h : Refuses g p calls s e) :
    (∃ m, e = .misuse m) ∧ ((∃ call ∈ calls, g.node? call.1 = none) ∨ ¬g.HasDiscretePoints) := by
  cases h with
  | grew hc hm _ =>
    exact absurd (hs.ready_of_isClassified (Graph.le_maxOrder_of_mem_nonzero hm.mem_nonzero) hc) (hfresh _)
  | noNode m hcall hn => exact ⟨⟨m, rfl⟩, .inl ⟨_, hcall, hn⟩⟩
  | noPoint m hp => exact ⟨⟨m, rfl⟩, .inr hp⟩

/-- Nothing is refused in a pass in which no node is ready, if the nodes exist and symbolic functions are
evaluated at discrete functions. -/
theorem not_refuses (hs : s.Consistent g) (hfresh : ∀ n, ⟨p.id, n⟩ ∉ s.ready)
    (hpoints : g.HasDiscretePoints)
    (hnode : ∀ call ∈ calls, ∃ node, g.node? call.1 = some node) {e : Fault AnalysisError} :
    ¬Refuses g p calls s e := by
  intro h
  rcases (h.lacks hs hfresh).2 with ⟨call, hcall, hn⟩ | hp
  · obtain ⟨node, hnode⟩ := hnode _ hcall
    simp [hnode] at hn
  · exact hp hpoints

end Session

end FormSparsity

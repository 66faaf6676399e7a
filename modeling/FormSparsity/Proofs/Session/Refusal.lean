import FormSparsity.Proofs.Session.Runs

/-!
Refused demand. Once required derivatives of a node were told apart, demand that would require others of it
is refused, which may happen below the node that it was made on when much has been determined already. What
was determined before stays, and has been passed on (`ends_require_passesMore`). So the same demand takes the
same way again, and is refused in the same place (`ends_require_again`). Above that place nothing changes, and
below it required sets have only grown (`leftByRefusal`).
-/
namespace FormSparsity

namespace Session

variable {g : Graph} {p : Pass} {q : PassId} {s s' s'' : Session} {n : NodeId} {k : Nat}
variable {demand fresh : Demand}

/-! ## Determining a demand by its parts -/

/-- What a visit passes on to the operands is determined one part after the other. -/
theorem forM_operand (hg : g.WellFormed) (p : Pass) {node : Node} (hn : g.node? n = some node)
    {parts : List (NodeId × Demand)} (hparts : g.PassesOn n node fresh parts) :
    (parts.forM fun (c, part) => (if c < n then require g p c else fun _ => unorderedNode g c) part) =
      requireAll g p parts := by
  refine forM_congr fun (c, part) hpart => ?_
  dsimp only
  rw [if_pos (hg.child_lt n node hn c (hparts.mem_children c part hpart))]

/-- **A demand is determined by its parts.** Demand on a node that exists was passed on before, or it is
refused at once, or what is left of it is passed on to the operands in parts; once these are determined, what
was accepted gets required, unless there is no discrete function to ask for samples. -/
theorem ends_require_by_parts (hg : g.WellFormed) (p : Pass) (hs : s.Consistent g) {node : Node}
    (hn : g.node? n = some node) {ok : Unit → Session → Prop} {err : Fault AnalysisError → Session → Prop}
    (hseen : s.unpropagated ⟨p.id, n⟩ demand = none → ok () s)
    (hrefused : ∀ fresh k s', s.unpropagated ⟨p.id, n⟩ demand = some fresh →
      refusedOrder g p.id s n fresh = some k → s'.Consistent g → Looks s s' →
      err (.error (.grewAfterClassification (g.text n) p.text k)) s')
    (hparts : ∀ fresh parts s', s.unpropagated ⟨p.id, n⟩ demand = some fresh →
      refusedOrder g p.id s n fresh = none →
      (node.demand g fresh (g.accepted n fresh)).value g.nonzeroAt = .ok parts →
      g.PassesOn n node fresh parts → s'.Consistent g → Looks s s' →
      Ends (requireAll g p parts) s' (fun _ s₁ => ∀ s₂, s₂.Consistent g → Looks s₁ s₂ →
        (∀ s₃, Adds p.id n fresh (g.accepted n fresh) s₂ s₃ → ok () s₃) ∧
        (¬g.HasDiscretePoints → ∀ m, err (.misuse m) s₂)) err) :
    Ends (require g p n demand) s ok err := by
  refine ends_require_of_visit hseen (by simp [hn]) fun fresh j hfresh => ?_
  have hl := looks_journal s j
  have hsame : refusedOrder g p.id { s with journal := j } n fresh = refusedOrder g p.id s n fresh :=
    (SameAt.of_looks hl).refusedOrder_eq fresh
  refine ends_visit_of_parts hg p (hs.journal j) hn (fun k s' hk hs' hl' => ?_)
    fun parts s₁ hnone hvalue hpasses hs₁ hl₁ => ?_
  · exact hrefused fresh k s' hfresh (hsame.symm.trans hk) hs' (hl.trans hl')
  · rw [forM_operand hg p hn hpasses]
    refine ((ends_requireAll hg p hs₁ parts).and (hparts fresh parts s₁ hfresh (hsame.symm.trans hnone) hvalue
      hpasses hs₁ (hl.trans hl₁))).mono (fun _ s₂ h => ?_) fun _ _ h => h.2
    obtain ⟨⟨hp, hprovides, -⟩, hrest⟩ := h
    exact ⟨hp.consistent, fun c part hpart => (hprovides c part hpart).1, hrest⟩

/-- If all symbolic functions are evaluated at discrete functions, a visit that has determined its parts does
not fail any more. -/
theorem ends_require_of_parts (hg : g.WellFormed) (hpoints : g.HasDiscretePoints) (p : Pass)
    (hs : s.Consistent g) {node : Node} (hn : g.node? n = some node) {ok : Unit → Session → Prop}
    {err : Fault AnalysisError → Session → Prop}
    (hseen : s.unpropagated ⟨p.id, n⟩ demand = none → ok () s)
    (hrefused : ∀ fresh k s', s.unpropagated ⟨p.id, n⟩ demand = some fresh →
      refusedOrder g p.id s n fresh = some k → s'.Consistent g → Looks s s' →
      err (.error (.grewAfterClassification (g.text n) p.text k)) s')
    (hparts : ∀ fresh parts s', s.unpropagated ⟨p.id, n⟩ demand = some fresh →
      refusedOrder g p.id s n fresh = none →
      (node.demand g fresh (g.accepted n fresh)).value g.nonzeroAt = .ok parts →
      g.PassesOn n node fresh parts → s'.Consistent g → Looks s s' →
      Ends (requireAll g p parts) s' (fun _ s₁ => ∀ s₂ s₃, Looks s₁ s₂ →
        Adds p.id n fresh (g.accepted n fresh) s₂ s₃ → ok () s₃) err) :
    Ends (require g p n demand) s ok err :=
  ends_require_by_parts hg p hs hn hseen hrefused fun fresh parts s' hfresh hnone hvalue hpasses hs' hl =>
    (hparts fresh parts s' hfresh hnone hvalue hpasses hs' hl).mono
      (fun _ _ hadds s₂ _ hl₂ => ⟨fun s₃ h => hadds s₂ s₃ hl₂ h, fun hnot => absurd hpoints hnot⟩) fun _ _ he => he

/-! ## What nodes have passed on -/

/-- Whether nodes have passed on no less in the second session, and nothing new but in one pass and from
demands on downwards. -/
structure PassesMore (g : Graph) (q : PassId) (calls : List (NodeId × Demand)) (s s' : Session) : Prop where
  seen : ∀ key demand, s.unpropagated key demand = none → s'.unpropagated key demand = none
  elsewhere : ∀ q' c, ¬(q' = q ∧ g.IsVisited calls c) →
    s'.propagated[(⟨q', c⟩ : NodeKey)]? = s.propagated[(⟨q', c⟩ : NodeKey)]?
  fed : (∀ call ∈ calls, call.2 ≠ []) → ∀ q', s.IsFed q' → s'.IsFed q'

variable {calls calls' : List (NodeId × Demand)}

theorem PassesMore.of_looks (h : Looks s s') : PassesMore g q calls s s' where
  seen key demand hseen := by rwa [unpropagated, h.propagated]
  elsewhere q' c _ := by rw [h.propagated]
  fed _ _ hs := hs.of_looks h

theorem PassesMore.trans (h : PassesMore g q calls s s') (h' : PassesMore g q calls s' s'') :
    PassesMore g q calls s s'' where
  seen key demand hseen := h'.seen key demand (h.seen key demand hseen)
  elsewhere q' c hc := (h'.elsewhere q' c hc).trans (h.elsewhere q' c hc)
  fed hne q' hs := h'.fed hne q' (h.fed hne q' hs)

theorem PassesMore.of_calls (h : PassesMore g q calls s s')
    (hvisited : ∀ call ∈ calls, g.IsVisited calls' call.1)
    (hne : (∀ call ∈ calls', call.2 ≠ []) → ∀ call ∈ calls, call.2 ≠ []) : PassesMore g q calls' s s' where
  seen := h.seen
  elsewhere q' c hc := h.elsewhere q' c fun hvisit => hc ⟨hvisit.1, hvisit.2.trans hvisited⟩
  fed hne' := h.fed (hne hne')

theorem PassesMore.of_mem (h : PassesMore g q [(n, demand)] s s') (hcall : (n, demand) ∈ calls) :
    PassesMore g q calls s s' :=
  h.of_calls (by simpa using ⟨_, hcall, .refl⟩) (by simpa using fun hne => hne _ _ hcall)

theorem Adds.passed_eq {addition : Demand} (hadds : Adds q n fresh addition s s') :
    s'.passed q n = (s.passed q n).merge fresh := by
  rw [Session.passed_eq, hadds.propagated, if_pos rfl, Option.getD_some]

/-- What a node has passed on after a visit is enough for all that was passed on before, and for the demand
of which a part was left over. -/
theorem Adds.unpropagated_eq_none {addition : Demand} (hadds : Adds q n fresh addition s s')
    (hlength : demand.length ≤ max (s.passed q n).length fresh.length)
    (hsub : ∀ k m, m ∈ demand.ofOrder k → m ∈ (s.passed q n).ofOrder k ∨ m ∈ fresh.ofOrder k) :
    s'.unpropagated ⟨q, n⟩ demand = none := by
  rw [unpropagated_eq_none_iff, hadds.passed_eq, Demand.length_merge]
  refine ⟨⟨_, (hadds.propagated _).trans (if_pos rfl)⟩, hlength, fun k m hm => ?_⟩
  exact Demand.mem_ofOrder_merge.mpr (hsub k m hm)

theorem Adds.passesMore {addition : Demand} (hadds : Adds q n fresh addition s s')
    (hlength : fresh.length = demand.length) : PassesMore g q [(n, demand)] s s' where
  seen key d hseen := by
    obtain ⟨q', c⟩ := key
    by_cases hkey : (⟨q, n⟩ : NodeKey) = ⟨q', c⟩
    · cases hkey
      obtain ⟨-, hlen, hsub⟩ := unpropagated_eq_none_iff.mp hseen
      exact hadds.unpropagated_eq_none (by omega) fun k m hm => .inl (hsub k m hm)
    · rwa [unpropagated, hadds.propagated, if_neg hkey]
  elsewhere q' c hc := by
    rw [hadds.propagated, if_neg]
    rintro ⟨⟩
    exact hc ⟨rfl, isVisited_self⟩
  fed hne _ hs := by
    refine hs.of_adds hadds ?_
    rw [← List.length_pos_iff, hlength, List.length_pos_iff]
    exact hne (n, demand) (List.mem_singleton_self _)

/-- The parts of a demand visit no node but those below. -/
theorem transGen_of_passesOn {node : Node} (hn : g.node? n = some node) {parts : List (NodeId × Demand)}
    (hpasses : g.PassesOn n node fresh parts) {c : NodeId} (hc : g.IsVisited parts c) :
    Relation.TransGen g.IsOperand n c := by
  obtain ⟨⟨top, part⟩, hpart, htop⟩ := hc
  exact .head' ⟨node, hn, hpasses.mem_children top part hpart⟩ htop

/-- While the parts of a demand are determined, nothing changes at the node. -/
theorem SameAt.of_parts (hg : g.WellFormed) {node : Node} (hn : g.node? n = some node)
    {parts : List (NodeId × Demand)} (hpasses : g.PassesOn n node fresh parts) (hp : Progress g q parts s s')
    (hmore : PassesMore g q parts s s') : SameAt q n s s' := by
  have hn' : ¬g.IsVisited parts n := fun h =>
    Nat.lt_irrefl n (hg.lt_of_transGen (transGen_of_passesOn hn hpasses h))
  refine ⟨fun k => Std.ExtTreeSet.ext_mem fun m => ⟨fun hm => ?_, hp.determines.required q n k m⟩,
    fun k => hp.determines.isClassified, hmore.elsewhere q n fun h => hn' h.2⟩
  exact (hp.addsOnly.required q n k m hm).resolve_right fun h => hn' h.2.isVisited

/-- **What nodes have passed on only grows,** whether a demand is determined or refused. A demand that was
determined has been passed on as a whole. -/
theorem ends_require_passesMore (hg : g.WellFormed) (p : Pass) (hs : s.Consistent g) (n : NodeId)
    (demand : Demand) :
    Ends (require g p n demand) s
      (fun _ s' => PassesMore g p.id [(n, demand)] s s' ∧ s'.unpropagated ⟨p.id, n⟩ demand = none)
      (fun _ s' => PassesMore g p.id [(n, demand)] s s') := by
  induction n using Nat.strongRecOn generalizing s demand with
  | ind n ih =>
    cases hn : g.node? n with
    | none =>
      exact (ends_require_of_none hg p hs hn demand).mono (fun _ _ h => h.elim) fun _ _ h => .of_looks h.2.2
    | some node =>
      refine ends_require_by_parts hg p hs hn (fun hseen => ⟨.of_looks (.refl s), hseen⟩)
        (fun _ _ _ _ _ _ hl => .of_looks hl) fun fresh parts s₁ hfresh _ _ hpasses hs₁ hl => ?_
      obtain ⟨hlength, -, hall⟩ := unpropagated_eq_some hfresh
      have hcalls : ∀ {s'}, PassesMore g p.id parts s₁ s' → PassesMore g p.id [(n, demand)] s s' := by
        intro s' h
        refine (PassesMore.of_looks hl).trans (h.of_calls (fun call hcall => ?_) fun hne call hcall => ?_)
        · exact isVisited_self.operand ⟨node, hn, hpasses.mem_children _ _ hcall⟩
        · refine hpasses.ne_nil call.1 call.2 ?_ hcall
          rw [← List.length_pos_iff, hlength, List.length_pos_iff]
          exact hne _ (List.mem_singleton_self _)
      refine ((ends_requireAll hg p hs₁ parts).and (Ends.forM
        (fun _ s' => s'.Consistent g ∧ PassesMore g p.id parts s₁ s') (E := fun _ s' =>
          PassesMore g p.id parts s₁ s') (fun _ b hb s' h => ?_) ⟨hs₁, .of_looks (.refl s₁)⟩)).mono
        (fun _ s₂ h s₃ _ hl' => ⟨fun s₄ hadds => ?_, fun _ _ => (hcalls h.2.2).trans (.of_looks hl')⟩)
        fun _ s₂ h => hcalls h.2
      · obtain ⟨c, part⟩ := b
        obtain ⟨hs', hmore⟩ := h
        have hchild := hpasses.mem_children c part hb
        refine ((ends_require hg p hs' c part).and
          (ih c (hg.child_lt n node hn c hchild) hs' part)).mono
          (fun _ s'' h => ?_) fun _ s'' h => ?_
        · exact ⟨h.1.progress.consistent, hmore.trans (h.2.1.of_mem hb)⟩
        · exact hmore.trans (h.2.of_mem hb)
      · obtain ⟨⟨hp, -⟩, -, hmore⟩ := h
        have hsame : SameAt p.id n s s₃ :=
          ((SameAt.of_looks hl).trans (.of_parts hg hn hpasses hp hmore)).trans (.of_looks hl')
        refine ⟨((hcalls hmore).trans (.of_looks hl')).trans (hadds.passesMore hlength), ?_⟩
        refine hadds.unpropagated_eq_none (by omega) fun k m hm => ?_
        rw [passed_eq, hsame.propagated, ← passed_eq]
        exact (hall k m hm).symm

/-- Several demands, too, only add to what nodes have passed on. -/
theorem ends_requireAll_passesMore (hg : g.WellFormed) (p : Pass) (hs : s.Consistent g)
    (calls : List (NodeId × Demand)) :
    Ends (requireAll g p calls) s (fun _ s' => PassesMore g p.id calls s s')
      (fun _ s' => PassesMore g p.id calls s s') := by
  refine (Ends.forM (fun _ s' => s'.Consistent g ∧ PassesMore g p.id calls s s')
    (E := fun _ s' => PassesMore g p.id calls s s') (fun _ b hb s' h => ?_) ⟨hs, .of_looks (.refl s)⟩).mono
    (fun _ _ h => h.2) fun _ _ h => h
  obtain ⟨c, part⟩ := b
  refine ((ends_require hg p h.1 c part).and (ends_require_passesMore hg p h.1 c part)).mono
    (fun _ s'' h' => ?_) fun _ s'' h' => h.2.trans (h'.2.of_mem hb)
  exact ⟨h'.1.progress.consistent, h.2.trans (h'.2.1.of_mem hb)⟩

/-! ## Failing again -/

theorem ends_require_of_seen {ok : Unit → Session → Prop} {err : Fault AnalysisError → Session → Prop}
    (hseen : s.unpropagated ⟨p.id, n⟩ demand = none) (h : ok () s) : Ends (require g p n demand) s ok err := by
  rw [require, recurse_eq, ends_bind, ends_get, hseen]
  exact h

/-- Whether a computation fails with an error in every session in which no more was found than nonzero sets,
and leaves it like this. -/
def FailsAgain (g : Graph) (x : AnalysisM Unit) (e : Fault AnalysisError) (s : Session) : Prop :=
  ∀ t, t.Consistent g → Looks s t →
    Ends x t (fun _ _ => False) fun e' t' => e' = e ∧ t'.Consistent g ∧ Looks t t'

theorem requireAll_append (g : Graph) (p : Pass) (calls calls' : List (NodeId × Demand)) :
    requireAll g p (calls ++ calls') = requireAll g p calls >>= fun _ => requireAll g p calls' :=
  List.forM_append

/-- If demands that were passed on before come first, the demands fail where the first other one does. -/
theorem FailsAgain.append {done rest : List (NodeId × Demand)} {c : NodeId} {part : Demand}
    {e : Fault AnalysisError} (h : FailsAgain g (require g p c part) e s)
    (hdone : ∀ c part, (c, part) ∈ done → s.unpropagated ⟨p.id, c⟩ part = none) :
    FailsAgain g (requireAll g p (done ++ (c, part) :: rest)) e s := by
  intro t ht hl
  rw [requireAll_append, ends_bind]
  refine (Ends.forM (fun _ t' => t' = t) (E := fun _ _ => False) (fun _ b hb t' h => ?_) rfl).mono
    (fun _ t' h => ?_) fun _ _ h => h.elim
  · subst h
    obtain ⟨c', part'⟩ := b
    exact ends_require_of_seen ((SameAt.of_looks hl).unpropagated_eq part' ▸ hdone c' part' hb) rfl
  · subst h
    rw [requireAll, List.forM, ends_bind]
    exact (h t' ht hl).mono (fun _ _ h => h.elim) fun _ _ h => h

/-- A demand that is refused at once is refused again. -/
theorem FailsAgain.of_refusedOrder (hg : g.WellFormed) (hpoints : g.HasDiscretePoints)
    (hn : ∃ node, g.node? n = some node) (hfresh : s.unpropagated ⟨p.id, n⟩ demand = some fresh)
    (hk : refusedOrder g p.id s n fresh = some k) (hsame : SameAt p.id n s s') :
    FailsAgain g (require g p n demand) (.error (.grewAfterClassification (g.text n) p.text k)) s' := by
  intro t ht hl
  obtain ⟨node, hn⟩ := hn
  have hsame := hsame.trans (.of_looks hl)
  refine ends_require_of_parts hg hpoints p ht hn (fun h => ?_) (fun fresh' k' t' hfresh' hk' ht' hl' => ?_)
    fun fresh' _ _ hfresh' hnone => ?_
  · rw [hsame.unpropagated_eq, hfresh] at h
    cases h
  · obtain rfl : fresh = fresh' := by simpa [hsame.unpropagated_eq, hfresh] using hfresh'
    obtain rfl : k = k' := by simpa [hsame.refusedOrder_eq, hk] using hk'
    exact ⟨rfl, ht', hl'⟩
  · obtain rfl : fresh = fresh' := by simpa [hsame.unpropagated_eq, hfresh] using hfresh'
    simp [hsame.refusedOrder_eq, hk] at hnone

/-- A demand is refused again if its parts are. -/
theorem FailsAgain.of_parts (hg : g.WellFormed) (hpoints : g.HasDiscretePoints) {node : Node}
    (hn : g.node? n = some node) (hfresh : s.unpropagated ⟨p.id, n⟩ demand = some fresh)
    (hnone : refusedOrder g p.id s n fresh = none) {parts : List (NodeId × Demand)}
    (hvalue : (node.demand g fresh (g.accepted n fresh)).value g.nonzeroAt = .ok parts)
    (hsame : SameAt p.id n s s') {e : Fault AnalysisError} (h : FailsAgain g (requireAll g p parts) e s') :
    FailsAgain g (require g p n demand) e s' := by
  intro t ht hl
  have hsame := hsame.trans (.of_looks hl)
  refine ends_require_of_parts hg hpoints p ht hn (fun h => ?_) (fun fresh' k' _ hfresh' hk' => ?_)
    fun fresh' parts' t' hfresh' _ hvalue' _ ht' hl' => ?_
  · rw [hsame.unpropagated_eq, hfresh] at h
    cases h
  · obtain rfl : fresh = fresh' := by simpa [hsame.unpropagated_eq, hfresh] using hfresh'
    simp [hsame.refusedOrder_eq, hnone] at hk'
  · obtain rfl : fresh = fresh' := by simpa [hsame.unpropagated_eq, hfresh] using hfresh'
    obtain rfl : parts = parts' := by simpa [hvalue] using hvalue'
    exact (h t' ht' (hl.trans hl')).mono (fun _ _ h => h.elim) fun _ _ h => ⟨h.1, h.2.1, hl'.trans h.2.2⟩

/-- **A demand that is refused is refused again** with the same error. -/
theorem ends_require_again (hg : g.WellFormed) (hpoints : g.HasDiscretePoints) (p : Pass)
    (hs : s.Consistent g) (hn : ∃ node, g.node? n = some node) (demand : Demand) :
    Ends (require g p n demand) s (fun _ _ => True) (FailsAgain g (require g p n demand)) := by
  induction n using Nat.strongRecOn generalizing s demand with
  | ind n ih =>
    obtain ⟨node, hn⟩ := hn
    refine ends_require_of_parts hg hpoints p hs hn (fun _ => trivial)
      (fun fresh k s' hfresh hk _ hl => .of_refusedOrder hg hpoints ⟨node, hn⟩ hfresh hk (.of_looks hl))
      fun fresh parts s₁ hfresh hnone hvalue hpasses hs₁ hl => ?_
    -- the parts that were determined before the one that fails have been passed on
    refine (Ends.forM_split (fun done s' => Progress g p.id parts s₁ s' ∧ PassesMore g p.id parts s₁ s' ∧
      ∀ c part, (c, part) ∈ done → s'.unpropagated ⟨p.id, c⟩ part = none) (fun done b rest hparts s' h => ?_)
      ⟨.refl hs₁, .of_looks (.refl s₁), by simp⟩).mono (fun _ _ _ _ _ _ _ => trivial) fun _ _ h => h
    obtain ⟨c, part⟩ := b
    obtain ⟨hp, hmore, hdone⟩ := h
    have hmem : (c, part) ∈ parts := by simp [hparts]
    have hchild := hpasses.mem_children c part hmem
    have hc := hg.node?_child hn hchild
    refine (((ends_require hg p hp.consistent c part).and
      (ends_require_passesMore hg p hp.consistent c part)).and
      (ih c (hg.child_lt n node hn c hchild) hp.consistent hc part)).mono (fun _ s'' h => ?_) fun e s'' h => ?_
    · obtain ⟨⟨hm, hmore', hseen⟩, -⟩ := h
      refine ⟨hp.trans (hm.progress.of_mem hmem), hmore.trans (hmore'.of_mem hmem), fun c' part' hpart => ?_⟩
      rcases List.mem_append.mp hpart with hpart | hpart
      · exact hmore'.seen _ _ (hdone c' part' hpart)
      · obtain ⟨rfl, rfl⟩ : c' = c ∧ part' = part := by simpa using hpart
        exact hseen
    · obtain ⟨⟨⟨-, hp'⟩, hmore'⟩, hagain⟩ := h
      have hsame : SameAt p.id n s s'' := (SameAt.of_looks hl).trans
        (.of_parts hg hn hpasses (hp.trans (hp'.of_mem hmem)) (hmore.trans (hmore'.of_mem hmem)))
      refine .of_parts hg hpoints hn hfresh hnone hvalue hsame (hparts ▸ hagain.append fun c' part' hpart => ?_)
      exact hmore'.seen _ _ (hdone c' part' hpart)

/-! ## What a refusal leaves behind -/

/-- What a demand on a node that fails with an error leaves of a session. -/
structure LeftByRefusal (g : Graph) (p : Pass) (n : NodeId) (demand : Demand) (e : Fault AnalysisError)
    (s s' : Session) : Prop where
  /-- The error names a place at the node or below it whose required derivatives were told apart. -/
  cause : ∃ c k, Relation.ReflTransGen g.IsOperand n c ∧ s.isClassified p.id c k = true ∧
    e = .error (.grewAfterClassification (g.text c) p.text k)
  at_node : (∀ k, s'.requiredSet p.id n k = s.requiredSet p.id n k) ∧
    (⟨p.id, n⟩ ∈ s'.ready ↔ ⟨p.id, n⟩ ∈ s.ready)
  elsewhere : ∀ q c, ¬(q = p.id ∧ Relation.TransGen g.IsOperand n c) →
    (∀ k, s'.requiredSet q c k = s.requiredSet q c k) ∧ (⟨q, c⟩ ∈ s'.ready ↔ ⟨q, c⟩ ∈ s.ready)
  grows : ∀ q c k m, m ∈ s.requiredSet q c k → m ∈ s'.requiredSet q c k
  mem_nonzero : ∀ q c k m, m ∈ s'.requiredSet q c k → m ∈ g.nonzero c k
  frozen : ∀ q c k, s.isClassified q c k = true → s'.requiredSet q c k = s.requiredSet q c k
  classes : ∀ key : SetKey, key.kind.IsClass → s'.sets[key]? = s.sets[key]?
  asked : ∀ q c j r c' k m, ⟨q, c⟩ ∈ s'.ready → r ∈ s'.requiredSet q c j →
    g.Asks c j r c' k m ∨ g.AsksAlways c c' k m → m ∈ s'.requiredSet q c' k
  /-- What is asked for in any case is there also if nothing is required of the node. -/
  asked_always : ∀ q c c' k m, ⟨q, c⟩ ∈ s'.ready → s'.passed q c ≠ [] → g.AsksAlways c c' k m →
    m ∈ s'.requiredSet q c' k
  again : ∃ t, (require g p n demand).run.run s' = (.error e, t) ∧ Looks s' t

/-- What a failure changes was demanded by parts of the demand, which are on nodes below. -/
theorem ends_require_below (hg : g.WellFormed) (hpoints : g.HasDiscretePoints) (p : Pass)
    (hs : s.Consistent g) (hn : ∃ node, g.node? n = some node) (demand : Demand) :
    Ends (require g p n demand) s (fun _ _ => True) fun _ s' => ∃ parts,
      (∀ c, g.IsVisited parts c → Relation.TransGen g.IsOperand n c) ∧ AddsOnly g p.id parts s s' := by
  obtain ⟨node, hn⟩ := hn
  refine ends_require_of_parts hg hpoints p hs hn (fun _ => trivial) (fun _ _ s' _ _ _ hl => ?_)
    fun fresh parts s₁ _ _ _ hpasses hs₁ hl => ?_
  · exact ⟨[], by simp [Graph.IsVisited], .of_looks hl⟩
  · refine (ends_requireAll hg p hs₁ parts).mono (fun _ _ _ _ _ _ _ => trivial) fun _ s' h => ?_
    exact ⟨parts, fun c => transGen_of_passesOn hn hpasses, (AddsOnly.of_looks hl).trans h.2.addsOnly⟩

/-- **What a refused demand leaves behind.** If determining required sets from a demand on a node fails, then
derivatives of the node or of one below it were told apart and others would be required now. Nothing
has changed at the node, at nodes that are not below it, and in other passes. Below the node required sets
have only grown, by nonzero derivatives and nowhere that they were told apart; and what the required
derivatives of a node ask of its operands is still required there. The same demand fails again with the same
error. -/
theorem leftByRefusal (hg : g.Built) (hpoints : g.HasDiscretePoints) (hs : s.Reachable g) (p : Pass)
    (hn : n < g.size) (demand : Demand) {e : Fault AnalysisError}
    (hrun : (require g p n demand).run.run s = (.error e, s')) :
    LeftByRefusal g p n demand e s s' := by
  have hw := hg.wellFormed
  have hs := hs.consistent hw
  have hn := Graph.exists_node? hn
  obtain ⟨hrefuses, hp⟩ := (ends_require hw p hs n demand).of_error hrun
  obtain ⟨parts, hbelow, hadds⟩ := (ends_require_below hw hpoints p hs hn demand).of_error hrun
  have hd := hp.determines
  have helsewhere : ∀ q c, ¬(q = p.id ∧ Relation.TransGen g.IsOperand n c) →
      (∀ k, s'.requiredSet q c k = s.requiredSet q c k) ∧ (⟨q, c⟩ ∈ s'.ready ↔ ⟨q, c⟩ ∈ s.ready) := by
    intro q c hc
    have hc : ¬(q = p.id ∧ g.IsVisited parts c) := fun h => hc ⟨h.1, hbelow c h.2⟩
    refine ⟨fun k => Std.ExtTreeSet.ext_mem fun m => ⟨fun hm => ?_, hd.required q c k m⟩,
      fun h => (hadds.ready q c h).resolve_right hc, hd.ready _⟩
    exact (hadds.required q c k m hm).resolve_right fun h => hc ⟨h.1, h.2.isVisited⟩
  exact
    { cause := by
        cases hrefuses with
        | grew hc hm _ =>
          obtain ⟨call, hcall, hbelow⟩ := hm.isVisited
          obtain rfl := List.mem_singleton.mp hcall
          exact ⟨_, _, hbelow, hc, rfl⟩
        | noNode m hcall hnone =>
          obtain rfl := List.mem_singleton.mp hcall
          simp [hnone] at hn
        | noPoint m h => exact absurd hpoints h
      at_node := helsewhere p.id n fun h => Nat.lt_irrefl n (hw.lt_of_transGen h.2)
      elsewhere := helsewhere
      grows := hd.required
      mem_nonzero := fun _ _ _ _ => hp.consistent.mem_nonzero
      frozen := hd.frozen
      classes := hd.classes
      asked := fun q c j r c' k m _ hr h => by
        rcases h with h | h
        · exact hp.consistent.closed q c j r c' k m hr h
        · refine hp.consistent.closed_always q c c' k m (fun hnil => ?_) h
          have hpassed := ((hp.consistent.mem_required q c j r).mp hr).1
          simp [hnil] at hpassed
      asked_always := fun q c c' k m _ => hp.consistent.closed_always q c c' k m
      again := by
        have hagain := (ends_require_again hw hpoints p hs hn demand).of_error hrun
        obtain ⟨e', t, ht, rfl, -, hl⟩ := (hagain s' hp.consistent (.refl s')).exists_error
        exact ⟨t, ht, hl⟩ }

end Session

namespace Graph

/-- The graph of `-v + x0*v`. -/
def sumWithProduct : Graph where
  dimension := 1
  nodes := #[.coordinate 0, .symbolic "v" 7 .variation .zero, .product 0 1, .neg 1, .sum [3, 2]]

theorem built_sumWithProduct : sumWithProduct.Built :=
  built_of_calls [.coordinate 0, .variation "v" 7, .mul 0 1, .neg 1, .add 3 2] (by with_unfolding_all rfl)

theorem hasDiscretePoints_sumWithProduct : sumWithProduct.HasDiscretePoints := by
  intro n name f role point h
  have hmem := Array.mem_of_getElem? h
  simp [sumWithProduct] at hmem

end Graph

namespace Session

/-- A session in which the derivative of `x0*v` by both functions was demanded, and the required derivatives
of this product were told apart. -/
def productToldApart : Session :=
  after ((Call.classify 2).run Graph.sumWithProduct default)
    (after (require Graph.sumWithProduct default 2
      [∅, ∅, {Mixed.ofList [.coordinate 0, .functional 7 .value]}]) {})

theorem reachable_productToldApart : productToldApart.Reachable Graph.sumWithProduct :=
  (Reachable.require ⟨{}, .refl⟩ default 2 _).call default (.classify 2)

/-- The derivative of the sum by `v` gets required of the negative term before the product refuses it. -/
theorem leftByRefusal_productToldApart :
    Graph.sumWithProduct.Built ∧ Graph.sumWithProduct.HasDiscretePoints ∧
    productToldApart.Reachable Graph.sumWithProduct ∧ 4 < Graph.sumWithProduct.size ∧
    ∃ s', (require Graph.sumWithProduct default 4 [∅, {.ofAtom (.functional 7 .value)}]).run.run
        productToldApart = (.error (.error (.grewAfterClassification "x0*v" (Pass.text default) 1)), s') ∧
      .ofAtom (.functional 7 .value) ∉ productToldApart.requiredSet 0 3 1 ∧
      .ofAtom (.functional 7 .value) ∈ s'.requiredSet 0 3 1 ∧
      LeftByRefusal Graph.sumWithProduct default 4 [∅, {.ofAtom (.functional 7 .value)}]
        (.error (.grewAfterClassification "x0*v" (Pass.text default) 1)) productToldApart s' := by
  have herror : ((require Graph.sumWithProduct default 4 [∅, {.ofAtom (.functional 7 .value)}]).run.run
      productToldApart).1 = .error (.error (.grewAfterClassification "x0*v" (Pass.text default) 1)) := by
    decide +kernel
  have hsize : 4 < Graph.sumWithProduct.size := by decide
  exact ⟨Graph.built_sumWithProduct, Graph.hasDiscretePoints_sumWithProduct, reachable_productToldApart, hsize,
    _, Prod.ext herror rfl, by decide +kernel, by decide +kernel,
    leftByRefusal Graph.built_sumWithProduct Graph.hasDiscretePoints_sumWithProduct reachable_productToldApart
      default hsize _ (Prod.ext herror rfl)⟩

end Session

end FormSparsity

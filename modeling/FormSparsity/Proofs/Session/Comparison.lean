import FormSparsity.Proofs.Session.Readiness

/-!
Sessions that differ in what was told apart. In one of two sessions more may have been told apart at some nodes
of a pass than in the other one, while both have been given the same demand (`AgreeBut`). Finding sets ends
alike in both, as what is found depends on the required sets alone (`respects_twins_findVarying`,
`respects_twins_findConstant`). Demand is determined alike as well, unless it would require more where
derivatives were told apart in the second session only (`Twins.together_require`).
-/
namespace FormSparsity.Session

variable {g : Graph} {p : Pass} {b q : PassId} {D : NodeId → Prop} {s s' t t' : Session} {n : NodeId} {k : Nat}
variable {demand fresh : Demand} {kind : SetKind}

/-! ## The relation -/

/-- Whether two sessions agree but for nodes in a pass whose required derivatives the second one has told
apart, and for what no demand depends on. -/
structure AgreeBut (b : PassId) (D : NodeId → Prop) (s t : Session) : Prop where
  required : ∀ q n k, s.requiredSet q n k = t.requiredSet q n k
  classes : KeepsOutside b D t s
  toldApart : ∀ n, D n → t.ToldApart b n (List.range (maxOrder + 1))
  propagated : s.propagated = t.propagated
  ready : s.ready = t.ready
  isOpen : s.journal.isOpen = t.journal.isOpen

theorem AgreeBut.addRequired (h : AgreeBut b D s t) (q : PassId) (n : NodeId) (k : Nat) (set : MixedSet) :
    AgreeBut b D (s.addRequired q n k set) (t.addRequired q n k set) where
  required q' c j := Std.ExtTreeSet.ext_mem fun m => by
    rw [requiredSet_addRequired, requiredSet_addRequired, h.required]
  classes key hkey hout := by
    have hkind : key.kind ≠ .required := fun hr => not_isClass_required (hr ▸ hkey)
    rw [sets_addRequired hkind, sets_addRequired hkind, h.classes key hkey hout]
  toldApart c hc kind j hkind hj := by
    obtain ⟨set', hset'⟩ := h.toldApart c hc kind j hkind hj
    exact ⟨set', (sets_addRequired fun hr => not_isClass_required (hr ▸ hkind)).trans hset'⟩
  propagated := by simp [h.propagated]
  ready := by simp [h.ready]
  isOpen := by simp [h.isOpen]

/-- The same set may be kept in both. -/
theorem AgreeBut.insert (h : AgreeBut b D s t) {key : SetKey} (hkey : key.kind.IsClass) (set : MixedSet) :
    AgreeBut b D { s with sets := s.sets.insert key set } { t with sets := t.sets.insert key set } :=
  { h with
    required := fun q n k => by
      have hne : key ≠ ⟨.required, q, n, k⟩ := by
        rintro rfl
        exact not_isClass_required hkey
      rw [requiredSet_eq, requiredSet_eq, getElem?_sets_insert, getElem?_sets_insert, if_neg hne, if_neg hne,
        ← requiredSet_eq, ← requiredSet_eq, h.required]
    classes := fun key' hkey' hout => by
      rw [getElem?_sets_insert, getElem?_sets_insert, h.classes key' hkey' hout]
    toldApart := fun c hc kind j hkind hj => by
      obtain ⟨set', hset'⟩ := h.toldApart c hc kind j hkind hj
      rw [getElem?_sets_insert]
      split
      · exact ⟨set, rfl⟩
      · exact ⟨set', hset'⟩ }

theorem bearsVisits_agreeBut (b : PassId) (D : NodeId → Prop) (q : PassId) : BearsVisits q (AgreeBut b D) where
  required h := h.required q
  ready h _ := by rw [h.ready]
  isOpen h := h.isOpen
  note h _ := { h with isOpen := h.isOpen }
  add h := h.addRequired q
  sample h _ _ := { h with }
  record h n demand := { h with propagated := by simp [recordPropagated, h.propagated] }
  mark h n := { h with ready := by simp [h.ready] }

/-- Up to `maxOrder`, what the first session has told apart the second one has told apart as well. -/
theorem AgreeBut.isClassified (h : AgreeBut b D s t) (hk : k ≤ maxOrder) (hc : s.isClassified q n k = true) :
    t.isClassified q n k = true := by
  by_cases hin : q = b ∧ D n
  · obtain ⟨rfl, hn⟩ := hin
    exact (h.toldApart n hn).isClassified (List.mem_range.mpr (Nat.lt_succ_of_le hk))
  · obtain ⟨kind, hkind, set, hset⟩ := isClassified_iff.mp hc
    exact isClassified_iff.mpr ⟨kind, hkind, set, (h.classes ⟨kind, q, n, k⟩ hkind hin).symm.trans hset⟩

/-- Which sets are right is the same in both. -/
theorem AgreeBut.isRight (h : AgreeBut b D s t) {key : SetKey} {set : MixedSet} (hright : t.IsRight g key set) :
    s.IsRight g key set := by
  obtain ⟨kind, q, n, k⟩ := key
  cases kind with
  | nonzero => exact hright
  | required => trivial
  | constant | varying =>
    rw [IsRight, h.required, h.ready]
    exact hright

/-- Whether the second session has told more apart at some nodes of a pass, and is otherwise the same to
start from. -/
structure Beside (b : PassId) (D : NodeId → Prop) (s s' : Session) : Prop where
  tellsApart : TellsApart s s'
  classes : KeepsOutside b D s s'
  isOpen : s'.journal.isOpen = s.journal.isOpen

theorem Beside.of_looks (h : Looks s s') (hopen : s'.journal.isOpen = s.journal.isOpen) : Beside b D s s' :=
  ⟨h.tellsApart, fun key hkey _ => h.classes key hkey, hopen⟩

theorem AgreeBut.beside (h : AgreeBut b D s t) (hs : Beside b D s s') (ht : Beside b D t t') :
    AgreeBut b D s' t' where
  required q n k := by rw [hs.tellsApart.required, ht.tellsApart.required, h.required]
  classes key hkey hout := by rw [hs.classes key hkey hout, ht.classes key hkey hout, h.classes key hkey hout]
  toldApart n hn := (h.toldApart n hn).of_classes ht.tellsApart.classes
  propagated := by rw [hs.tellsApart.propagated, ht.tellsApart.propagated, h.propagated]
  ready := by rw [hs.tellsApart.ready, ht.tellsApart.ready, h.ready]
  isOpen := by rw [hs.isOpen, ht.isOpen, h.isOpen]

/-- Two consistent sessions that agree but for what was told apart. -/
structure Twins (g : Graph) (b : PassId) (D : NodeId → Prop) (s t : Session) : Prop extends AgreeBut b D s t where
  left : s.Consistent g
  right : t.Consistent g

theorem bearsRequired_twins (b : PassId) (D : NodeId → Prop) (q : PassId) : BearsRequired q (Twins g b D) where
  required h := h.required q
  ready h _ := by rw [h.ready]
  isOpen h := h.isOpen
  note h _ :=
    { toAgreeBut := { h.toAgreeBut with isOpen := h.isOpen }
      left := h.left.journal _
      right := h.right.journal _ }

/-- Runs that keep consistency and end alike, but for what was told apart, leave twins. -/
theorem together_twins {α : Type} {x : AnalysisM α} {odd : Fault AnalysisError → Prop}
    (h : Together x s t (AgreeBut b D) odd)
    (hs : Ends x s (fun _ s' => s'.Consistent g) fun _ s' => s'.Consistent g)
    (ht : Ends x t (fun _ t' => t'.Consistent g) fun _ t' => t'.Consistent g) :
    Together x s t (Twins g b D) odd :=
  (h.and hs ht).mono (fun _ _ h => ⟨h.1, h.2.1, h.2.2⟩) fun _ h => h

theorem bearsDemand_isOpen (q : PassId) (o : Bool) : BearsDemand q fun s t => s = t ∧ s.journal.isOpen = o :=
  .of_eq (.of_eq (fun _ h _ _ _ _ => h) fun _ h _ => h) (fun _ h _ _ => h) (fun _ h _ _ => h) fun _ h _ => h

/-! ## Finding sets -/

section Find

variable (hg : g.WellFormed)
include hg

theorem respects_twins_findNonzero (hn : ∃ node, g.node? n = some node) (k : Nat) :
    Respects (Twins g b D) (findNonzero g p n k) := by
  intro s t h
  obtain ⟨node, hn⟩ := hn
  have hends : ∀ u : Session, u.Consistent g → Ends (findNonzero g p n k) u
      (fun set u' => .ok set = (.ok (g.nonzero n k) : Except (Fault AnalysisError) MixedSet) ∧
        u'.Consistent g ∧ Beside b D u u')
      (fun e u' => .error e = (.ok (g.nonzero n k) : Except (Fault AnalysisError) MixedSet) ∧
        u'.Consistent g ∧ Beside b D u u') := fun u hu =>
    ((ends_findNonzero hg p hu n k).and
      (((bearsDemand_isOpen p.id u.journal.isOpen).respects_findNonzero n k).keeps u rfl)).mono
      (fun _ _ h => ⟨by rw [h.1.1], h.1.2.1, .of_looks h.1.2.2 h.2⟩) fun _ _ h => by simp [NotThere, hn] at h
  exact (together_of_ends (hends s h.left) (hends t h.right) fun s' t' hs' ht' =>
    ⟨h.toAgreeBut.beside hs'.2 ht'.2, hs'.1, ht'.1⟩).alike

omit hg in
/-- At a node where the second session has told everything apart a set is found alike, be it that the first one
tells more apart now. -/
theorem Twins.alike_of_toldApart (h : Twins g b D s t) (hin : p.id = b ∧ D n) (hkind : kind.IsClass)
    {x : AnalysisM MixedSet}
    (hends : ∀ u : Session, u.Consistent g → Ends x u
      (fun set u' => u.IsRight g ⟨kind, p.id, n, k⟩ set ∧ u'.Consistent g ∧ TellsApart u u' ∧
        u'.sets[(⟨kind, p.id, n, k⟩ : SetKey)]? = some set) (NotReady g p u n))
    (hkeeps : ∀ I, Admits (IsKeptAt p.id D) I → Keeps I x)
    (hopen : ∀ o, Keeps (fun u => u.journal.isOpen = o) x) :
    (x.run.run s).1 = (x.run.run t).1 ∧ Twins g b D (after x s) (after x t) := by
  obtain ⟨rfl, hn⟩ := hin
  have hready : ⟨p.id, n⟩ ∈ t.ready :=
    h.right.ready_of_isClassified (Nat.zero_le _) ((h.toldApart n hn).isClassified (by decide))
  obtain ⟨set, -, -, hright, -⟩ :=
    ((hends t h.right).mono (fun _ _ h => h) fun _ _ he => absurd hready he.1).exists_ok
  have hends' : ∀ u : Session, u.Consistent g → u.IsRight g ⟨kind, p.id, n, k⟩ set → ⟨p.id, n⟩ ∈ u.ready →
      Ends x u
        (fun set' u' => .ok set' = (.ok set : Except (Fault AnalysisError) MixedSet) ∧ u'.Consistent g ∧
          Beside p.id D u u')
        (fun e u' => .error e = (.ok set : Except (Fault AnalysisError) MixedSet) ∧ u'.Consistent g ∧
          Beside p.id D u u') := fun u hu hright hready =>
    (((hends u hu).and (hkeeps _ (admits_keepsOutside p.id D u) u fun _ _ _ => rfl)).and (hopen _ u rfl)).mono
      (fun set' _ h => ⟨by rw [h.1.1.1.eq hkind hright], h.1.1.2.1, h.1.1.2.2.1, h.1.2, h.2⟩)
      fun _ _ h => absurd hready h.1.1.1
  exact (together_of_ends (hends' s h.left (h.isRight hright) (h.ready ▸ hready))
    (hends' t h.right hright hready) fun s' t' hs' ht' =>
    ⟨h.toAgreeBut.beside hs'.2 ht'.2, hs'.1, ht'.1⟩).alike

omit hg in
/-- Elsewhere a set is kept in both sessions or in neither of them, and then it is computed in both. -/
theorem Twins.together_remember {odd : Fault AnalysisError → Prop} (h : Twins g b D s t)
    (hout : ¬(p.id = b ∧ D n)) (hkind : kind.IsClass) {compute : AnalysisM MixedSet}
    (hcompute : Together compute s t (Twins g b D) odd) :
    Together (remember g p kind n k compute) s t (AgreeBut b D) odd := by
  have htail : ∀ set : MixedSet, Respects (AgreeBut b D) (do
      report p .high .trace fun _ => do
        let expr ← checked (g.describe n)
        return s!"{kind.text}[{k}] of {expr} in {p.text}: {set.text}"
      modify fun s => { s with sets := s.sets.insert ⟨kind, p.id, n, k⟩ set }
      return set : AnalysisM MixedSet) := fun set =>
    ((bearsVisits_agreeBut b D p.id).respects_report ((respects_checked _).bind fun _ => respects_pure _)).bind
      fun _ => (respects_modify fun s t h => h.insert hkind set).bind fun _ => respects_pure set
  refine together_get_bind (by rw [h.classes _ hkind hout]) ?_
  split
  · exact together_pure h.toAgreeBut
  · split
    · exact (htail ∅).together h.toAgreeBut
    · exact hcompute.bind (fun _ _ h => h.toAgreeBut) fun set _ _ _ _ h' => (htail set).together h'.toAgreeBut

variable (hD : ∀ n c, D n → g.IsOperand n c → D c)
include hD

/-- **Varying sets are found alike,** and what is told apart on the way is the same but for the nodes where the
second session has told everything apart. -/
theorem respects_twins_findVarying (hn : ∃ node, g.node? n = some node) (k : Nat) :
    Respects (Twins g b D) (findVarying g p n k) := by
  induction n using Nat.strongRecOn generalizing k with
  | ind n ih =>
    intro s t h
    obtain ⟨node, hn⟩ := hn
    by_cases hin : p.id = b ∧ D n
    · exact h.alike_of_toldApart hin (.inr rfl) (fun u hu => ends_findVarying hg p hu n k)
        (fun I hI => hI.keeps_findVarying hD hin.2 k)
        fun o => ((bearsDemand_isOpen p.id o).respects_findVarying n k).keeps
    · have hconsistent : ∀ u : Session, u.Consistent g → Ends (findVarying g p n k) u
          (fun _ u' => u'.Consistent g) fun _ u' => u'.Consistent g := fun u hu =>
        (ends_findVarying hg p hu n k).mono (fun _ _ h => h.2.1) fun _ _ h => h.2.2.1
      refine (together_twins ?_ (hconsistent s h.left) (hconsistent t h.right)).alike
      rw [findVarying, recurse_eq, Graph.node_eq_ok hn]
      refine h.together_remember hin (.inr rfl) (Respects.together ?_ h)
      refine ((bearsRequired_twins b D p.id).respects_findRequired n k).bind fun required =>
        (respects_run_of_asksOnly (node.asksOnly_varying g n k) fun place hplace => ?_).bind fun _ =>
          (respects_checked _).bind fun _ => respects_pure _
      cases place with
      | nonzero place =>
        refine respects_twins_findNonzero hg ?_ place.order
        rcases hplace with hplace | hplace
        · exact hg.node?_child hn hplace
        · exact ⟨node, hplace ▸ hn⟩
      | required place => exact (bearsRequired_twins b D p.id).respects_findRequired place.node place.order
      | varying place =>
        have hlt : place.node < n := hg.child_lt n node hn _ hplace
        show Respects _ ((if place.node < n then findVarying g p place.node
          else fun _ => unorderedNode g place.node) place.order)
        rw [if_pos hlt]
        exact ih place.node hlt (hg.node?_child hn hplace) place.order

/-- **Constant sets are found alike,** too. -/
theorem respects_twins_findConstant (hn : ∃ node, g.node? n = some node) (k : Nat) :
    Respects (Twins g b D) (findConstant g p n k) := by
  intro s t h
  by_cases hin : p.id = b ∧ D n
  · exact h.alike_of_toldApart hin (.inl rfl) (fun u hu => ends_findConstant hg p hu n k)
      (fun I hI => hI.keeps_findConstant hD hin.2 k)
      fun o => ((bearsDemand_isOpen p.id o).respects_findConstant n k).keeps
  · have hconsistent : ∀ u : Session, u.Consistent g → Ends (findConstant g p n k) u
        (fun _ u' => u'.Consistent g) fun _ u' => u'.Consistent g := fun u hu =>
      (ends_findConstant hg p hu n k).mono (fun _ _ h => h.2.1) fun _ _ h => h.2.2.1
    refine (together_twins ?_ (hconsistent s h.left) (hconsistent t h.right)).alike
    exact h.together_remember hin (.inl rfl) (((bearsRequired_twins b D p.id).respects_findRequired n k).bind
      (fun _ => (respects_twins_findVarying hg hD hn k).bind fun _ => respects_pure _) |>.together h)

theorem respects_twins_classify (hn : ∃ node, g.node? n = some node) :
    Respects (Twins g b D) (classify g p n) :=
  .foldlM fun _ k _ => (respects_twins_findConstant hg hD hn k).bind fun _ =>
    (respects_twins_findVarying hg hD hn k).bind fun _ => respects_pure _

end Find

/-! ## Determining required sets -/

/-- Whether derivatives were told apart at a place in the second session only. -/
def ToldApartSince (q : PassId) (s t : Session) (c : NodeId) (k : Nat) : Prop :=
  t.isClassified q c k = true ∧ s.isClassified q c k ≠ true

/-- Sessions that agree but for some nodes have told apart the same elsewhere. -/
theorem AgreeBut.of_toldApartSince {c : NodeId} (h : AgreeBut b D s t) (hc : ToldApartSince q s t c k) :
    q = b ∧ D c := by
  by_contra hout
  obtain ⟨kind, hkind, set, hset⟩ := isClassified_iff.mp hc.1
  exact hc.2 (isClassified_iff.mpr ⟨kind, hkind, set, (h.classes ⟨kind, q, c, k⟩ hkind hout).trans hset⟩)

/-- Whether an error says that a demand would require one more derivative at a place where derivatives were told
apart in the second session only. -/
def Spoils (g : Graph) (p : Pass) (s t : Session) (call : NodeId × Demand) (e : Fault AnalysisError) : Prop :=
  ∃ c k m, ToldApartSince p.id s t c k ∧ g.Brings call c k m ∧ m ∉ s.requiredSet p.id c k ∧
    e = .error (.grewAfterClassification (g.text c) p.text k)

/-- A part of a demand that is spoiled later spoils the whole. -/
theorem Spoils.of_part {call part : NodeId × Demand} {e : Fault AnalysisError} (h : Spoils g p s' t' part e)
    (hs : Determines s s') (ht : Determines t t')
    (hbrings : ∀ c k m, g.Brings part c k m → g.Brings call c k m) : Spoils g p s t call e := by
  obtain ⟨c, k, m, ⟨ht', hs'⟩, hm, hr, he⟩ := h
  refine ⟨c, k, m, ⟨by rwa [← ht.isClassified], by rwa [← hs.isClassified]⟩, hbrings c k m hm, fun hm => ?_, he⟩
  exact hr (hs.required _ _ _ _ hm)

/-- The demand on a node is refused for the same order in both sessions, unless derivatives of this order were
told apart in the second one only. -/
theorem AgreeBut.refusedOrder_eq (h : AgreeBut b D s t) (q : PassId) (n : NodeId) (fresh : Demand) :
    refusedOrder g q t n fresh = refusedOrder g q s n fresh ∨ ∃ k m, refusedOrder g q t n fresh = some k ∧
      ToldApartSince q s t n k ∧ m ∈ fresh.ofOrder k ∧ m ∈ g.nonzero n k ∧ m ∉ s.requiredSet q n k := by
  have hle : ∀ call, refuses g q s n call = true → refuses g q t n call = true := by
    rintro ⟨demanded, k⟩ hrefuses
    obtain ⟨hc, m, hm, hw, hr⟩ := refuses_iff.mp hrefuses
    exact refuses_iff.mpr ⟨h.isClassified (Graph.le_maxOrder_of_mem_nonzero hw) hc, m, hm, hw, by rwa [← h.required]⟩
  cases hfind : fresh.zipIdx.find? (refuses g q t n) with
  | none =>
    left
    rw [refusedOrder, refusedOrder, hfind, Option.map_none, eq_comm, Option.map_eq_none_iff]
    rw [List.find?_eq_none] at hfind ⊢
    exact fun call hcall hrefuses => hfind call hcall (hle call hrefuses)
  | some call =>
    obtain ⟨demanded, k⟩ := call
    obtain ⟨hrefuses, before, after, hsplit, hbefore⟩ := List.find?_eq_some_iff_append.mp hfind
    by_cases hs : refuses g q s n (demanded, k) = true
    · left
      rw [refusedOrder, refusedOrder, hfind, List.find?_eq_some_iff_append.mpr ⟨hs, before, after, hsplit, ?_⟩]
      intro call hcall
      have := hbefore call hcall
      simp only [Bool.not_eq_true'] at this ⊢
      exact Bool.eq_false_iff.mpr fun h => by simp [hle call h] at this
    · obtain ⟨hc, m, hm, hw, hr⟩ := refuses_iff.mp hrefuses
      rw [← h.required] at hr
      refine .inr ⟨k, m, by rw [refusedOrder, hfind, Option.map_some], ⟨hc, fun hc => ?_⟩, ?_, hw, hr⟩
      · exact hs (refuses_iff.mpr ⟨hc, m, hm, hw, hr⟩)
      · have hmem := List.mk_mem_zipIdx_iff_getElem?.mp (List.mem_of_find?_eq_some hfind)
        exact Demand.mem_ofOrder.mpr ⟨demanded, hmem, hm⟩

/-- How the first part of a visit ends, as told by the order for which the demand is refused. -/
theorem ends_prepare_beside (hg : g.WellFormed) (p : Pass) (hs : s.Consistent g) {node : Node}
    (hn : g.node? n = some node) {parts : List (NodeId × Demand)}
    (hvalue : (node.demand g fresh (g.accepted n fresh)).value g.nonzeroAt = .ok parts)
    {r : Except (Fault AnalysisError) Preparation}
    (hr : r = match refusedOrder g p.id s n fresh with
      | none => .ok ⟨g.accepted n fresh, node, parts⟩
      | some k => .error (.error (.grewAfterClassification (g.text n) p.text k))) :
    Ends (prepare g p n fresh) s (fun v s' => .ok v = r ∧ s'.Consistent g ∧ Beside b D s s')
      fun e s' => .error e = r ∧ s'.Consistent g ∧ Beside b D s s' := by
  have hopen := ((bearsDemand_isOpen p.id s.journal.isOpen).respects_prepare (g := g) n fresh).keeps
  refine ((ends_prepare hg p hs hn fresh).and (hopen s rfl)).mono (fun v s' h => ?_) fun e s' h => ?_
  · obtain ⟨⟨hnone, haddition, hnode, hparts, -, hs', hl⟩, ho⟩ := h
    obtain rfl : parts = v.parts := by simpa [hvalue] using hparts
    exact ⟨by rw [hr, hnone, ← haddition, ← hnode], hs', .of_looks hl ho⟩
  · obtain ⟨⟨k, hsome, rfl, hs', hl⟩, ho⟩ := h
    exact ⟨by rw [hr, hsome], hs', .of_looks hl ho⟩

/-- A demand is accepted alike, unless it is spoiled. -/
theorem Twins.together_prepare (hg : g.WellFormed) (h : Twins g b D s t) (hn : ∃ node, g.node? n = some node)
    (fresh : Demand) : Together (prepare g p n fresh) s t (Twins g b D) (Spoils g p s t (n, fresh)) := by
  obtain ⟨node, hn⟩ := hn
  obtain ⟨parts, hvalue, -⟩ := Graph.exists_passesOn hg fresh hn
  rcases h.refusedOrder_eq p.id n fresh with heq | ⟨k, m, hsome, hc, hm, hw, hr⟩
  · exact together_of_ends (ends_prepare_beside hg p h.left hn hvalue rfl)
      (ends_prepare_beside hg p h.right hn hvalue (by rw [heq])) fun s' t' hs' ht' =>
      ⟨h.toAgreeBut.beside hs'.2 ht'.2, hs'.1, ht'.1⟩
  · obtain ⟨e, t', hrun, he⟩ := ((ends_prepare hg p h.right hn fresh).mono
      (fun _ _ h => by simp [hsome] at h) fun _ _ he => he).exists_error
    obtain ⟨k', hsome', rfl, -⟩ := he
    obtain rfl : k = k' := by simpa [hsome] using hsome'
    exact .inr ⟨_, by rw [hrun], n, k, m, hc, Graph.brings_self hm hw, hr, rfl⟩

/-- What comes before parts of a demand are passed on is alike, unless the demand is spoiled. -/
theorem Twins.together_opening (hg : g.WellFormed) (h : Twins g b D s t) (hn : ∃ node, g.node? n = some node)
    (demand : Demand) :
    Together (opening g p n demand) s t (Twins g b D) (Spoils g p s t (n, demand)) := by
  refine together_get_bind (by rw [unpropagated, unpropagated, h.propagated]) ?_
  split
  · exact together_pure h
  · rename_i fresh hfresh
    have hlooks : ∀ u : Session,
        Ends (announce g p n fresh) u (fun _ u' => Looks u u') fun _ u' => Looks u u' := by
      intro u
      refine (ends_announce g p n fresh u).mono (fun _ u' h => ?_) fun _ _ h => h ▸ .refl u
      obtain ⟨j, rfl⟩ := h
      exact looks_journal u j
    refine Together.bind ((((bearsRequired_twins b D p.id).respects_announce n fresh).together h).and
      (hlooks s) (hlooks t)) (fun _ _ h => h.1) fun _ s₁ t₁ _ _ h₁ => ?_
    obtain ⟨h₁, hls, hlt⟩ := h₁
    have hprepare : Together (prepare g p n fresh) s₁ t₁ (Twins g b D) (Spoils g p s t (n, demand)) :=
      (h₁.together_prepare hg hn fresh).mono (fun _ _ h => h) fun _ he =>
        he.of_part hls.determines hlt.determines fun _ _ _ => brings_of_fresh hg hfresh
    exact hprepare.bind (fun _ _ h => h) fun _ _ _ _ _ h => together_pure h

/-- **Demand is determined alike** in two sessions that differ in what was told apart, unless it is spoiled:
then it is refused in the second session. -/
theorem Twins.together_require (hg : g.WellFormed) (h : Twins g b D s t) (hn : ∃ node, g.node? n = some node)
    (demand : Demand) :
    Together (require g p n demand) s t (Twins g b D) (Spoils g p s t (n, demand)) := by
  induction n using Nat.strongRecOn generalizing s t demand with
  | ind n ih =>
    have hprogress : ∀ {u : Session} (c : NodeId) (part : Demand), u.Consistent g →
        Ends (require g p c part) u (fun _ u' => u'.Consistent g ∧ Determines u u') fun _ u' =>
          u'.Consistent g ∧ Determines u u' := fun c part hu =>
      (ends_require hg p hu c part).mono (fun _ _ h => ⟨h.progress.consistent, h.progress.determines⟩)
        fun _ _ h => ⟨h.2.consistent, h.2.determines⟩
    refine together_twins ?_ ((hprogress n demand h.left).mono (fun _ _ h => h.1) fun _ _ h => h.1)
      ((hprogress n demand h.right).mono (fun _ _ h => h.1) fun _ _ h => h.1)
    rw [require_eq]
    refine (h.together_opening hg hn demand).bind (fun _ _ h => h.toAgreeBut) fun r s₁ t₁ hs₁ ht₁ h₁ => ?_
    cases r with
    | none => exact together_pure h₁.toAgreeBut
    | some found =>
      obtain ⟨fresh, v⟩ := found
      obtain ⟨-, hls, hfound⟩ := (ends_opening hg p h.left n demand).of_ok hs₁
      obtain ⟨hfresh, hnode, hvalue, hpasses⟩ := hfound fresh v rfl
      have hlt := ((ends_opening hg p h.right n demand).of_ok ht₁).2.1
      dsimp only
      rw [forM_operand hg p hnode hpasses]
      refine Together.bind (I := fun s' t' => Twins g b D s' t' ∧ Determines s s' ∧ Determines t t')
        (Together.forM (fun call hcall s' t' h' => ?_) ⟨h₁, hls.determines, hlt.determines⟩)
        (fun _ _ h => h.1.toAgreeBut) fun _ s₂ t₂ _ _ h₂ =>
        ((bearsVisits_agreeBut b D p.id).respects_finish n fresh v).together h₂.1.toAgreeBut
      obtain ⟨c, part⟩ := call
      obtain ⟨h', hds, hdt⟩ := h'
      have hchild := hpasses.mem_children c part hcall
      have hbrings : ∀ c' k m, g.Brings (c, part) c' k m → g.Brings (n, demand) c' k m := fun _ _ _ hm =>
        brings_of_fresh hg hfresh (hm.gives ((Graph.gives_iff hnode hvalue).mpr hcall))
      refine ((ih c (hg.child_lt n v.node hnode c hchild) h' (hg.node?_child hnode hchild) part).and
        (hprogress c part h'.left) (hprogress c part h'.right)).mono (fun s'' t'' h => ?_) fun _ he =>
        he.of_part hds hdt hbrings
      exact ⟨h.1, hds.trans h.2.1.2, hdt.trans h.2.2.2⟩

end FormSparsity.Session

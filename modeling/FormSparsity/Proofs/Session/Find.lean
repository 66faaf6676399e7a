import FormSparsity.Proofs.Outcome
import FormSparsity.Proofs.Session.State
import FormSparsity.Session.Find

/-!
Finding sets in a consistent session. Nonzero sets are those of the graph and never fail to be found
for a node that exists (`ends_findNonzero`). Once a node is ready, its varying and constant sets are
found as well: the required derivatives that vary by `Graph.varying`, and the other ones
(`ends_findVarying`, `ends_findConstant`). Before that they are not, and the session stays consistent.
-/
namespace FormSparsity

/-- An inquiry whose questions are answered by the values of a function yields what it yields for
them. -/
theorem Ends.run {ε σ κ α : Type} {P : κ → Prop} {i : Inquiry κ α} (hi : i.AsksOnly P) {w : κ → MixedSet}
    {f : κ → ExceptT ε (StateM σ) MixedSet} (I : σ → Prop) {E : ε → σ → Prop}
    (h : ∀ q, P q → ∀ s, I s → Ends (f q) s (fun set s' => set = w q ∧ I s') E) {s : σ} (hs : I s) :
    Ends (i.run f) s (fun a s' => a = i.value w ∧ I s') E := by
  induction i generalizing s with
  | done a => exact ⟨rfl, hs⟩
  | ask q next ih =>
    rw [Inquiry.run_ask, ends_bind]
    refine (h q hi.1 s hs).mono (fun set s' hs' => ?_) fun _ _ he => he
    obtain ⟨rfl, hI⟩ := hs'
    exact ih _ (hi.2 _) hI

namespace Session

variable {ε α : Type} {g : Graph} {p : Pass} {s : Session} {n : NodeId} {k : Nat}

@[simp] theorem ends_checked {x : Except Misuse α} {ok : α → Session → Prop}
    {err : Fault ε → Session → Prop} :
    Ends (checked x : SessionM ε α) s ok err ↔
      (∀ a, x = .ok a → ok a s) ∧ ∀ m, x = .error m → err (.misuse m) s := by
  cases x <;> simp [checked]

theorem ends_checked_node {ok : Node → Session → Prop} {err : Fault ε → Session → Prop} {node : Node}
    (hn : g.node? n = some node) (h : ok node s) :
    Ends (checked (g.node n) : SessionM ε Node) s ok err := by
  simpa [Graph.node_eq_ok hn] using h

/-- The text of a node can be had if the node exists. -/
theorem ends_checked_describe {ok : String → Session → Prop} {err : Fault ε → Session → Prop}
    (hok : ok (g.text n) s) (herr : g.node? n = none → ∀ m, err (.misuse m) s) :
    Ends (checked (g.describe n) : SessionM ε String) s ok err := by
  cases hn : g.node? n with
  | none => simpa [Graph.describe, Graph.node_eq_error hn, bind, Except.bind] using herr hn _
  | some node => simpa [Graph.describe, Graph.node_eq_ok hn, bind, Except.bind, pure, Except.pure] using hok

/-- A report changes the journal alone, if putting its message together changes nothing. -/
theorem ends_report {threshold : Verbosity} {level : Level} {message : Unit → SessionM ε String}
    {ok : Unit → Session → Prop} {err : Fault ε → Session → Prop}
    (hmessage : Ends (message ()) s (fun _ s' => s' = s) err) (hok : ∀ j, ok () { s with journal := j }) :
    Ends (report p threshold level message) s ok err := by
  simp only [report, ends_bind, ends_get, ends_ite, ends_modify, ends_pure]
  refine ⟨fun _ => hmessage.mono (fun text s' hs' => ?_) fun _ _ he => he, fun _ => hok s.journal⟩
  subst hs'
  exact hok _

/-- A set that is kept is found. Otherwise the set that is computed is kept, which is the empty one above
`maxOrder`. -/
theorem ends_remember {kind : SetKind} {compute : AnalysisM MixedSet} {ok : MixedSet → Session → Prop}
    {err : Fault AnalysisError → Session → Prop}
    (hkept : ∀ set, s.sets[(⟨kind, p.id, n, k⟩ : SetKey)]? = some set → ok set s)
    (hcompute : Ends (if maxOrder < k then pure ∅ else compute) s
      (fun set s' => (∀ j, ok set { s' with journal := j, sets := s'.sets.insert ⟨kind, p.id, n, k⟩ set }) ∧
        (g.node? n = none → ∀ m, err (.misuse m) s')) err) :
    Ends (remember g p kind n k compute) s ok err := by
  rw [remember, ends_bind, ends_get]
  have htail : ∀ set s', (∀ j, ok set { s' with journal := j, sets := s'.sets.insert ⟨kind, p.id, n, k⟩ set }) ∧
      (g.node? n = none → ∀ m, err (.misuse m) s') →
      Ends (do
        report p .high .trace fun _ => do
          let expr ← checked (g.describe n)
          return s!"{kind.text}[{k}] of {expr} in {p.text}: {set.text}"
        modify fun s => { s with sets := s.sets.insert ⟨kind, p.id, n, k⟩ set }
        return set) s' ok err := by
    intro set s' h
    rw [ends_bind]
    refine ends_report ?_ fun j => ?_
    · rw [ends_bind]
      exact ends_checked_describe rfl h.2
    · simpa using h.1 j
  split
  · exact hkept _ ‹_›
  · rw [ends_ite] at hcompute ⊢
    refine ⟨fun hk => ?_, fun hk => ?_⟩
    · exact htail ∅ s (hcompute.1 hk)
    · rw [ends_bind]
      exact (hcompute.2 hk).mono (fun set s' h => htail set s' h) fun _ _ he => he

/-! ## Nonzero sets -/

/-- How looking for nonzero derivatives of a node fails: the node does not exist. -/
def NotThere (g : Graph) (s : Session) (n : NodeId) (e : Fault AnalysisError) (s' : Session) : Prop :=
  (∃ m, e = .misuse m) ∧ g.node? n = none ∧ s'.Consistent g ∧ Looks s s'

/-- **Nonzero sets are found** in every consistent session, for every node that exists. -/
theorem ends_findNonzero (hg : g.WellFormed) (p : Pass) (hs : s.Consistent g) (n : NodeId) (k : Nat) :
    Ends (findNonzero g p n k) s (fun set s' => set = g.nonzero n k ∧ s'.Consistent g ∧ Looks s s')
      (NotThere g s n) := by
  induction n using Nat.strongRecOn generalizing s k with
  | ind n ih =>
    have hkeep : ∀ {s' : Session} (j : Journal), s'.Consistent g → Looks s s' →
        let sets := s'.sets.insert ⟨.nonzero, p.id, n, k⟩ (g.nonzero n k)
        Consistent g { s' with journal := j, sets } ∧ Looks s { s' with journal := j, sets } :=
      fun j hs' hl => ⟨(hs'.journal j).insert (by simp) rfl,
        (hl.trans (looks_journal _ j)).trans (looks_insert rfl)⟩
    rw [findNonzero, recurse_eq]
    refine ends_remember (fun set hset => ⟨hs.kept _ _ hset, hs, .refl s⟩)
      (ends_ite.mpr ⟨fun hk => ?_, fun hk => ?_⟩)
    · rw [ends_pure, ← Graph.nonzero_of_maxOrder_lt (g := g) (n := n) hk]
      exact ⟨fun j => ⟨rfl, hkeep j hs (.refl s)⟩, fun hn m => ⟨⟨m, rfl⟩, hn, hs, .refl s⟩⟩
    · rw [ends_bind]
      cases hn : g.node? n with
      | none => simpa [Graph.node_eq_error hn] using ⟨⟨_, rfl⟩, hn, hs, .refl s⟩
      | some node =>
        refine ends_checked_node hn ?_
        have hrun := Ends.run (node.asksOnly_nonzero g k) (w := g.nonzeroAt)
          (f := fun place => (if place.node < n then findNonzero g p place.node
            else fun _ => unorderedNode g place.node) place.order)
          (fun s' => s'.Consistent g ∧ Looks s s') (E := fun _ _ => False) (fun place hplace s' hs' => ?_)
          ⟨hs, .refl s⟩
        · refine hrun.mono (fun set s' h => ?_) fun _ _ he => he.elim
          obtain ⟨rfl, hs', hl⟩ := h
          rw [← Graph.nonzero_eq hg hn (Nat.not_lt.mp hk)]
          exact ⟨fun j => ⟨rfl, hkeep j hs' hl⟩, by simp⟩
        · have hlt : place.node < n := hg.child_lt n node hn _ hplace
          rw [if_pos hlt]
          refine (ih place.node hlt hs'.1 place.order).mono (fun set s'' h => ?_) fun _ _ he => ?_
          · exact ⟨h.1, h.2.1, hs'.2.trans h.2.2⟩
          · obtain ⟨child, hchild⟩ := hg.node?_child hn hplace
            simp [NotThere, hchild] at he

/-! ## Required, varying and constant sets -/

/-- How looking for required derivatives of a node fails: the node is not ready. -/
def NotReady (g : Graph) (p : Pass) (s : Session) (n : NodeId) (e : Fault AnalysisError)
    (s' : Session) : Prop :=
  ⟨p.id, n⟩ ∉ s.ready ∧
    (e = .error (.notReady (g.text n) p.text) ∨ (∃ m, e = .misuse m) ∧ g.node? n = none) ∧
    s'.Consistent g ∧ TellsApart s s'

theorem Consistent.notReady_of_none (hs : s.Consistent g) (hn : g.node? n = none) (p : Pass) (m : Misuse) :
    NotReady g p s n (.misuse m) s := by
  refine ⟨fun hready => ?_, .inr ⟨⟨m, rfl⟩, hn⟩, hs, .refl s⟩
  obtain ⟨node, hn'⟩ := hs.exists_node p.id n hready
  simp [hn] at hn'

/-- The required set of a node is found exactly if the node is ready. -/
theorem ends_findRequired (hs : s.Consistent g) (p : Pass) (n : NodeId) (k : Nat) :
    Ends (findRequired g p n k) s
      (fun set s' => set = s.requiredSet p.id n k ∧ ⟨p.id, n⟩ ∈ s.ready ∧ s' = s) (NotReady g p s n) := by
  simp only [findRequired, ends_bind, ends_get, ends_ite, ends_pure, ends_throw]
  refine ⟨fun hr => ⟨trivial, hr, trivial⟩, fun hr => ends_checked_describe ?_ fun hn m => ?_⟩
  · exact ⟨hr, .inl rfl, hs, .refl s⟩
  · exact hs.notReady_of_none hn p m

/-- The result of the rule for a node whose answers are cut down to what is required, cut down to what is
required of the node. -/
theorem varying_inter_requiredSet (hg : g.WellFormed) (hs : s.Consistent g) {q : PassId} {node : Node}
    (hn : g.node? n = some node) (hk : k ≤ maxOrder) {set : MixedSet}
    (hset : ∀ m, m ∈ set ↔ node.Varies g (s.requiredSet q)
      (fun c j => g.varying c j ∩ s.requiredSet q c j) n k m) :
    set ∩ s.requiredSet q n k = g.varying n k ∩ s.requiredSet q n k := by
  refine Std.ExtTreeSet.ext_mem fun m => ?_
  rw [Std.ExtTreeSet.mem_inter_iff, Std.ExtTreeSet.mem_inter_iff]
  refine and_congr_left fun hm => ?_
  rw [hset, Graph.mem_varying hg hn hk]
  exact Node.varies_restrict hg hn hm (hs.mem_nonzero hm) (fun c j m' => hs.closed q n k m c j m' hm)
    fun _ _ _ _ => Std.ExtTreeSet.mem_inter_iff

/-- A right set that is kept, with a message in the journal, leaves a session consistent. -/
theorem Consistent.keep {s' : Session} (hs' : s'.Consistent g) (ht : TellsApart s s')
    {key : SetKey} {set : MixedSet} (hkind : key.kind ≠ .required) (hright : s.IsRight g key set) (j : Journal) :
    Consistent g { s' with journal := j, sets := s'.sets.insert key set } ∧
      TellsApart s { s' with journal := j, sets := s'.sets.insert key set } ∧
      (s'.sets.insert key set)[key]? = some set := by
  have hj : TellsApart s { s' with journal := j } := ht.trans (looks_journal s' j).tellsApart
  have hright' : IsRight g { s' with journal := j } key set := hright.of_tellsApart hj
  exact ⟨(hs'.journal j).insert hkind hright',
    hj.trans ((hs'.journal j).tellsApart_insert hkind hright'), by simp⟩

/-- Above `maxOrder` no derivatives are told apart, also if the node is not ready. -/
theorem Consistent.isRight_empty (hs : s.Consistent g) (hk : maxOrder < k) {kind : SetKind}
    (hkind : kind.IsClass)
    (q : PassId) (n : NodeId) : s.IsRight g ⟨kind, q, n, k⟩ ∅ := by
  obtain rfl | rfl := hkind
  all_goals
    refine ⟨Std.ExtTreeSet.ext_mem fun m => ?_, fun hk' => absurd hk' (Nat.not_le.mpr hk)⟩
    simp [hs.requiredSet_of_maxOrder_lt hk, Std.ExtTreeSet.mem_inter_iff, Std.ExtTreeSet.mem_diff_iff]

/-- **Varying sets are found** in every consistent session for every node that is ready: the required
derivatives that vary. -/
theorem ends_findVarying (hg : g.WellFormed) (p : Pass) (hs : s.Consistent g) (n : NodeId) (k : Nat) :
    Ends (findVarying g p n k) s
      (fun set s' => s.IsRight g ⟨.varying, p.id, n, k⟩ set ∧ s'.Consistent g ∧ TellsApart s s' ∧
        s'.sets[(⟨.varying, p.id, n, k⟩ : SetKey)]? = some set) (NotReady g p s n) := by
  induction n using Nat.strongRecOn generalizing s k with
  | ind n ih =>
    rw [findVarying, recurse_eq]
    refine ends_remember (fun set hset => ⟨hs.kept _ _ hset, hs, .refl s, hset⟩)
      (ends_ite.mpr ⟨fun hk => ?_, fun hk => ?_⟩)
    · have hright := hs.isRight_empty hk (.inr rfl) p.id n
      exact ⟨fun j => ⟨hright, hs.keep (.refl s) (by simp) hright j⟩,
        fun hnone => hs.notReady_of_none hnone p⟩
    · rw [ends_bind]
      refine (ends_findRequired hs p n k).mono (fun required s' h => ?_) fun _ _ he => he
      obtain ⟨rfl, hready, rfl⟩ := h
      obtain ⟨node, hn⟩ := hs.exists_node p.id n hready
      rw [ends_bind]
      refine ends_checked_node hn ?_
      have hoperand : ∀ c ∈ node.children, ⟨p.id, c⟩ ∈ s'.ready :=
        fun c hc => hs.operand_ready p.id n c hready ⟨node, hn, hc⟩
      rw [ends_bind]
      refine Ends.mono (Ends.run (node.asksOnly_varying g n k)
        (w := g.answers (s'.requiredSet p.id) fun c j => g.varying c j ∩ s'.requiredSet p.id c j)
        (fun s'' => s''.Consistent g ∧ TellsApart s' s'') (E := fun _ _ => False) (fun q hq s'' hs'' => ?_)
        ⟨hs, .refl s'⟩) (fun result s'' h => ?_) fun _ _ he => he.elim
      · cases q with
        | nonzero place =>
          have hthere : ∃ node', g.node? place.node = some node' := by
            rcases hq with hq | hq
            · exact hg.node?_child hn hq
            · exact ⟨node, hq ▸ hn⟩
          obtain ⟨node', hn'⟩ := hthere
          refine (ends_findNonzero hg p hs''.1 place.node place.order).mono (fun set s''' h => ?_)
            fun _ _ he => ?_
          · exact ⟨h.1, h.2.1, hs''.2.trans h.2.2.tellsApart⟩
          · simp [NotThere, hn'] at he
        | required place =>
          have hq : place.node = n := hq
          refine (ends_findRequired hs''.1 p place.node place.order).mono (fun set s''' h => ?_)
            fun _ _ he => ?_
          · obtain ⟨rfl, -, rfl⟩ := h
            exact ⟨hs''.2.required _ _ _, hs''⟩
          · exact he.1 (by rwa [hs''.2.ready, hq])
        | varying place =>
          have hlt : place.node < n := hg.child_lt n node hn _ hq
          show Ends ((if place.node < n then findVarying g p place.node
            else fun _ => unorderedNode g place.node) place.order) _ _ _
          rw [if_pos hlt]
          refine (ih place.node hlt hs''.1 place.order).mono (fun set s''' h => ?_) fun _ _ he => ?_
          · obtain ⟨⟨rfl, -⟩, hs''', ht, -⟩ := h
            refine ⟨?_, hs''', hs''.2.trans ht⟩
            rw [hs''.2.required]
            rfl
          · exact he.1 (by rw [hs''.2.ready]; exact hoperand place.node hq)
      · obtain ⟨rfl, hs'', ht⟩ := h
        obtain ⟨set, hset, hmem⟩ := node.exists_varying hg (s'.requiredSet p.id)
          (fun c j => g.varying c j ∩ s'.requiredSet p.id c j) n k
        rw [hset, ends_bind, ends_checked]
        have hright : s'.IsRight g ⟨.varying, p.id, n, k⟩ (set ∩ s'.requiredSet p.id n k) :=
          ⟨varying_inter_requiredSet hg hs hn (Nat.not_lt.mp hk) hmem, fun _ => hready⟩
        refine ⟨fun set' h => ?_, fun m h => by cases h⟩
        obtain rfl : set = set' := by simpa using h
        rw [ends_pure]
        exact ⟨fun j => ⟨hright, hs''.keep ht (by simp) hright j⟩, by simp [hn]⟩

/-- **Constant sets are found** in every consistent session for every node that is ready: the required
derivatives that do not vary. -/
theorem ends_findConstant (hg : g.WellFormed) (p : Pass) (hs : s.Consistent g) (n : NodeId) (k : Nat) :
    Ends (findConstant g p n k) s
      (fun set s' => s.IsRight g ⟨.constant, p.id, n, k⟩ set ∧ s'.Consistent g ∧ TellsApart s s' ∧
        s'.sets[(⟨.constant, p.id, n, k⟩ : SetKey)]? = some set) (NotReady g p s n) := by
  refine ends_remember (fun set hset => ⟨hs.kept _ _ hset, hs, .refl s, hset⟩)
    (ends_ite.mpr ⟨fun hk => ?_, fun hk => ?_⟩)
  · have hright := hs.isRight_empty hk (.inl rfl) p.id n
    exact ⟨fun j => ⟨hright, hs.keep (.refl s) (by simp) hright j⟩,
      fun hnone => hs.notReady_of_none hnone p⟩
  · rw [ends_bind]
    refine (ends_findRequired hs p n k).mono (fun required s' h => ?_) fun _ _ he => he
    obtain ⟨rfl, hready, rfl⟩ := h
    rw [ends_bind]
    refine (ends_findVarying hg p hs n k).mono (fun varying s'' h => ?_) fun _ _ he => he
    obtain ⟨⟨rfl, -⟩, hs'', ht, -⟩ := h
    have hright : s'.IsRight g ⟨.constant, p.id, n, k⟩
        (s'.requiredSet p.id n k \ (g.varying n k ∩ s'.requiredSet p.id n k)) := by
      refine ⟨Std.ExtTreeSet.ext_mem fun m => ?_, fun _ => hready⟩
      simp only [Std.ExtTreeSet.mem_diff_iff, Std.ExtTreeSet.mem_inter_iff]
      grind
    obtain ⟨node, hn⟩ := hs.exists_node p.id n hready
    rw [ends_pure]
    exact ⟨fun j => ⟨hright, hs''.keep ht (by simp) hright j⟩, by simp [hn]⟩

end Session

end FormSparsity

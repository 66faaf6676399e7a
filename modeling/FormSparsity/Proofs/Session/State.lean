import FormSparsity.Proofs.Analysis.Varying
import FormSparsity.Session.State

/-!
Consistent sessions. A session is consistent with a graph (`Session.Consistent`) if what it keeps is what
it should be: nonzero sets are those of the graph, required sets are the nonzero part of the demand
passed on, everything that a required derivative asks of the operands is required there, and what is
kept as varying or constant is the part of the required set that varies by `Graph.varying`, or the rest.

Three relations say how little a computation changes: it *looks* if it finds nonzero sets alone, it
*tells apart* if it finds varying and constant sets too, and it *determines* if it adds to required
sets. In each case the later session *extends* the earlier one.
-/
namespace FormSparsity

/-- Whether sets of the kind tell required derivatives apart. -/
def SetKind.IsClass (kind : SetKind) : Prop := kind = .constant ∨ kind = .varying

namespace Session

variable {s s' s'' : Session} {p : PassId} {n : NodeId} {k : Nat} {m : Mixed}

/-! ## Looking up and adding -/

theorem getElem?_sets_insert {key key' : SetKey} {set : MixedSet} :
    (s.sets.insert key set)[key']? = if key = key' then some set else s.sets[key']? := by
  simp [Std.ExtTreeMap.getElem?_insert]

theorem requiredSet_eq : s.requiredSet p n k = (s.sets[(⟨.required, p, n, k⟩ : SetKey)]?).getD ∅ :=
  Std.ExtTreeMap.getD_eq_getD_getElem?

theorem isClassified_iff : s.isClassified p n k = true ↔
    ∃ kind : SetKind, kind.IsClass ∧ ∃ set, s.sets[(⟨kind, p, n, k⟩ : SetKey)]? = some set := by
  simp only [isClassified, Bool.or_eq_true, Std.ExtTreeMap.contains_eq_isSome_getElem?,
    Option.isSome_iff_exists,
    SetKind.IsClass, or_and_right, exists_or, exists_eq_left]

/-- The demand that a node has passed on in a pass. -/
def passed (s : Session) (p : PassId) (n : NodeId) : Demand := s.propagated.getD ⟨p, n⟩ []

theorem passed_eq : s.passed p n = (s.propagated[(⟨p, n⟩ : NodeKey)]?).getD [] :=
  Std.ExtTreeMap.getD_eq_getD_getElem?

theorem requiredSet_addRequired {q : PassId} {c : NodeId} {j : Nat} {set : MixedSet} :
    m ∈ (s.addRequired p n k set).requiredSet q c j ↔
      m ∈ s.requiredSet q c j ∨ (q, c, j) = (p, n, k) ∧ m ∈ set := by
  unfold addRequired
  split
  · rename_i h
    simp [Std.ExtTreeSet.isEmpty_iff.mp h]
  · rw [requiredSet_eq, getElem?_sets_insert]
    split
    · rename_i h
      obtain ⟨rfl, rfl, rfl⟩ : p = q ∧ n = c ∧ k = j := by simpa using h
      simp [Std.ExtTreeSet.mem_union_iff]
    · rename_i h
      rw [← requiredSet_eq]
      have hne : (q, c, j) ≠ (p, n, k) := by
        rintro ⟨⟩
        exact h rfl
      simp [hne]

theorem sets_addRequired {key : SetKey} {set : MixedSet} (h : key.kind ≠ .required) :
    (s.addRequired p n k set).sets[key]? = s.sets[key]? := by
  unfold addRequired
  split
  · rfl
  · rw [getElem?_sets_insert, if_neg]
    rintro rfl
    exact h rfl

@[simp] theorem propagated_addRequired {set : MixedSet} :
    (s.addRequired p n k set).propagated = s.propagated := by
  unfold addRequired
  split <;> rfl

@[simp] theorem ready_addRequired {set : MixedSet} : (s.addRequired p n k set).ready = s.ready := by
  unfold addRequired
  split <;> rfl

@[simp] theorem passes_addRequired {set : MixedSet} : (s.addRequired p n k set).passes = s.passes := by
  unfold addRequired
  split <;> rfl

@[simp] theorem samples_addRequired {set : MixedSet} : (s.addRequired p n k set).samples = s.samples := by
  unfold addRequired
  split <;> rfl

@[simp] theorem journal_addRequired {set : MixedSet} : (s.addRequired p n k set).journal = s.journal := by
  unfold addRequired
  split <;> rfl

theorem getElem?_recordPropagated {key key' : NodeKey} {demand : Demand} :
    (s.recordPropagated key demand).propagated[key']? =
      if key = key' then some ((s.propagated.getD key []).merge demand) else s.propagated[key']? := by
  simp [recordPropagated, Std.ExtTreeMap.getElem?_insert]

/-! ## How sessions follow each other -/

/-- Whether the sessions differ in the nonzero sets that they keep, and in what no set depends on. -/
structure Looks (s s' : Session) : Prop where
  sets : ∀ key : SetKey, key.kind ≠ .nonzero → s'.sets[key]? = s.sets[key]?
  propagated : s'.propagated = s.propagated
  ready : s'.ready = s.ready
  passes : s'.passes = s.passes

/-- Whether the second session has told more required derivatives apart, with the same demand. -/
structure TellsApart (s s' : Session) : Prop where
  required : ∀ p n k, s'.requiredSet p n k = s.requiredSet p n k
  classes : ∀ (key : SetKey) set, key.kind.IsClass → s.sets[key]? = some set → s'.sets[key]? = some set
  propagated : s'.propagated = s.propagated
  ready : s'.ready = s.ready
  passes : s'.passes = s.passes

/-- Whether the second session has required sets that are no smaller, the same where they had been told
apart, and nothing more told apart. -/
structure Determines (s s' : Session) : Prop where
  required : ∀ p n k m, m ∈ s.requiredSet p n k → m ∈ s'.requiredSet p n k
  frozen : ∀ p n k, s.isClassified p n k = true → s'.requiredSet p n k = s.requiredSet p n k
  classes : ∀ key : SetKey, key.kind.IsClass → s'.sets[key]? = s.sets[key]?
  ready : ∀ key, key ∈ s.ready → key ∈ s'.ready
  passes : s'.passes = s.passes

/-- Whether what the first session has found is still there in the second one: nodes stay ready, required
derivatives stay required, and where they were told apart, nothing changes any more. -/
structure Extends (s s' : Session) : Prop where
  required : ∀ p n k m, m ∈ s.requiredSet p n k → m ∈ s'.requiredSet p n k
  frozen : ∀ p n k, s.isClassified p n k = true → s'.requiredSet p n k = s.requiredSet p n k
  classes : ∀ (key : SetKey) set, key.kind.IsClass → s.sets[key]? = some set → s'.sets[key]? = some set
  ready : ∀ key, key ∈ s.ready → key ∈ s'.ready

theorem not_isClass_nonzero : ¬SetKind.IsClass .nonzero := by rintro (h | h) <;> cases h

theorem not_isClass_required : ¬SetKind.IsClass .required := by rintro (h | h) <;> cases h

theorem Looks.refl (s : Session) : Looks s s := ⟨fun _ _ => rfl, rfl, rfl, rfl⟩

theorem Looks.trans (h : Looks s s') (h' : Looks s' s'') : Looks s s'' where
  sets key hk := (h'.sets key hk).trans (h.sets key hk)
  propagated := h'.propagated.trans h.propagated
  ready := h'.ready.trans h.ready
  passes := h'.passes.trans h.passes

theorem Looks.requiredSet (h : Looks s s') (p : PassId) (n : NodeId) (k : Nat) :
    s'.requiredSet p n k = s.requiredSet p n k := by
  rw [requiredSet_eq, requiredSet_eq, h.sets _ (by simp)]

theorem Looks.classes (h : Looks s s') (key : SetKey) (hk : key.kind.IsClass) :
    s'.sets[key]? = s.sets[key]? :=
  h.sets key fun h0 => not_isClass_nonzero (h0 ▸ hk)

theorem Looks.tellsApart (h : Looks s s') : TellsApart s s' where
  required := h.requiredSet
  classes key set hk hset := by rw [h.classes key hk, hset]
  propagated := h.propagated
  ready := h.ready
  passes := h.passes

theorem Looks.determines (h : Looks s s') : Determines s s' where
  required p n k m hm := by rwa [h.requiredSet]
  frozen p n k _ := h.requiredSet p n k
  classes := h.classes
  ready key hk := by rwa [h.ready]
  passes := h.passes

theorem TellsApart.refl (s : Session) : TellsApart s s := (Looks.refl s).tellsApart

theorem TellsApart.trans (h : TellsApart s s') (h' : TellsApart s' s'') : TellsApart s s'' where
  required p n k := (h'.required p n k).trans (h.required p n k)
  classes key set hk hset := h'.classes key set hk (h.classes key set hk hset)
  propagated := h'.propagated.trans h.propagated
  ready := h'.ready.trans h.ready
  passes := h'.passes.trans h.passes

theorem TellsApart.extends (h : TellsApart s s') : Extends s s' where
  required p n k m hm := by rwa [h.required]
  frozen p n k _ := h.required p n k
  classes := h.classes
  ready key hk := by rwa [h.ready]

theorem Determines.refl (s : Session) : Determines s s := (Looks.refl s).determines

theorem Determines.isClassified (h : Determines s s') : s'.isClassified p n k = s.isClassified p n k := by
  rw [Bool.eq_iff_iff, isClassified_iff, isClassified_iff]
  refine exists_congr fun kind => and_congr_right fun hk => ?_
  rw [h.classes _ hk]

theorem Determines.trans (h : Determines s s') (h' : Determines s' s'') : Determines s s'' where
  required p n k m hm := h'.required p n k m (h.required p n k m hm)
  frozen p n k hc := (h'.frozen p n k (h.isClassified.trans hc)).trans (h.frozen p n k hc)
  classes key hk := (h'.classes key hk).trans (h.classes key hk)
  ready key hk := h'.ready key (h.ready key hk)
  passes := h'.passes.trans h.passes

theorem Determines.extends (h : Determines s s') : Extends s s' where
  required := h.required
  frozen := h.frozen
  classes key set hk hset := by rw [h.classes key hk, hset]
  ready := h.ready

theorem Extends.refl (s : Session) : Extends s s := (Looks.refl s).tellsApart.extends

theorem Extends.isClassified (h : Extends s s') (hc : s.isClassified p n k = true) :
    s'.isClassified p n k = true := by
  obtain ⟨kind, hk, set, hset⟩ := isClassified_iff.mp hc
  exact isClassified_iff.mpr ⟨kind, hk, set, h.classes _ set hk hset⟩

theorem Extends.trans (h : Extends s s') (h' : Extends s' s'') : Extends s s'' where
  required p n k m hm := h'.required p n k m (h.required p n k m hm)
  frozen p n k hc := (h'.frozen p n k (h.isClassified hc)).trans (h.frozen p n k hc)
  classes key set hk hset := h'.classes key set hk (h.classes key set hk hset)
  ready key hk := h'.ready key (h.ready key hk)

theorem looks_journal (s : Session) (j : Journal) : Looks s { s with journal := j } :=
  ⟨fun _ _ => rfl, rfl, rfl, rfl⟩

theorem looks_evaluators (s : Session) (t : Std.ExtTreeMap NodeKey Evaluator) :
    Looks s { s with evaluators := t } := ⟨fun _ _ => rfl, rfl, rfl, rfl⟩

theorem looks_addSample (s : Session) (f : FunctionId) (α : MultiIndex) : Looks s (s.addSample f α) :=
  ⟨fun _ _ => rfl, rfl, rfl, rfl⟩

theorem looks_insert {key : SetKey} {set : MixedSet} (hkind : key.kind = .nonzero) :
    Looks s { s with sets := s.sets.insert key set } where
  sets key' hk' := by
    rw [getElem?_sets_insert, if_neg]
    rintro rfl
    exact hk' hkind
  propagated := rfl
  ready := rfl
  passes := rfl

/-! ## Consistency -/

/-- Whether a set is the one to be kept under a key, given the required sets. Of required sets nothing
is said. -/
def IsRight (g : Graph) (s : Session) : SetKey → MixedSet → Prop
  | ⟨.nonzero, _, n, k⟩, set => set = g.nonzero n k
  | ⟨.required, _, _, _⟩, _ => True
  | ⟨.constant, p, n, k⟩, set => set = s.requiredSet p n k \ g.varying n k ∧
    (k ≤ maxOrder → ⟨p, n⟩ ∈ s.ready)
  | ⟨.varying, p, n, k⟩, set => set = g.varying n k ∩ s.requiredSet p n k ∧
    (k ≤ maxOrder → ⟨p, n⟩ ∈ s.ready)

/-- Whether everything that a session keeps is what it should be. -/
structure Consistent (g : Graph) (s : Session) : Prop where
  kept : ∀ key set, s.sets[key]? = some set → s.IsRight g key set
  mem_required : ∀ p n k m, m ∈ s.requiredSet p n k ↔ m ∈ (s.passed p n).ofOrder k ∧ m ∈ g.nonzero n k
  ready_iff : ∀ p n, ⟨p, n⟩ ∈ s.ready ↔ ∃ demand, s.propagated[(⟨p, n⟩ : NodeKey)]? = some demand
  exists_node : ∀ p n, ⟨p, n⟩ ∈ s.ready → ∃ node, g.node? n = some node
  operand_ready : ∀ p n c, ⟨p, n⟩ ∈ s.ready → g.IsOperand n c → ⟨p, c⟩ ∈ s.ready
  closed : ∀ p n j r c k m, r ∈ s.requiredSet p n j → g.Asks n j r c k m → m ∈ s.requiredSet p c k
  closed_always : ∀ p n c k m, s.passed p n ≠ [] → g.AsksAlways n c k m → m ∈ s.requiredSet p c k

variable {g : Graph}

/-- A session that knows nothing yet is consistent. -/
theorem consistent_restart (g : Graph) (s : Session) : Consistent g s.restart := by
  have hrequired : ∀ p n k, s.restart.requiredSet p n k = ∅ := fun p n k => by
    rw [requiredSet_eq]
    simp [restart]
  have hpassed : ∀ p n, s.restart.passed p n = [] := fun p n => by
    rw [passed_eq]
    simp [restart]
  exact
    { kept := by simp [restart]
      mem_required := by simp [hrequired, hpassed]
      ready_iff := by simp [restart]
      exists_node := by simp [restart]
      operand_ready := by simp [restart]
      closed := by simp [hrequired]
      closed_always := by simp [hpassed] }

/-- The number of passes opened does not matter. -/
theorem Consistent.passes (hs : s.Consistent g) (count : Nat) :
    Consistent g { s with passes := count } where
  kept := hs.kept
  mem_required := hs.mem_required
  ready_iff := hs.ready_iff
  exists_node := hs.exists_node
  operand_ready := hs.operand_ready
  closed := hs.closed
  closed_always := hs.closed_always

theorem Consistent.mem_nonzero (hs : s.Consistent g) (h : m ∈ s.requiredSet p n k) : m ∈ g.nonzero n k :=
  ((hs.mem_required p n k m).mp h).2

/-- Derivatives are required of nodes that are ready alone. -/
theorem Consistent.ready_of_mem_required (hs : s.Consistent g) (h : m ∈ s.requiredSet p n k) :
    ⟨p, n⟩ ∈ s.ready := by
  have hpassed := ((hs.mem_required p n k m).mp h).1
  rw [passed_eq] at hpassed
  cases hseen : s.propagated[(⟨p, n⟩ : NodeKey)]? with
  | none => simp [hseen] at hpassed
  | some seen => exact (hs.ready_iff p n).mpr ⟨seen, hseen⟩

theorem Consistent.requiredSet_of_maxOrder_lt (hs : s.Consistent g) (hk : maxOrder < k) :
    s.requiredSet p n k = ∅ := by
  refine Std.ExtTreeSet.ext_mem fun m => ⟨fun h => ?_, fun h => absurd h Std.ExtTreeSet.not_mem_empty⟩
  have := Graph.le_maxOrder_of_mem_nonzero (hs.mem_nonzero h)
  omega

/-- Up to `maxOrder`, derivatives are told apart for nodes that are ready alone. -/
theorem Consistent.ready_of_isClassified (hs : s.Consistent g) (hk : k ≤ maxOrder)
    (hc : s.isClassified p n k = true) : ⟨p, n⟩ ∈ s.ready := by
  obtain ⟨kind, hkind, set, hset⟩ := isClassified_iff.mp hc
  have hright := hs.kept _ set hset
  obtain rfl | rfl := hkind
  · exact hright.2 hk
  · exact hright.2 hk

theorem IsRight.of_tellsApart {key : SetKey} {set : MixedSet} (h : TellsApart s s')
    (hright : s.IsRight g key set) :
    s'.IsRight g key set := by
  obtain ⟨kind, p, n, k⟩ := key
  cases kind with
  | nonzero => exact hright
  | required => trivial
  | constant | varying =>
    rw [IsRight, h.required, h.ready]
    exact hright

/-- Only one set is right where required derivatives are told apart. -/
theorem IsRight.eq {key : SetKey} {set set' : MixedSet} (hkind : key.kind.IsClass) (h : s.IsRight g key set)
    (h' : s.IsRight g key set') : set = set' := by
  obtain ⟨kind, p, n, k⟩ := key
  obtain rfl | rfl : kind = .constant ∨ kind = .varying := hkind
  · exact h.1.trans h'.1.symm
  · exact h.1.trans h'.1.symm

/-- A session with the same demand is consistent if the sets that it keeps are right. -/
theorem Consistent.of_tellsApart (hs : s.Consistent g) (h : TellsApart s s')
    (hkept : ∀ key set, s'.sets[key]? = some set → s.IsRight g key set) : s'.Consistent g where
  kept key set hset := (hkept key set hset).of_tellsApart h
  mem_required p n k m := by
    rw [h.required, passed, h.propagated]
    exact hs.mem_required p n k m
  ready_iff p n := by
    rw [h.ready, h.propagated]
    exact hs.ready_iff p n
  exists_node p n := by
    rw [h.ready]
    exact hs.exists_node p n
  operand_ready p n c := by
    rw [h.ready]
    exact hs.operand_ready p n c
  closed p n j r c k m := by
    rw [h.required, h.required]
    exact hs.closed p n j r c k m
  closed_always p n c k m := by
    rw [h.required, passed, h.propagated]
    exact hs.closed_always p n c k m

/-- What no set depends on may change. -/
theorem Consistent.of_sets_eq (hs : s.Consistent g) (h : Looks s s') (hsets : s'.sets = s.sets) :
    s'.Consistent g :=
  hs.of_tellsApart h.tellsApart (hsets ▸ hs.kept)

theorem Consistent.journal (hs : s.Consistent g) (j : Journal) : Consistent g { s with journal := j } :=
  hs.of_sets_eq (looks_journal s j) rfl

/-- Keeping one more set that is right changes nothing else. -/
theorem Consistent.tellsApart_insert (hs : s.Consistent g) {key : SetKey} {set : MixedSet}
    (hkind : key.kind ≠ .required) (hright : s.IsRight g key set) :
    TellsApart s { s with sets := s.sets.insert key set } where
  required p n k := by
    rw [requiredSet_eq, requiredSet_eq, getElem?_sets_insert, if_neg]
    rintro rfl
    exact hkind rfl
  classes key' set' hk' hset' := by
    rw [getElem?_sets_insert]
    split
    · rename_i heq
      subst heq
      rw [hright.eq hk' (hs.kept _ _ hset')]
    · exact hset'
  propagated := rfl
  ready := rfl
  passes := rfl

theorem Consistent.insert (hs : s.Consistent g) {key : SetKey} {set : MixedSet}
    (hkind : key.kind ≠ .required)
    (hright : s.IsRight g key set) : Consistent g { s with sets := s.sets.insert key set } := by
  refine hs.of_tellsApart (hs.tellsApart_insert hkind hright) fun key' set' hset' => ?_
  rw [getElem?_sets_insert] at hset'
  split at hset'
  · rename_i heq
    obtain rfl : set = set' := by simpa using hset'
    exact heq ▸ hright
  · exact hs.kept key' set' hset'

end Session

end FormSparsity

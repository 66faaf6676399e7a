import FormSparsity.Proofs.Session.Find
import FormSparsity.Session.Require

/-!
Visits. Demand on a node that it has not passed on before is determined by a visit of the node (`visit`). A
visit refuses the demand at once (`refusedOrder`), or it accepts the nonzero part, passes parts of the demand
on to the operands, asks for samples if the node is a spatial derivative, and ends by adding what was accepted
to the required sets (`ends_visit_of_parts`). The end of a visit keeps the session consistent if the operands
have been given what the node asks for, and if nothing new is added where required derivatives were told apart
before (`Adds.consistent`).
-/
namespace FormSparsity

/-- What the spatial derivative in a direction samples for a first-order derivative of its operand. -/
def Graph.IsSample (g : Graph) (d : Nat) (z : Mixed) (h : FunctionId) (β : MultiIndex) : Prop :=
  ∃ f operator α, z = .ofAtom (.functional f operator) ∧ operator.multiIndex? = some α ∧
    g.discreteEvalPoint f = .ok (some h) ∧ β = α + .axis d

/-- The atom of a first-order derivative tells the function and the operator of a sample. -/
theorem Graph.isSample_ofAtom {g : Graph} {d : Nat} {f : FunctionId} {operator : Operator} {h : FunctionId}
    {β : MultiIndex} :
    g.IsSample d (.ofAtom (.functional f operator)) h β ↔
      ∃ α, operator.multiIndex? = some α ∧ g.discreteEvalPoint f = .ok (some h) ∧ β = α + .axis d := by
  constructor
  · rintro ⟨f', operator', α, heq, hα, hf, rfl⟩
    obtain ⟨rfl, rfl⟩ : f = f' ∧ operator = operator' := by simpa using heq
    exact ⟨α, hα, hf, rfl⟩
  · rintro ⟨α, hα, hf, rfl⟩
    exact ⟨f, operator, α, rfl, hα, hf, rfl⟩

namespace Session

variable {g : Graph} {p : Pass} {q : PassId} {s s' s'' : Session} {n : NodeId} {k : Nat}
variable {demand fresh : Demand}

/-! ## Visits -/

/-- The end of a visit: what was accepted is required, and it is recorded that the demand was passed on. -/
def recordVisit (q : PassId) (n : NodeId) (demand addition : Demand) : AnalysisM Unit := do
  addition.zipIdx.forM fun (set, order) => modify fun s => s.addRequired q n order set
  modify fun s => s.recordPropagated ⟨q, n⟩ demand
  modify fun s => { s with ready := s.ready.insert ⟨q, n⟩ }

/-- A visit of a node with demand that it has not passed on before. -/
def visit (g : Graph) (p : Pass) (n : NodeId) (operand : NodeId → Demand → AnalysisM Unit)
    (fresh : Demand) : AnalysisM Unit := do
  let addition ← fresh.zipIdx.mapM fun (demanded, order) => accept g p n order demanded
  let node ← checked (g.node n)
  let parts ← (node.demand g fresh addition).run fun place => findNonzero g p place.node place.order
  (← checked parts).forM fun (child, part) => operand child part
  if let .derivative direction arg := node then
    requestSamples g p n direction arg
  recordVisit p.id n fresh addition

/-- What a visit finds out before it passes demand on: the nonzero part of the demand, the node, and the demands
on its operands. -/
structure Preparation where
  addition : Demand
  node : Node
  parts : List (NodeId × Demand)

/-- The first part of a visit. -/
def prepare (g : Graph) (p : Pass) (n : NodeId) (fresh : Demand) : AnalysisM Preparation := do
  let addition ← fresh.zipIdx.mapM fun (demanded, order) => accept g p n order demanded
  let node ← checked (g.node n)
  let parts ← (node.demand g fresh addition).run fun place => findNonzero g p place.node place.order
  return ⟨addition, node, ← checked parts⟩

/-- The last part of a visit. -/
def finish (g : Graph) (p : Pass) (n : NodeId) (fresh : Demand) (v : Preparation) : AnalysisM Unit := do
  if let .derivative direction arg := v.node then
    requestSamples g p n direction arg
  recordVisit p.id n fresh v.addition

/-- Between its first and its last part a visit passes demand on. -/
theorem visit_eq (g : Graph) (p : Pass) (n : NodeId) (operand : NodeId → Demand → AnalysisM Unit)
    (fresh : Demand) : visit g p n operand fresh = prepare g p n fresh >>= fun v =>
      (v.parts.forM fun (c, part) => operand c part) >>= fun _ => finish g p n fresh v := by
  simp only [visit, prepare, finish, bind_assoc, pure_bind]

/-- Demand on a node is determined by a visit, unless it was all passed on before. -/
theorem ends_require_of_visit {demand : Demand} {ok : Unit → Session → Prop}
    {err : Fault AnalysisError → Session → Prop}
    (hseen : s.unpropagated ⟨p.id, n⟩ demand = none → ok () s)
    (hnone : g.node? n = none → ∀ m, err (.misuse m) s)
    (hvisit : ∀ fresh j, s.unpropagated ⟨p.id, n⟩ demand = some fresh →
      Ends (visit g p n (fun c => if c < n then require g p c else fun _ => unorderedNode g c) fresh)
        { s with journal := j } ok err) :
    Ends (require g p n demand) s ok err := by
  rw [require, recurse_eq, ends_bind, ends_get]
  split
  · rename_i hunpropagated
    exact hseen hunpropagated
  · rename_i fresh hunpropagated
    rw [ends_bind]
    refine ends_report ?_ fun j => hvisit fresh j hunpropagated
    rw [ends_bind]
    exact ends_checked_describe rfl hnone

/-! ## Demand that was passed on before -/

/-- The demand that is left over, together with what was passed on before, is the whole demand. -/
theorem unpropagated_eq_some {demand fresh : Demand} (h : s.unpropagated ⟨q, n⟩ demand = some fresh) :
    fresh.length = demand.length ∧ (∀ k m, m ∈ fresh.ofOrder k → m ∈ demand.ofOrder k) ∧
      ∀ k m, m ∈ demand.ofOrder k → m ∈ fresh.ofOrder k ∨ m ∈ (s.passed q n).ofOrder k := by
  rw [unpropagated] at h
  cases hseen : s.propagated[(⟨q, n⟩ : NodeKey)]? with
  | none =>
    simp only [hseen, Option.some.injEq] at h
    subst h
    exact ⟨rfl, fun k m hm => hm, fun k m hm => .inl hm⟩
  | some seen =>
    simp only [hseen, Option.ite_none_right_eq_some, Option.some.injEq] at h
    obtain ⟨-, rfl⟩ := h
    refine ⟨Demand.length_without, fun k m hm => (Demand.mem_ofOrder_without.mp hm).1, fun k m hm => ?_⟩
    rw [Demand.mem_ofOrder_without, passed_eq, hseen]
    simpa [hm] using Classical.em _ |>.symm

/-- Nothing is left over if the whole demand was passed on before. -/
theorem unpropagated_eq_none_iff {demand : Demand} : s.unpropagated ⟨q, n⟩ demand = none ↔
    (∃ seen, s.propagated[(⟨q, n⟩ : NodeKey)]? = some seen) ∧ demand.length ≤ (s.passed q n).length ∧
      ∀ k m, m ∈ demand.ofOrder k → m ∈ (s.passed q n).ofOrder k := by
  rw [unpropagated, passed_eq]
  cases hseen : s.propagated[(⟨q, n⟩ : NodeKey)]? with
  | none => simp
  | some seen =>
    simp only [Bool.or_eq_true, decide_eq_true_eq, ite_eq_right_iff, reduceCtorEq, imp_false, not_or,
      Nat.not_lt, Demand.isNonempty_iff, Demand.mem_ofOrder_without, Option.some.injEq, exists_eq',
      true_and, Option.getD_some]
    push Not
    rfl

/-! ## The end of a visit -/

/-- Whether the second session has more required derivatives of one node, and a record that it has passed
more demand on. -/
structure Adds (p : PassId) (n : NodeId) (demand addition : Demand) (s s' : Session) : Prop where
  required : ∀ q c j m, m ∈ s'.requiredSet q c j ↔
    m ∈ s.requiredSet q c j ∨ (q = p ∧ c = n) ∧ m ∈ addition.ofOrder j
  sets : ∀ key : SetKey, key.kind ≠ .required → s'.sets[key]? = s.sets[key]?
  propagated : ∀ key : NodeKey, s'.propagated[key]? =
    if ⟨p, n⟩ = key then some ((s.passed p n).merge demand) else s.propagated[key]?
  ready : ∀ key : NodeKey, key ∈ s'.ready ↔ key ∈ s.ready ∨ key = ⟨p, n⟩
  passes : s'.passes = s.passes

theorem ends_recordVisit (s : Session) (p : PassId) (n : NodeId) (demand addition : Demand) :
    Ends (recordVisit p n demand addition) s (fun _ s' => Adds p n demand addition s s')
      fun _ _ => False := by
  rw [recordVisit, ends_bind]
  refine Ends.mono (Ends.forM
    (fun done s' => (∀ q c j m, m ∈ s'.requiredSet q c j ↔
        m ∈ s.requiredSet q c j ∨ (q = p ∧ c = n) ∧ ∃ set, (set, j) ∈ done ∧ m ∈ set) ∧
      (∀ key : SetKey, key.kind ≠ .required → s'.sets[key]? = s.sets[key]?) ∧
      s'.propagated = s.propagated ∧ s'.ready = s.ready ∧ s'.passes = s.passes)
    (fun done b _ s' h => ?_) (by simp)) (fun _ s' h => ?_) fun _ _ he => he
  · obtain ⟨set, order⟩ := b
    obtain ⟨hrequired, hsets, hpropagated, hready, hpasses⟩ := h
    rw [ends_modify]
    refine ⟨fun q c j m => ?_, fun key hkey => (sets_addRequired hkey).trans (hsets key hkey), by simpa,
      by simpa, by simpa⟩
    rw [requiredSet_addRequired, hrequired]
    simp only [Prod.mk.injEq, List.mem_append, List.mem_singleton]
    grind
  · obtain ⟨hrequired, hsets, hpropagated, hready, hpasses⟩ := h
    rw [ends_bind, ends_modify, ends_modify]
    exact
      { required := fun q c j m => by
          refine (hrequired q c j m).trans (or_congr_right (and_congr_right fun _ => ?_))
          simp only [Demand.mem_ofOrder, List.mk_mem_zipIdx_iff_getElem?]
        sets := hsets
        propagated := fun key => by
          simp only [getElem?_recordPropagated, hpropagated, passed]
        ready := fun key => by
          simp only [recordPropagated, hready, Std.ExtTreeSet.mem_insert, Std.LawfulEqOrd.compare_eq_iff_eq]
          grind
        passes := hpasses }

/-- Nothing changes at a place where nothing new is added. -/
theorem Adds.requiredSet_eq {q : PassId} {n : NodeId} {demand addition : Demand}
    (h : Adds q n demand addition s s')
    (hfrozen : ∀ k, s.isClassified q n k = true → ∀ m ∈ addition.ofOrder k, m ∈ s.requiredSet q n k)
    {q' : PassId} {c : NodeId} (hc : s.isClassified q' c k = true) :
    s'.requiredSet q' c k = s.requiredSet q' c k := by
  refine Std.ExtTreeSet.ext_mem fun m => ?_
  rw [h.required]
  refine or_iff_left_of_imp ?_
  rintro ⟨⟨rfl, rfl⟩, hm⟩
  exact hfrozen k hc m hm

theorem Adds.determines {q : PassId} {demand addition : Demand} (h : Adds q n demand addition s s')
    (hfrozen : ∀ k, s.isClassified q n k = true → ∀ m ∈ addition.ofOrder k, m ∈ s.requiredSet q n k) :
    Determines s s' where
  required q' c j m hm := (h.required q' c j m).mpr (.inl hm)
  frozen _ _ _ hc := h.requiredSet_eq hfrozen hc
  classes key hk := h.sets key fun hr => not_isClass_required (hr ▸ hk)
  ready key hk := (h.ready key).mpr (.inl hk)
  passes := h.passes

/-- **A visit keeps a session consistent** if the operands have what the node asks for and nothing is
added where derivatives were told apart. -/
theorem Adds.consistent {q : PassId} {node : Node} {demand : Demand} (hs : s.Consistent g)
    (hn : g.node? n = some node) (h : Adds q n demand (g.accepted n demand) s s')
    (hfrozen : ∀ k, s.isClassified q n k = true →
      ∀ m ∈ (g.accepted n demand).ofOrder k, m ∈ s.requiredSet q n k)
    (hoperand : ∀ c ∈ node.children, ⟨q, c⟩ ∈ s.ready)
    (hasked : ∀ j r c k m, r ∈ demand.ofOrder j → r ∈ g.nonzero n j → g.Asks n j r c k m →
      m ∈ s.requiredSet q c k)
    (halways : ∀ c k m, demand ≠ [] → g.AsksAlways n c k m → m ∈ s.requiredSet q c k) :
    s'.Consistent g where
  kept key set hset := by
    obtain ⟨kind, q', c, k⟩ := key
    have hclass : kind.IsClass → s.isClassified q' c k = true := fun hk =>
      isClassified_iff.mpr ⟨kind, hk, set, by rwa [← h.sets _ fun hr => not_isClass_required (hr ▸ hk)]⟩
    cases kind with
    | required => trivial
    | nonzero => exact hs.kept _ _ ((h.sets _ (by simp)).symm.trans hset)
    | constant | varying =>
      have hright := hs.kept _ _ ((h.sets _ (by simp)).symm.trans hset)
      rw [IsRight, h.requiredSet_eq hfrozen (hclass (by simp [SetKind.IsClass]))]
      exact ⟨hright.1, fun hk => (h.ready _).mpr (.inl (hright.2 hk))⟩
  mem_required q' c j m := by
    rw [h.required, hs.mem_required, passed_eq, passed_eq, h.propagated]
    by_cases hkey : q' = q ∧ c = n
    · obtain ⟨rfl, rfl⟩ := hkey
      simp [Demand.mem_ofOrder_merge, Graph.mem_ofOrder_accepted, passed_eq, or_and_right]
    · have hne : ¬((⟨q, n⟩ : NodeKey) = ⟨q', c⟩) := by
        rintro ⟨⟩
        exact hkey ⟨rfl, rfl⟩
      simp [hkey, hne]
  ready_iff q' c := by
    rw [h.ready, hs.ready_iff, h.propagated]
    by_cases hkey : (⟨q, n⟩ : NodeKey) = ⟨q', c⟩
    · simp [hkey]
    · simp [hkey, Ne.symm hkey]
  exists_node q' c hc := by
    rcases (h.ready _).mp hc with hc | hc
    · exact hs.exists_node q' c hc
    · cases hc
      exact ⟨node, hn⟩
  operand_ready q' c c' hc hop := by
    rcases (h.ready _).mp hc with hc | hc
    · exact (h.ready _).mpr (.inl (hs.operand_ready q' c c' hc hop))
    · cases hc
      obtain ⟨node', hn', hc'⟩ := hop
      obtain rfl : node = node' := by simpa [hn] using hn'
      exact (h.ready _).mpr (.inl (hoperand c' hc'))
  closed q' c j r c' k m hr hasks := by
    refine (h.required _ _ _ _).mpr (.inl ?_)
    rcases (h.required _ _ _ _).mp hr with hr | ⟨⟨rfl, rfl⟩, hr⟩
    · exact hs.closed q' c j r c' k m hr hasks
    · obtain ⟨hd, hw⟩ := Graph.mem_ofOrder_accepted.mp hr
      exact hasked j r c' k m hd hw hasks
  closed_always q' c c' k m hc hasks := by
    refine (h.required _ _ _ _).mpr (.inl ?_)
    rw [passed_eq, h.propagated] at hc
    split at hc
    · rename_i hkey
      cases hkey
      by_cases hd : demand = []
      · refine hs.closed_always _ _ c' k m (fun hnil => hc ?_) hasks
        exact Demand.merge_eq_nil.mpr ⟨hnil, hd⟩
      · exact halways c' k m hd hasks
    · exact hs.closed_always q' c c' k m (by rwa [passed_eq]) hasks

/-! ## Acceptance -/

/-- Whether demand for an order of a node is refused: derivatives of the order were told apart, and the
nonzero part of the demand has others than those that were required. -/
def refuses (g : Graph) (q : PassId) (s : Session) (n : NodeId) : MixedSet × Nat → Bool
  | (demanded, k) =>
    s.isClassified q n k && !SortedSet.isSubset (demanded ∩ g.nonzero n k) (s.requiredSet q n k)

/-- The first order for which a demand on a node is refused, if there is one. -/
def refusedOrder (g : Graph) (q : PassId) (s : Session) (n : NodeId) (demand : Demand) : Option Nat :=
  (demand.zipIdx.find? (refuses g q s n)).map Prod.snd

theorem refuses_iff {demanded : MixedSet} : refuses g q s n (demanded, k) = true ↔
    s.isClassified q n k = true ∧ ∃ m ∈ demanded, m ∈ g.nonzero n k ∧ m ∉ s.requiredSet q n k := by
  simp only [refuses, Bool.and_eq_true, Bool.not_eq_true', ← Bool.not_eq_true, SortedSet.isSubset_iff,
    Std.ExtTreeSet.mem_toList, Std.ExtTreeSet.mem_inter_iff]
  push Not
  simp only [and_assoc]

theorem refusedOrder_eq_none (h : refusedOrder g q s n demand = none) (hc : s.isClassified q n k = true) :
    ∀ m ∈ (g.accepted n demand).ofOrder k, m ∈ s.requiredSet q n k := by
  intro m hm
  obtain ⟨hm, hw⟩ := Graph.mem_ofOrder_accepted.mp hm
  obtain ⟨demanded, hd, hm⟩ := Demand.mem_ofOrder.mp hm
  by_contra hr
  rw [refusedOrder, Option.map_eq_none_iff, List.find?_eq_none] at h
  exact h (demanded, k) (List.mk_mem_zipIdx_iff_getElem?.mpr hd) (refuses_iff.mpr ⟨hc, m, hm, hw, hr⟩)

theorem refusedOrder_eq_some (h : refusedOrder g q s n demand = some k) :
    s.isClassified q n k = true ∧ ∃ m ∈ demand.ofOrder k, m ∈ g.nonzero n k ∧ m ∉ s.requiredSet q n k := by
  obtain ⟨⟨demanded, k⟩, hfind, rfl⟩ := Option.map_eq_some_iff.mp h
  obtain ⟨hc, m, hm, hw, hr⟩ := refuses_iff.mp (List.find?_some hfind)
  have hd := List.mk_mem_zipIdx_iff_getElem?.mp (List.mem_of_find?_eq_some hfind)
  exact ⟨hc, m, Demand.mem_ofOrder.mpr ⟨demanded, hd, hm⟩, hw, hr⟩

/-- Whether two sessions have the same at a node: the same required sets, told apart where the other one has
told them apart, and the same demand passed on. -/
structure SameAt (q : PassId) (n : NodeId) (s s' : Session) : Prop where
  required : ∀ k, s'.requiredSet q n k = s.requiredSet q n k
  classified : ∀ k, s'.isClassified q n k = s.isClassified q n k
  propagated : s'.propagated[(⟨q, n⟩ : NodeKey)]? = s.propagated[(⟨q, n⟩ : NodeKey)]?

theorem SameAt.of_looks (h : Looks s s') : SameAt q n s s' :=
  ⟨h.requiredSet q n, fun _ => h.determines.isClassified, by rw [h.propagated]⟩

theorem SameAt.trans (h : SameAt q n s s') (h' : SameAt q n s' s'') : SameAt q n s s'' :=
  ⟨fun k => (h'.required k).trans (h.required k), fun k => (h'.classified k).trans (h.classified k),
    h'.propagated.trans h.propagated⟩

theorem SameAt.refuses_eq (h : SameAt q n s s') : refuses g q s' n = refuses g q s n := by
  funext ⟨demanded, k⟩
  simp only [refuses, h.required, h.classified]

theorem SameAt.refusedOrder_eq (h : SameAt q n s s') (demand : Demand) :
    refusedOrder g q s' n demand = refusedOrder g q s n demand := by
  rw [refusedOrder, refusedOrder, h.refuses_eq]

theorem SameAt.unpropagated_eq (h : SameAt q n s s') (demand : Demand) :
    s'.unpropagated ⟨q, n⟩ demand = s.unpropagated ⟨q, n⟩ demand := by
  rw [unpropagated, unpropagated, h.propagated]

/-- What is accepted of a demand on a node that exists is its nonzero part, unless it is refused. -/
theorem ends_accept (hg : g.WellFormed) (p : Pass) (hs : s.Consistent g) (n : NodeId) (k : Nat)
    (demanded : MixedSet) :
    Ends (accept g p n k demanded) s
      (fun set s' => set = demanded ∩ g.nonzero n k ∧ refuses g p.id s n (demanded, k) = false ∧
        s'.Consistent g ∧ Looks s s')
      (fun e s' => ((∃ m, e = .misuse m ∧ g.node? n = none) ∨
        e = .error (.grewAfterClassification (g.text n) p.text k) ∧ refuses g p.id s n (demanded, k) = true) ∧
        s'.Consistent g ∧ Looks s s') := by
  rw [accept, ends_bind]
  refine (ends_findNonzero hg p hs n k).mono (fun set s' h => ?_) fun e s' h => ?_
  · obtain ⟨rfl, hs', hl⟩ := h
    have hrefuses : refuses g p.id s' n (demanded, k) = refuses g p.id s n (demanded, k) := by
      rw [(SameAt.of_looks hl).refuses_eq]
    rw [ends_bind, ends_get, ← hrefuses]
    refine ends_ite.mpr ⟨fun hc => ?_, fun hc => ⟨rfl, Bool.eq_false_iff.mpr hc, hs', hl⟩⟩
    rw [ends_bind]
    exact ends_checked_describe ⟨.inr ⟨rfl, hc⟩, hs', hl⟩ fun hn m => ⟨.inl ⟨m, rfl, hn⟩, hs', hl⟩
  · obtain ⟨⟨m, rfl⟩, hn, hs', hl⟩ := h
    exact ⟨.inl ⟨m, rfl, hn⟩, hs', hl⟩

/-- A demand on a node that exists is accepted as a whole, unless it is refused for some order. -/
theorem ends_acceptance (hg : g.WellFormed) (p : Pass) (hs : s.Consistent g)
    (hn : ∃ node, g.node? n = some node) (fresh : Demand) :
    Ends (fresh.zipIdx.mapM fun (demanded, order) => accept g p n order demanded) s
      (fun addition s' => refusedOrder g p.id s n fresh = none ∧ addition = g.accepted n fresh ∧
        s'.Consistent g ∧ Looks s s')
      (fun e s' => ∃ k, refusedOrder g p.id s n fresh = some k ∧
        e = .error (.grewAfterClassification (g.text n) p.text k) ∧ s'.Consistent g ∧ Looks s s') := by
  obtain ⟨node, hn⟩ := hn
  refine Ends.mono (Ends.mapM_find (fun s' => s'.Consistent g ∧ Looks s s')
    (refuses g p.id s n) (fun (demanded, k) => demanded ∩ g.nonzero n k)
    (fun (_, k) e s' => e = .error (.grewAfterClassification (g.text n) p.text k) ∧ s'.Consistent g ∧
      Looks s s') (fun b _ s' h => ?_) ⟨hs, .refl s⟩) (fun addition s' h => ?_) fun e s' h => ?_
  · obtain ⟨demanded, k⟩ := b
    obtain ⟨hs', hl⟩ := h
    rw [← (SameAt.of_looks hl).refuses_eq]
    refine (ends_accept hg p hs' n k demanded).mono (fun set s'' h => ?_) fun e s'' h => ?_
    · obtain ⟨rfl, haccepts, hs'', hl'⟩ := h
      exact ⟨haccepts, rfl, hs'', hl.trans hl'⟩
    · obtain ⟨⟨m, -, hnone⟩ | ⟨rfl, hrefuses⟩, hs'', hl'⟩ := h
      · simp [hn] at hnone
      · exact ⟨hrefuses, rfl, hs'', hl.trans hl'⟩
  · obtain ⟨hfind, rfl, h⟩ := h
    exact ⟨Option.map_eq_none_iff.mpr hfind, rfl, h⟩
  · obtain ⟨⟨demanded, k⟩, hfind, h⟩ := h
    exact ⟨k, Option.map_eq_some_iff.mpr ⟨_, hfind, rfl⟩, h⟩

/-- What a node asks of its operands is found by its rule. -/
theorem ends_demand (hg : g.WellFormed) (p : Pass) {node : Node} (hn : g.node? n = some node)
    (hs : s.Consistent g) (input nonzero : Demand) :
    Ends ((node.demand g input nonzero).run fun place => findNonzero g p place.node place.order) s
      (fun result s' => result = (node.demand g input nonzero).value g.nonzeroAt ∧ s'.Consistent g ∧ Looks s s')
      fun _ _ => False := by
  refine Ends.run (node.asksOnly_demand input nonzero) (fun s' => s'.Consistent g ∧ Looks s s')
    (fun place hplace s' hs' => ?_) ⟨hs, .refl s⟩
  obtain ⟨child, hchild⟩ := hg.node?_child hn hplace
  refine (ends_findNonzero hg p hs'.1 place.node place.order).mono (fun set s'' h => ?_) fun _ _ he => ?_
  · exact ⟨h.1, h.2.1, hs'.2.trans h.2.2⟩
  · simp [NotThere, hchild] at he

/-! ## Samples -/

/-- What a function is evaluated at is a discrete function, if it is not zero. -/
theorem exists_discreteEvalPoint_some (hp : g.HasDiscretePoints) {f : FunctionId}
    (hf : g.isLinearized f = true) : ∃ h, g.discreteEvalPoint f = .ok (some h) := by
  unfold Graph.isLinearized at hf
  split at hf
  · rename_i point hpoint
    obtain ⟨n, name, f', role, hn⟩ := Graph.exists_symbolic_of_evalPoint? hpoint
    obtain ⟨node, hnode, hdiscrete⟩ := hp n name f' role point hn
    unfold Graph.discreteEvalPoint
    rw [hpoint]
    dsimp only
    rw [Graph.node_eq_ok hnode]
    cases node with
    | discrete name h => exact ⟨h, rfl⟩
    | _ => simp [Node.isDiscrete] at hdiscrete
  · simp at hf

theorem exists_discreteEvalPoint (hp : g.HasDiscretePoints) (f : FunctionId) :
    ∃ h, g.discreteEvalPoint f = .ok h := by
  by_cases hf : g.isLinearized f = true
  · obtain ⟨h, hh⟩ := exists_discreteEvalPoint_some hp hf
    exact ⟨some h, hh⟩
  · refine ⟨none, ?_⟩
    unfold Graph.isLinearized at hf
    unfold Graph.discreteEvalPoint
    split
    · simp_all
    · rfl

/-- The derivatives of a discrete function whose values are needed. -/
def sampled (s : Session) (h : FunctionId) : SortedSet MultiIndex := s.samples.getD h ∅

theorem mem_sampled_addSample {f h : FunctionId} {β γ : MultiIndex} :
    β ∈ (s.addSample f γ).sampled h ↔ β ∈ s.sampled h ∨ h = f ∧ β = γ := by
  simp only [sampled, addSample, Std.ExtTreeMap.getD_insert]
  split
  · rename_i heq
    obtain rfl : f = h := Std.LawfulEqOrd.compare_eq_iff_eq.mp heq
    simp only [Std.ExtTreeSet.mem_insert, Std.LawfulEqOrd.compare_eq_iff_eq]
    grind
  · rename_i hne
    have hne : h ≠ f := by
      rintro rfl
      exact hne Std.ReflOrd.compare_self
    simp [hne]

/-- A sample is asked for. For a derivative that is not by other operators than partial ones, that fails only
if the discrete function is not there. -/
theorem ends_requestSample (p : Pass) (n : NodeId) (d : Nat) (z : Mixed) :
    Ends (requestSample g p n d z) s
      (fun _ s' => s'.sets = s.sets ∧ Looks s s' ∧
        ∀ h β, β ∈ s'.sampled h ↔ β ∈ s.sampled h ∨ g.IsSample d z h β)
      (fun e s' => s' = s ∧ (z.IsRegular → (∃ m, e = .misuse m) ∧ ¬g.HasDiscretePoints)) := by
  have hno : (¬∃ h β, g.IsSample d z h β) →
      s.sets = s.sets ∧ Looks s s ∧ ∀ h β, β ∈ s.sampled h ↔ β ∈ s.sampled h ∨ g.IsSample d z h β := by
    intro hno
    refine ⟨rfl, .refl s, fun h β => ⟨.inl, fun hβ => hβ.resolve_right fun hz => hno ⟨h, β, hz⟩⟩⟩
  rw [requestSample]
  split
  · rename_i f operator hatoms
    obtain rfl := Mixed.eq_ofAtom_of_atoms hatoms
    rw [ends_bind, ends_checked]
    refine ⟨fun point hpoint => ?_, fun e he => ⟨rfl, fun _ => ⟨⟨e, rfl⟩, fun hp => ?_⟩⟩⟩
    · cases point with
      | none =>
        refine hno ?_
        rintro ⟨h, β, hz⟩
        obtain ⟨α, -, hf, -⟩ := Graph.isSample_ofAtom.mp hz
        simp [hpoint] at hf
      | some discrete =>
        cases hα : operator.multiIndex? with
        | none =>
          have hregular : ¬(Mixed.ofAtom (.functional f operator)).IsRegular := by
            intro hregular
            obtain ⟨α, -, rfl⟩ := hregular _ (Mixed.mem_ofAtom.mpr rfl)
            simp at hα
          dsimp only
          rw [ends_bind]
          exact ends_checked_describe ⟨rfl, fun h => absurd h hregular⟩ fun _ _ =>
            ⟨rfl, fun h => absurd h hregular⟩
        | some α =>
          dsimp only
          rw [ends_bind]
          refine ends_report rfl fun j => ?_
          rw [ends_modify]
          refine ⟨rfl, (looks_journal s j).trans (looks_addSample _ discrete _), fun h β => ?_⟩
          rw [mem_sampled_addSample, Graph.isSample_ofAtom, hpoint, hα]
          simp [sampled, eq_comm]
    · obtain ⟨h, hok⟩ := exists_discreteEvalPoint hp f
      simp [hok] at he
  · rename_i hatoms
    refine hno ?_
    rintro ⟨h, β, f, operator, α, rfl, -⟩
    exact hatoms f operator rfl

theorem ends_requestSamples (hg : g.WellFormed) (p : Pass) (hs : s.Consistent g) (n : NodeId) (d : Nat)
    {arg : NodeId} (harg : ⟨p.id, arg⟩ ∈ s.ready) :
    Ends (requestSamples g p n d arg) s (fun _ s' => s'.Consistent g ∧ Looks s s')
      (fun e s' => ((∃ m, e = .misuse m) ∧ ¬g.HasDiscretePoints) ∧ s'.Consistent g ∧ Looks s s') := by
  rw [requestSamples, ends_bind]
  refine (ends_findRequired hs p arg 1).mono (fun first s' h => ?_) fun _ _ he => absurd harg he.1
  obtain ⟨rfl, -, rfl⟩ := h
  refine Ends.forM (fun _ s'' => s''.Consistent g ∧ Looks s' s'') (fun _ m hm s'' h => ?_) ⟨hs, .refl s'⟩
  have hm : m.IsRegular :=
    Graph.isRegular_of_mem_nonzero hg (hs.mem_nonzero (Std.ExtTreeSet.mem_toList.mp hm))
  refine (ends_requestSample p n d m).mono (fun _ s₃ h' => ?_) fun e s₃ h' => ?_
  · obtain ⟨hsets, hl, -⟩ := h'
    exact ⟨h.1.of_sets_eq hl hsets, h.2.trans hl⟩
  · obtain ⟨rfl, he⟩ := h'
    exact ⟨he hm, h⟩

/-! ## The parts of a visit -/

/-- **The first part of a visit** of a node that exists accepts the demand and finds out what to pass on, or it
refuses the demand. -/
theorem ends_prepare (hg : g.WellFormed) (p : Pass) (hs : s.Consistent g) {node : Node}
    (hn : g.node? n = some node) (fresh : Demand) :
    Ends (prepare g p n fresh) s
      (fun v s' => refusedOrder g p.id s n fresh = none ∧ v.addition = g.accepted n fresh ∧ v.node = node ∧
        (node.demand g fresh (g.accepted n fresh)).value g.nonzeroAt = .ok v.parts ∧
        g.PassesOn n node fresh v.parts ∧ s'.Consistent g ∧ Looks s s')
      (fun e s' => ∃ k, refusedOrder g p.id s n fresh = some k ∧
        e = .error (.grewAfterClassification (g.text n) p.text k) ∧ s'.Consistent g ∧ Looks s s') := by
  obtain ⟨parts, hvalue, hpasses⟩ := Graph.exists_passesOn hg fresh hn
  rw [prepare, ends_bind]
  refine (ends_acceptance hg p hs ⟨node, hn⟩ fresh).mono (fun addition s₀ h => ?_) fun _ _ h => h
  obtain ⟨hnone, rfl, hs₀, hl₀⟩ := h
  rw [ends_bind]
  refine ends_checked_node hn ?_
  rw [ends_bind]
  refine (ends_demand hg p hn hs₀ fresh (g.accepted n fresh)).mono (fun result s₁ h => ?_) fun _ _ he => he.elim
  obtain ⟨rfl, hs₁, hl₁⟩ := h
  rw [hvalue, ends_bind, ends_checked]
  refine ⟨fun parts' h => ?_, fun m h => by cases h⟩
  obtain rfl : parts = parts' := by simpa using h
  exact ⟨hnone, rfl, rfl, rfl, hpasses, hs₁, hl₀.trans hl₁⟩

/-- **The last part of a visit,** once the operands are ready, adds what was accepted, unless there is no
discrete function to ask for samples. -/
theorem ends_finish (hg : g.WellFormed) (p : Pass) (hs : s.Consistent g) {v : Preparation}
    (hoperand : ∀ c ∈ v.node.children, ⟨p.id, c⟩ ∈ s.ready) (n : NodeId) (fresh : Demand) :
    Ends (finish g p n fresh v) s
      (fun _ s' => ∃ s₁, s₁.Consistent g ∧ Looks s s₁ ∧ Adds p.id n fresh v.addition s₁ s')
      (fun e s' => ((∃ m, e = .misuse m) ∧ ¬g.HasDiscretePoints) ∧ s'.Consistent g ∧ Looks s s') := by
  have hrecord : ∀ s₁, s₁.Consistent g → Looks s s₁ →
      Ends (recordVisit p.id n fresh v.addition) s₁
        (fun _ s' => ∃ s₁, s₁.Consistent g ∧ Looks s s₁ ∧ Adds p.id n fresh v.addition s₁ s')
        (fun e s' => ((∃ m, e = .misuse m) ∧ ¬g.HasDiscretePoints) ∧ s'.Consistent g ∧ Looks s s') :=
    fun s₁ hs₁ hl => (ends_recordVisit s₁ p.id n fresh v.addition).mono (fun _ _ h => ⟨s₁, hs₁, hl, h⟩)
      fun _ _ h => h.elim
  unfold finish
  -- only a spatial derivative asks for samples
  split
  · rename_i d arg hnode
    have harg : arg ∈ v.node.children := by simp [hnode, Node.children]
    rw [ends_bind]
    exact (ends_requestSamples hg p hs n d (hoperand arg harg)).mono (fun _ s₁ h => hrecord s₁ h.1 h.2)
      fun _ _ h => h
  · exact hrecord s hs (.refl s)

/-- **A visit goes from parts of the demand to the whole.** A demand on a node that exists is refused at
once, or it is passed on to the operands in parts. Once these are determined, and the operands are ready, what
was accepted gets required, unless there is no discrete function to ask for samples. -/
theorem ends_visit_of_parts (hg : g.WellFormed) (p : Pass) (hs : s.Consistent g) {node : Node}
    (hn : g.node? n = some node) {operand : NodeId → Demand → AnalysisM Unit} {ok : Unit → Session → Prop}
    {err : Fault AnalysisError → Session → Prop}
    (hrefused : ∀ k s', refusedOrder g p.id s n fresh = some k → s'.Consistent g → Looks s s' →
      err (.error (.grewAfterClassification (g.text n) p.text k)) s')
    (hparts : ∀ parts s₁, refusedOrder g p.id s n fresh = none →
      (node.demand g fresh (g.accepted n fresh)).value g.nonzeroAt = .ok parts →
      g.PassesOn n node fresh parts → s₁.Consistent g → Looks s s₁ →
      Ends (parts.forM fun (c, part) => operand c part) s₁ (fun _ s₂ => s₂.Consistent g ∧
        (∀ c part, (c, part) ∈ parts → ⟨p.id, c⟩ ∈ s₂.ready) ∧ ∀ s₃, s₃.Consistent g → Looks s₂ s₃ →
          (∀ s₄, Adds p.id n fresh (g.accepted n fresh) s₃ s₄ → ok () s₄) ∧
          (¬g.HasDiscretePoints → ∀ m, err (.misuse m) s₃)) err) :
    Ends (visit g p n operand fresh) s ok err := by
  rw [visit_eq, ends_bind]
  refine (ends_prepare hg p hs hn fresh).mono (fun v s₁ h => ?_) fun e s₁ h => ?_
  · obtain ⟨hnone, haddition, rfl, hvalue, hpasses, hs₁, hl₁⟩ := h
    rw [ends_bind]
    refine (hparts v.parts s₁ hnone hvalue hpasses hs₁ hl₁).mono (fun _ s₂ h => ?_) fun _ _ h => h
    obtain ⟨hs₂, hready, hrest⟩ := h
    have hoperand : ∀ c ∈ v.node.children, ⟨p.id, c⟩ ∈ s₂.ready := by
      intro c hc
      obtain ⟨part, hpart⟩ := hpasses.exists_part c hc
      exact hready c part hpart
    refine (ends_finish hg p hs₂ hoperand n fresh).mono (fun _ s₄ h => ?_) fun e s₃ h => ?_
    · obtain ⟨s₃, hs₃, hl₃, hadds⟩ := h
      exact (hrest s₃ hs₃ hl₃).1 s₄ (haddition ▸ hadds)
    · obtain ⟨⟨⟨m, rfl⟩, hpoints⟩, hs₃, hl₃⟩ := h
      exact (hrest s₃ hs₃ hl₃).2 hpoints m
  · obtain ⟨k, hsome, rfl, hs₁, hl₁⟩ := h
    exact hrefused k s₁ hsome hs₁ hl₁

end Session

end FormSparsity

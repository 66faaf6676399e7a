import FormSparsity.Proofs.Session.Partition

/-!
What finding depends on and what it leaves alone. A relation between sessions that bears finding in a pass
(`Bears`) says that they have found the same in the pass, and goes on to hold if the same is found in both.
Finding respects such a relation: started in related sessions it ends alike. In particular, a property that
says nothing of sets, evaluators and messages (`IsFrame`) is kept, whether a call fails or not
(`IsFrame.keeps_call`).
-/
namespace FormSparsity.Session

variable {ε α : Type} {g : Graph} {p : Pass} {n : NodeId} {k : Nat}

/-- Whether a relation between sessions bears that required sets are looked up in a pass and messages are
noted. -/
structure BearsRequired (q : PassId) (I : Session → Session → Prop) : Prop where
  required : ∀ {s t}, I s t → ∀ n k, s.requiredSet q n k = t.requiredSet q n k
  ready : ∀ {s t}, I s t → ∀ n, ⟨q, n⟩ ∈ s.ready ↔ ⟨q, n⟩ ∈ t.ready
  isOpen : ∀ {s t}, I s t → s.journal.isOpen = t.journal.isOpen
  note : ∀ {s t}, I s t → ∀ record, I { s with journal.records := s.journal.records.push record }
    { t with journal.records := t.journal.records.push record }

/-- Whether a relation between sessions bears that sets are found in a pass: related sessions have the same to
start from there, and are still related when the same was found in both. -/
structure BearsSets (q : PassId) (I : Session → Session → Prop) : Prop where
  sets : ∀ {s t}, I s t → ∀ kind n k,
    s.sets[(⟨kind, q, n, k⟩ : SetKey)]? = t.sets[(⟨kind, q, n, k⟩ : SetKey)]?
  ready : ∀ {s t}, I s t → ∀ n, ⟨q, n⟩ ∈ s.ready ↔ ⟨q, n⟩ ∈ t.ready
  isOpen : ∀ {s t}, I s t → s.journal.isOpen = t.journal.isOpen
  keep : ∀ {s t}, I s t → ∀ kind n k set,
    I { s with sets := s.sets.insert ⟨kind, q, n, k⟩ set } { t with sets := t.sets.insert ⟨kind, q, n, k⟩ set }
  note : ∀ {s t}, I s t → ∀ record, I { s with journal.records := s.journal.records.push record }
    { t with journal.records := t.journal.records.push record }

/-- Whether a relation between sessions also bears that evaluators are found in a pass. -/
structure Bears (q : PassId) (I : Session → Session → Prop) : Prop extends BearsSets q I where
  evaluators : ∀ {s t}, I s t → ∀ n, s.evaluators[(⟨q, n⟩ : NodeKey)]? = t.evaluators[(⟨q, n⟩ : NodeKey)]?
  select : ∀ {s t}, I s t → ∀ n e, I { s with evaluators := s.evaluators.insert ⟨q, n⟩ e }
    { t with evaluators := t.evaluators.insert ⟨q, n⟩ e }

theorem keeps_run {κ : Type} {I : Session → Prop} {f : κ → AnalysisM MixedSet} (hf : ∀ q, Keeps I (f q))
    (i : Inquiry κ α) : Keeps I (i.run f) := by
  induction i with
  | done a => exact keeps_pure a
  | ask q next ih =>
    rw [Inquiry.run_ask]
    exact (hf q).bind ih

section Respects

variable {I : Session → Session → Prop}

theorem respects_checked (x : Except Misuse α) : Respects I (checked x : SessionM ε α) := by
  cases x with
  | ok a => exact respects_pure a
  | error m => exact respects_throw _

theorem respects_run {κ : Type} {f : κ → AnalysisM MixedSet} (hf : ∀ q, Respects I (f q))
    (i : Inquiry κ α) : Respects I (i.run f) := by
  induction i with
  | done a => exact respects_pure a
  | ask q next ih =>
    rw [Inquiry.run_ask]
    exact (hf q).bind ih

/-- An inquiry respects what the answers to its questions respect. -/
theorem respects_run_of_asksOnly {κ : Type} {P : κ → Prop} {f : κ → AnalysisM MixedSet} {i : Inquiry κ α}
    (hi : i.AsksOnly P) (hf : ∀ q, P q → Respects I (f q)) : Respects I (i.run f) := by
  induction i with
  | done a => exact respects_pure a
  | ask q next ih =>
    rw [Inquiry.run_ask]
    exact (hf q hi.1).bind fun set => ih set (hi.2 set)

/-- Recursion on operands respects what the computations on smaller nodes respect. -/
theorem respects_operand {β : Type} {f : NodeId → β → AnalysisM α} (hf : ∀ c < n, ∀ b, Respects I (f c b))
    (c : NodeId) (b : β) : Respects I ((if c < n then f c else fun _ => unorderedNode g c) b) := by
  split
  · exact hf c ‹_› b
  · exact respects_throw _

namespace BearsRequired

theorem respects_report {q : PassId} (hI : BearsRequired q I) {threshold : Verbosity} {level : Level}
    {message : Unit → SessionM ε String} (hmessage : Respects I (message ())) :
    Respects I (report p threshold level message) := by
  refine .get_bind (fun s t h => by rw [hI.isOpen h]) fun s => ?_
  split
  · exact hmessage.bind fun _ => respects_modify fun s t h => hI.note h _
  · exact respects_pure _

theorem respects_findRequired (hI : BearsRequired p.id I) (n : NodeId) (k : Nat) :
    Respects I (findRequired g p n k) := by
  refine .get_bind (fun s t h => ?_) fun s => ?_
  · simp only [hI.ready h, hI.required h]
  · split
    · exact respects_pure _
    · exact (respects_checked _).bind fun _ => respects_throw _

end BearsRequired

namespace BearsSets

/-- A property is borne, as a relation of sessions that are equal, if it is kept where a set is found. -/
theorem of_eq {q : PassId} {J : Session → Prop}
    (hkeep : ∀ s, J s → ∀ kind n k set, J { s with sets := s.sets.insert ⟨kind, q, n, k⟩ set })
    (hnote : ∀ s, J s → ∀ record, J { s with journal.records := s.journal.records.push record }) :
    BearsSets q fun s t => s = t ∧ J s where
  sets h _ _ _ := by rw [h.1]
  ready h _ := by rw [h.1]
  isOpen h := by rw [h.1]
  keep h kind n k set := ⟨by rw [h.1], hkeep _ h.2 kind n k set⟩
  note h record := ⟨by rw [h.1], hnote _ h.2 record⟩

theorem requiredSet_eq {q : PassId} (hI : BearsSets q I) {s t : Session} (h : I s t) (n : NodeId) (k : Nat) :
    s.requiredSet q n k = t.requiredSet q n k := by
  rw [Session.requiredSet_eq, Session.requiredSet_eq, hI.sets h]

theorem bearsRequired {q : PassId} (hI : BearsSets q I) : BearsRequired q I :=
  ⟨fun h => hI.requiredSet_eq h, fun h => hI.ready h, fun h => hI.isOpen h, fun h => hI.note h⟩

variable (hI : BearsSets p.id I)
include hI

theorem respects_remember {kind : SetKind} {compute : AnalysisM MixedSet} (hcompute : Respects I compute) :
    Respects I (remember g p kind n k compute) := by
  refine .get_bind (fun s t h => by rw [hI.sets h]) fun s => ?_
  have htail : ∀ set : MixedSet, Respects I (do
      report p .high .trace fun _ => do
        let expr ← checked (g.describe n)
        return s!"{kind.text}[{k}] of {expr} in {p.text}: {set.text}"
      modify fun s => { s with sets := s.sets.insert ⟨kind, p.id, n, k⟩ set }
      return set : AnalysisM MixedSet) := fun set =>
    (hI.bearsRequired.respects_report ((respects_checked _).bind fun _ => respects_pure _)).bind fun _ =>
      (respects_modify fun s t h => hI.keep h kind n k set).bind fun _ => respects_pure set
  split
  · exact respects_pure _
  · split
    · exact htail ∅
    · exact hcompute.bind htail

theorem respects_findNonzero (n : NodeId) (k : Nat) : Respects I (findNonzero g p n k) := by
  induction n using Nat.strongRecOn generalizing k with
  | ind n ih =>
    rw [findNonzero, recurse_eq]
    exact hI.respects_remember ((respects_checked _).bind fun node =>
      respects_run (fun place : Place => respects_operand ih place.node place.order) _)

theorem respects_findVarying (n : NodeId) (k : Nat) : Respects I (findVarying g p n k) := by
  induction n using Nat.strongRecOn generalizing k with
  | ind n ih =>
    rw [findVarying, recurse_eq]
    refine hI.respects_remember ((hI.bearsRequired.respects_findRequired n k).bind fun required =>
      (respects_checked _).bind fun node => (respects_run (fun q => ?_) _).bind fun varying =>
        (respects_checked _).bind fun _ => respects_pure _)
    cases q with
    | nonzero place => exact hI.respects_findNonzero place.node place.order
    | required place => exact hI.bearsRequired.respects_findRequired place.node place.order
    | varying place => exact respects_operand ih place.node place.order

theorem respects_findConstant (n : NodeId) (k : Nat) : Respects I (findConstant g p n k) :=
  hI.respects_remember ((hI.bearsRequired.respects_findRequired n k).bind fun _ =>
    (hI.respects_findVarying n k).bind fun _ => respects_pure _)

theorem respects_classify (n : NodeId) : Respects I (classify g p n) :=
  .foldlM fun _ k _ => (hI.respects_findConstant n k).bind fun _ =>
    (hI.respects_findVarying n k).bind fun _ => respects_pure _

theorem respects_accept (n : NodeId) (k : Nat) (demanded : MixedSet) :
    Respects I (accept g p n k demanded) := by
  refine (hI.respects_findNonzero n k).bind fun nonzero => .get_bind (fun s t h => ?_) fun s => ?_
  · simp only [isClassified, Std.ExtTreeMap.contains_eq_isSome_getElem?, hI.sets h, hI.requiredSet_eq h]
  · split
    · exact (respects_checked _).bind fun _ => respects_throw _
    · exact respects_pure _

theorem respects_prepare (n : NodeId) (fresh : Demand) : Respects I (prepare g p n fresh) :=
  (Respects.mapM fun b _ => hI.respects_accept n b.2 b.1).bind fun _ => (respects_checked _).bind fun _ =>
    (respects_run (fun place : Place => hI.respects_findNonzero place.node place.order) _).bind fun _ =>
      (respects_checked _).bind fun _ => respects_pure _

end BearsSets

namespace Bears

/-- A property is borne, as a relation of sessions that are equal, if it is kept where something is found. -/
theorem of_eq {q : PassId} {J : Session → Prop}
    (hkeep : ∀ s, J s → ∀ kind n k set, J { s with sets := s.sets.insert ⟨kind, q, n, k⟩ set })
    (hselect : ∀ s, J s → ∀ n e, J { s with evaluators := s.evaluators.insert ⟨q, n⟩ e })
    (hnote : ∀ s, J s → ∀ record, J { s with journal.records := s.journal.records.push record }) :
    Bears q fun s t => s = t ∧ J s where
  toBearsSets := .of_eq hkeep hnote
  evaluators h _ := by rw [h.1]
  select h n e := ⟨by rw [h.1], hselect _ h.2 n e⟩

theorem respects_findEvaluator (hI : Bears p.id I) (n : NodeId) : Respects I (findEvaluator g p n) := by
  induction n using Nat.strongRecOn with
  | ind n ih =>
    rw [findEvaluator, recurse_eq]
    refine .get_bind (fun s t h => by rw [hI.evaluators h]) fun s => ?_
    split
    · exact respects_pure _
    · refine (respects_checked _).bind fun node => (Respects.mapM fun c _ => ?_).bind fun operands =>
        (hI.respects_classify n).bind fun c => (respects_modify fun s t h => hI.select h n _).bind fun _ =>
          respects_pure _
      split
      · exact ih c ‹_›
      · exact respects_throw _

end Bears

end Respects

/-! ## What finding leaves alone -/

/-- Whether a property of sessions does not depend on the sets, evaluators and messages that are kept. -/
def IsFrame (I : Session → Prop) : Prop :=
  ∀ s sets evaluators journal, I s → I { s with sets, evaluators, journal }

namespace IsFrame

variable {I : Session → Prop}

theorem bears (hI : IsFrame I) (q : PassId) : Bears q fun s t => s = t ∧ I s :=
  .of_eq (fun s h _ _ _ _ => hI s _ s.evaluators s.journal h) (fun s h _ _ => hI s s.sets _ s.journal h)
    fun s h _ => hI s s.sets s.evaluators _ h

theorem keeps_prepare (hI : IsFrame I) (n : NodeId) (fresh : Demand) : Keeps I (prepare g p n fresh) :=
  ((hI.bears p.id).respects_prepare n fresh).keeps

/-- **Finding leaves the rest of the session alone,** whether it fails or not. -/
theorem keeps_call (hI : IsFrame I) (c : Call) (hc : ¬c.IsRequire) : Keeps I (c.run g p) := by
  have hI := hI.bears p.id
  cases c with
  | nonzero n k => exact ((hI.respects_findNonzero n k).map _).keeps
  | required n k => exact ((hI.bearsRequired.respects_findRequired n k).map _).keeps
  | constant n k => exact ((hI.respects_findConstant n k).map _).keeps
  | varying n k => exact ((hI.respects_findVarying n k).map _).keeps
  | classify n => exact ((hI.respects_classify n).map _).keeps
  | evaluate n => exact ((hI.respects_findEvaluator n).map _).keeps
  | require n demand => exact absurd trivial hc

end IsFrame

theorem isFrame_samples {t : Std.ExtTreeMap FunctionId (SortedSet MultiIndex)} :
    IsFrame fun s => s.samples = t := fun _ _ _ _ h => h

/-! ## Where finding keeps sets -/

/-- An inquiry keeps a property that the answers to its questions keep. -/
theorem keeps_run_of_asksOnly {κ : Type} {I : Session → Prop} {P : κ → Prop} {f : κ → AnalysisM MixedSet}
    {i : Inquiry κ α} (hi : i.AsksOnly P) (hf : ∀ q, P q → Keeps I (f q)) : Keeps I (i.run f) := by
  induction i with
  | done a => exact keeps_pure a
  | ask q next ih =>
    rw [Inquiry.run_ask]
    exact (hf q hi.1).bind fun set => ih set (hi.2 set)

theorem keeps_checked {I : Session → Prop} (x : Except Misuse α) : Keeps I (checked x : SessionM ε α) := by
  cases x with
  | ok a => exact keeps_pure a
  | error m => exact keeps_throw _

/-- Recursion on operands keeps what the computation on a smaller node keeps. -/
theorem keeps_operand {β : Type} {I : Session → Prop} {f : NodeId → β → AnalysisM α} {c : NodeId} {b : β}
    (hf : c < n → Keeps I (f c b)) : Keeps I ((if c < n then f c else fun _ => unorderedNode g c) b) := by
  split
  · exact hf ‹_›
  · exact keeps_throw _

/-- Whether a property of sessions does not depend on messages, and on the sets kept under some keys. -/
structure Admits (K : SetKey → Prop) (I : Session → Prop) : Prop where
  keep : ∀ s key set, K key → I s → I { s with sets := s.sets.insert key set }
  note : ∀ s journal, I s → I { s with journal }

/-- The keys under which finding sets at some nodes in a pass keeps sets: those of nonzero sets, and at these
nodes those of constant and varying ones. -/
def IsKeptAt (q : PassId) (X : NodeId → Prop) (key : SetKey) : Prop :=
  key.kind = .nonzero ∨ key.kind.IsClass ∧ key.pass = q ∧ X key.node

/-- Whether the second session keeps the same as the first one of what is told apart in a pass at nodes other than
some. -/
def KeepsOutside (q : PassId) (X : NodeId → Prop) (s s' : Session) : Prop :=
  ∀ key : SetKey, key.kind.IsClass → ¬(key.pass = q ∧ X key.node) → s'.sets[key]? = s.sets[key]?

/-- Sets kept at some nodes change nothing at others. -/
theorem admits_keepsOutside (q : PassId) (X : NodeId → Prop) (s : Session) :
    Admits (IsKeptAt q X) (KeepsOutside q X s) := by
  refine ⟨fun s' key set hkey h key' hkind hnot => ?_, fun _ _ h => h⟩
  rw [getElem?_sets_insert, if_neg, h key' hkind hnot]
  rintro rfl
  rcases hkey with hkey | hkey
  · exact not_isClass_nonzero (hkey ▸ hkind)
  · exact hnot hkey.2

namespace Admits

variable {I : Session → Prop} {X : NodeId → Prop}

theorem keeps_remember {K : SetKey → Prop} (hI : Admits K I) {kind : SetKind}
    (hkey : K ⟨kind, p.id, n, k⟩) {compute : AnalysisM MixedSet} (hcompute : Keeps I compute) :
    Keeps I (remember g p kind n k compute) := by
  intro s hs
  have hkeep : ∀ set s', I s' →
      ∀ j, I { s' with journal := j, sets := s'.sets.insert ⟨kind, p.id, n, k⟩ set } :=
    fun set s' hs' j => hI.keep { s' with journal := j } _ set hkey (hI.note s' j hs')
  refine ends_remember (fun _ _ => hs) (ends_ite.mpr ⟨fun _ => ⟨hkeep ∅ s hs, fun _ _ => hs⟩, fun _ => ?_⟩)
  exact (hcompute s hs).mono (fun set s' hs' => ⟨hkeep set s' hs', fun _ _ => hs'⟩) fun _ _ hs' => hs'

variable (hI : Admits (IsKeptAt p.id X) I)
include hI

theorem keeps_findNonzero (n : NodeId) (k : Nat) : Keeps I (findNonzero g p n k) := by
  induction n using Nat.strongRecOn generalizing k with
  | ind n ih =>
    rw [findNonzero, recurse_eq]
    exact hI.keeps_remember (.inl rfl) ((keeps_checked _).bind fun node =>
      keeps_run (fun place => keeps_operand fun hlt => ih place.node hlt place.order) _)

omit hI in
theorem keeps_findRequired (n : NodeId) (k : Nat) : Keeps I (findRequired g p n k) := by
  intro s hs
  rw [findRequired, ends_bind, ends_get, ends_ite]
  exact ⟨fun _ => hs, fun _ => (keeps_checked _).bind (fun _ => keeps_throw _) s hs⟩

/-- **Finding varying sets keeps sets at the node and below it** alone. -/
theorem keeps_findVarying (hX : ∀ n c, X n → g.IsOperand n c → X c) (hn : X n) (k : Nat) :
    Keeps I (findVarying g p n k) := by
  induction n using Nat.strongRecOn generalizing k with
  | ind n ih =>
    rw [findVarying, recurse_eq]
    refine hI.keeps_remember (.inr ⟨.inr rfl, rfl, hn⟩) ((keeps_findRequired n k).bind fun required => ?_)
    cases hnode : g.node? n with
    | none =>
      intro s hs
      rw [ends_bind, Graph.node_eq_error hnode]
      exact hs
    | some node =>
      rw [Graph.node_eq_ok hnode]
      refine (keeps_run_of_asksOnly (node.asksOnly_varying g n k) fun q hq => ?_).bind fun _ =>
        (keeps_checked _).bind fun _ => keeps_pure _
      cases q with
      | nonzero place => exact hI.keeps_findNonzero place.node place.order
      | required place => exact keeps_findRequired place.node place.order
      | varying place =>
        exact keeps_operand fun hlt => ih place.node hlt (hX n place.node hn ⟨node, hnode, hq⟩) place.order

theorem keeps_findConstant (hX : ∀ n c, X n → g.IsOperand n c → X c) (hn : X n) (k : Nat) :
    Keeps I (findConstant g p n k) :=
  hI.keeps_remember (.inr ⟨.inl rfl, rfl, hn⟩) ((keeps_findRequired n k).bind fun _ =>
    (hI.keeps_findVarying hX hn k).bind fun _ => keeps_pure _)

theorem keeps_classify (hX : ∀ n c, X n → g.IsOperand n c → X c) (hn : X n) : Keeps I (classify g p n) :=
  .foldlM fun _ k _ => (hI.keeps_findConstant hX hn k).bind fun _ =>
    (hI.keeps_findVarying hX hn k).bind fun _ => keeps_pure _

end Admits

end FormSparsity.Session

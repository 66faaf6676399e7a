import FormSparsity.Proofs.Session.Readiness

/-!
Verbosity. How much a pass reports has no bearing on what is found in it. A computation in a pass and the same one
in the pass that reports everything (`Pass.loud`), started in sessions that have found the same, end alike and
have found the same again, and of the messages the first one has those alone that are seen at its verbosity
(`Abridges`, `alongside_require`).
-/
namespace FormSparsity

/-- The levels of the messages that are seen at a verbosity. -/
def Verbosity.levels : Verbosity → List Level
  | silent => []
  | low => [.info]
  | medium => [.info, .debug]
  | high => [.info, .debug, .trace]

/-- The verbosity from which on messages of a level are seen. -/
def Level.threshold : Level → Verbosity
  | info => .low
  | debug => .medium
  | trace => .high

theorem Verbosity.reports_threshold (v : Verbosity) (l : Level) :
    v.reports l.threshold = decide (l ∈ v.levels) := by
  cases v <;> cases l <;> rfl

theorem Level.mem_levels_high (l : Level) : l ∈ Verbosity.levels .high := by
  cases l <;> decide

/-- The messages of a journal that are seen at a verbosity. -/
def Verbosity.abridge (v : Verbosity) (records : Array Record) : Array Record :=
  records.filter (·.level ∈ v.levels)

/-- The pass as one that reports everything. -/
def Pass.loud (p : Pass) : Pass := { p with verbosity := .high }

theorem Pass.loud_id (p : Pass) : p.loud.id = p.id := rfl

/-- A node that exists is described by its text. -/
theorem Graph.describe_eq_ok {g : Graph} {n : NodeId} (hn : n < g.size) : g.describe n = .ok (g.text n) := by
  obtain ⟨node, hnode⟩ := exists_node? hn
  rw [describe, node_eq_ok hnode]
  rfl

namespace Session

variable {ε α : Type} {g : Graph} {p : Pass} {v : Verbosity} {s t : Session} {n : NodeId} {k : Nat}

/-- Whether the first session is the second one but for its journal, which has those messages of the other one alone
that are seen at a verbosity. -/
structure Abridges (v : Verbosity) (s t : Session) : Prop where
  rest_eq : s = { t with journal := s.journal }
  isOpen_eq : s.journal.isOpen = t.journal.isOpen
  records_eq : s.journal.records = v.abridge t.journal.records

namespace Abridges

theorem sets_eq (h : Abridges v s t) : s.sets = t.sets := by rw [h.rest_eq]

theorem propagated_eq (h : Abridges v s t) : s.propagated = t.propagated := by rw [h.rest_eq]

theorem ready_eq (h : Abridges v s t) : s.ready = t.ready := by rw [h.rest_eq]

theorem evaluators_eq (h : Abridges v s t) : s.evaluators = t.evaluators := by rw [h.rest_eq]

theorem passes_eq (h : Abridges v s t) : s.passes = t.passes := by rw [h.rest_eq]

theorem requiredSet_eq (h : Abridges v s t) (q : PassId) (n : NodeId) (k : Nat) :
    s.requiredSet q n k = t.requiredSet q n k := by
  rw [requiredSet, requiredSet, h.sets_eq]

/-- What does not concern the journal is done to both sessions alike. -/
theorem map (h : Abridges v s t) {f : Session → Session}
    (hf : ∀ s journal, f { s with journal } = { f s with journal }) : Abridges v (f s) (f t) := by
  have hs : f s = { f t with journal := s.journal } := by
    rw [← hf, ← h.rest_eq]
  have ht : f t = { f t with journal := t.journal } := hf t t.journal
  have hjournal : (f t).journal = t.journal := by rw [ht]
  have hjournal' : (f s).journal = s.journal := by rw [hs]
  exact ⟨by rw [hjournal', ← hs], by rw [hjournal', hjournal, h.isOpen_eq],
    by rw [hjournal', hjournal, h.records_eq]⟩

/-- A message that is added to the longer journal is added to the shorter one as well if it is seen there. -/
theorem push (h : Abridges v s t) {record : Record} (hseen : record.level ∈ v.levels) :
    Abridges v { s with journal.records := s.journal.records.push record }
      { t with journal.records := t.journal.records.push record } where
  rest_eq := by rw [h.rest_eq]
  isOpen_eq := h.isOpen_eq
  records_eq := by
    show s.journal.records.push record = _
    simp [h.records_eq, Verbosity.abridge, hseen]

theorem push_right (h : Abridges v s t) {record : Record} (hunseen : record.level ∉ v.levels) :
    Abridges v s { t with journal.records := t.journal.records.push record } where
  rest_eq := h.rest_eq
  isOpen_eq := h.isOpen_eq
  records_eq := by
    simp [h.records_eq, Verbosity.abridge, hunseen]

end Abridges

/-! ## Finding -/

theorem alongside_checked (x : Except Misuse α) :
    Alongside (Abridges v) (checked x : SessionM ε α) (checked x) := by
  cases x with
  | ok a => exact alongside_pure a
  | error m => exact alongside_throw _

theorem alongside_change {f : Session → Session} (hf : ∀ s journal, f { s with journal } = { f s with journal }) :
    Alongside (Abridges v) (modify f : SessionM ε Unit) (modify f) :=
  alongside_modify fun _ _ h => h.map hf

/-- A message whose level goes with the verbosity that it is guarded by is reported where it is to be seen. -/
theorem alongside_report {threshold : Verbosity} (level : Level) (hlevel : threshold = level.threshold)
    {message : Unit → SessionM ε String} (hmessage : ∃ text, message () = pure text) :
    Alongside (Abridges p.verbosity) (report p threshold level message)
      (report p.loud threshold level message) := by
  obtain ⟨text, hmessage⟩ := hmessage
  refine .get_bind fun s t h => ?_
  have hloud : p.loud.reports threshold = true := by
    rw [Pass.reports, hlevel, Verbosity.reports_threshold]
    exact decide_eq_true level.mem_levels_high
  have hseen : p.reports threshold = decide (level ∈ p.verbosity.levels) := by
    rw [Pass.reports, hlevel, Verbosity.reports_threshold]
  rw [h.isOpen_eq, hloud, hseen, hmessage]
  simp only [pure_bind]
  cases t.journal.isOpen with
  | false => exact alongside_pure ()
  | true =>
    by_cases hmem : level ∈ p.verbosity.levels
    · simp only [hmem, decide_true, Bool.and_self, if_true]
      exact alongside_modify fun s t h => h.push hmem
    · simp only [hmem, decide_false, Bool.and_false, Bool.and_true, Bool.false_eq_true, if_false, if_true]
      exact fun s t h => ⟨rfl, h.push_right hmem⟩

/-- Messages about a node that exists can be put together. -/
theorem exists_describe_bind (hn : n < g.size) (f : String → String) :
    ∃ text, (do return f (← checked (g.describe n)) : SessionM ε String) = pure text := by
  rw [Graph.describe_eq_ok hn]
  exact ⟨_, rfl⟩

theorem alongside_remember (hn : n < g.size) {kind : SetKind} {compute compute' : AnalysisM MixedSet}
    (hcompute : Alongside (Abridges p.verbosity) compute compute') :
    Alongside (Abridges p.verbosity) (remember g p kind n k compute) (remember g p.loud kind n k compute') := by
  refine .get_bind fun s t h => ?_
  have htail : ∀ set : MixedSet, Alongside (Abridges p.verbosity)
      (do
        report p .high .trace fun _ => do
          let expr ← checked (g.describe n)
          return s!"{kind.text}[{k}] of {expr} in {p.text}: {set.text}"
        modify fun s => { s with sets := s.sets.insert ⟨kind, p.id, n, k⟩ set }
        return set : AnalysisM MixedSet)
      (do
        report p.loud .high .trace fun _ => do
          let expr ← checked (g.describe n)
          return s!"{kind.text}[{k}] of {expr} in {p.text}: {set.text}"
        modify fun s => { s with sets := s.sets.insert ⟨kind, p.id, n, k⟩ set }
        return set) := fun set =>
    (alongside_report .trace rfl (exists_describe_bind hn _)).bind fun _ =>
      (alongside_change fun _ _ => rfl).bind fun _ => alongside_pure set
  rw [h.sets_eq]
  simp only [p.loud_id]
  cases t.sets[(⟨kind, p.id, n, k⟩ : SetKey)]? with
  | some set => exact alongside_pure set
  | none =>
    by_cases horder : maxOrder < k
    · simp only [if_pos horder]
      exact htail ∅
    · simp only [if_neg horder]
      exact hcompute.bind htail

/-- Inquiries end alike if the answers to their questions do. -/
theorem alongside_run {κ : Type} {P : κ → Prop} {f f' : κ → AnalysisM MixedSet} {i : Inquiry κ α}
    (hi : i.AsksOnly P) (hf : ∀ q, P q → Alongside (Abridges v) (f q) (f' q)) :
    Alongside (Abridges v) (i.run f) (i.run f') := by
  induction i with
  | done a => exact alongside_pure a
  | ask q next ih =>
    rw [Inquiry.run_ask, Inquiry.run_ask]
    exact (hf q hi.1).bind fun set => ih set (hi.2 set)

theorem alongside_operand {β : Type} {f f' : NodeId → β → AnalysisM α}
    (hf : ∀ c < n, ∀ b, Alongside (Abridges v) (f c b) (f' c b)) (c : NodeId) (b : β) :
    Alongside (Abridges v) ((if c < n then f c else fun _ => unorderedNode g c) b)
      ((if c < n then f' c else fun _ => unorderedNode g c) b) := by
  split
  · exact hf c ‹_› b
  · exact alongside_throw _

theorem alongside_findNonzero (hn : n < g.size) (k : Nat) :
    Alongside (Abridges p.verbosity) (findNonzero g p n k) (findNonzero g p.loud n k) := by
  induction n using Nat.strongRecOn generalizing k with
  | ind n ih =>
    unfold findNonzero
    rw [recurse_eq, recurse_eq]
    obtain ⟨node, hnode⟩ := Graph.exists_node? hn
    refine alongside_remember hn ?_
    rw [Graph.node_eq_ok hnode]
    refine alongside_run (node.asksOnly_nonzero g k) fun place _ => alongside_operand (fun c hc k => ?_) _ _
    exact ih c hc (Nat.lt_trans hc hn) k

theorem alongside_findRequired (n : NodeId) (k : Nat) :
    Alongside (Abridges p.verbosity) (findRequired g p n k) (findRequired g p.loud n k) := by
  refine .get_bind fun s t h => ?_
  rw [h.ready_eq, h.requiredSet_eq]
  show Alongside _ (if ⟨p.id, n⟩ ∈ t.ready then _ else _) (if ⟨p.id, n⟩ ∈ t.ready then _ else _)
  split
  · exact alongside_pure _
  · exact (alongside_checked _).bind fun _ => alongside_throw _

variable (hg : g.WellFormed)
include hg

theorem alongside_findVarying (hn : n < g.size) (k : Nat) :
    Alongside (Abridges p.verbosity) (findVarying g p n k) (findVarying g p.loud n k) := by
  induction n using Nat.strongRecOn generalizing k with
  | ind n ih =>
    unfold findVarying
    rw [recurse_eq, recurse_eq]
    obtain ⟨node, hnode⟩ := Graph.exists_node? hn
    refine alongside_remember hn ((alongside_findRequired n k).bind fun required => ?_)
    rw [Graph.node_eq_ok hnode]
    refine (alongside_run (node.asksOnly_varying g n k) fun q hq => ?_).bind fun varying =>
      (alongside_checked _).bind fun _ => alongside_pure _
    cases q with
    | nonzero place =>
      refine alongside_findNonzero ?_ place.order
      rcases hq with hchild | heq
      · exact Nat.lt_trans (hg.child_lt n node hnode _ hchild) hn
      · rwa [heq]
    | required place => exact alongside_findRequired place.node place.order
    | varying place =>
      exact alongside_operand (fun c hc k => ih c hc (Nat.lt_trans hc hn) k) place.node place.order

theorem alongside_findConstant (hn : n < g.size) (k : Nat) :
    Alongside (Abridges p.verbosity) (findConstant g p n k) (findConstant g p.loud n k) :=
  alongside_remember hn ((alongside_findRequired n k).bind fun _ =>
    (alongside_findVarying hg hn k).bind fun _ => alongside_pure _)

theorem alongside_classify (hn : n < g.size) :
    Alongside (Abridges p.verbosity) (classify g p n) (classify g p.loud n) :=
  .foldlM fun _ k _ => (alongside_findConstant hg hn k).bind fun _ =>
    (alongside_findVarying hg hn k).bind fun _ => alongside_pure _

theorem alongside_findEvaluator (hn : n < g.size) :
    Alongside (Abridges p.verbosity) (findEvaluator g p n) (findEvaluator g p.loud n) := by
  induction n using Nat.strongRecOn with
  | ind n ih =>
    unfold findEvaluator
    rw [recurse_eq, recurse_eq]
    refine .get_bind fun s t h => ?_
    rw [h.evaluators_eq]
    simp only [p.loud_id]
    cases t.evaluators[(⟨p.id, n⟩ : NodeKey)]? with
    | some e => exact alongside_pure e
    | none =>
      refine (alongside_checked _).bind fun node => (Alongside.mapM fun c _ => ?_).bind fun operands =>
        (alongside_classify hg hn).bind fun c => (alongside_change fun _ _ => rfl).bind fun _ => alongside_pure _
      split
      · exact ih c ‹_› (Nat.lt_trans ‹_› hn)
      · exact alongside_throw _

/-! ## Determining required sets -/

omit hg in
theorem alongside_accept (hn : n < g.size) (k : Nat) (demanded : MixedSet) :
    Alongside (Abridges p.verbosity) (accept g p n k demanded) (accept g p.loud n k demanded) := by
  refine (alongside_findNonzero hn k).bind fun nonzero => .get_bind fun s t h => ?_
  have hclassified : s.isClassified p.id n k = t.isClassified p.id n k := by
    rw [isClassified, isClassified, h.sets_eq]
  rw [hclassified, h.requiredSet_eq]
  let grew := t.isClassified p.id n k && !SortedSet.isSubset (demanded ∩ nonzero) (t.requiredSet p.id n k)
  show Alongside _ (if grew = true then _ else _) (if grew = true then _ else _)
  split
  · exact (alongside_checked _).bind fun _ => alongside_throw _
  · exact alongside_pure _

theorem alongside_prepare (hn : n < g.size) (fresh : Demand) :
    Alongside (Abridges p.verbosity) (prepare g p n fresh) (prepare g p.loud n fresh) := by
  obtain ⟨node, hnode⟩ := Graph.exists_node? hn
  refine (Alongside.mapM fun b _ => alongside_accept hn b.2 b.1).bind fun addition => ?_
  rw [Graph.node_eq_ok hnode]
  refine (alongside_run (node.asksOnly_demand fresh addition) fun place hplace => ?_).bind fun _ =>
    (alongside_checked _).bind fun _ => alongside_pure _
  exact alongside_findNonzero (Nat.lt_trans (hg.child_lt n node hnode _ hplace) hn) place.order

omit hg in
theorem alongside_requestSample (n : NodeId) (d : Nat) (z : Mixed) :
    Alongside (Abridges p.verbosity) (requestSample g p n d z) (requestSample g p.loud n d z) := by
  unfold requestSample
  split
  · refine (alongside_checked _).bind fun point => ?_
    split
    · exact alongside_pure _
    · split
      · exact (alongside_checked _).bind fun _ => alongside_throw _
      · exact (alongside_report .trace rfl ⟨_, rfl⟩).bind fun _ =>
          alongside_change fun _ _ => rfl
  · exact alongside_pure _

omit hg in
theorem alongside_finish (n : NodeId) (fresh : Demand) (v : Preparation) :
    Alongside (Abridges p.verbosity) (finish g p n fresh v) (finish g p.loud n fresh v) := by
  have hrecord : Alongside (Abridges p.verbosity) (recordVisit p.id n fresh v.addition)
      (recordVisit p.loud.id n fresh v.addition) :=
    (Alongside.forM fun b _ => alongside_change fun s journal => by
      unfold addRequired; split <;> rfl).bind fun _ =>
        (alongside_change fun _ _ => rfl).bind fun _ => alongside_change fun _ _ => rfl
  unfold finish
  split
  · exact ((alongside_findRequired _ 1).bind fun first => .forM fun z _ => alongside_requestSample n _ z).bind
      fun _ => hrecord
  · exact hrecord

theorem alongside_opening (hn : n < g.size) (demand : Demand) :
    Alongside (Abridges p.verbosity) (opening g p n demand) (opening g p.loud n demand) := by
  refine .get_bind fun s t h => ?_
  have hfresh : s.unpropagated ⟨p.id, n⟩ demand = t.unpropagated ⟨p.id, n⟩ demand := by
    rw [unpropagated, unpropagated, h.propagated_eq]
  rw [hfresh]
  simp only [p.loud_id]
  cases t.unpropagated ⟨p.id, n⟩ demand with
  | none => exact alongside_pure none
  | some fresh =>
    exact (alongside_report .debug rfl (exists_describe_bind hn _)).bind fun _ =>
      (alongside_prepare hg hn fresh).bind fun _ => alongside_pure _

theorem alongside_require (hn : n < g.size) (demand : Demand) :
    Alongside (Abridges p.verbosity) (require g p n demand) (require g p.loud n demand) := by
  induction n using Nat.strongRecOn generalizing demand with
  | ind n ih =>
    rw [require_eq, require_eq]
    refine (alongside_opening hg hn demand).bind fun r => ?_
    cases r with
    | none => exact alongside_pure ()
    | some r =>
      refine (Alongside.forM fun b _ => ?_).bind fun _ => alongside_finish n r.1 r.2
      exact alongside_operand (fun c hc part => ih c hc (Nat.lt_trans hc hn) part) b.1 b.2

end Session

end FormSparsity

import FormSparsity.Proofs.Session.Frame

/-!
Passes do not interfere. What a call in a pass replies depends only on what has been found in this pass
(`AgreeOn.reply`), and it changes nothing in other passes (`agreeOn_after`). So the calls in a pass get the
same replies, values or errors, whatever calls in other passes come between them (`replies_isolated`).
-/
namespace FormSparsity.Session

variable {g : Graph} {p : Pass} {q b : PassId} {s s' t u : Session} {n : NodeId} {demand : Demand}

/-! ## Determining required sets -/

/-- Whether a relation between sessions bears that visits are finished in a pass, once it is known what to add. -/
structure BearsVisits (q : PassId) (I : Session → Session → Prop) : Prop extends BearsRequired q I where
  add : ∀ {s t}, I s t → ∀ n k set, I (s.addRequired q n k set) (t.addRequired q n k set)
  sample : ∀ {s t}, I s t → ∀ f α, I (s.addSample f α) (t.addSample f α)
  record : ∀ {s t}, I s t → ∀ n demand,
    I (s.recordPropagated ⟨q, n⟩ demand) (t.recordPropagated ⟨q, n⟩ demand)
  mark : ∀ {s t}, I s t → ∀ n,
    I { s with ready := s.ready.insert ⟨q, n⟩ } { t with ready := t.ready.insert ⟨q, n⟩ }

namespace BearsVisits

variable {I : Session → Session → Prop} (hI : BearsVisits p.id I)
include hI

theorem respects_requestSample (n : NodeId) (d : Nat) (z : Mixed) : Respects I (requestSample g p n d z) := by
  unfold requestSample
  split
  · refine (respects_checked _).bind fun point => ?_
    split
    · exact respects_pure _
    · split
      · exact (respects_checked _).bind fun _ => respects_throw _
      · exact (hI.respects_report (respects_pure _)).bind fun _ =>
          respects_modify fun s t h => hI.sample h _ _
  · exact respects_pure _

theorem respects_requestSamples (n : NodeId) (d : Nat) (arg : NodeId) :
    Respects I (requestSamples g p n d arg) :=
  (hI.respects_findRequired arg 1).bind fun _ => .forM fun z _ => hI.respects_requestSample n d z

theorem respects_recordVisit (n : NodeId) (demand addition : Demand) :
    Respects I (recordVisit p.id n demand addition) := by
  refine (Respects.forM fun b _ => ?_).bind fun _ =>
    (respects_modify fun s t h => hI.record h n demand).bind fun _ => respects_modify fun s t h => hI.mark h n
  exact respects_modify fun s t h => hI.add h n b.2 b.1

theorem respects_finish (n : NodeId) (fresh : Demand) (v : Preparation) : Respects I (finish g p n fresh v) := by
  unfold finish
  split
  · exact (hI.respects_requestSamples n _ _).bind fun _ => hI.respects_recordVisit n fresh v.addition
  · exact hI.respects_recordVisit n fresh v.addition

end BearsVisits

/-- Whether a relation between sessions also bears that required sets are determined in a pass. -/
structure BearsDemand (q : PassId) (I : Session → Session → Prop) : Prop extends BearsSets q I where
  propagated : ∀ {s t}, I s t → ∀ n, s.propagated[(⟨q, n⟩ : NodeKey)]? = t.propagated[(⟨q, n⟩ : NodeKey)]?
  sample : ∀ {s t}, I s t → ∀ f α, I (s.addSample f α) (t.addSample f α)
  record : ∀ {s t}, I s t → ∀ n demand,
    I (s.recordPropagated ⟨q, n⟩ demand) (t.recordPropagated ⟨q, n⟩ demand)
  mark : ∀ {s t}, I s t → ∀ n,
    I { s with ready := s.ready.insert ⟨q, n⟩ } { t with ready := t.ready.insert ⟨q, n⟩ }

namespace BearsDemand

variable {I : Session → Session → Prop}

/-- A property is borne, as a relation of sessions that are equal, if it is kept wherever something is noted. -/
theorem of_eq {q : PassId} {J : Session → Prop} (hsets : BearsSets q fun s t => s = t ∧ J s)
    (hsample : ∀ s, J s → ∀ f α, J (s.addSample f α))
    (hrecord : ∀ s, J s → ∀ n demand, J (s.recordPropagated ⟨q, n⟩ demand))
    (hmark : ∀ s, J s → ∀ n, J { s with ready := s.ready.insert ⟨q, n⟩ }) :
    BearsDemand q fun s t => s = t ∧ J s where
  toBearsSets := hsets
  propagated h _ := by rw [h.1]
  sample h f α := ⟨by rw [h.1], hsample _ h.2 f α⟩
  record h n demand := ⟨by rw [h.1], hrecord _ h.2 n demand⟩
  mark h n := ⟨by rw [h.1], hmark _ h.2 n⟩

theorem addRequired (hI : BearsDemand q I) (h : I s t) (n : NodeId) (k : Nat) (set : MixedSet) :
    I (s.addRequired q n k set) (t.addRequired q n k set) := by
  unfold Session.addRequired
  split
  · exact h
  · rw [hI.requiredSet_eq h]
    exact hI.keep h .required n k _

theorem bearsVisits (hI : BearsDemand q I) : BearsVisits q I where
  toBearsRequired := hI.bearsRequired
  add h := hI.addRequired h
  sample h := hI.sample h
  record h := hI.record h
  mark h := hI.mark h

variable (hI : BearsDemand p.id I)
include hI

/-- A visit of a node respects what determining demand on the operands respects. -/
theorem respects_visit {operand : NodeId → Demand → AnalysisM Unit}
    (hoperand : ∀ c part, Respects I (operand c part)) (n : NodeId) (fresh : Demand) :
    Respects I (visit g p n operand fresh) := by
  rw [visit_eq]
  refine (hI.toBearsSets.respects_prepare n fresh).bind fun v => ?_
  exact (Respects.forM fun b _ => hoperand b.1 b.2).bind fun _ => hI.bearsVisits.respects_finish n fresh v

/-- **Determining required sets respects** what bears it, whether it fails or not. -/
theorem respects_require (n : NodeId) (demand : Demand) : Respects I (require g p n demand) := by
  induction n using Nat.strongRecOn generalizing demand with
  | ind n ih =>
    rw [require, recurse_eq]
    refine .get_bind (fun s t h => by rw [unpropagated, unpropagated, hI.propagated h]) fun s => ?_
    split
    · exact respects_pure _
    · refine (hI.bearsRequired.respects_report ((respects_checked _).bind fun _ => respects_pure _)).bind fun _ => ?_
      exact hI.respects_visit (fun c part => respects_operand ih c part) n _

end BearsDemand

/-! ## Passes -/

/-- Whether two sessions have found the same in a pass. The messages may be others. -/
structure AgreeOn (b : PassId) (s t : Session) : Prop where
  sets : ∀ kind n k, s.sets[(⟨kind, b, n, k⟩ : SetKey)]? = t.sets[(⟨kind, b, n, k⟩ : SetKey)]?
  propagated : ∀ n, s.propagated[(⟨b, n⟩ : NodeKey)]? = t.propagated[(⟨b, n⟩ : NodeKey)]?
  ready : ∀ n, ⟨b, n⟩ ∈ s.ready ↔ ⟨b, n⟩ ∈ t.ready
  evaluators : ∀ n, s.evaluators[(⟨b, n⟩ : NodeKey)]? = t.evaluators[(⟨b, n⟩ : NodeKey)]?
  isOpen : s.journal.isOpen = t.journal.isOpen

theorem AgreeOn.refl (b : PassId) (s : Session) : AgreeOn b s s :=
  ⟨fun _ _ _ => rfl, fun _ => rfl, fun _ => Iff.rfl, fun _ => rfl, rfl⟩

theorem AgreeOn.symm (h : AgreeOn b s t) : AgreeOn b t s :=
  ⟨fun kind n k => (h.sets kind n k).symm, fun n => (h.propagated n).symm, fun n => (h.ready n).symm,
    fun n => (h.evaluators n).symm, h.isOpen.symm⟩

theorem AgreeOn.trans (h : AgreeOn b s t) (h' : AgreeOn b t u) : AgreeOn b s u where
  sets kind n k := (h.sets kind n k).trans (h'.sets kind n k)
  propagated n := (h.propagated n).trans (h'.propagated n)
  ready n := (h.ready n).trans (h'.ready n)
  evaluators n := (h.evaluators n).trans (h'.evaluators n)
  isOpen := h.isOpen.trans h'.isOpen

/-- Sessions that have found the same in a pass bear that the same is found there. -/
theorem agreeOn_bears (b : PassId) : Bears b (AgreeOn b) where
  sets h := h.sets
  ready h := h.ready
  evaluators h := h.evaluators
  isOpen h := h.isOpen
  keep h kind n k set := { h with sets := fun kind' n' k' => by simp only [getElem?_sets_insert, h.sets] }
  select h n e := { h with evaluators := fun n' => by simp only [Std.ExtTreeMap.getElem?_insert, h.evaluators] }
  note h _ := { h with isOpen := h.isOpen }

/-- Sessions that have found the same in a pass bear the same demand there. -/
theorem agreeOn_bearsDemand (b : PassId) : BearsDemand b (AgreeOn b) where
  toBearsSets := (agreeOn_bears b).toBearsSets
  propagated h := h.propagated
  sample h _ _ := { h with }
  record h n demand :=
    { h with
      propagated := fun n' => by
        simp only [getElem?_recordPropagated, h.propagated, Std.ExtTreeMap.getD_eq_getD_getElem?] }
  mark h n := { h with ready := fun n' => by simp only [Std.ExtTreeSet.mem_insert, h.ready] }

/-- What was found in a pass is still there, and nothing else, if something is found in another pass. -/
theorem bears_of_ne (h : b ≠ q) (s₀ : Session) : Bears q fun s t => s = t ∧ AgreeOn b s₀ s :=
  .of_eq
    (fun s hs kind n k set => hs.trans
      { AgreeOn.refl b s with
        sets := fun kind' n' k' => by
          rw [getElem?_sets_insert, if_neg]
          rintro ⟨⟩
          exact h rfl })
    (fun s hs n e => hs.trans
      { AgreeOn.refl b s with
        evaluators := fun n' => by
          simp [Std.ExtTreeMap.getElem?_insert, h.symm] })
    fun s hs _ => hs.trans { AgreeOn.refl b s with isOpen := rfl }

theorem bearsDemand_of_ne (h : b ≠ q) (s₀ : Session) : BearsDemand q fun s t => s = t ∧ AgreeOn b s₀ s :=
  .of_eq (bears_of_ne h s₀).toBearsSets
    (fun s hs _ _ => hs.trans { AgreeOn.refl b s with })
    (fun s hs n demand => hs.trans
      { AgreeOn.refl b s with
        propagated := fun n' => by simp [getElem?_recordPropagated, h.symm] })
    fun s hs n => hs.trans
      { AgreeOn.refl b s with
        ready := fun n' => by simp [Std.ExtTreeSet.mem_insert, h.symm] }

/-! ## Calls in several passes -/

/-- What a call replies. -/
inductive Reply where
  | set (set : MixedSet)
  | determined
  | classification (c : Classification)
  | evaluator (e : Evaluator)

/-- Carries out a call in a pass and replies what it finds. -/
def Call.reply (g : Graph) (p : Pass) : Call → AnalysisM Reply
  | nonzero n k => .set <$> findNonzero g p n k
  | required n k => .set <$> findRequired g p n k
  | constant n k => .set <$> findConstant g p n k
  | varying n k => .set <$> findVarying g p n k
  | require n demand => (fun _ => .determined) <$> Session.require g p n demand
  | classify n => .classification <$> Session.classify g p n
  | evaluate n => .evaluator <$> findEvaluator g p n

/-- The values or errors that calls in passes reply, one after the other, with the passes. A call that fails
does not stop the others. -/
def replies (g : Graph) : List (Pass × Call) → Session → List (PassId × Except (Fault AnalysisError) Reply)
  | [], _ => []
  | (p, c) :: calls, s => (p.id, ((c.reply g p).run.run s).1) :: replies g calls (after (c.reply g p) s)

theorem Bears.respects_reply {I : Session → Session → Prop} (hI : Bears p.id I) (hD : BearsDemand p.id I)
    (c : Call) : Respects I (c.reply g p) := by
  cases c with
  | nonzero n k => exact (hI.respects_findNonzero n k).map _
  | required n k => exact (hI.bearsRequired.respects_findRequired n k).map _
  | constant n k => exact (hI.respects_findConstant n k).map _
  | varying n k => exact (hI.respects_findVarying n k).map _
  | require n demand => exact (hD.respects_require n demand).map _
  | classify n => exact (hI.respects_classify n).map _
  | evaluate n => exact (hI.respects_findEvaluator n).map _

/-- A call in one of two sessions that have found the same in its pass gets the same reply in the other one,
and leaves them like that. -/
theorem AgreeOn.reply (h : AgreeOn p.id s t) (c : Call) :
    ((c.reply g p).run.run s).1 = ((c.reply g p).run.run t).1 ∧
      AgreeOn p.id (after (c.reply g p) s) (after (c.reply g p) t) :=
  (agreeOn_bears p.id).respects_reply (agreeOn_bearsDemand p.id) c s t h

/-- A call changes nothing in other passes. -/
theorem agreeOn_after (h : b ≠ p.id) (c : Call) (s : Session) : AgreeOn b s (after (c.reply g p) s) :=
  ((bears_of_ne h s).respects_reply (bearsDemand_of_ne h s) c s s ⟨rfl, .refl b s⟩).2.2

theorem AgreeOn.filter_replies (h : AgreeOn b s t) (calls : List (Pass × Call)) :
    (replies g calls s).filter (·.1 = b) = replies g (calls.filter (·.1.id = b)) t := by
  induction calls generalizing s t with
  | nil => rfl
  | cons call calls ih =>
    obtain ⟨p, c⟩ := call
    by_cases hp : p.id = b
    · subst hp
      obtain ⟨hreply, hagree⟩ := h.reply (g := g) c
      simp only [replies, List.filter_cons, decide_true, if_true, hreply, ih hagree]
    · have hafter := (agreeOn_after (g := g) (Ne.symm hp) c s).symm.trans h
      simp only [replies, List.filter_cons, hp, decide_false, Bool.false_eq_true, if_false, ih hafter]

/-- **Passes do not interfere.** Of calls in any passes, which may fail, those in one pass reply the same
values and errors as if all calls in other passes were left out. -/
theorem replies_isolated (g : Graph) (s : Session) (calls : List (Pass × Call)) (b : PassId) :
    (replies g calls s).filter (·.1 = b) = replies g (calls.filter (·.1.id = b)) s :=
  (AgreeOn.refl b s).filter_replies calls

end FormSparsity.Session

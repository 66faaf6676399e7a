import FormSparsity.Analysis.Inquiry

/-!
What an inquiry yields depends on the answers to its questions alone. `value` is the result under
given answers; answers that differ only on questions that are never asked give the same result
(`value_congr`).
-/
namespace FormSparsity

namespace Inquiry

variable {κ α β γ : Type}

/-- What an inquiry yields when the answer to every question is known. -/
def value (w : κ → MixedSet) (i : Inquiry κ α) : α := i.run (m := Id) w

section Value

variable (w : κ → MixedSet)

@[simp] theorem value_pure (a : α) : (pure a : Inquiry κ α).value w = a := (rfl)

@[simp] theorem value_bind (i : Inquiry κ α) (f : α → Inquiry κ β) :
    (i >>= f).value w = (f (i.value w)).value w := by
  unfold value
  rw [run_bind]
  rfl

@[simp] theorem value_map (i : Inquiry κ α) (f : α → β) : (f <$> i).value w = f (i.value w) :=
  value_bind w i (pure ∘ f)

-- not by a bare `rfl`: `simp` would then rewrite inside decision procedures
@[simp] theorem value_answer (q : κ) : (answer q).value w = w q := (rfl)

@[simp] theorem value_gather (f : β → Inquiry κ γ) (l : List β) :
    (gather f l).value w = l.map fun b => (f b).value w := by
  induction l with
  | nil => rfl
  | cons b l ih => simp [gather, ih]

@[simp] theorem value_union (f : β → Inquiry κ MixedSet) (l : List β) :
    (union f l).value w = SortedSet.unions (l.map fun b => (f b).value w) := by
  simp [union]

@[simp] theorem value_ite (c : Prop) [Decidable c] (i j : Inquiry κ α) :
    (if c then i else j).value w = if c then i.value w else j.value w := by
  split <;> rfl

end Value

/-! ## The questions of an inquiry -/

/-- Whether every question that can come up has a property, whatever the answers before it. -/
def AsksOnly (P : κ → Prop) : Inquiry κ α → Prop
  | done _ => True
  | ask q next => P q ∧ ∀ s, (next s).AsksOnly P

section AsksOnly

variable {P : κ → Prop}

theorem asksOnly_pure (a : α) : (pure a : Inquiry κ α).AsksOnly P := trivial

theorem asksOnly_answer {q : κ} (h : P q) : (answer q).AsksOnly P := ⟨h, fun _ => trivial⟩

theorem asksOnly_bind {i : Inquiry κ α} {f : α → Inquiry κ β} (hi : i.AsksOnly P)
    (hf : ∀ a, (f a).AsksOnly P) : (i >>= f).AsksOnly P := by
  induction i with
  | done a => exact hf a
  | ask q next ih => exact ⟨hi.1, fun s => ih s (hi.2 s)⟩

theorem asksOnly_map {i : Inquiry κ α} (hi : i.AsksOnly P) (f : α → β) : (f <$> i).AsksOnly P :=
  asksOnly_bind hi fun a => asksOnly_pure (f a)

theorem asksOnly_gather {f : β → Inquiry κ γ} {l : List β} (h : ∀ b ∈ l, (f b).AsksOnly P) :
    (gather f l).AsksOnly P := by
  induction l with
  | nil => exact trivial
  | cons b l ih =>
    refine asksOnly_bind (h b (by simp)) fun _ => ?_
    exact asksOnly_bind (ih fun b' hb' => h b' (by simp [hb'])) fun _ => asksOnly_pure _

theorem asksOnly_union {f : β → Inquiry κ MixedSet} {l : List β} (h : ∀ b ∈ l, (f b).AsksOnly P) :
    (union f l).AsksOnly P :=
  asksOnly_map (asksOnly_gather h) _

theorem asksOnly_ite {c : Prop} [Decidable c] {i j : Inquiry κ α} (hi : c → i.AsksOnly P)
    (hj : ¬c → j.AsksOnly P) : (if c then i else j).AsksOnly P := by
  split
  · exact hi ‹_›
  · exact hj ‹_›

/-- Answers that agree on all questions asked give the same result. -/
theorem value_congr {w w' : κ → MixedSet} {i : Inquiry κ α} (hi : i.AsksOnly P)
    (h : ∀ q, P q → w q = w' q) : i.value w = i.value w' := by
  induction i with
  | done a => rfl
  | ask q next ih =>
    show (next (w q)).value w = (next (w' q)).value w'
    rw [h q hi.1]
    exact ih _ (hi.2 _)

end AsksOnly

end Inquiry

end FormSparsity

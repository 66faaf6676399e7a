import FormSparsity.Derivative.MixedSet

/-!
Inquiries: computations that ask for sets of derivatives as they go. The rules of the analysis are
inquiries about the operands of a node. Who answers, and what is remembered of the answers, is left
open: `Inquiry.run` answers in any monad, and what a rule yields depends on the answers alone.

| here | there |
| --- | --- |
| `answer` | a call of `find_w`, `find_r` or `find_v` within a rule |
| `run` | a rule with these calls carried out one after the other |
-/
namespace FormSparsity

/-- A computation of an `α` that asks questions of type `κ`, each answered by a set. -/
inductive Inquiry (κ α : Type) where
  | done (a : α)
  | ask (question : κ) (next : MixedSet → Inquiry κ α)

namespace Inquiry

variable {κ α β γ : Type}

/-- Goes on with the result of an inquiry. -/
def bind : Inquiry κ α → (α → Inquiry κ β) → Inquiry κ β
  | done a, f => f a
  | ask q next, f => ask q fun s => (next s).bind f

instance : Monad (Inquiry κ) where
  pure := done
  bind := bind

theorem pure_eq_done (a : α) : (pure a : Inquiry κ α) = done a := rfl

theorem done_bind (a : α) (f : α → Inquiry κ β) : done a >>= f = f a := rfl

theorem ask_bind (q : κ) (next : MixedSet → Inquiry κ α) (f : α → Inquiry κ β) :
    ask q next >>= f = ask q fun s => next s >>= f := rfl

/-- The answer to a single question. -/
def answer (q : κ) : Inquiry κ MixedSet := ask q done

/-- One inquiry for every value of a list, in order. -/
def gather (f : β → Inquiry κ γ) : List β → Inquiry κ (List γ)
  | [] => done []
  | b :: l => do
    let c ← f b
    let cs ← gather f l
    return c :: cs

/-- The union of the sets found for every value of a list. -/
def union (f : β → Inquiry κ MixedSet) (l : List β) : Inquiry κ MixedSet :=
  SortedSet.unions <$> gather f l

/-- Carries out an inquiry with the answers of `oracle`. -/
def run {m : Type → Type} [Monad m] (oracle : κ → m MixedSet) : Inquiry κ α → m α
  | done a => pure a
  | ask q next => do (next (← oracle q)).run oracle

section Run

variable {m : Type → Type} [Monad m] {oracle : κ → m MixedSet}

@[simp] theorem run_done (a : α) : (done a : Inquiry κ α).run oracle = pure a := rfl

@[simp] theorem run_ask (q : κ) (next : MixedSet → Inquiry κ α) :
    (ask q next).run oracle = oracle q >>= fun s => (next s).run oracle := rfl

/-- Running two inquiries in sequence runs the first and then the second. -/
@[simp] theorem run_bind [LawfulMonad m] (i : Inquiry κ α) (f : α → Inquiry κ β) :
    (i >>= f).run oracle = i.run oracle >>= fun a => (f a).run oracle := by
  induction i with
  | done a => simp [done_bind]
  | ask q next ih => simp [ask_bind, ih]

end Run

end Inquiry

end FormSparsity

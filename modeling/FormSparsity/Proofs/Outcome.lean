import FormSparsity.Session.Monad
import Mathlib.Tactic.Common

/-!
Outcomes of computations that change a state and may fail. Such a computation ends either with a
result or with an error, and in both cases with a state, which a failure does not take back.
`Ends x s ok err` says that `x`, started in `s`, ends with a result and a state that satisfy `ok` or
with an error and a state that satisfy `err`; if `err` is never satisfied, it does not fail.
-/
namespace FormSparsity

variable {ε σ α β γ δ : Type}

/-- Whether a computation started in a state ends in one of two ways. -/
def Ends (x : ExceptT ε (StateM σ) α) (s : σ) (ok : α → σ → Prop) (err : ε → σ → Prop) : Prop :=
  match x.run.run s with
  | (.ok a, s') => ok a s'
  | (.error e, s') => err e s'

/-- The state that a computation leaves behind, whether it fails or not. -/
def after (x : ExceptT ε (StateM σ) α) (s : σ) : σ := (x.run.run s).2

section Ends

variable {x : ExceptT ε (StateM σ) α} {f : α → ExceptT ε (StateM σ) β} {s : σ}
variable {ok ok' : α → σ → Prop} {err err' : ε → σ → Prop}

theorem Ends.mono (h : Ends x s ok err) (hok : ∀ a s', ok a s' → ok' a s')
    (herr : ∀ e s', err e s' → err' e s') : Ends x s ok' err' := by
  unfold Ends at *
  split at h
  · exact hok _ _ h
  · exact herr _ _ h

/-- What is known of the ends of a computation in two ways is known together. -/
theorem Ends.and (h : Ends x s ok err) (h' : Ends x s ok' err') :
    Ends x s (fun a s' => ok a s' ∧ ok' a s') fun e s' => err e s' ∧ err' e s' := by
  unfold Ends at *
  split <;> simp_all

/-- The state in which a computation ends, whether it fails or not. -/
theorem Ends.state {I : σ → Prop} (h : Ends x s (fun _ => I) (fun _ => I)) : I (x.run.run s).2 := by
  unfold Ends at h
  split at h
  · simp_all
  · simp_all

/-- A computation that does not fail has a result. -/
theorem Ends.exists_ok (h : Ends x s ok fun _ _ => False) :
    ∃ a s', x.run.run s = (.ok a, s') ∧ ok a s' := by
  unfold Ends at h
  split at h
  · exact ⟨_, _, ‹_›, h⟩
  · exact h.elim

/-- A computation whose result passes a test has a result. -/
theorem exists_ok_of_any {P : α → Bool} (h : (x.run.run s).1.toOption.any P = true) :
    ∃ a s', x.run.run s = (.ok a, s') ∧ P a = true := by
  rcases hrun : x.run.run s with ⟨a | a, s'⟩
  · simp [hrun, Except.toOption] at h
  · exact ⟨a, s', rfl, by simpa [hrun, Except.toOption] using h⟩

/-- A computation that has no result fails. -/
theorem Ends.exists_error (h : Ends x s (fun _ _ => False) err) :
    ∃ e s', x.run.run s = (.error e, s') ∧ err e s' := by
  unfold Ends at h
  split at h
  · exact h.elim
  · exact ⟨_, _, ‹_›, h⟩

theorem Ends.of_ok (h : Ends x s ok err) {a : α} {s' : σ} (hx : x.run.run s = (.ok a, s')) : ok a s' := by
  simpa [Ends, hx] using h

/-- A computation that has a result ends with it and the state that it leaves behind. -/
theorem run_eq_of_ok {a : α} (h : (x.run.run s).1 = .ok a) : x.run.run s = (.ok a, after x s) :=
  Prod.ext h rfl

/-- Every computation ends as it does. -/
theorem ends_run (x : ExceptT ε (StateM σ) α) (s : σ) :
    Ends x s (fun a s' => x.run.run s = (.ok a, s')) fun e s' => x.run.run s = (.error e, s') := by
  unfold Ends
  split <;> assumption

theorem Ends.of_error (h : Ends x s ok err) {e : ε} {s' : σ} (hx : x.run.run s = (.error e, s')) :
    err e s' := by
  simpa [Ends, hx] using h

@[simp] theorem ends_pure (a : α) : Ends (pure a : ExceptT ε (StateM σ) α) s ok err ↔ ok a s := Iff.rfl

@[simp] theorem ends_throw (e : ε) : Ends (throw e : ExceptT ε (StateM σ) α) s ok err ↔ err e s := Iff.rfl

/-- A sequence of two computations stops at the first one if that fails. -/
theorem run_bind : (x >>= f).run.run s = match x.run.run s with
    | (.ok a, s') => (f a).run.run s'
    | (.error e, s') => (.error e, s') := by
  show (ExceptT.bind x f).run.run s = _
  simp only [ExceptT.bind, ExceptT.run, ExceptT.mk, StateT.run, bind, StateT.bind, Id]
  rcases x s with ⟨a | e, s'⟩ <;> rfl

/-- What comes after a computation that has a result goes on from there. -/
theorem after_bind {a : α} {s' : σ} (h : x.run.run s = (.ok a, s')) : after (x >>= f) s = after (f a) s' := by
  rw [after, run_bind, h]
  rfl

@[simp] theorem ends_bind {ok : β → σ → Prop} :
    Ends (x >>= f) s ok err ↔ Ends x s (fun a s' => Ends (f a) s' ok err) err := by
  unfold Ends
  rw [run_bind]
  rcases x.run.run s with ⟨a | e, s'⟩ <;> rfl

@[simp] theorem ends_map {ok : β → σ → Prop} (f : α → β) :
    Ends (f <$> x) s ok err ↔ Ends x s (fun a => ok (f a)) err := by
  rw [← bind_pure_comp, ends_bind]
  rfl

@[simp] theorem ends_get {ok : σ → σ → Prop} {err : ε → σ → Prop} :
    Ends (get : ExceptT ε (StateM σ) σ) s ok err ↔ ok s s := Iff.rfl

@[simp] theorem ends_set {ok : PUnit → σ → Prop} (s' : σ) :
    Ends (set s' : ExceptT ε (StateM σ) PUnit) s ok err ↔ ok ⟨⟩ s' := Iff.rfl

@[simp] theorem ends_modify {ok : PUnit → σ → Prop} (f : σ → σ) :
    Ends (modify f : ExceptT ε (StateM σ) PUnit) s ok err ↔ ok ⟨⟩ (f s) := Iff.rfl

@[simp] theorem ends_adapt {ε' : Type} {err : ε' → σ → Prop} (f : ε → ε') :
    Ends (x.adapt f) s ok err ↔ Ends x s ok fun e => err (f e) := by
  have hadapt : (x.adapt f).run.run s = ((x.run.run s).1.mapError f, (x.run.run s).2) := rfl
  unfold Ends
  rw [hadapt]
  rcases x.run.run s with ⟨a | e, s'⟩ <;> rfl

theorem ends_ite {c : Prop} [Decidable c] {x y : ExceptT ε (StateM σ) α} :
    Ends (if c then x else y) s ok err ↔ (c → Ends x s ok err) ∧ (¬c → Ends y s ok err) := by
  split <;> simp [*]

end Ends

/-! ## Loops -/

section Loops

variable {s : σ} {E : ε → σ → Prop}

/-- What holds of the values done so far holds in the end of all values. A step may use which values are
still to come. -/
theorem Ends.forM_split (I : List β → σ → Prop) {l : List β} {f : β → ExceptT ε (StateM σ) PUnit}
    (h : ∀ done b rest, l = done ++ b :: rest → ∀ s, I done s → Ends (f b) s (fun _ => I (done ++ [b])) E)
    (h0 : I [] s) : Ends (l.forM f) s (fun _ => I l) E := by
  suffices key : ∀ (todo done : List β) (s : σ), l = done ++ todo → I done s →
      Ends (todo.forM f) s (fun _ => I l) E from key l [] s rfl h0
  intro todo
  induction todo with
  | nil =>
    intro done s hl hs
    obtain rfl : l = done := by simpa using hl
    exact hs
  | cons b todo ih =>
    intro done s hl hs
    rw [List.forM, ends_bind]
    refine (h done b todo hl s hs).mono (fun _ s' hs' => ?_) fun _ _ he => he
    exact ih (done ++ [b]) s' (by simp [hl]) hs'

theorem Ends.forM (I : List β → σ → Prop) {l : List β} {f : β → ExceptT ε (StateM σ) PUnit}
    (h : ∀ done b, b ∈ l → ∀ s, I done s → Ends (f b) s (fun _ => I (done ++ [b])) E) (h0 : I [] s) :
    Ends (l.forM f) s (fun _ => I l) E :=
  .forM_split I (fun done b _ hl => h done b (by simp [hl])) h0

theorem forM_congr {l : List β} {f f' : β → ExceptT ε (StateM σ) PUnit} (h : ∀ b ∈ l, f b = f' b) :
    l.forM f = l.forM f' := by
  induction l with
  | nil => rfl
  | cons b l ih =>
    rw [List.forM, List.forM, h b (by simp), ih fun b' hb' => h b' (by simp [hb'])]

/-- A loop whose every step yields the value of a function yields all values. What every step makes sure
of is sure of all elements. -/
theorem Ends.mapM (I : σ → Prop) (P : β → Prop) (w : β → γ) {l : List β} {f : β → ExceptT ε (StateM σ) γ}
    (h : ∀ b ∈ l, ∀ s, I s → Ends (f b) s (fun c s' => c = w b ∧ P b ∧ I s') E) (h0 : I s) :
    Ends (l.mapM f) s (fun cs s' => cs = l.map w ∧ (∀ b ∈ l, P b) ∧ I s') E := by
  induction l generalizing s with
  | nil => simpa using h0
  | cons b l ih =>
    rw [List.mapM_cons, ends_bind]
    refine (h b (by simp) s h0).mono (fun c s' hc => ?_) fun _ _ he => he
    obtain ⟨rfl, hb, hc⟩ := hc
    rw [ends_bind]
    refine (ih (fun b' hb' => h b' (by simp [hb'])) hc).mono (fun cs s'' hcs => ?_) fun _ _ he => he
    obtain ⟨rfl, hl, hcs⟩ := hcs
    simpa using ⟨⟨hb, hl⟩, hcs⟩

/-- A loop stops at the first element for which its step fails. -/
theorem Ends.mapM_find (I : σ → Prop) (fails : β → Bool) (w : β → γ) (F : β → ε → σ → Prop) {l : List β}
    {f : β → ExceptT ε (StateM σ) γ}
    (h : ∀ b ∈ l, ∀ s, I s → Ends (f b) s (fun c s' => fails b = false ∧ c = w b ∧ I s')
      (fun e s' => fails b = true ∧ F b e s')) (h0 : I s) :
    Ends (l.mapM f) s (fun cs s' => l.find? fails = none ∧ cs = l.map w ∧ I s')
      (fun e s' => ∃ b, l.find? fails = some b ∧ F b e s') := by
  induction l generalizing s with
  | nil => simpa using h0
  | cons b l ih =>
    rw [List.mapM_cons, ends_bind]
    refine (h b (by simp) s h0).mono (fun c s' hc => ?_) fun e s' he => ⟨b, by simp [he.1], he.2⟩
    obtain ⟨hb, rfl, hc⟩ := hc
    rw [ends_bind, List.find?_cons_of_neg (by simp [hb])]
    refine (ih (fun b' hb' => h b' (by simp [hb'])) hc).mono (fun cs s'' hcs => ?_) fun _ _ he => he
    obtain ⟨hl, rfl, hcs⟩ := hcs
    exact ⟨hl, rfl, hcs⟩

/-- What holds of the values done so far and what they have yielded holds in the end of all values. -/
theorem Ends.mapM_done (I : List β → List γ → σ → Prop) {l : List β} {f : β → ExceptT ε (StateM σ) γ}
    (h : ∀ done cs b, b ∈ l → ∀ s, I done cs s → Ends (f b) s (fun c => I (done ++ [b]) (cs ++ [c])) E)
    (h0 : I [] [] s) : Ends (l.mapM f) s (fun cs => I l cs) E := by
  suffices key : ∀ (todo done : List β) (cs : List γ) (s : σ), (∀ b ∈ todo, b ∈ l) → I done cs s →
      Ends (todo.mapM f) s (fun cs' => I (done ++ todo) (cs ++ cs')) E by
    simpa using key l [] [] s (fun _ hb => hb) h0
  intro todo
  induction todo with
  | nil => intro done cs s _ hs; simpa using hs
  | cons b todo ih =>
    intro done cs s hl hs
    rw [List.mapM_cons, ends_bind]
    refine (h done cs b (hl b (by simp)) s hs).mono (fun c s' hs' => ?_) fun _ _ he => he
    rw [ends_bind]
    refine (ih (done ++ [b]) (cs ++ [c]) s' (fun b' hb' => hl b' (by simp [hb'])) hs').mono
      (fun cs' s'' hs'' => ?_) fun _ _ he => he
    simpa using hs''

theorem Ends.foldlM (I : List β → δ → σ → Prop) {l : List β} {f : δ → β → ExceptT ε (StateM σ) δ} {d : δ}
    (h : ∀ done b, b ∈ l → ∀ d s, I done d s → Ends (f d b) s (fun d' => I (done ++ [b]) d') E)
    (h0 : I [] d s) : Ends (l.foldlM f d) s (fun d' => I l d') E := by
  suffices key : ∀ (todo done : List β) (d : δ) (s : σ), (∀ b ∈ todo, b ∈ l) → I done d s →
      Ends (todo.foldlM f d) s (fun d' => I (done ++ todo) d') E by
    simpa using key l [] d s (fun _ hb => hb) h0
  intro todo
  induction todo with
  | nil => intro done d s _ hs; simpa using hs
  | cons b todo ih =>
    intro done d s hl hs
    rw [List.foldlM_cons, ends_bind]
    refine (h done b (hl b (by simp)) d s hs).mono (fun d' s' hs' => ?_) fun _ _ he => he
    simpa using ih (done ++ [b]) d' s' (fun b' hb' => hl b' (by simp [hb'])) hs'

end Loops

/-! ## Properties that are kept -/

/-- Whether a computation keeps a property of the state, in whichever way it ends. -/
def Keeps (I : σ → Prop) (x : ExceptT ε (StateM σ) α) : Prop := ∀ s, I s → Ends x s (fun _ => I) fun _ => I

section Keeps

variable {I : σ → Prop}

theorem keeps_pure (a : α) : Keeps I (pure a : ExceptT ε (StateM σ) α) := fun _ hs => hs

theorem keeps_throw (e : ε) : Keeps I (throw e : ExceptT ε (StateM σ) α) := fun _ hs => hs

theorem Keeps.bind {x : ExceptT ε (StateM σ) α} {f : α → ExceptT ε (StateM σ) β} (hx : Keeps I x)
    (hf : ∀ a, Keeps I (f a)) : Keeps I (x >>= f) := by
  intro s hs
  rw [ends_bind]
  exact (hx s hs).mono (fun a s' hs' => hf a s' hs') fun _ _ h => h

/-- What holds after a computation still holds at the end of a sequence whose rest keeps it. -/
theorem Keeps.after_bind {x : ExceptT ε (StateM σ) α} {f : α → ExceptT ε (StateM σ) β} {s : σ}
    (hf : ∀ a, Keeps I (f a)) (hx : I (after x s)) : I (after (x >>= f) s) := by
  have h : Ends (x >>= f) s (fun _ => I) fun _ => I := by
    rw [ends_bind]
    refine (ends_run x s).mono (fun a s' hrun => hf a s' ?_) fun e s' hrun => ?_
    · rwa [after, hrun] at hx
    · rwa [after, hrun] at hx
  exact h.state

theorem Keeps.mapM {f : β → ExceptT ε (StateM σ) γ} {l : List β} (hf : ∀ b ∈ l, Keeps I (f b)) :
    Keeps I (l.mapM f) := by
  induction l with
  | nil => exact keeps_pure _
  | cons b l ih =>
    rw [List.mapM_cons]
    exact (hf b (by simp)).bind fun _ => (ih fun b' hb' => hf b' (by simp [hb'])).bind fun _ => keeps_pure _

theorem Keeps.foldlM {f : δ → β → ExceptT ε (StateM σ) δ} {l : List β} {d : δ}
    (hf : ∀ d, ∀ b ∈ l, Keeps I (f d b)) : Keeps I (l.foldlM f d) := by
  induction l generalizing d with
  | nil => exact keeps_pure d
  | cons b l ih =>
    rw [List.foldlM_cons]
    exact (hf d b (by simp)).bind fun _ => ih fun d b' hb' => hf d b' (by simp [hb'])

end Keeps

/-! ## Two runs -/

/-- Whether two computations, started in states that are related, end in the same way: with the same result or
the same error, and in states that are related again. -/
def Alongside {τ : Type} (I : σ → τ → Prop) (x : ExceptT ε (StateM σ) α) (y : ExceptT ε (StateM τ) α) : Prop :=
  ∀ s t, I s t → (x.run.run s).1 = (y.run.run t).1 ∧ I (after x s) (after y t)

section Alongside

variable {τ : Type} {I : σ → τ → Prop}
variable {x : ExceptT ε (StateM σ) α} {y : ExceptT ε (StateM τ) α}

theorem alongside_pure (a : α) :
    Alongside I (pure a : ExceptT ε (StateM σ) α) (pure a : ExceptT ε (StateM τ) α) := fun _ _ h => ⟨rfl, h⟩

theorem alongside_throw (e : ε) :
    Alongside I (throw e : ExceptT ε (StateM σ) α) (throw e : ExceptT ε (StateM τ) α) := fun _ _ h => ⟨rfl, h⟩

theorem alongside_ofExcept (x : Except ε α) :
    Alongside I (ofExcept x : ExceptT ε (StateM σ) α) (ofExcept x : ExceptT ε (StateM τ) α) := by
  cases x with
  | ok a => exact alongside_pure a
  | error e => exact alongside_throw e

theorem alongside_modify {f : σ → σ} {f' : τ → τ} (hf : ∀ s t, I s t → I (f s) (f' t)) :
    Alongside I (modify f : ExceptT ε (StateM σ) PUnit) (modify f' : ExceptT ε (StateM τ) PUnit) :=
  fun s t h => ⟨rfl, hf s t h⟩

theorem Alongside.bind {f : α → ExceptT ε (StateM σ) β} {f' : α → ExceptT ε (StateM τ) β} (hx : Alongside I x y)
    (hf : ∀ a, Alongside I (f a) (f' a)) : Alongside I (x >>= f) (y >>= f') := by
  intro s t h
  obtain ⟨hresult, hstate⟩ := hx s t h
  rw [after, after, run_bind, run_bind]
  rw [after, after] at hstate
  revert hresult hstate
  obtain ⟨r, s'⟩ := x.run.run s
  obtain ⟨r', t'⟩ := y.run.run t
  rintro ⟨⟩ hstate
  cases r with
  | ok a => exact hf a s' t' hstate
  | error e => exact ⟨rfl, hstate⟩

/-- What two computations do with their states is compared for states that are related. -/
theorem Alongside.get_bind {f : σ → ExceptT ε (StateM σ) α} {f' : τ → ExceptT ε (StateM τ) α}
    (hf : ∀ s t, I s t → Alongside I (f s) (f' t)) : Alongside I (get >>= f) (get >>= f') :=
  fun s t h => hf s t h s t h

theorem Alongside.map (hx : Alongside I x y) (f : α → β) : Alongside I (f <$> x) (f <$> y) := by
  rw [← bind_pure_comp, ← bind_pure_comp]
  exact hx.bind fun a => alongside_pure (f a)

theorem Alongside.mapM {f : β → ExceptT ε (StateM σ) γ} {f' : β → ExceptT ε (StateM τ) γ} {l : List β}
    (hf : ∀ b ∈ l, Alongside I (f b) (f' b)) : Alongside I (l.mapM f) (l.mapM f') := by
  induction l with
  | nil => exact alongside_pure _
  | cons b l ih =>
    rw [List.mapM_cons, List.mapM_cons]
    exact (hf b (by simp)).bind fun _ =>
      (ih fun b' hb' => hf b' (by simp [hb'])).bind fun _ => alongside_pure _

theorem Alongside.forM {f : β → ExceptT ε (StateM σ) PUnit} {f' : β → ExceptT ε (StateM τ) PUnit} {l : List β}
    (hf : ∀ b ∈ l, Alongside I (f b) (f' b)) : Alongside I (l.forM f) (l.forM f') := by
  induction l with
  | nil => exact alongside_pure _
  | cons b l ih =>
    rw [List.forM, List.forM]
    exact (hf b (by simp)).bind fun _ => ih fun b' hb' => hf b' (by simp [hb'])

theorem Alongside.foldlM {f : δ → β → ExceptT ε (StateM σ) δ} {f' : δ → β → ExceptT ε (StateM τ) δ} {l : List β}
    {d : δ} (hf : ∀ d, ∀ b ∈ l, Alongside I (f d b) (f' d b)) : Alongside I (l.foldlM f d) (l.foldlM f' d) := by
  induction l generalizing d with
  | nil => exact alongside_pure _
  | cons b l ih =>
    rw [List.foldlM_cons, List.foldlM_cons]
    exact (hf d b (by simp)).bind fun d => ih fun d b' hb' => hf d b' (by simp [hb'])

theorem Alongside.adapt {ε' : Type} (hx : Alongside I x y) (f : ε → ε') : Alongside I (x.adapt f) (y.adapt f) := by
  intro s t h
  obtain ⟨hresult, hstate⟩ := hx s t h
  refine ⟨?_, hstate⟩
  show (x.run.run s).1.mapError f = (y.run.run t).1.mapError f
  rw [hresult]

end Alongside

/-- Whether a computation, started in two states that are related, ends in the same way: with the same result
or the same error, and in states that are related again. -/
def Respects (I : σ → σ → Prop) (x : ExceptT ε (StateM σ) α) : Prop :=
  ∀ s t, I s t → (x.run.run s).1 = (x.run.run t).1 ∧ I (after x s) (after x t)

section Respects

variable {I : σ → σ → Prop}

theorem respects_pure (a : α) : Respects I (pure a : ExceptT ε (StateM σ) α) := alongside_pure a

theorem respects_throw (e : ε) : Respects I (throw e : ExceptT ε (StateM σ) α) := alongside_throw e

theorem respects_modify {f : σ → σ} (hf : ∀ s t, I s t → I (f s) (f t)) :
    Respects I (modify f : ExceptT ε (StateM σ) PUnit) := alongside_modify hf

theorem Respects.bind {x : ExceptT ε (StateM σ) α} {f : α → ExceptT ε (StateM σ) β} (hx : Respects I x)
    (hf : ∀ a, Respects I (f a)) : Respects I (x >>= f) := Alongside.bind hx hf

/-- What a computation does with the state must not depend on more than what is related. -/
theorem Respects.get_bind {f : σ → ExceptT ε (StateM σ) α} (hsame : ∀ s t, I s t → f s = f t)
    (hf : ∀ s, Respects I (f s)) : Respects I (get >>= f) := by
  refine Alongside.get_bind fun s t h => ?_
  rw [← hsame s t h]
  exact hf s

theorem Respects.map {x : ExceptT ε (StateM σ) α} (hx : Respects I x) (f : α → β) : Respects I (f <$> x) :=
  Alongside.map hx f

theorem Respects.mapM {f : β → ExceptT ε (StateM σ) γ} {l : List β} (hf : ∀ b ∈ l, Respects I (f b)) :
    Respects I (l.mapM f) := Alongside.mapM hf

theorem Respects.forM {f : β → ExceptT ε (StateM σ) PUnit} {l : List β} (hf : ∀ b ∈ l, Respects I (f b)) :
    Respects I (l.forM f) := Alongside.forM hf

theorem Respects.foldlM {f : δ → β → ExceptT ε (StateM σ) δ} {l : List β} {d : δ}
    (hf : ∀ d, ∀ b ∈ l, Respects I (f d b)) : Respects I (l.foldlM f d) := Alongside.foldlM hf

/-- What relates a state to itself is kept if it is respected. -/
theorem Respects.keeps {J : σ → Prop} {x : ExceptT ε (StateM σ) α}
    (hx : Respects (fun s t => s = t ∧ J s) x) : Keeps J x := by
  intro s hs
  have h : J (after x s) := (hx s s ⟨rfl, hs⟩).2.2
  rw [after] at h
  unfold Ends
  split
  · simp_all
  · simp_all

end Respects

/-- Whether a computation ends alike from two states, with states that are related, unless it fails from the
second one in an odd way. -/
def Together (x : ExceptT ε (StateM σ) α) (s t : σ) (I : σ → σ → Prop) (odd : ε → Prop) : Prop :=
  ((x.run.run s).1 = (x.run.run t).1 ∧ I (after x s) (after x t)) ∨ ∃ e, (x.run.run t).1 = .error e ∧ odd e

section Together

variable {x : ExceptT ε (StateM σ) α} {s t : σ} {I I' : σ → σ → Prop} {odd odd' : ε → Prop}

theorem Respects.together (hx : Respects I x) (h : I s t) : Together x s t I odd := .inl (hx s t h)

theorem together_pure {a : α} (h : I s t) : Together (pure a : ExceptT ε (StateM σ) α) s t I odd := .inl ⟨rfl, h⟩

theorem Together.mono (hx : Together x s t I odd) (hI : ∀ s' t', I s' t' → I' s' t')
    (hodd : ∀ e, odd e → odd' e) : Together x s t I' odd' :=
  hx.imp (fun h => ⟨h.1, hI _ _ h.2⟩) fun ⟨e, he, h⟩ => ⟨e, he, hodd e h⟩

/-- Without odd ways to fail there are two runs alike. -/
theorem Together.alike (hx : Together x s t I fun _ => False) :
    (x.run.run s).1 = (x.run.run t).1 ∧ I (after x s) (after x t) :=
  hx.resolve_right fun ⟨_, _, h⟩ => h

/-- What is known of the ends from each of the two states is known as well. -/
theorem Together.and (hx : Together x s t I odd) {P Q : σ → Prop} (hs : Ends x s (fun _ => P) fun _ => P)
    (ht : Ends x t (fun _ => Q) fun _ => Q) :
    Together x s t (fun s' t' => I s' t' ∧ P s' ∧ Q t') odd :=
  hx.imp_left fun h => ⟨h.1, h.2, hs.state, ht.state⟩

/-- Two runs that are known to end with one result end alike. -/
theorem together_of_ends {r : Except ε α} {P Q : σ → Prop}
    (hs : Ends x s (fun a s' => .ok a = r ∧ P s') fun e s' => .error e = r ∧ P s')
    (ht : Ends x t (fun a t' => .ok a = r ∧ Q t') fun e t' => .error e = r ∧ Q t')
    (h : ∀ s' t', P s' → Q t' → I s' t') : Together x s t I odd := by
  have hends : ∀ {u : σ} {R : σ → Prop},
      (Ends x u (fun a u' => .ok a = r ∧ R u') fun e u' => .error e = r ∧ R u') →
      (x.run.run u).1 = r ∧ R (after x u) := by
    intro u R hu
    unfold Ends at hu
    unfold after
    split at hu <;> simp_all
  obtain ⟨hr, hP⟩ := hends hs
  obtain ⟨hr', hQ⟩ := hends ht
  exact .inl ⟨hr.trans hr'.symm, h _ _ hP hQ⟩

theorem Together.bind {f : α → ExceptT ε (StateM σ) β} (hx : Together x s t I odd)
    (hI : ∀ s' t', I s' t' → I' s' t')
    (hf : ∀ a s' t', x.run.run s = (.ok a, s') → x.run.run t = (.ok a, t') → I s' t' →
      Together (f a) s' t' I' odd) : Together (x >>= f) s t I' odd := by
  rcases hs : x.run.run s with ⟨r, s'⟩
  rcases ht : x.run.run t with ⟨r', t'⟩
  rw [Together, after, after, hs, ht] at hx
  rw [Together, after, after, run_bind, run_bind, hs, ht]
  obtain ⟨rfl, hst⟩ | ⟨e, rfl, he⟩ := hx
  · cases r with
    | ok a => exact hf a s' t' hs ht hst
    | error e => exact .inl ⟨rfl, hI s' t' hst⟩
  · exact .inr ⟨e, rfl, he⟩

theorem Together.map (hx : Together x s t I odd) (f : α → β) : Together (f <$> x) s t I odd := by
  rw [← bind_pure_comp]
  exact hx.bind (fun _ _ h => h) fun _ _ _ _ _ h => together_pure h

/-- What a computation does with the state must be the same. -/
theorem together_get_bind {f : σ → ExceptT ε (StateM σ) α} (hsame : f s = f t)
    (hf : Together (f s) s t I odd) : Together (get >>= f) s t I odd := by
  have hrun : ∀ u, (get >>= f).run.run u = (f u).run.run u := fun _ => rfl
  rw [Together, after, after, hrun, hrun, ← hsame]
  exact hf

theorem Together.forM {f : β → ExceptT ε (StateM σ) PUnit} {l : List β}
    (hf : ∀ b ∈ l, ∀ s t, I s t → Together (f b) s t I odd) (h : I s t) : Together (l.forM f) s t I odd := by
  induction l generalizing s t with
  | nil => exact together_pure h
  | cons b l ih =>
    rw [List.forM]
    exact (hf b (by simp) s t h).bind (fun _ _ h => h) fun _ _ _ _ _ h' =>
      ih (fun b' hb' => hf b' (by simp [hb'])) h'

end Together

/-! ## Steps without a state -/

section Except

variable {f : β → Except ε γ} {l : List β}

/-- A list of steps that succeed has the result of each. -/
theorem forall₂_of_mapM_eq_ok {cs : List γ} (h : l.mapM f = .ok cs) :
    List.Forall₂ (fun b c => f b = .ok c) l cs := by
  induction l generalizing cs with
  | nil =>
    cases h
    exact .nil
  | cons b l ih =>
    rw [List.mapM_cons] at h
    cases hb : f b with
    | error e => rw [hb] at h; cases h
    | ok c =>
      cases hl : l.mapM f with
      | error e => rw [hb, hl] at h; cases h
      | ok cs' =>
        rw [hb, hl] at h
        cases h
        exact .cons hb (ih hl)

/-- A list of steps fails as one of them does. -/
theorem exists_of_mapM_eq_error {e : ε} (h : l.mapM f = .error e) : ∃ b ∈ l, f b = .error e := by
  induction l with
  | nil => cases h
  | cons b l ih =>
    rw [List.mapM_cons] at h
    cases hb : f b with
    | error e' =>
      rw [hb] at h
      cases h
      exact ⟨b, List.mem_cons_self, hb⟩
    | ok c =>
      cases hl : l.mapM f with
      | ok cs => rw [hb, hl] at h; cases h
      | error e' =>
        rw [hb, hl] at h
        cases h
        obtain ⟨b', hb', he⟩ := ih hl
        exact ⟨b', List.mem_cons_of_mem _ hb', he⟩

/-- If a list of steps succeeds, all of them do, and the results are theirs. -/
theorem mem_of_mapM_eq_ok {cs : List γ} (h : l.mapM f = .ok cs) :
    (∀ b ∈ l, ∃ c, f b = .ok c) ∧ ∀ c, c ∈ cs ↔ ∃ b ∈ l, f b = .ok c := by
  have hresults := forall₂_of_mapM_eq_ok h
  clear h
  induction hresults with
  | nil => simp
  | cons hb _ ih => exact ⟨List.forall_mem_cons.mpr ⟨⟨_, hb⟩, ih.1⟩, by simp [hb, ih.2, eq_comm]⟩

end Except

end FormSparsity

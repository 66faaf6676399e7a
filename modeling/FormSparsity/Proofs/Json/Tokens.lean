import FormSparsity.Json.Parse
import Mathlib.Data.List.Chain

/-!
Values from their tokens. The tokens of a value lead from a state in which a value is due to the one in which
it is complete, whatever stands around it (`foldlM_tokens`), so that a value is what its tokens make up
(`ofTokens?_tokens`). Of two tokens that follow each other in a value one is a mark (`isChain_tokens`).
-/
namespace FormSparsity.Json

open State

/-- Induction on a value by the values directly in it. -/
@[elab_as_elim]
theorem nestedInduction {P : Json → Prop} (scalar : ∀ s, P (.scalar s))
    (array : ∀ items : List Json, (∀ v ∈ items, P v) → P (.array items))
    (object : ∀ fields : List (Option String × Json), (∀ field ∈ fields, P field.2) → P (.object fields)) :
    ∀ v, P v
  | .scalar s => scalar s
  | .array items => array items fun v _ => nestedInduction scalar array object v
  | .object fields => object fields fun field _ => nestedInduction scalar array object field.2
termination_by v => sizeOf v
decreasing_by
  · rename_i hv
    have := List.sizeOf_lt_of_mem hv
    simp only [Json.array.sizeOf_spec]
    omega
  · rename_i hfield
    have := List.sizeOf_lt_of_mem hfield
    obtain ⟨k, v⟩ := field
    simp only [Json.object.sizeOf_spec, Prod.mk.sizeOf_spec] at *
    omega

/-! ## Reading -/

/-- The first token of a value does not end an array. -/
theorem exists_tokens_eq_cons (v : Json) : ∃ t ts, v.tokens = t :: ts ∧ t ≠ .rightBracket := by
  cases v with
  | scalar s => exact ⟨_, _, rfl, by simp⟩
  | array items => exact ⟨_, _, rfl, by simp⟩
  | object fields => exact ⟨_, _, rfl, by simp⟩

theorem exists_itemTokens_eq_cons (v : Json) (items : List Json) :
    ∃ t ts, itemTokens (v :: items) = t :: ts ∧ t ≠ .rightBracket := by
  obtain ⟨t, ts, hv, ht⟩ := exists_tokens_eq_cons v
  cases items with
  | nil => exact ⟨t, _, by rw [itemTokens, hv]; rfl, ht⟩
  | cons w items => exact ⟨t, _, by rw [itemTokens, hv]; rfl, ht⟩

/-- The first item of an array is read as any other one. -/
theorem step_firstItem {t : Token} (ht : t ≠ .rightBracket) (stack : List Frame) :
    step (firstItem stack) t = step (value (.array [] :: stack)) t := by
  cases t with
  | rightBracket => exact absurd rfl ht
  | _ => rfl

/-- What the tokens of a value do wherever it is due. -/
def Completes (v : Json) : Prop :=
  ∀ stack rest, (v.tokens ++ rest).foldlM step (value stack) = rest.foldlM step (complete v stack)

theorem foldlM_itemTokens {v : Json} {items : List Json} (h : ∀ w ∈ v :: items, w.Completes)
    (taken : List Json) (stack : List Frame) (rest : List Token) :
    (itemTokens (v :: items) ++ rest).foldlM step (value (.array taken :: stack)) =
      rest.foldlM step (complete (.array (taken.reverse ++ v :: items)) stack) := by
  induction items generalizing v taken with
  | nil =>
    rw [itemTokens, List.append_assoc, h v List.mem_cons_self]
    simp [complete, step]
  | cons w items ih =>
    have hitems := ih (fun u hu => h u (List.mem_cons_of_mem _ hu)) (v :: taken)
    rw [itemTokens, List.append_assoc, h v List.mem_cons_self]
    simpa [complete, step] using hitems

theorem foldlM_fieldTokens {k : Option String} {v : Json} {fields : List (Option String × Json)}
    (h : ∀ field ∈ (k, v) :: fields, field.2.Completes) (taken : List (Option String × Json))
    (stack : List Frame) (rest : List Token) :
    (fieldTokens ((k, v) :: fields) ++ rest).foldlM step (key taken stack) =
      rest.foldlM step (complete (.object (taken.reverse ++ (k, v) :: fields)) stack) := by
  have hv := h _ List.mem_cons_self (.object taken k :: stack)
  induction fields generalizing k v taken with
  | nil => simpa [fieldTokens, complete, step] using hv (.rightBrace :: rest)
  | cons field fields ih =>
    have htail : ∀ other ∈ field :: fields, other.2.Completes :=
      fun other hother => h other (List.mem_cons_of_mem _ hother)
    calc (fieldTokens ((k, v) :: field :: fields) ++ rest).foldlM step (key taken stack)
      _ = (v.tokens ++ .comma :: (fieldTokens (field :: fields) ++ rest)).foldlM step
            (value (.object taken k :: stack)) := by
          rw [fieldTokens, List.cons_append, List.cons_append, List.append_assoc]
          rfl
      _ = (fieldTokens (field :: fields) ++ rest).foldlM step (key ((k, v) :: taken) stack) := hv _
      _ = rest.foldlM step (complete (.object (((k, v) :: taken).reverse ++ field :: fields)) stack) :=
          ih htail _ (htail field List.mem_cons_self _)
      _ = rest.foldlM step (complete (.object (taken.reverse ++ (k, v) :: field :: fields)) stack) := by
          rw [List.reverse_cons, List.append_assoc, List.singleton_append]

/-- The first key of an object is read as any other one. -/
theorem foldlM_firstKey (k : Option String) (v : Json) (fields : List (Option String × Json))
    (stack : List Frame) (rest : List Token) :
    (fieldTokens ((k, v) :: fields) ++ rest).foldlM step (firstKey stack) =
      (fieldTokens ((k, v) :: fields) ++ rest).foldlM step (key [] stack) := by
  cases fields <;> rfl

/-- **The tokens of a value** complete it where it is due. -/
theorem foldlM_tokens (v : Json) : v.Completes := by
  intro stack rest
  induction v using nestedInduction generalizing stack rest with
  | scalar s => rfl
  | array items ih =>
    cases items with
    | nil => rfl
    | cons w items =>
      obtain ⟨t, ts, heq, ht⟩ := exists_itemTokens_eq_cons w items
      have hitems := foldlM_itemTokens ih [] stack rest
      rw [heq, List.cons_append, List.foldlM_cons, ← step_firstItem ht] at hitems
      rw [tokens, heq]
      exact hitems
  | object fields ih =>
    cases fields with
    | nil => rfl
    | cons field fields => exact (foldlM_firstKey ..).trans (foldlM_fieldTokens ih [] stack rest)

/-- **A value** is what its tokens make up. -/
theorem ofTokens?_tokens (v : Json) : ofTokens? v.tokens = some v := by
  have h := foldlM_tokens v [] []
  rw [List.append_nil] at h
  rw [ofTokens?, h]
  rfl

/-! ## Marks -/

namespace Token

/-- Tokens whose text is one character that is part of no other token. -/
def IsMark : Token → Prop
  | scalar _ => False
  | _ => True

/-- Tokens that can follow each other without a blank in between: one of them is a mark. -/
def Meets (t u : Token) : Prop := t.IsMark ∨ u.IsMark

theorem IsMark.isChain_cons {t : Token} (ht : t.IsMark) {ts : List Token} (h : ts.IsChain Meets) :
    (t :: ts).IsChain Meets :=
  List.isChain_cons.mpr ⟨fun _ _ => .inl ht, h⟩

end Token

/-- Values that a mark can follow. -/
def Joins (v : Json) : Prop :=
  ∀ t ts, t.IsMark → ts.IsChain Token.Meets → (v.tokens ++ t :: ts).IsChain Token.Meets

theorem isChain_itemTokens {items : List Json} (h : ∀ v ∈ items, v.Joins) {ts : List Token}
    (hts : ts.IsChain Token.Meets) : (itemTokens items ++ ts).IsChain Token.Meets := by
  induction items with
  | nil => exact Token.IsMark.isChain_cons (t := .rightBracket) trivial hts
  | cons v items ih =>
    have hv := h v List.mem_cons_self
    have hitems := ih fun w hw => h w (List.mem_cons_of_mem _ hw)
    cases items with
    | nil =>
      rw [itemTokens, List.append_assoc]
      exact hv .rightBracket ts trivial hts
    | cons w items =>
      rw [itemTokens, List.append_assoc]
      exact hv .comma _ trivial hitems

theorem isChain_fieldTokens {fields : List (Option String × Json)} (h : ∀ field ∈ fields, field.2.Joins)
    {ts : List Token} (hts : ts.IsChain Token.Meets) : (fieldTokens fields ++ ts).IsChain Token.Meets := by
  induction fields with
  | nil => exact Token.IsMark.isChain_cons (t := .rightBrace) trivial hts
  | cons field fields ih =>
    obtain ⟨k, v⟩ := field
    have hv : v.Joins := h (k, v) List.mem_cons_self
    have hfields := ih fun other hother => h other (List.mem_cons_of_mem _ hother)
    have hkey {us : List Token} (hus : us.IsChain Token.Meets) :
        (.scalar (.string k) :: .colon :: us : List Token).IsChain Token.Meets :=
      .cons_cons (.inr trivial) (Token.IsMark.isChain_cons (t := .colon) trivial hus)
    cases fields with
    | nil =>
      rw [fieldTokens, List.cons_append, List.cons_append, List.append_assoc]
      exact hkey (hv .rightBrace ts trivial hts)
    | cons other fields =>
      rw [fieldTokens, List.cons_append, List.cons_append, List.append_assoc]
      exact hkey (hv .comma _ trivial hfields)

theorem joins (v : Json) : v.Joins := by
  induction v using nestedInduction with
  | scalar s => exact fun t ts ht hts => .cons_cons (.inr ht) (ht.isChain_cons hts)
  | array items ih =>
    intro t ts ht hts
    exact Token.IsMark.isChain_cons (t := .leftBracket) trivial (isChain_itemTokens ih (ht.isChain_cons hts))
  | object fields ih =>
    intro t ts ht hts
    exact Token.IsMark.isChain_cons (t := .leftBrace) trivial (isChain_fieldTokens ih (ht.isChain_cons hts))

/-- **The tokens of a value** can follow each other without blanks. -/
theorem isChain_tokens (v : Json) : v.tokens.IsChain Token.Meets :=
  (joins v .comma [] trivial .nil).left_of_append

end FormSparsity.Json

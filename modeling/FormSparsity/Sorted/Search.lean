/-!
Search in lists in order. The middle of the part that may still hold a value decides in which half to go
on. If the value occurs, a place at which it stands is found, though not a particular one
(`getElem?_of_search`); otherwise the place where it belongs is found (`isBetween_of_search`). In either
case it can be inserted there (`pairwise_insertIdx_place`).

| here | there |
| --- | --- |
| `search`, `place` | the search that `MultipleDeriv::contains`, `factor_out_deriv` and `replace` make in their list |
-/
namespace FormSparsity.Sorted

variable {α : Type} [Ord α]

/-- Searches the places from `low` on, up to `high` and without it. -/
def searchWithin (a : α) (l : List α) (low high : Nat) (h : high ≤ l.length) : Except Nat Nat :=
  if _ : low < high then
    let middle := low + (high - low) / 2
    have : middle < l.length := by omega
    match compare l[middle] a with
    | .lt => searchWithin a l (middle + 1) high h
    | .eq => .ok middle
    | .gt => searchWithin a l low middle (by omega)
  else
    .error low
termination_by high - low

/-- A place at which a value stands in a list in order; as an error, the place where it belongs. -/
def search (a : α) (l : List α) : Except Nat Nat := searchWithin a l 0 l.length (Nat.le_refl _)

/-- The place that a search leads to, whether or not the value is there. -/
def place (a : α) (l : List α) : Nat :=
  match search a l with
  | .ok i => i
  | .error i => i

variable {a : α} {l : List α} {i j low high : Nat}

/-! ## What is found -/

theorem getElem?_of_searchWithin [Std.LawfulEqOrd α] {h : high ≤ l.length}
    (hfound : searchWithin a l low high h = .ok i) : l[i]? = some a := by
  fun_induction searchWithin a l low high h with
  | case1 low high h hlt middle hmiddle hcmp ih => exact ih hfound
  | case2 low high h hlt middle hmiddle hcmp =>
    obtain rfl : middle = i := by simpa using hfound
    rw [List.getElem?_eq_getElem hmiddle, Std.LawfulEqOrd.eq_of_compare hcmp]
  | case3 low high h hlt middle hmiddle hcmp ih => exact ih hfound
  | case4 => simp at hfound

/-- What is found stands where it is found, even in a list out of order. -/
theorem getElem?_of_search [Std.LawfulEqOrd α] (h : search a l = .ok i) : l[i]? = some a :=
  getElem?_of_searchWithin h

/-! ## What is not found -/

/-- Whether a value belongs between two places: what stands before the first one is smaller, and what
stands from the second one on is larger. -/
structure IsBetween (a : α) (l : List α) (low high : Nat) : Prop where
  below : ∀ j (hj : j < l.length), j < low → compare l[j] a = .lt
  above : ∀ j (hj : j < l.length), high ≤ j → compare l[j] a = .gt

variable [Std.TransOrd α]

theorem isLE_getElem (hl : l.Pairwise (compare · · |>.isLE)) (hij : i ≤ j) (hj : j < l.length) :
    (compare l[i] l[j]).isLE := by
  rcases Nat.lt_or_eq_of_le hij with hij | rfl
  · exact List.pairwise_iff_getElem.mp hl i j (by omega) hj hij
  · simp

/-- A search in order keeps the value between the places where it goes on. -/
theorem isBetween_of_searchWithin (hl : l.Pairwise (compare · · |>.isLE)) {h : high ≤ l.length}
    (hle : low ≤ high) (hbetween : IsBetween a l low high) (hmissed : searchWithin a l low high h = .error i) :
    i ≤ l.length ∧ IsBetween a l i i := by
  fun_induction searchWithin a l low high h with
  | case1 low high h hlt middle hmiddle hcmp ih =>
    refine ih (by omega) ⟨fun j hj hjm => ?_, hbetween.above⟩ hmissed
    exact Std.TransCmp.lt_of_isLE_of_lt (isLE_getElem hl (Nat.le_of_lt_succ hjm) hmiddle) hcmp
  | case2 => simp at hmissed
  | case3 low high h hlt middle hmiddle hcmp ih =>
    refine ih (by omega) ⟨hbetween.below, fun j hj hjm => ?_⟩ hmissed
    rw [Std.OrientedCmp.gt_iff_lt] at hcmp ⊢
    exact Std.TransCmp.lt_of_lt_of_isLE hcmp (isLE_getElem hl hjm hj)
  | case4 low high h hlt =>
    obtain rfl : low = i := by simpa using hmissed
    obtain rfl : low = high := by omega
    exact ⟨h, hbetween⟩

theorem isBetween_of_search (hl : l.Pairwise (compare · · |>.isLE)) (h : search a l = .error i) :
    i ≤ l.length ∧ IsBetween a l i i :=
  isBetween_of_searchWithin hl (Nat.zero_le _)
    ⟨fun _ _ h => absurd h (Nat.not_lt_zero _), fun _ hj h => absurd hj (Nat.not_lt.mpr h)⟩ h

omit [Std.TransOrd α] in
theorem IsBetween.not_mem [Std.LawfulEqOrd α] (h : IsBetween a l i i) : a ∉ l := by
  intro ha
  obtain ⟨j, hj, rfl⟩ := List.mem_iff_getElem.mp ha
  rcases Nat.lt_or_ge j i with hji | hji
  · simpa using h.below j hj hji
  · simpa using h.above j hj hji

/-- In a list in order exactly what occurs is found. -/
theorem isOk_search_iff [Std.LawfulEqOrd α] (hl : l.Pairwise (compare · · |>.isLE)) :
    (search a l).isOk = true ↔ a ∈ l := by
  cases h : search a l with
  | ok i => exact ⟨fun _ => List.mem_of_getElem? (getElem?_of_search h), fun _ => rfl⟩
  | error i => exact ⟨fun hok => (nomatch hok), fun ha => absurd ha (isBetween_of_search hl h).2.not_mem⟩

/-! ## Taking out and putting in -/

omit [Ord α] [Std.TransOrd α] in
/-- Which of several equal values is taken out makes no difference up to order. -/
theorem perm_cons_eraseIdx (h : l[i]? = some a) : l.Perm (a :: l.eraseIdx i) := by
  obtain ⟨hi, rfl⟩ := List.getElem?_eq_some_iff.mp h
  calc l.Perm (l.take i ++ l[i] :: l.drop (i + 1)) := by
        rw [List.getElem_cons_drop, List.take_append_drop]
    List.Perm _ (l[i] :: (l.take i ++ l.drop (i + 1))) := List.perm_middle
    _ = l[i] :: l.eraseIdx i := by rw [List.eraseIdx_eq_take_drop_succ]

variable [Std.LawfulEqOrd α]

theorem place_le_length (hl : l.Pairwise (compare · · |>.isLE)) : place a l ≤ l.length := by
  unfold place
  cases h : search a l with
  | ok i => exact Nat.le_of_lt (List.getElem?_eq_some_iff.mp (getElem?_of_search h)).1
  | error i => exact (isBetween_of_search hl h).1

theorem isLE_of_lt_place (hl : l.Pairwise (compare · · |>.isLE)) (hj : j < l.length) (h : j < place a l) :
    (compare l[j] a).isLE := by
  unfold place at h
  cases hsearch : search a l with
  | ok i =>
    obtain ⟨hi, rfl⟩ := List.getElem?_eq_some_iff.mp (getElem?_of_search hsearch)
    rw [hsearch] at h
    exact isLE_getElem hl (Nat.le_of_lt h) hi
  | error i =>
    rw [hsearch] at h
    simp [(isBetween_of_search hl hsearch).2.below j hj h]

theorem isLE_of_place_le (hl : l.Pairwise (compare · · |>.isLE)) (hj : j < l.length) (h : place a l ≤ j) :
    (compare a l[j]).isLE := by
  unfold place at h
  cases hsearch : search a l with
  | ok i =>
    obtain ⟨hi, rfl⟩ := List.getElem?_eq_some_iff.mp (getElem?_of_search hsearch)
    rw [hsearch] at h
    exact isLE_getElem hl h hj
  | error i =>
    rw [hsearch] at h
    have hlt := Std.OrientedCmp.gt_iff_lt.mp ((isBetween_of_search hl hsearch).2.above j hj h)
    simp [hlt]

/-- A value that is put where a search for it leads keeps the order. -/
theorem pairwise_insertIdx_place (hl : l.Pairwise (compare · · |>.isLE)) :
    (l.insertIdx (place a l) a).Pairwise (compare · · |>.isLE) := by
  have hplace := place_le_length (a := a) hl
  rw [List.pairwise_iff_getElem]
  intro i j hi hj hij
  have hlength := List.length_insertIdx_of_le_length hplace a
  -- `i` and `j` stand before, at or after the new value
  rcases Nat.lt_trichotomy i (place a l) with hip | rfl | hip
  · rw [List.getElem_insertIdx_of_lt hip]
    rcases Nat.lt_trichotomy j (place a l) with hjp | rfl | hjp
    · rw [List.getElem_insertIdx_of_lt hjp]
      exact isLE_getElem hl (Nat.le_of_lt hij) _
    · rw [List.getElem_insertIdx_self]
      exact isLE_of_lt_place hl _ hip
    · rw [List.getElem_insertIdx_of_gt hjp]
      exact isLE_getElem hl (by omega) _
  · rw [List.getElem_insertIdx_self, List.getElem_insertIdx_of_gt hij]
    exact isLE_of_place_le hl _ (by omega)
  · rw [List.getElem_insertIdx_of_gt hip, List.getElem_insertIdx_of_gt (by omega)]
    exact isLE_getElem hl (by omega) _

end FormSparsity.Sorted

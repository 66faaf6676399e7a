import FormSparsity.Analysis.Factorization
import FormSparsity.Derivative.Shift
import Mathlib.Algebra.BigOperators.Group.List.Basic

/-!
The algebra of mixed derivatives. Mixed derivatives form a commutative monoid in which factors can
be cancelled, graded by the number of atoms (`order_mul`), and a quotient is what the divisor has to
be multiplied with (`divide?_eq_some_iff`).
-/
namespace FormSparsity

namespace Mixed

theorem eq_iff_perm {m n : Mixed} : m = n ↔ m.atoms.Perm n.atoms :=
  ⟨fun h => h ▸ .refl _, eq_of_perm⟩

/-! ## The monoid of mixed derivatives -/

theorem mul_comm' (m n : Mixed) : m * n = n * m :=
  eq_of_perm <| perm_mul.trans <| List.perm_append_comm.trans perm_mul.symm

theorem mul_assoc' (l m n : Mixed) : l * m * n = l * (m * n) := by
  apply eq_of_perm
  calc (l * m * n).atoms.Perm ((l.atoms ++ m.atoms) ++ n.atoms) :=
        perm_mul.trans (perm_mul.append_right _)
    _ = l.atoms ++ (m.atoms ++ n.atoms) := List.append_assoc ..
    List.Perm _ (l * (m * n)).atoms := (perm_mul.trans (perm_mul.append_left _)).symm

theorem mul_left_cancel' {l m n : Mixed} (h : l * m = l * n) : m = n := by
  have h' : (l.atoms ++ m.atoms).Perm (l.atoms ++ n.atoms) :=
    perm_mul.symm.trans <| (eq_iff_perm.mp h).trans perm_mul
  exact eq_of_perm ((List.perm_append_left_iff _).mp h')

instance : CancelCommMonoid Mixed where
  mul_assoc := mul_assoc'
  one_mul m := eq_of_perm (perm_mul.trans (by simp))
  mul_one m := eq_of_perm (perm_mul.trans (by simp))
  mul_comm := mul_comm'
  mul_left_cancel _ _ _ h := mul_left_cancel' h

/-! ## Order -/

@[simp] theorem order_one : (1 : Mixed).order = 0 := rfl

@[simp] theorem order_mul (m n : Mixed) : (m * n).order = m.order + n.order := by
  simpa [order] using (perm_mul (m := m) (n := n)).length_eq

@[simp] theorem order_ofAtom (a : Atom) : (ofAtom a).order = 1 := rfl

theorem order_eq_zero {m : Mixed} : m.order = 0 ↔ m = 1 := by
  constructor
  · intro h
    exact eq_of_atoms_eq (List.length_eq_zero_iff.mp h)
  · rintro rfl
    rfl

/-! ## Atoms of products -/

theorem mem_def {m : Mixed} {a : Atom} : a ∈ m ↔ a ∈ m.atoms := Iff.rfl

@[simp] theorem not_mem_one {a : Atom} : a ∉ (1 : Mixed) := List.not_mem_nil

@[simp] theorem mem_mul {m n : Mixed} {a : Atom} : a ∈ m * n ↔ a ∈ m ∨ a ∈ n := by
  simp only [mem_def, perm_mul.mem_iff, List.mem_append]

@[simp] theorem mem_ofAtom {a b : Atom} : a ∈ ofAtom b ↔ a = b := List.mem_singleton

@[simp] theorem ofAtom_inj {a b : Atom} : ofAtom a = ofAtom b ↔ a = b := by
  constructor
  · intro h
    have ha : a ∈ ofAtom b := h ▸ mem_ofAtom.mpr rfl
    exact mem_ofAtom.mp ha
  · rintro rfl
    rfl

theorem mem_prod {l : List Mixed} {a : Atom} : a ∈ l.prod ↔ ∃ m ∈ l, a ∈ m := by
  induction l with
  | nil => simp
  | cons m l ih => simp [ih]

/-- The first atom of a product in the order of the atoms, where there is one, is in some factor. -/
theorem mem_of_atoms_eq_cons {m : Mixed} {a : Atom} {l : List Atom} (h : m.atoms = a :: l) : a ∈ m := by
  simp [mem_def, h]

theorem perm_ofAtom_mul {a : Atom} {m : Mixed} : (ofAtom a * m).atoms.Perm (a :: m.atoms) := perm_mul

/-- An atom of a mixed derivative can be taken out of it as a factor. -/
theorem exists_eq_ofAtom_mul {a : Atom} {m : Mixed} (h : a ∈ m) : ∃ r, m = ofAtom a * r := by
  let r : Mixed := ⟨m.atoms.erase a, m.sorted.sublist List.erase_sublist⟩
  have hr : m.atoms.Perm (a :: r.atoms) := List.perm_cons_erase h
  exact ⟨r, eq_of_perm (hr.trans perm_ofAtom_mul.symm)⟩

theorem eq_ofAtom_of_atoms {m : Mixed} {a : Atom} (h : m.atoms = [a]) : m = ofAtom a := eq_of_atoms_eq h

/-- **Induction over the atoms,** in any order in which they are multiplied. -/
theorem atoms_induction {P : Mixed → Prop} (one : P 1) (mul : ∀ a m, P m → P (ofAtom a * m))
    (m : Mixed) : P m := by
  rw [← ofList_atoms (m := m)]
  induction m.atoms with
  | nil => exact one
  | cons a l ih =>
    have hcons : ofList (a :: l) = ofAtom a * ofList l := by
      apply eq_of_perm
      exact perm_ofList.trans ((perm_ofList.symm.cons a).trans perm_ofAtom_mul.symm)
    rw [hcons]
    exact mul a _ ih

/-- An atom that is taken out of a product is taken out of one of the factors. -/
theorem ofAtom_mul_eq_mul {a : Atom} {m s t : Mixed} (h : ofAtom a * m = s * t) :
    (∃ s', s = ofAtom a * s' ∧ m = s' * t) ∨ ∃ t', t = ofAtom a * t' ∧ m = s * t' := by
  have ha : a ∈ s * t := by simp [← h]
  rcases mem_mul.mp ha with ha | ha
  · obtain ⟨s', rfl⟩ := exists_eq_ofAtom_mul ha
    refine .inl ⟨s', rfl, ?_⟩
    rw [mul_assoc] at h
    exact mul_left_cancel h
  · obtain ⟨t', rfl⟩ := exists_eq_ofAtom_mul ha
    refine .inr ⟨t', rfl, ?_⟩
    rw [mul_left_comm] at h
    exact mul_left_cancel h

/-- What divides a product is a product of divisors of the factors. -/
theorem exists_of_mul_eq_mul {m r s t : Mixed} (h : m * r = s * t) :
    ∃ m₁ m₂ r₁ r₂, m = m₁ * m₂ ∧ s = m₁ * r₁ ∧ t = m₂ * r₂ := by
  induction m using atoms_induction generalizing s t with
  | one => exact ⟨1, 1, s, t, by simp, by simp, by simp⟩
  | mul a m ih =>
    rw [mul_assoc] at h
    rcases ofAtom_mul_eq_mul h with ⟨s', rfl, h'⟩ | ⟨t', rfl, h'⟩
    · obtain ⟨m₁, m₂, r₁, r₂, rfl, rfl, rfl⟩ := ih h'
      exact ⟨ofAtom a * m₁, m₂, r₁, r₂, by rw [mul_assoc], by rw [mul_assoc], rfl⟩
    · obtain ⟨m₁, m₂, r₁, r₂, rfl, rfl, rfl⟩ := ih h'
      exact ⟨m₁, ofAtom a * m₂, r₁, r₂, by rw [mul_left_comm], rfl, by rw [mul_assoc]⟩

/-! ## Quotients -/

/-- What has some of the atoms of a mixed derivative, none more often, is a factor of it. -/
theorem exists_eq_mul_of_subperm {m r : Mixed} (h : r.atoms.Subperm m.atoms) : ∃ q, m = r * q := by
  obtain ⟨l, hl, hsub⟩ := h
  obtain ⟨rest, hrest⟩ := hsub.exists_perm_append
  refine ⟨ofList rest, eq_of_perm (hrest.trans ?_)⟩
  exact (hl.append perm_ofList.symm).trans perm_mul.symm

theorem erase?_eq_some_iff {m r : Mixed} {a : Atom} : m.erase? a = some r ↔ ofAtom a * r = m := by
  rw [erase?_eq_some, eq_iff_perm]
  constructor
  · intro h
    exact perm_ofAtom_mul.trans h.symm
  · intro h
    exact h.symm.trans perm_ofAtom_mul

theorem place_eq_ofAtom_mul {a : Atom} {m : Mixed} : place a m = ofAtom a * m :=
  eq_of_perm (perm_place.trans perm_ofAtom_mul.symm)

/-- Replacing an atom takes it out as a factor and multiplies by the other one. -/
theorem replace?_eq_some_iff {m n : Mixed} {old new : Atom} :
    m.replace? old new = some n ↔ ∃ r, ofAtom old * r = m ∧ ofAtom new * r = n := by
  simp only [replace?, Option.map_eq_some_iff, erase?_eq_some_iff, place_eq_ofAtom_mul]

theorem foldlM_erase?_eq_some {l : List Atom} {m r : Mixed} (h : m.atoms.Perm (l ++ r.atoms)) :
    l.foldlM erase? m = some r := by
  induction l generalizing m with
  | nil => simpa using eq_of_perm h
  | cons a l ih =>
    have ha : a ∈ m := h.mem_iff.mpr (by simp)
    obtain ⟨m', rfl⟩ := exists_eq_ofAtom_mul ha
    have hm' : m'.atoms.Perm (l ++ r.atoms) := (perm_ofAtom_mul.symm.trans h).cons_inv
    rw [List.foldlM_cons, erase?_eq_some_iff.mpr rfl]
    exact ih hm'

/-- **Division is the inverse of multiplication.** -/
theorem divide?_eq_some_iff {m n r : Mixed} : m.divide? n = some r ↔ n * r = m := by
  rw [eq_iff_perm]
  constructor
  · intro h
    exact perm_mul.trans (perm_of_divide? h).symm
  · intro h
    exact foldlM_erase?_eq_some (h.symm.trans perm_mul)

end Mixed

namespace MixedSet

theorem mem_div_iff {s t : MixedSet} {r : Mixed} : r ∈ s / t ↔ ∃ n ∈ t, n * r ∈ s := by
  simp only [mem_div, Mixed.divide?_eq_some_iff]
  constructor
  · rintro ⟨m, hm, n, hn, rfl⟩
    exact ⟨n, hn, hm⟩
  · rintro ⟨n, hn, h⟩
    exact ⟨_, h, n, hn, rfl⟩

@[simp] theorem mem_singleton {m n : Mixed} : m ∈ ({n} : MixedSet) ↔ m = n := by
  rw [Std.ExtTreeSet.singleton_eq_insert, Std.ExtTreeSet.mem_insert, Std.LawfulEqOrd.compare_eq_iff_eq]
  simp [eq_comm]

@[simp] theorem mem_ofDirection {d : Nat} {m : Mixed} :
    m ∈ ofDirection d ↔ m = .ofAtom (.coordinate d) := mem_singleton

theorem isEmpty_eq_false_iff {s : MixedSet} : s.isEmpty = false ↔ ∃ m, m ∈ s := by
  rw [← Std.ExtTreeSet.isEmpty_toList, List.isEmpty_eq_false_iff_exists_mem]
  simp

end MixedSet

end FormSparsity

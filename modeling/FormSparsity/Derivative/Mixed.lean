import FormSparsity.Derivative.Atom
import FormSparsity.Sorted.Search

/-!
Mixed derivatives: multisets of atoms. The atoms are kept in order, so a multiset has one list only
and equality of values is equality of multisets (`Mixed.eq_of_perm`). The mixed derivative without
atoms is the value of an expression.

Lists are put in order only where atoms come in any order (`sortAtoms`). An atom is looked up, taken
out and put in by a search in the list as it is (`removeAtom?`, `placeAtom`), which keeps the order.
Each operation is described by what it does to the atoms up to order: `perm_ofList`, `perm_mul`,
`erase?_eq_some`, `perm_place`.

| here | there |
| --- | --- |
| `Mixed`, `ofList` | `MultipleDeriv`, built from a list of `Deriv` |
| `order`, `coordinateOrder`, `functions` | `MultipleDeriv::order`, `spatial_order`, `func_ids` |
| `*`, `contains` | `MultipleDeriv::product`, `contains` |
| `erase?`, `divide?`, `replace?` | `MultipleDeriv::factor_out_deriv`, `factor_out`, `replace` |
-/
namespace FormSparsity

/-- Puts an atom at its place in an ordered list, before the atoms equal to it. -/
def insertAtom (a : Atom) : List Atom → List Atom
  | [] => [a]
  | b :: l => if (compare a b).isLE then a :: b :: l else b :: insertAtom a l

theorem perm_insertAtom {a : Atom} {l : List Atom} : (insertAtom a l).Perm (a :: l) := by
  induction l with
  | nil => exact .refl _
  | cons b l ih =>
    simp only [insertAtom]
    split
    · exact .refl _
    · exact (List.Perm.cons b ih).trans (.swap a b l)

theorem pairwise_insertAtom {a : Atom} {l : List Atom} (h : l.Pairwise (compare · · |>.isLE)) :
    (insertAtom a l).Pairwise (compare · · |>.isLE) := by
  induction l with
  | nil => simp [insertAtom]
  | cons b l ih =>
    obtain ⟨hb, hl⟩ := List.pairwise_cons.mp h
    simp only [insertAtom]
    split
    · rename_i hab
      refine List.pairwise_cons.mpr ⟨fun c hc => ?_, h⟩
      rcases List.mem_cons.mp hc with rfl | hc
      · exact hab
      · exact Std.TransCmp.isLE_trans hab (hb c hc)
    · rename_i hab
      refine List.pairwise_cons.mpr ⟨fun c hc => ?_, ih hl⟩
      rcases List.mem_cons.mp (perm_insertAtom.mem_iff.mp hc) with rfl | hc
      · exact Ordering.isLE_of_eq_lt (Std.OrientedCmp.lt_of_not_isLE hab)
      · exact hb c hc

/-- The atoms of a list in order. -/
def sortAtoms (l : List Atom) : List Atom := l.foldr insertAtom []

theorem perm_sortAtoms {l : List Atom} : (sortAtoms l).Perm l := by
  induction l with
  | nil => exact .refl _
  | cons a l ih => exact perm_insertAtom.trans (ih.cons a)

theorem pairwise_sortAtoms {l : List Atom} : (sortAtoms l).Pairwise (compare · · |>.isLE) := by
  induction l with
  | nil => exact .nil
  | cons a l ih => exact pairwise_insertAtom ih

/-- The list without the copy of an atom that a search finds; nothing if it finds none. -/
def removeAtom? (a : Atom) (l : List Atom) : Option (List Atom) :=
  match Sorted.search a l with
  | .ok i => some (l.eraseIdx i)
  | .error _ => none

theorem removeAtom?_eq_some {a : Atom} {l k : List Atom} :
    removeAtom? a l = some k ↔ ∃ i, Sorted.search a l = .ok i ∧ l.eraseIdx i = k := by
  unfold removeAtom?
  cases Sorted.search a l <;> simp

theorem perm_of_removeAtom? {a : Atom} {l k : List Atom} (h : removeAtom? a l = some k) :
    l.Perm (a :: k) := by
  obtain ⟨i, hi, rfl⟩ := removeAtom?_eq_some.mp h
  exact Sorted.perm_cons_eraseIdx (Sorted.getElem?_of_search hi)

theorem pairwise_of_removeAtom? {a : Atom} {l k : List Atom} (hl : l.Pairwise (compare · · |>.isLE))
    (h : removeAtom? a l = some k) : k.Pairwise (compare · · |>.isLE) := by
  obtain ⟨i, -, rfl⟩ := removeAtom?_eq_some.mp h
  exact hl.sublist (List.eraseIdx_sublist l i)

theorem exists_removeAtom? {a : Atom} {l : List Atom} (hl : l.Pairwise (compare · · |>.isLE))
    (ha : a ∈ l) : ∃ k, removeAtom? a l = some k := by
  have hok := (Sorted.isOk_search_iff hl).mpr ha
  cases h : Sorted.search a l with
  | ok i => exact ⟨_, removeAtom?_eq_some.mpr ⟨i, h, rfl⟩⟩
  | error i => simp [h, Except.isOk, Except.toBool] at hok

/-- The list with an atom put where a search for it leads. -/
def placeAtom (a : Atom) (l : List Atom) : List Atom := l.insertIdx (Sorted.place a l) a

theorem perm_placeAtom {a : Atom} {l : List Atom} (hl : l.Pairwise (compare · · |>.isLE)) :
    (placeAtom a l).Perm (a :: l) :=
  List.perm_insertIdx a l (Sorted.place_le_length hl)

/-- A multiset of atoms, listed in order. -/
structure Mixed where
  /-- The atoms in order, each as often as it occurs. -/
  atoms : List Atom
  sorted : atoms.Pairwise (compare · · |>.isLE)

namespace Mixed

theorem eq_of_atoms_eq : ∀ {m n : Mixed}, m.atoms = n.atoms → m = n
  | ⟨_, _⟩, ⟨_, _⟩, rfl => rfl

instance : DecidableEq Mixed := fun m n =>
  decidable_of_iff (m.atoms = n.atoms) ⟨eq_of_atoms_eq, fun h => h ▸ rfl⟩

/-- Mixed derivatives with the same atoms, each equally often, are equal. -/
theorem eq_of_perm {m n : Mixed} (h : m.atoms.Perm n.atoms) : m = n :=
  eq_of_atoms_eq <| h.eq_of_pairwise
    (fun _ _ _ _ hab hba => Std.LawfulEqOrd.eq_of_compare (Std.OrientedCmp.isLE_antisymm hab hba))
    m.sorted n.sorted

/-- The mixed derivative without atoms: the value itself. -/
instance : One Mixed := ⟨⟨[], .nil⟩⟩

instance : Inhabited Mixed := ⟨1⟩

@[simp] theorem atoms_one : (1 : Mixed).atoms = [] := rfl

/-- The mixed derivative by a single atom. -/
def ofAtom (a : Atom) : Mixed := ⟨[a], List.pairwise_singleton _ _⟩

/-- The mixed derivative by the atoms of a list in any order. -/
def ofList (l : List Atom) : Mixed := ⟨sortAtoms l, pairwise_sortAtoms⟩

theorem perm_ofList {l : List Atom} : (ofList l).atoms.Perm l := perm_sortAtoms

theorem ofList_atoms {m : Mixed} : ofList m.atoms = m := eq_of_perm perm_ofList

/-- The product has the atoms of both factors. -/
instance : Mul Mixed := ⟨fun m n => ofList (m.atoms ++ n.atoms)⟩

theorem perm_mul {m n : Mixed} : (m * n).atoms.Perm (m.atoms ++ n.atoms) := perm_ofList

/-- The number of atoms. -/
def order (m : Mixed) : Nat := m.atoms.length

/-- The directions of the coordinates among the atoms. -/
def directions (m : Mixed) : List Nat := m.atoms.filterMap Atom.direction?

/-- The number of coordinates among the atoms. -/
def coordinateOrder (m : Mixed) : Nat := m.atoms.countP Atom.isCoordinate

/-- The functions of the functional atoms, in order and each as often as it occurs. -/
def functions (m : Mixed) : List FunctionId := m.atoms.filterMap Atom.function?

instance : Membership Atom Mixed := ⟨fun m a => a ∈ m.atoms⟩

/-- Whether a search finds an atom. -/
def contains (m : Mixed) (a : Atom) : Bool := (Sorted.search a m.atoms).isOk

theorem contains_iff {m : Mixed} {a : Atom} : m.contains a = true ↔ a ∈ m :=
  Sorted.isOk_search_iff m.sorted

instance (a : Atom) (m : Mixed) : Decidable (a ∈ m) := decidable_of_iff _ contains_iff

/-- One copy of an atom less; nothing if the atom does not occur. -/
def erase? (m : Mixed) (a : Atom) : Option Mixed :=
  (removeAtom? a m.atoms).pmap mk fun _ h => pairwise_of_removeAtom? m.sorted h

theorem erase?_eq_some {m n : Mixed} {a : Atom} :
    m.erase? a = some n ↔ m.atoms.Perm (a :: n.atoms) := by
  simp only [erase?, Option.pmap_eq_some_iff]
  constructor
  · rintro ⟨l, -, hl, rfl⟩
    exact perm_of_removeAtom? hl
  · intro h
    obtain ⟨l, hl⟩ := exists_removeAtom? m.sorted (h.mem_iff.mpr List.mem_cons_self)
    refine ⟨l, pairwise_of_removeAtom? m.sorted hl, hl, eq_of_perm ?_⟩
    exact (h.symm.trans (perm_of_removeAtom? hl)).cons_inv

/-- The quotient by a mixed derivative; nothing if some atom of it occurs too rarely. -/
def divide? (m n : Mixed) : Option Mixed := n.atoms.foldlM erase? m

theorem perm_of_foldlM_erase? {l : List Atom} {m r : Mixed}
    (h : l.foldlM erase? m = some r) : m.atoms.Perm (l ++ r.atoms) := by
  induction l generalizing m with
  | nil =>
    obtain rfl : m = r := by simpa using h
    exact .refl _
  | cons a l ih =>
    rw [List.foldlM_cons] at h
    obtain ⟨m', hm', hr⟩ := Option.bind_eq_some_iff.mp h
    exact (erase?_eq_some.mp hm').trans ((ih hr).cons a)

/-- The atoms of a quotient and of the divisor are the atoms of the dividend. -/
theorem perm_of_divide? {m n r : Mixed} (h : m.divide? n = some r) :
    m.atoms.Perm (n.atoms ++ r.atoms) :=
  perm_of_foldlM_erase? h

/-- One more atom. -/
def place (a : Atom) (m : Mixed) : Mixed := ⟨placeAtom a m.atoms, Sorted.pairwise_insertIdx_place m.sorted⟩

theorem perm_place {a : Atom} {m : Mixed} : (place a m).atoms.Perm (a :: m.atoms) := perm_placeAtom m.sorted

/-- One copy of an atom replaced by another atom. -/
def replace? (m : Mixed) (old new : Atom) : Option Mixed := (m.erase? old).map (place new)

/-- Mixed derivatives are ordered by their number of atoms, and then by the first atom in which
they differ. -/
instance : Ord Mixed := ⟨compareLex (compareOn order) (compareOn atoms)⟩

instance : Std.TransOrd Mixed :=
  inferInstanceAs (Std.TransCmp (compareLex (compareOn order) (compareOn atoms)))

instance : Std.LawfulEqOrd Mixed :=
  Sorted.lawfulEqCmp_compareLex fun _ _ _ h => eq_of_atoms_eq (Std.LawfulEqOrd.eq_of_compare h)

/-- The atoms between braces, as in `{x0, f5}`. -/
def text (m : Mixed) : String := "\x7b" ++ ", ".intercalate (m.atoms.map Atom.text) ++ "\x7d"

end Mixed

end FormSparsity

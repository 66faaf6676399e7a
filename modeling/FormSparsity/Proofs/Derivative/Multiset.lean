import FormSparsity.Json.Derivative
import FormSparsity.Proofs.Derivative.Product
import Mathlib.Algebra.Order.Group.Multiset
import Mathlib.Algebra.Order.Sub.Basic

/-!
Mixed derivatives as multisets. Whatever is done to lists of atoms, of which only the first ones were put in
order, the lists stay in order (`isListing_iff`), so that a mixed derivative is its multiset of atoms
(`toMultiset_inj`). Products are sums of multisets and quotients are exact differences
(`divide?_eq_some_iff_sub`); all laws of the operations come from there (`canonical_multiset`).
-/
namespace FormSparsity

namespace Mixed

/-! ## Lists of atoms -/

/-- Whether a list of atoms can come about by the operations on mixed derivatives, in any sequence. Each of them
takes its lists as they are; only the lists that come from outside and the products are put in order. -/
inductive IsListing : List Atom → Prop
  | sorted (l : List Atom) : IsListing (sortAtoms l)
  | atom (a : Atom) : IsListing [a]
  | decoded {v : Json} {m : Mixed} : codec.decode v = some m → IsListing m.atoms
  | product {k l : List Atom} : IsListing k → IsListing l → IsListing (sortAtoms (k ++ l))
  | remove {k l : List Atom} {a : Atom} : IsListing l → removeAtom? a l = some k → IsListing k
  | divide {k l r : List Atom} : IsListing l → IsListing k → k.foldlM (fun l a => removeAtom? a l) l = some r →
      IsListing r
  | replace {k l : List Atom} {old new : Atom} : IsListing l → removeAtom? old l = some k →
      IsListing (placeAtom new k)

/-- What is read is put in order, whatever the order in the text. -/
theorem exists_eq_ofList_of_decode {v : Json} {m : Mixed} (h : codec.decode v = some m) : ∃ l, m = ofList l := by
  obtain ⟨l, -, rfl⟩ := Option.map_eq_some_iff.mp h
  exact ⟨l, rfl⟩

theorem pairwise_of_foldlM_removeAtom? {k l r : List Atom} (hl : l.Pairwise (compare · · |>.isLE))
    (h : k.foldlM (fun l a => removeAtom? a l) l = some r) : r.Pairwise (compare · · |>.isLE) := by
  induction k generalizing l with
  | nil =>
    obtain rfl : l = r := by simpa using h
    exact hl
  | cons a k ih =>
    rw [List.foldlM_cons] at h
    obtain ⟨l', hl', hr⟩ := Option.bind_eq_some_iff.mp h
    exact ih (pairwise_of_removeAtom? hl hl') hr

/-- Every operation keeps lists in order. -/
theorem IsListing.pairwise {l : List Atom} (h : IsListing l) : l.Pairwise (compare · · |>.isLE) := by
  induction h with
  | sorted l => exact pairwise_sortAtoms
  | atom a => exact List.pairwise_singleton _ _
  | decoded h =>
    obtain ⟨l, rfl⟩ := exists_eq_ofList_of_decode h
    exact pairwise_sortAtoms
  | product => exact pairwise_sortAtoms
  | remove _ h ih => exact pairwise_of_removeAtom? ih h
  | divide _ _ h ihl _ => exact pairwise_of_foldlM_removeAtom? ihl h
  | replace _ h ih => exact Sorted.pairwise_insertIdx_place (pairwise_of_removeAtom? ih h)

/-- **The lists that come about are those in order.** -/
theorem isListing_iff {l : List Atom} : IsListing l ↔ l.Pairwise (compare · · |>.isLE) := by
  refine ⟨IsListing.pairwise, fun h => ?_⟩
  have heq : sortAtoms l = l := congrArg atoms (ofList_atoms (m := ⟨l, h⟩))
  exact heq ▸ .sorted l

theorem map_atoms_erase? {m : Mixed} {a : Atom} : (m.erase? a).map atoms = removeAtom? a m.atoms := by
  simp [erase?, Option.map_pmap, Option.pmap_eq_map]

theorem map_atoms_foldlM_erase? {k : List Atom} {m : Mixed} :
    (k.foldlM erase? m).map atoms = k.foldlM (fun l a => removeAtom? a l) m.atoms := by
  induction k generalizing m with
  | nil => rfl
  | cons a k ih =>
    rw [List.foldlM_cons, List.foldlM_cons, ← map_atoms_erase?]
    cases m.erase? a with
    | none => rfl
    | some r => exact ih

theorem map_atoms_divide? {m n : Mixed} :
    (m.divide? n).map atoms = n.atoms.foldlM (fun l a => removeAtom? a l) m.atoms :=
  map_atoms_foldlM_erase?

theorem map_atoms_replace? {m : Mixed} {old new : Atom} :
    (m.replace? old new).map atoms = (removeAtom? old m.atoms).map (placeAtom new) := by
  rw [← map_atoms_erase?, replace?, Option.map_map, Option.map_map]
  rfl

/-- Which of several equal atoms a search finds makes no difference. -/
theorem map_atoms_erase?_get (m : Mixed) (i : Fin m.atoms.length) :
    (m.erase? (m.atoms.get i)).map atoms = some (m.atoms.eraseIdx i) := by
  let r : Mixed := ⟨m.atoms.eraseIdx i, m.sorted.sublist (List.eraseIdx_sublist ..)⟩
  have hr : m.erase? (m.atoms.get i) = some r :=
    erase?_eq_some.mpr (Sorted.perm_cons_eraseIdx (by simp))
  rw [hr]
  rfl

/-! ## The multiset of the atoms -/

/-- The atoms, each as often as it occurs. -/
def toMultiset (m : Mixed) : Multiset Atom := m.atoms

variable {l m n r : Mixed} {a old new : Atom}

/-- **A mixed derivative is its multiset of atoms.** -/
theorem toMultiset_inj : m.toMultiset = n.toMultiset ↔ m = n :=
  Multiset.coe_eq_coe.trans eq_iff_perm.symm

theorem exists_toMultiset_eq (s : Multiset Atom) : ∃ m : Mixed, m.toMultiset = s :=
  Quotient.inductionOn s fun l => ⟨ofList l, Multiset.coe_eq_coe.mpr perm_ofList⟩

@[simp] theorem mem_toMultiset : a ∈ m.toMultiset ↔ a ∈ m := Iff.rfl

@[simp] theorem toMultiset_ofAtom : (ofAtom a).toMultiset = {a} := rfl

@[simp] theorem toMultiset_mul : (m * n).toMultiset = m.toMultiset + n.toMultiset :=
  (Multiset.coe_eq_coe.mpr perm_mul).trans (Multiset.coe_add _ _).symm

theorem compare_eq_iff : compare m n = .eq ↔ m.toMultiset = n.toMultiset := by
  rw [Std.LawfulEqOrd.compare_eq_iff_eq, toMultiset_inj]

theorem mul_eq_iff_toMultiset : n * r = m ↔ n.toMultiset + r.toMultiset = m.toMultiset := by
  rw [← toMultiset_inj, toMultiset_mul]

/-- **A quotient is the difference of the multisets,** and there is one only if nothing of the divisor is missing. -/
theorem divide?_eq_some_iff_sub : m.divide? n = some r ↔
    n.toMultiset ≤ m.toMultiset ∧ r.toMultiset = m.toMultiset - n.toMultiset := by
  rw [divide?_eq_some_iff, mul_eq_iff_toMultiset]
  constructor
  · intro h
    exact ⟨h ▸ Multiset.le_add_right _ _, by rw [← h, add_tsub_cancel_left]⟩
  · rintro ⟨hle, h⟩
    rw [h, add_tsub_cancel_of_le hle]

theorem isSome_divide? : (m.divide? n).isSome = true ↔ n.toMultiset ≤ m.toMultiset := by
  simp only [Option.isSome_iff_exists, divide?_eq_some_iff_sub]
  constructor
  · rintro ⟨r, hle, -⟩
    exact hle
  · intro hle
    obtain ⟨r, hr⟩ := exists_toMultiset_eq (m.toMultiset - n.toMultiset)
    exact ⟨r, hle, hr⟩

theorem replace?_eq_some_iff_erase : m.replace? old new = some r ↔
    old ∈ m.toMultiset ∧ r.toMultiset = new ::ₘ m.toMultiset.erase old := by
  simp only [replace?_eq_some_iff, mul_eq_iff_toMultiset, toMultiset_ofAtom, Multiset.singleton_add]
  constructor
  · rintro ⟨q, hm, hr⟩
    rw [← hm, ← hr, Multiset.erase_cons_head]
    exact ⟨Multiset.mem_cons_self _ _, rfl⟩
  · rintro ⟨hold, hr⟩
    obtain ⟨q, hq⟩ := exists_toMultiset_eq (m.toMultiset.erase old)
    exact ⟨q, by rw [hq, Multiset.cons_erase hold], by rw [hq, hr]⟩

theorem isSome_replace? : (m.replace? old new).isSome = true ↔ old ∈ m.toMultiset := by
  simp only [Option.isSome_iff_exists, replace?_eq_some_iff_erase]
  constructor
  · rintro ⟨r, hold, -⟩
    exact hold
  · intro hold
    obtain ⟨r, hr⟩ := exists_toMultiset_eq (new ::ₘ m.toMultiset.erase old)
    exact ⟨r, hold, hr⟩

/-- **Mixed derivatives are multisets with exact division.** Every list of atoms that comes about is in order, and
every list in order comes about; atoms are taken out of and put into the lists as they are. So mixed derivatives are
equal, and compare equal, if they have the same atoms equally often, and exactly the atoms that occur are found; of
several copies of an atom any may be taken out. There is a quotient if no atom occurs in the divisor more often than
in the dividend. It is the difference, and what the divisor has to be multiplied with. A replacement takes out one
copy of an atom, which has to occur, and adds one of the other atom. The product adds up multiplicities, so that it
is commutative and associative and has the derivative without atoms as unit. -/
theorem canonical_multiset (l m n : Mixed) (a old new : Atom) :
    (∀ k, IsListing k ↔ k.Pairwise (compare · · |>.isLE)) ∧
    (m.erase? a).map atoms = removeAtom? a m.atoms ∧
    (m.divide? n).map atoms = n.atoms.foldlM (fun l a => removeAtom? a l) m.atoms ∧
    (m.replace? old new).map atoms = (removeAtom? old m.atoms).map (placeAtom new) ∧
    (m = n ↔ ∀ c, m.toMultiset.count c = n.toMultiset.count c) ∧
    (compare m n = .eq ↔ ∀ c, m.toMultiset.count c = n.toMultiset.count c) ∧
    (m.contains a = true ↔ 0 < m.toMultiset.count a) ∧
    (∀ i : Fin m.atoms.length, (m.erase? (m.atoms.get i)).map atoms = some (m.atoms.eraseIdx i)) ∧
    ((m.divide? n).isSome = true ↔ ∀ c, n.toMultiset.count c ≤ m.toMultiset.count c) ∧
    (∀ r, m.divide? n = some r ↔
      (∀ c, n.toMultiset.count c ≤ m.toMultiset.count c) ∧ r.toMultiset = m.toMultiset - n.toMultiset) ∧
    (∀ r, m.divide? n = some r ↔ n * r = m) ∧
    (m * n).divide? n = some m ∧
    ((m.replace? old new).isSome = true ↔ old ∈ m.toMultiset) ∧
    (∀ r, m.replace? old new = some r ↔
      old ∈ m.toMultiset ∧ r.toMultiset = m.toMultiset.erase old + {new}) ∧
    (m * n).toMultiset = m.toMultiset + n.toMultiset ∧
    m * n = n * m ∧ l * m * n = l * (m * n) ∧ 1 * m = m ∧ m * 1 = m := by
  refine ⟨fun _ => isListing_iff, map_atoms_erase?, map_atoms_divide?, map_atoms_replace?, ?equal, ?compared, ?found,
    map_atoms_erase?_get m, ?divisible, fun r => ?quotient, fun r => divide?_eq_some_iff, ?cancel, isSome_replace?,
    fun r => ?replaced, toMultiset_mul, mul_comm m n, mul_assoc l m n, one_mul m, mul_one m⟩
  case equal => rw [← toMultiset_inj, Multiset.ext]
  case compared => rw [compare_eq_iff, Multiset.ext]
  case found => rw [contains_iff, Multiset.count_pos, mem_toMultiset]
  case divisible => rw [isSome_divide?, Multiset.le_iff_count]
  case quotient => rw [divide?_eq_some_iff_sub, Multiset.le_iff_count]
  case cancel => exact divide?_eq_some_iff.mpr (mul_comm n m)
  case replaced => rw [replace?_eq_some_iff_erase, ← Multiset.singleton_add, add_comm]

end Mixed

end FormSparsity

import FormSparsity.Proofs.Analysis.Demand
import FormSparsity.Proofs.Integrand.Construction

/-!
Demand through a shift. A spatial derivative is made of shifted derivatives of its operand, and it passes a demand
on by shifting backwards. On canonical derivatives the two shifts are adjoint (`mem_shift_neg_iff`): among given
derivatives, the backward shift of a demand finds all those of which some forward shift is demanded
(`shift_neg_inter`), and these are what the rule for demand passes on besides the chain rule (`shift_isAdjoint`).
-/
namespace FormSparsity

namespace MixedSet

variable {β : MultiIndex} {s t w : MixedSet} {m m' : Mixed}

theorem isDisjoint_eq_false_iff : SortedSet.isDisjoint s t = false ↔ ∃ m ∈ s, m ∈ t :=
  isEmpty_eq_false_iff.trans (by simp only [Std.ExtTreeSet.mem_inter_iff])

theorem mem_shift_singleton : m' ∈ shift β {m} ↔ m' ∈ m.shifts β := by
  simp [mem_shift]

/-- Forward and backward shifts lead through the same pairs of canonical derivatives. -/
theorem mem_shift_neg_iff (hm : m.IsCanonical) (hm' : m'.IsCanonical) :
    m' ∈ shift β {m} ↔ m ∈ shift (-β) {m'} := by
  rw [mem_shift_singleton, mem_shift_singleton, Mixed.mem_shifts_neg_iff hm hm']

/-- The members of `w` of which some shift is in `s`. -/
def shiftingInto (β : MultiIndex) (s w : MixedSet) : MixedSet :=
  SortedSet.select (fun m => !SortedSet.isDisjoint (shift β {m}) s) w

theorem mem_shiftingInto : m ∈ shiftingInto β s w ↔ m ∈ w ∧ ∃ m' ∈ s, m' ∈ shift β {m} := by
  simp only [shiftingInto, SortedSet.mem_select, Bool.not_eq_true', isDisjoint_eq_false_iff, and_comm]

/-- A backward shift finds all members of a set that some forward shift takes into another set. -/
theorem shift_neg_inter (hs : ∀ m ∈ s, m.IsCanonical) (hw : ∀ m ∈ w, m.IsCanonical) :
    shift (-β) s ∩ w = shiftingInto β s w := by
  refine Std.ExtTreeSet.ext_mem fun m => ?_
  rw [Std.ExtTreeSet.mem_inter_iff, mem_shiftingInto, and_comm, mem_shift]
  refine and_congr_right fun hm => exists_congr fun m' => and_congr_right fun hm' => ?_
  rw [← mem_shift_singleton, mem_shift_neg_iff (hw m hm) (hs m' hm')]

/-- What the rule for demand passes on to the operand of a spatial derivative: its value, the coordinate of the
direction, what the chain rule takes, and everything of which some shift is demanded. -/
theorem value_demand_shiftingInto (g : Graph) (w : Place → MixedSet) (d : Nat) (arg : NodeId)
    (required nonzero : Demand) (hrequired : ∀ k, ∀ m ∈ required.ofOrder k, m.IsCanonical)
    (hw : ∀ k, ∀ m ∈ w ⟨arg, k⟩, m.IsCanonical) :
    ∃ part, ((Node.derivative d arg).demand g required nonzero).value w = .ok [(arg, part)] ∧
      part.length = required.length + 1 ∧
      ∀ k m, m ∈ part.ofOrder k ↔ k < required.length + 1 ∧ (k = 0 ∧ m = 1 ∨
        k = 1 ∧ m = .ofAtom (.coordinate d) ∨
        (∃ j ≤ derivativeMaxOrder, k = j + 1 ∧ m ∈ w ⟨arg, k⟩ ∧
          m ∈ g.chainAtoms (w ⟨arg, 1⟩) d * required.ofOrder j) ∨
        k ≤ derivativeMaxOrder ∧ m ∈ shiftingInto (.axis d) (required.ofOrder k) (w ⟨arg, k⟩)) := by
  obtain ⟨part, hvalue, hlength, hmem⟩ := Graph.value_demand_derivative g w d arg required nonzero
  refine ⟨part, hvalue, hlength, fun k m => (hmem k m).trans ?_⟩
  refine and_congr_right fun _ => or_congr_right (or_congr_right ?_)
  rw [← shift_neg_inter (hrequired k) (hw k), Std.ExtTreeSet.mem_inter_iff, mem_shift]
  constructor
  · rintro ⟨j, hj, r, hr, hm, ⟨rfl, c, hc, rfl⟩ | ⟨rfl, hshift⟩⟩
    · exact .inl ⟨j, hj, rfl, hm, mem_mul.mpr ⟨c, hc, r, hr, rfl⟩⟩
    · exact .inr ⟨hj, ⟨r, hr, hshift⟩, hm⟩
  · rintro (⟨j, hj, rfl, hm, hchain⟩ | ⟨hk, ⟨r, hr, hshift⟩, hm⟩)
    · obtain ⟨c, hc, r, hr, rfl⟩ := mem_mul.mp hchain
      exact ⟨j, hj, r, hr, hm, .inl ⟨rfl, c, hc, rfl⟩⟩
    · exact ⟨k, hk, r, hr, hm, .inr ⟨rfl, hshift⟩⟩

/-- **Forward and backward shifts are adjoint.** A shift takes a canonical derivative to another one exactly if the
opposite shift takes it back, so that shifting a set backwards finds, in another set, exactly the derivatives of
which some shift is in the first set. A spatial derivative passes on a demand in this way: besides its value, the
coordinate and what the chain rule takes, all is demanded of the operand, and nothing else, of which some shift is
demanded of the derivative. -/
theorem shift_isAdjoint (β : MultiIndex) :
    (∀ m m' : Mixed, m.IsCanonical → m'.IsCanonical → (m' ∈ shift β {m} ↔ m ∈ shift (-β) {m'})) ∧
    (∀ s w : MixedSet, (∀ m ∈ s, m.IsCanonical) → (∀ m ∈ w, m.IsCanonical) →
      shift (-β) s ∩ w = shiftingInto β s w) ∧
    ∀ (g : Graph) (w : Place → MixedSet) (d : Nat) (arg : NodeId) (required nonzero : Demand),
      (∀ k, ∀ m ∈ required.ofOrder k, m.IsCanonical) → (∀ k, ∀ m ∈ w ⟨arg, k⟩, m.IsCanonical) →
      ∃ part, ((Node.derivative d arg).demand g required nonzero).value w = .ok [(arg, part)] ∧
        part.length = required.length + 1 ∧
        ∀ k m, m ∈ part.ofOrder k ↔ k < required.length + 1 ∧ (k = 0 ∧ m = 1 ∨
          k = 1 ∧ m = .ofAtom (.coordinate d) ∨
          (∃ j ≤ derivativeMaxOrder, k = j + 1 ∧ m ∈ w ⟨arg, k⟩ ∧
            m ∈ g.chainAtoms (w ⟨arg, 1⟩) d * required.ofOrder j) ∨
          k ≤ derivativeMaxOrder ∧ m ∈ shiftingInto (.axis d) (required.ofOrder k) (w ⟨arg, k⟩)) :=
  ⟨fun _ _ => mem_shift_neg_iff, fun _ _ => shift_neg_inter, value_demand_shiftingInto⟩

/-- Shifting `u*D0[u]` makes its atoms equal, and the way back from `D0[u]*D0[u]` shifts one of two equal atoms. -/
theorem shift_isAdjoint_equalAtoms :
    let u : Mixed := .ofAtom (.functional 5 .value)
    let slope : Mixed := .ofAtom (.functional 5 (.derivative ⟨1, 0, 0⟩))
    let s : MixedSet := {slope * slope}
    let w : MixedSet := SortedSet.ofValues [u * u, u * slope]
    let answers : Place → MixedSet := fun place => if place.order = 2 then w else ∅
    (u * slope).IsCanonical ∧ (slope * slope).IsCanonical ∧ (∀ m ∈ s, m.IsCanonical) ∧
      (∀ m ∈ w, m.IsCanonical) ∧ slope * slope ∈ shift (.axis 0) {u * slope} ∧
      u * slope ∈ shift (-.axis 0) {slope * slope} ∧ shift (-.axis 0) s ∩ w = {u * slope} ∧
      (∀ k, ∀ m ∈ Demand.ofOrder [∅, ∅, s] k, m.IsCanonical) ∧
      (∀ k, ∀ m ∈ answers ⟨2, k⟩, m.IsCanonical) ∧
      ∃ part, ((Node.derivative 0 2).demand Graph.slopeOfProduct [∅, ∅, s] []).value answers = .ok [(2, part)] ∧
        u * slope ∈ part.ofOrder 2 ∧ u * u ∉ part.ofOrder 2 := by
  intro u slope s w answers
  have hs : ∀ m ∈ s, m.IsCanonical := by
    intro m hm
    rw [mem_singleton.mp hm]
    decide +kernel
  have hw : ∀ m ∈ w, m.IsCanonical := by
    intro m hm
    rcases List.mem_pair.mp (SortedSet.mem_ofValues.mp hm) with rfl | rfl <;> decide +kernel
  have hm : (u * slope).IsCanonical := by decide +kernel
  have hm' : (slope * slope).IsCanonical := by decide +kernel
  have hrequired : ∀ k, ∀ m ∈ Demand.ofOrder [∅, ∅, s] k, m.IsCanonical := by
    intro k m hk
    obtain ⟨set, hset, hmem⟩ := Demand.mem_ofOrder.mp hk
    rcases List.mem_of_getElem? hset with _ | ⟨_, _ | ⟨_, _ | ⟨_, ⟨⟩⟩⟩⟩
    · simp at hmem
    · simp at hmem
    · exact hs m hmem
  have hanswers : ∀ k, ∀ m ∈ answers ⟨2, k⟩, m.IsCanonical := by
    intro k m hk
    simp only [answers] at hk
    split at hk
    · exact hw m hk
    · simp at hk
  obtain ⟨hadjoint, hinter, hdemand⟩ := shift_isAdjoint (.axis 0)
  have hshift : slope * slope ∈ shift (.axis 0) {u * slope} := by decide +kernel
  have hfound : shiftingInto (.axis 0) s w = {u * slope} := by decide +kernel
  obtain ⟨part, hvalue, -, hmem⟩ := hdemand Graph.slopeOfProduct answers 0 2 [∅, ∅, s] [] hrequired hanswers
  refine ⟨hm, hm', hs, hw, hshift, (hadjoint _ _ hm hm').mp hshift, (hinter s w hs hw).trans hfound,
    hrequired, hanswers, part, hvalue, ?_, ?_⟩
  · exact (hmem 2 _).mpr ⟨by decide, .inr (.inr (.inr ⟨by decide, by decide +kernel⟩))⟩
  · intro h
    rcases (hmem 2 _).mp h with ⟨-, ⟨h, -⟩ | ⟨h, -⟩ | ⟨j, -, hj, -, hchain⟩ | ⟨-, hback⟩⟩
    · exact absurd h (by decide)
    · exact absurd h (by decide)
    · obtain rfl : j = 1 := by omega
      obtain ⟨_, -, r, hr, -⟩ := mem_mul.mp hchain
      simp at hr
    · exact absurd hback (by decide +kernel)

end MixedSet

end FormSparsity

import FormSparsity.Proofs.Derivative.Product

/-!
Shifts back and forth. An atom is canonical if its operator is the only one with its multi-index and that
index describes a derivative (`Operator.IsCanonical`); operators without multi-index are canonical, too. Among
canonical atoms a shift is undone by the opposite shift (`Atom.shift?_neg`), and shifts by valid indices
commute (`Atom.shift?_comm`). One step backwards along an axis can always be undone, from whatever atom it
starts (`Atom.shift?_axis_of_neg`). All this carries over to mixed derivatives, of which a shift changes one
factor (`Mixed.mem_shifts_mul`).
-/
namespace FormSparsity

namespace MultiIndex

@[ext] theorem ext {α β : MultiIndex} (hx : α.x = β.x) (hy : α.y = β.y) (hz : α.z = β.z) : α = β := by
  cases α; cases β; simp_all

@[simp] theorem zero_x : (0 : MultiIndex).x = 0 := rfl
@[simp] theorem zero_y : (0 : MultiIndex).y = 0 := rfl
@[simp] theorem zero_z : (0 : MultiIndex).z = 0 := rfl
@[simp] theorem add_x (α β : MultiIndex) : (α + β).x = α.x + β.x := rfl
@[simp] theorem add_y (α β : MultiIndex) : (α + β).y = α.y + β.y := rfl
@[simp] theorem add_z (α β : MultiIndex) : (α + β).z = α.z + β.z := rfl
@[simp] theorem neg_x (α : MultiIndex) : (-α).x = -α.x := rfl
@[simp] theorem neg_y (α : MultiIndex) : (-α).y = -α.y := rfl
@[simp] theorem neg_z (α : MultiIndex) : (-α).z = -α.z := rfl

theorem isValid_iff {α : MultiIndex} : α.isValid = true ↔ 0 ≤ α.x ∧ 0 ≤ α.y ∧ 0 ≤ α.z := by
  simp [isValid, entries]

theorem isZero_iff {α : MultiIndex} : α.isZero = true ↔ α = 0 := by
  rw [MultiIndex.ext_iff]
  simp [isZero, entries]

theorem isValid_zero : (0 : MultiIndex).isValid = true := by decide

theorem isValid_axis (d : Nat) : (axis d).isValid = true := by
  simp only [isValid_iff, axis]
  refine ⟨?_, ?_, ?_⟩ <;> split <;> omega

theorem isValid_add {α β : MultiIndex} (hα : α.isValid = true) (hβ : β.isValid = true) :
    (α + β).isValid = true := by
  simp only [isValid_iff, add_x, add_y, add_z] at *
  omega

theorem add_neg_cancel (α β : MultiIndex) : α + β + -β = α := by
  ext <;> simp

theorem neg_add_cancel (α β : MultiIndex) : α + -β + β = α := by
  ext <;> simp

theorem neg_neg (α : MultiIndex) : - -α = α := by
  ext <;> simp

theorem add_right_comm (α β γ : MultiIndex) : α + β + γ = α + γ + β := by
  ext <;> simp <;> omega

/-- An index that stays valid one step back along an axis is not zero. -/
theorem ne_zero_of_isValid_sub_axis {α : MultiIndex} {d : Nat} (hd : d < maxDimension)
    (h : (α + -axis d).isValid = true) : α ≠ 0 := by
  rintro rfl
  simp only [isValid_iff, add_x, add_y, add_z, neg_x, neg_y, neg_z, axis, maxDimension] at h hd
  obtain rfl | rfl | rfl : d = 0 ∨ d = 1 ∨ d = 2 := by omega
  all_goals simp at h

end MultiIndex

namespace Operator

@[simp] theorem multiIndex?_ofMultiIndex (α : MultiIndex) : (ofMultiIndex α).multiIndex? = some α := by
  unfold ofMultiIndex
  split
  · rename_i h
    simp [multiIndex?, MultiIndex.isZero_iff.mp h]
  · rfl

/-- An operator with an index other than zero is built from its index. -/
theorem eq_ofMultiIndex {p : Operator} {α : MultiIndex} (h : p.multiIndex? = some α) (hα : α ≠ 0) :
    p = ofMultiIndex α := by
  cases p with
  | value => exact absurd (by simpa [multiIndex?] using h.symm) hα
  | derivative β =>
    obtain rfl : β = α := by simpa [multiIndex?] using h
    simp [ofMultiIndex, MultiIndex.isZero_iff, hα]
  | divergence => simp [multiIndex?] at h
  | normal => simp [multiIndex?] at h

/-- Whether the operator is the one that is built from its multi-index, and this describes a derivative; operators
without multi-index are as they are. -/
def IsCanonical : Operator → Prop
  | value => True
  | derivative α => α ≠ 0 ∧ α.isValid = true
  | divergence => True
  | normal _ => True

instance : DecidablePred IsCanonical
  | value => isTrue trivial
  | derivative α => inferInstanceAs (Decidable (α ≠ 0 ∧ α.isValid = true))
  | divergence => isTrue trivial
  | normal _ => isTrue trivial

theorem IsCanonical.eq_ofMultiIndex {p : Operator} {α : MultiIndex} (h : p.IsCanonical)
    (hp : p.multiIndex? = some α) : α.isValid = true ∧ p = ofMultiIndex α := by
  cases p with
  | value =>
    obtain rfl : 0 = α := by simpa [multiIndex?] using hp
    exact ⟨MultiIndex.isValid_zero, by decide⟩
  | derivative β =>
    obtain rfl : β = α := by simpa [multiIndex?] using hp
    exact ⟨h.2, Operator.eq_ofMultiIndex hp h.1⟩
  | divergence => simp [multiIndex?] at hp
  | normal => simp [multiIndex?] at hp

theorem isCanonical_ofMultiIndex {α : MultiIndex} (h : α.isValid = true) : (ofMultiIndex α).IsCanonical := by
  unfold ofMultiIndex
  split
  · trivial
  · rename_i hα
    exact ⟨fun h0 => hα (MultiIndex.isZero_iff.mpr h0), h⟩

end Operator

/-! ## Atoms -/

namespace Atom

theorem shift?_functional {β α : MultiIndex} {f : FunctionId} {p : Operator} (hp : p.multiIndex? = some α) :
    (functional f p).shift? β =
      if (α + β).isValid then some (functional f (.ofMultiIndex (α + β))) else none := by
  simp [shift?, multiIndex, operator, withMultiIndex, function, hp, Except.toOption, bind, Except.bind,
    pure, Except.pure]

theorem shift?_eq_some_iff {β : MultiIndex} {a b : Atom} :
    a.shift? β = some b ↔ ∃ f p α, a = functional f p ∧ p.multiIndex? = some α ∧
      (α + β).isValid = true ∧ b = functional f (.ofMultiIndex (α + β)) := by
  constructor
  · intro h
    cases a with
    | coordinate d => simp [shift?, multiIndex, operator, Except.toOption, bind, Except.bind] at h
    | functional f p =>
      cases hp : p.multiIndex? with
      | none =>
        simp [shift?, multiIndex, operator, hp, Except.toOption, bind, Except.bind, throw, throwThe,
          MonadExceptOf.throw] at h
      | some α =>
        rw [shift?_functional hp, Option.ite_none_right_eq_some, Option.some.injEq] at h
        exact ⟨f, p, α, rfl, hp, h.1, h.2.symm⟩
  · rintro ⟨f, p, α, rfl, hp, hv, rfl⟩
    rw [shift?_functional hp, if_pos hv]

/-- Whether the atom is a coordinate or a function under the operator of a multi-index that describes
a derivative. -/
def IsRegular : Atom → Prop
  | coordinate _ => True
  | functional _ p => ∃ α : MultiIndex, α.isValid = true ∧ p = .ofMultiIndex α

theorem isRegular_value (f : FunctionId) : (functional f .value).IsRegular :=
  ⟨0, MultiIndex.isValid_zero, by decide⟩

theorem isRegular_of_shift? {β : MultiIndex} {a b : Atom} (h : a.shift? β = some b) : b.IsRegular := by
  obtain ⟨f, p, α, rfl, -, hv, rfl⟩ := shift?_eq_some_iff.mp h
  exact ⟨_, hv, rfl⟩

/-- Whether the atom is a coordinate or a function under a canonical operator. -/
def IsCanonical : Atom → Prop
  | coordinate _ => True
  | functional _ p => p.IsCanonical

instance : DecidablePred IsCanonical
  | coordinate _ => isTrue trivial
  | functional _ p => inferInstanceAs (Decidable p.IsCanonical)

theorem IsRegular.isCanonical {a : Atom} (h : a.IsRegular) : a.IsCanonical := by
  cases a with
  | coordinate => trivial
  | functional f p =>
    obtain ⟨α, hα, rfl⟩ := h
    exact Operator.isCanonical_ofMultiIndex hα

/-- The opposite shift undoes a shift of a canonical atom. -/
theorem shift?_neg {β : MultiIndex} {a b : Atom} (ha : a.IsCanonical) (h : a.shift? β = some b) :
    b.shift? (-β) = some a := by
  obtain ⟨f, p, α, rfl, hp, hv, rfl⟩ := shift?_eq_some_iff.mp h
  obtain ⟨hα, rfl⟩ := ha.eq_ofMultiIndex hp
  rw [shift?_eq_some_iff]
  refine ⟨f, _, α + β, rfl, by simp, ?_, ?_⟩
  · rwa [MultiIndex.add_neg_cancel]
  · rw [MultiIndex.add_neg_cancel]

/-- Shifts of a canonical atom by two valid indices can be made in either order. -/
theorem shift?_comm {β γ : MultiIndex} {a b c : Atom} (ha : a.IsCanonical) (hβ : β.isValid = true)
    (hb : a.shift? γ = some b) (hc : b.shift? β = some c) :
    ∃ b', a.shift? β = some b' ∧ b'.shift? γ = some c := by
  obtain ⟨f, p, α, rfl, hp, -, rfl⟩ := shift?_eq_some_iff.mp hb
  obtain ⟨f', p', α', heq, hp', hv, rfl⟩ := shift?_eq_some_iff.mp hc
  obtain ⟨rfl, rfl⟩ : f = f' ∧ _ = p' := by simpa using heq
  obtain rfl : α + γ = α' := by simpa using hp'
  obtain ⟨hα, rfl⟩ := ha.eq_ofMultiIndex hp
  rw [MultiIndex.add_right_comm] at hv ⊢
  exact ⟨_, shift?_eq_some_iff.mpr ⟨f, _, α, rfl, hp, MultiIndex.isValid_add hα hβ, rfl⟩,
    shift?_eq_some_iff.mpr ⟨f, _, _, rfl, by simp, hv, rfl⟩⟩

/-- A step along an axis undoes the step back, from whatever atom that started. -/
theorem shift?_axis_of_neg {d : Nat} (hd : d < maxDimension) {a b : Atom}
    (h : b.shift? (-.axis d) = some a) : a.shift? (.axis d) = some b := by
  obtain ⟨f, p, α, rfl, hp, hv, rfl⟩ := shift?_eq_some_iff.mp h
  have hα : α.isValid = true := by
    have := MultiIndex.isValid_add hv (MultiIndex.isValid_axis d)
    rwa [MultiIndex.neg_add_cancel] at this
  rw [shift?_eq_some_iff]
  refine ⟨f, _, α + -.axis d, rfl, by simp, ?_, ?_⟩
  · rwa [MultiIndex.neg_add_cancel]
  · rw [MultiIndex.neg_add_cancel, ← Operator.eq_ofMultiIndex hp
      (MultiIndex.ne_zero_of_isValid_sub_axis hd hv)]

end Atom

/-! ## Mixed derivatives -/

theorem mem_eraseReps_loop {α : Type} [DecidableEq α] {l acc : List α} {a b : α} :
    a ∈ List.eraseRepsBy.loop (· == ·) b l acc ↔ a ∈ acc ∨ a = b ∨ a ∈ l := by
  induction l generalizing b acc with
  | nil => simp [List.eraseRepsBy.loop, or_comm]
  | cons c l ih =>
    unfold List.eraseRepsBy.loop
    split
    · rename_i hbc
      obtain rfl := eq_of_beq hbc
      simp [ih]
    · simp only [ih, List.mem_cons]
      grind

/-- Leaving out repetitions of what comes right before loses no value. -/
theorem mem_eraseReps {α : Type} [DecidableEq α] {l : List α} {a : α} : a ∈ l.eraseReps ↔ a ∈ l := by
  cases l with
  | nil => rfl
  | cons b l =>
    have hloop : a ∈ List.eraseRepsBy.loop (· == ·) b l [] ↔ a ∈ [] ∨ a = b ∨ a ∈ l := mem_eraseReps_loop
    simpa [List.eraseReps, List.eraseRepsBy] using hloop

namespace Mixed

/-- A shift replaces one factor by its shift. -/
theorem mem_shifts {β : MultiIndex} {m n : Mixed} :
    n ∈ m.shifts β ↔ ∃ a b r, a.shift? β = some b ∧ m = ofAtom a * r ∧ n = ofAtom b * r := by
  simp only [shifts, List.mem_filterMap, mem_eraseReps, Option.bind_eq_bind, Option.bind_eq_some_iff,
    replace?_eq_some_iff]
  constructor
  · rintro ⟨a, -, b, hb, r, rfl, rfl⟩
    exact ⟨a, b, r, hb, rfl, rfl⟩
  · rintro ⟨a, b, r, hb, rfl, rfl⟩
    exact ⟨a, mem_mul.mpr (.inl (mem_ofAtom.mpr rfl)), b, hb, r, rfl, rfl⟩

theorem order_of_mem_shifts {β : MultiIndex} {m n : Mixed} (h : n ∈ m.shifts β) : n.order = m.order := by
  obtain ⟨a, b, r, -, rfl, rfl⟩ := mem_shifts.mp h
  simp

/-- **Shifts obey the product rule:** a product is shifted by shifting one of its factors. -/
theorem mem_shifts_mul {β : MultiIndex} {s t n : Mixed} :
    n ∈ (s * t).shifts β ↔ (∃ s' ∈ s.shifts β, n = s' * t) ∨ ∃ t' ∈ t.shifts β, n = s * t' := by
  simp only [mem_shifts]
  constructor
  · rintro ⟨a, b, r, hab, hr, rfl⟩
    rcases ofAtom_mul_eq_mul hr.symm with ⟨s', rfl, rfl⟩ | ⟨t', rfl, rfl⟩
    · exact .inl ⟨ofAtom b * s', ⟨a, b, s', hab, rfl, rfl⟩, by rw [mul_assoc]⟩
    · exact .inr ⟨ofAtom b * t', ⟨a, b, t', hab, rfl, rfl⟩, by rw [mul_left_comm]⟩
  · rintro (⟨_, ⟨a, b, s', hab, rfl, rfl⟩, rfl⟩ | ⟨_, ⟨a, b, t', hab, rfl, rfl⟩, rfl⟩)
    · exact ⟨a, b, s' * t, hab, by rw [mul_assoc], by rw [mul_assoc]⟩
    · exact ⟨a, b, s * t', hab, by rw [mul_left_comm], by rw [mul_left_comm]⟩

/-- A single atom is a product with an atom only if this atom is all of it. -/
theorem ofAtom_eq_ofAtom_mul {a b : Atom} {r : Mixed} : ofAtom a = ofAtom b * r ↔ a = b ∧ r = 1 := by
  constructor
  · intro h
    have horder := congrArg order h
    simp only [order_ofAtom, order_mul] at horder
    obtain rfl : r = 1 := order_eq_zero.mp (by omega)
    exact ⟨by simpa using h, rfl⟩
  · rintro ⟨rfl, rfl⟩
    exact (mul_one _).symm

/-- The shifts of a single atom. -/
theorem mem_shifts_ofAtom {β : MultiIndex} {a : Atom} {n : Mixed} :
    n ∈ (ofAtom a).shifts β ↔ ∃ b, a.shift? β = some b ∧ n = ofAtom b := by
  constructor
  · intro h
    obtain ⟨a', b, r, hab, heq, rfl⟩ := mem_shifts.mp h
    obtain ⟨rfl, rfl⟩ := ofAtom_eq_ofAtom_mul.mp heq
    exact ⟨b, hab, mul_one _⟩
  · rintro ⟨b, hab, rfl⟩
    exact mem_shifts.mpr ⟨a, b, 1, hab, (mul_one _).symm, (mul_one _).symm⟩

/-- Whether all atoms are regular. -/
def IsRegular (m : Mixed) : Prop := ∀ a ∈ m, a.IsRegular

/-- Whether all atoms are canonical. -/
def IsCanonical (m : Mixed) : Prop := ∀ a ∈ m, a.IsCanonical

instance : DecidablePred IsCanonical := fun m => inferInstanceAs (Decidable (∀ a ∈ m.atoms, a.IsCanonical))

theorem IsRegular.isCanonical {m : Mixed} (h : m.IsRegular) : m.IsCanonical := fun a ha => (h a ha).isCanonical

theorem mem_shifts_neg {β : MultiIndex} {m n : Mixed} (hm : m.IsCanonical) (h : n ∈ m.shifts β) :
    m ∈ n.shifts (-β) := by
  obtain ⟨a, b, r, hab, rfl, rfl⟩ := mem_shifts.mp h
  have ha : a.IsCanonical := hm a (by simp)
  exact mem_shifts.mpr ⟨b, a, r, Atom.shift?_neg ha hab, rfl, rfl⟩

/-- **Opposite shifts are adjoint:** what one of them leads to, the other one leads back from. -/
theorem mem_shifts_neg_iff {β : MultiIndex} {m n : Mixed} (hm : m.IsCanonical) (hn : n.IsCanonical) :
    m ∈ n.shifts (-β) ↔ n ∈ m.shifts β := by
  refine ⟨fun h => ?_, mem_shifts_neg hm⟩
  simpa only [MultiIndex.neg_neg] using mem_shifts_neg hn h

/-- Shifts of a canonical derivative by two valid indices can be made in either order. Either the same copy of
an atom is shifted twice or two copies are shifted once. -/
theorem shifts_comm {β γ : MultiIndex} {m m' n : Mixed} (hm : m.IsCanonical) (hβ : β.isValid = true)
    (h : m' ∈ m.shifts γ) (h' : n ∈ m'.shifts β) : ∃ m'' ∈ m.shifts β, n ∈ m''.shifts γ := by
  obtain ⟨a, b, r, hab, rfl, rfl⟩ := mem_shifts.mp h
  rcases mem_shifts_mul.mp h' with ⟨s, hs, rfl⟩ | ⟨t, ht, rfl⟩
  · obtain ⟨c, hbc, rfl⟩ := mem_shifts_ofAtom.mp hs
    obtain ⟨b', hab', hbc'⟩ := Atom.shift?_comm (hm a (by simp)) hβ hab hbc
    exact ⟨ofAtom b' * r, mem_shifts.mpr ⟨a, b', r, hab', rfl, rfl⟩,
      mem_shifts.mpr ⟨b', c, r, hbc', rfl, rfl⟩⟩
  · exact ⟨ofAtom a * t, mem_shifts_mul.mpr (.inr ⟨t, ht, rfl⟩), mem_shifts.mpr ⟨a, b, t, hab, rfl, rfl⟩⟩

theorem mem_shifts_axis_of_neg {d : Nat} (hd : d < maxDimension) {m n : Mixed}
    (h : m ∈ n.shifts (-.axis d)) : n ∈ m.shifts (.axis d) := by
  obtain ⟨b, a, r, hab, rfl, rfl⟩ := mem_shifts.mp h
  exact mem_shifts.mpr ⟨a, b, r, Atom.shift?_axis_of_neg hd hab, rfl, rfl⟩

end Mixed

end FormSparsity

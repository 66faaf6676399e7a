import FormSparsity.Integrand.Graph
import FormSparsity.Problem.Couplings
import FormSparsity.Problem.Form
import Mathlib.Data.List.Nodup
import Mathlib.Logic.Relation

/-!
Forms and the integrands of their domains. The table of integrands lists the integrands of a form by
domain, each once (`Form.mem_integrands_iff`, `Form.nodup_of_getElem?_integrands`). So an analysis that goes
through the table has one task for every entry of the computations and every integral that is not a
repetition of another one (`Form.count_tasks`).
-/
namespace FormSparsity

/-- What is analysed of an integrand in one pass. -/
structure Task where
  isBoundary : Bool
  domain : Domain
  computation : Computation
  root : NodeId
deriving DecidableEq, Repr

/-- The task that a record is about. -/
def RootRecord.task (record : RootRecord) : Task where
  isBoundary := record.isBoundary
  domain := record.domain
  computation := record.computation
  root := record.root

namespace Form

variable {form : Form} {domain : Domain} {roots : List NodeId} {root : NodeId}

/-! ## The table of integrands -/

/-- The table of integrands with one more integral. -/
def enlist (table : Std.ExtTreeMap Domain (List NodeId)) (i : Integral) : Std.ExtTreeMap Domain (List NodeId) :=
  let known := table.getD i.domain []
  table.insert i.domain (if i.integrand ∈ known then known else known ++ [i.integrand])

theorem integrands_eq : form.integrands = form.integrals.foldl enlist ∅ := rfl

theorem getD_enlist {table : Std.ExtTreeMap Domain (List NodeId)} {i : Integral} :
    (enlist table i).getD domain [] =
      if i.domain = domain ∧ i.integrand ∉ table.getD domain [] then table.getD domain [] ++ [i.integrand]
      else table.getD domain [] := by
  rw [enlist, Std.ExtTreeMap.getD_insert]
  by_cases hd : i.domain = domain
  · subst hd
    by_cases hi : i.integrand ∈ table.getD i.domain [] <;> simp [hi]
  · simp [hd]

theorem mem_getD_foldl_enlist {l : List Integral} {table : Std.ExtTreeMap Domain (List NodeId)} :
    root ∈ (l.foldl enlist table).getD domain [] ↔ root ∈ table.getD domain [] ∨ ⟨domain, root⟩ ∈ l := by
  induction l generalizing table with
  | nil => simp
  | cons i l ih =>
    have hi : (⟨domain, root⟩ : Integral) = i ↔ i.domain = domain ∧ i.integrand = root := by
      obtain ⟨d, n⟩ := i
      simp [eq_comm]
    rw [List.foldl_cons, ih, List.mem_cons, hi, getD_enlist]
    split <;> grind

theorem nodup_getD_foldl_enlist {l : List Integral} {table : Std.ExtTreeMap Domain (List NodeId)}
    (h : (table.getD domain []).Nodup) : ((l.foldl enlist table).getD domain []).Nodup := by
  induction l generalizing table with
  | nil => exact h
  | cons i l ih =>
    refine ih ?_
    rw [getD_enlist]
    split
    · rename_i hi
      exact List.nodup_append.mpr ⟨h, List.nodup_singleton _, by grind⟩
    · exact h

theorem getD_integrands (h : form.integrands[domain]? = some roots) : form.integrands.getD domain [] = roots := by
  simp [Std.ExtTreeMap.getD_eq_getD_getElem?, h]

/-- **The integrands that are listed** for a domain are those of the integrals over it. -/
theorem mem_integrands_iff (h : form.integrands[domain]? = some roots) :
    root ∈ roots ↔ ⟨domain, root⟩ ∈ form.integrals := by
  rw [← getD_integrands h, integrands_eq, mem_getD_foldl_enlist]
  simp

/-- Every integrand is listed once. -/
theorem nodup_of_getElem?_integrands (h : form.integrands[domain]? = some roots) : roots.Nodup := by
  rw [← getD_integrands h, integrands_eq]
  exact nodup_getD_foldl_enlist (by simp)

/-- A domain that some integral is over is listed. -/
theorem exists_integrands (h : ⟨domain, root⟩ ∈ form.integrals) :
    ∃ roots, form.integrands[domain]? = some roots := by
  have hmem : root ∈ form.integrands.getD domain [] := by
    rw [integrands_eq, mem_getD_foldl_enlist]
    exact .inr h
  rw [Std.ExtTreeMap.getD_eq_getD_getElem?] at hmem
  cases hlisted : form.integrands[domain]? with
  | none => simp [hlisted] at hmem
  | some roots => exact ⟨roots, rfl⟩

/-! ## Tasks -/

/-- The tasks of the integrands of a domain: for every computation all of them. -/
def tasksOn (computations : List Computation) (isBoundary : Bool) (domain : Domain) (roots : List NodeId) :
    List Task :=
  computations.flatMap fun computation => roots.map fun root => ⟨isBoundary, domain, computation, root⟩

/-- The tasks of a form, in the order in which an analysis goes through them. -/
def tasks (form : Form) (computations : List Computation) (isBoundary : Bool) : List Task :=
  form.integrands.toList.flatMap fun entry => tasksOn computations isBoundary entry.1 entry.2

variable {computations : List Computation} {isBoundary : Bool} {task : Task}

theorem mem_tasksOn : task ∈ tasksOn computations isBoundary domain roots ↔
    task.isBoundary = isBoundary ∧ task.domain = domain ∧ task.computation ∈ computations ∧ task.root ∈ roots := by
  obtain ⟨b, d, c, n⟩ := task
  simp only [tasksOn, List.mem_flatMap, List.mem_map, Task.mk.injEq]
  grind

/-- **The tasks of a form** are the computations of its integrals. -/
theorem mem_tasks : task ∈ form.tasks computations isBoundary ↔
    task.isBoundary = isBoundary ∧ task.computation ∈ computations ∧ ⟨task.domain, task.root⟩ ∈ form.integrals := by
  simp only [tasks, List.mem_flatMap, mem_tasksOn, Prod.exists, Std.ExtTreeMap.mem_toList_iff_getElem?_eq_some]
  constructor
  · rintro ⟨domain, roots, hlisted, hb, rfl, hc, hroot⟩
    exact ⟨hb, hc, (mem_integrands_iff hlisted).mp hroot⟩
  · rintro ⟨hb, hc, hi⟩
    obtain ⟨roots, hlisted⟩ := exists_integrands hi
    exact ⟨_, roots, hlisted, hb, rfl, hc, (mem_integrands_iff hlisted).mpr hi⟩

theorem count_tasksOn (hroots : roots.Nodup) :
    (tasksOn computations isBoundary domain roots).count task =
      if task.isBoundary = isBoundary ∧ task.domain = domain ∧ task.root ∈ roots
      then computations.count task.computation else 0 := by
  induction computations with
  | nil => simp [tasksOn]
  | cons computation computations ih =>
    have hhead : (roots.map fun root => (⟨isBoundary, domain, computation, root⟩ : Task)).count task =
        if (task.isBoundary = isBoundary ∧ task.domain = domain ∧ task.root ∈ roots) ∧
          computation = task.computation then 1 else 0 := by
      have hmap : (roots.map fun root => (⟨isBoundary, domain, computation, root⟩ : Task)).Nodup :=
        hroots.map fun a b h => by simpa using h
      rw [hmap.count]
      refine if_congr ?_ rfl rfl
      obtain ⟨b, d, c, n⟩ := task
      simp only [List.mem_map, Task.mk.injEq]
      grind
    rw [tasksOn, List.flatMap_cons, List.count_append, hhead, ← tasksOn, ih, List.count_cons]
    split
    · simp_all only [and_self, ↓reduceIte, beq_iff_eq]
      omega
    · simp_all

/-- What is listed by one member of a list alone is listed as often as by that member. -/
theorem count_flatMap_of_unique {α β : Type} [DecidableEq β] {l : List α} {f : α → List β} {a : α} {b : β}
    (hl : l.Nodup) (ha : a ∈ l) (h : ∀ a' ∈ l, b ∈ f a' → a' = a) : (l.flatMap f).count b = (f a).count b := by
  induction l with
  | nil => cases ha
  | cons a' l ih =>
    obtain ⟨ha', hl⟩ := List.nodup_cons.mp hl
    rw [List.flatMap_cons, List.count_append]
    rcases List.mem_cons.mp ha with rfl | ha
    · have hrest : b ∉ l.flatMap f := by
        rw [List.mem_flatMap]
        rintro ⟨a', hmem, hb⟩
        exact ha' (h a' (List.mem_cons_of_mem _ hmem) hb ▸ hmem)
      rw [List.count_eq_zero_of_not_mem hrest, Nat.add_zero]
    · have hfirst : b ∉ f a' := fun hb => ha' (h a' List.mem_cons_self hb ▸ ha)
      rw [List.count_eq_zero_of_not_mem hfirst, Nat.zero_add]
      exact ih hl ha fun a' hmem => h a' (List.mem_cons_of_mem _ hmem)

/-- **Every integrand has one task** for each entry of the computations, however often the form lists the
integral. -/
theorem count_tasks : (form.tasks computations isBoundary).count task =
    if task.isBoundary = isBoundary ∧ ⟨task.domain, task.root⟩ ∈ form.integrals
    then computations.count task.computation else 0 := by
  split
  · rename_i h
    obtain ⟨hb, hi⟩ := h
    obtain ⟨roots, hlisted⟩ := exists_integrands hi
    have hentry : (task.domain, roots) ∈ form.integrands.toList :=
      Std.ExtTreeMap.mem_toList_iff_getElem?_eq_some.mpr hlisted
    have hnodup : form.integrands.toList.Nodup :=
      Std.ExtTreeMap.distinct_keys_toList.imp fun h heq => h (by simp [heq])
    rw [tasks, count_flatMap_of_unique hnodup hentry, count_tasksOn (nodup_of_getElem?_integrands hlisted),
      if_pos ⟨hb, rfl, (mem_integrands_iff hlisted).mpr hi⟩]
    rintro ⟨domain, roots'⟩ hentry' htask
    obtain ⟨-, rfl, -⟩ := mem_tasksOn.mp htask
    rw [Std.ExtTreeMap.mem_toList_iff_getElem?_eq_some, hlisted] at hentry'
    rw [Option.some.inj hentry']
  · rename_i h
    exact List.count_eq_zero_of_not_mem fun hmem => h ⟨(mem_tasks.mp hmem).1, (mem_tasks.mp hmem).2.2⟩

end Form

end FormSparsity

import FormSparsity.Proofs.Problem.Couplings
import Mathlib.Data.Set.Card

/-!
Block patterns. Blocks are added in order, and a row is started when the first block in it or below it comes,
or at the end. Whatever rows are empty, the offsets that come out count for every row the blocks above it
(`BlockPattern.ofBlocks_eq`), so that each row has exactly its blocks. The blocks of couplings are their pairs
at the places of the functions in the lists of a system, which are found as long as the pairs are of these
functions (`Couplings.blockPatternBy_encodes`).
-/
namespace FormSparsity

/-! ## Lists that begin with what has some property -/

section Beginning

variable {α : Type} {P : α → Bool} {l : List α}

/-- If whatever precedes a member with some property has the property too, the list begins with all these
members. -/
theorem filter_append_filter_not (h : l.Pairwise fun a b => P b = true → P a = true) :
    l.filter P ++ l.filter (!P ·) = l := by
  induction l with
  | nil => rfl
  | cons a l ih =>
    obtain ⟨ha, hl⟩ := List.pairwise_cons.mp h
    by_cases hP : P a = true
    · simp [hP, ih hl]
    · have hnone : ∀ b ∈ l, ¬P b = true := fun b hb hPb => hP (ha b hb hPb)
      rw [List.filter_eq_nil_iff.mpr (List.forall_mem_cons.mpr ⟨hP, hnone⟩),
        List.filter_eq_self.mpr (List.forall_mem_cons.mpr ⟨by simpa using hP, by simpa using hnone⟩)]
      rfl

theorem take_countP (h : l.Pairwise fun a b => P b = true → P a = true) :
    l.take (l.countP P) = l.filter P := by
  have htake : (l.filter P ++ l.filter (!P ·)).take (l.countP P) = l.filter P :=
    List.take_left' List.countP_eq_length_filter.symm
  rwa [filter_append_filter_not h] at htake

theorem drop_countP (h : l.Pairwise fun a b => P b = true → P a = true) :
    l.drop (l.countP P) = l.filter (!P ·) := by
  have hdrop : (l.filter P ++ l.filter (!P ·)).drop (l.countP P) = l.filter (!P ·) :=
    List.drop_left' List.countP_eq_length_filter.symm
  rwa [filter_append_filter_not h] at hdrop

end Beginning

/-! ## Blocks in order -/

theorem Block.compare_eq_lt_iff {a b : Block} :
    compare a b = .lt ↔ a.row < b.row ∨ a.row = b.row ∧ a.column < b.column := by
  have hkey : compare a b =
      (compare a.row b.row).then ((compare a.column b.column).then (List.compareLex compare ([] : List Nat) [])) := by
    rw [← List.compareLex_cons_cons, ← List.compareLex_cons_cons]
    rfl
  have hnil : List.compareLex compare ([] : List Nat) [] = .eq := rfl
  simp [hkey, hnil, Ordering.then_eq_lt, Nat.compare_eq_lt]

namespace BlockPattern

variable {rowCount columnCount : Nat} {l : List Block} {m n i j : Nat} {b : Block} {blocks : SortedSet Block}

/-- The columns of the blocks in a row. -/
def row (p : BlockPattern) (i : Nat) : List Nat :=
  (p.columns.take (p.offsets.getD (i + 1) 0)).drop (p.offsets.getD i 0)

/-- Whether a pattern is one in compressed rows: there is an offset for every row and one for the end, the
offsets go from zero to the number of blocks without decreasing, and the columns exist and increase in every
row. -/
structure IsCompressed (p : BlockPattern) : Prop where
  length_offsets : p.offsets.length = p.rowCount + 1
  head?_offsets : p.offsets.head? = some 0
  getLast?_offsets : p.offsets.getLast? = some p.columns.length
  offsets_le : p.offsets.Pairwise (· ≤ ·)
  columns_lt : ∀ j ∈ p.columns, j < p.columnCount
  row_lt : ∀ i < p.rowCount, (p.row i).Pairwise (· < ·)

instance : DecidablePred IsCompressed := fun p =>
  decidable_of_iff
    (p.offsets.length = p.rowCount + 1 ∧ p.offsets.head? = some 0 ∧
      p.offsets.getLast? = some p.columns.length ∧ p.offsets.Pairwise (· ≤ ·) ∧
      (∀ j ∈ p.columns, j < p.columnCount) ∧ ∀ i < p.rowCount, (p.row i).Pairwise (· < ·))
    ⟨fun ⟨h₁, h₂, h₃, h₄, h₅, h₆⟩ => ⟨h₁, h₂, h₃, h₄, h₅, h₆⟩,
      fun ⟨h₁, h₂, h₃, h₄, h₅, h₆⟩ => ⟨h₁, h₂, h₃, h₄, h₅, h₆⟩⟩

/-! ## Adding blocks -/

/-- The pattern of a list of blocks in which `count` rows are started, each after all blocks above it. -/
def started (rowCount columnCount : Nat) (l : List Block) (count : Nat) : BlockPattern where
  rowCount := rowCount
  columnCount := columnCount
  offsets := (List.range count).map fun i => l.countP (·.row < i)
  columns := l.map (·.column)

/-- Rows below all blocks start after all blocks. -/
theorem startRows_started (h : ∀ b ∈ l, b.row < n) (hn : n ≤ m) :
    (started rowCount columnCount l n).startRows m = started rowCount columnCount l m := by
  obtain ⟨k, rfl⟩ := Nat.exists_eq_add_of_le hn
  have hbelow : ((List.range k).map fun i => n + i).map (fun i => l.countP (·.row < i)) =
      List.replicate k l.length := by
    rw [List.map_map]
    refine List.eq_replicate_iff.mpr ⟨by simp, fun c hc => ?_⟩
    obtain ⟨i, -, rfl⟩ := List.mem_map.mp hc
    refine List.countP_eq_length.mpr fun b hb => ?_
    have := h b hb
    simp only [decide_eq_true_eq]
    omega
  simp [startRows, started, List.range_add, hbelow]

/-- **One block more** is in the last row that is started. -/
theorem add_started (h : ∀ b' ∈ l, b'.row < n) (hb : n ≤ b.row + 1) :
    (started rowCount columnCount l n).add b = started rowCount columnCount (l ++ [b]) (b.row + 1) := by
  rw [add, startRows_started h hb]
  have hcount : ∀ i ∈ List.range (b.row + 1), l.countP (·.row < i) = (l ++ [b]).countP (·.row < i) := by
    intro i hi
    have hi := List.mem_range.mp hi
    simp only [List.countP_append, List.countP_singleton, decide_eq_true_eq]
    rw [if_neg (by omega), Nat.add_zero]
  simp only [started, List.map_congr_left hcount, List.map_append, List.map_singleton]

/-- **All blocks,** added in the order of their rows, leave the rows started that are not below all of
them. -/
theorem foldl_add_started {l' : List Block} (hl : ∀ b ∈ l, b.row < n)
    (hsorted : l'.Pairwise (·.row ≤ ·.row)) (hn : ∀ b ∈ l', n ≤ b.row + 1) (hm : n ≤ m)
    (hl' : ∀ b ∈ l', b.row < m) :
    ∃ k ≤ m, (∀ b ∈ l ++ l', b.row < k) ∧
      l'.foldl add (started rowCount columnCount l n) = started rowCount columnCount (l ++ l') k := by
  induction l' generalizing l n with
  | nil => exact ⟨n, hm, by simpa using hl, by simp⟩
  | cons b l' ih =>
    obtain ⟨hb, hsorted⟩ := List.pairwise_cons.mp hsorted
    have hnb := hn b List.mem_cons_self
    have hrows : ∀ b' ∈ l ++ [b], b'.row < b.row + 1 := by
      intro b' hb'
      rcases List.mem_append.mp hb' with hb' | hb'
      · exact Nat.lt_of_lt_of_le (hl b' hb') hnb
      · rw [List.mem_singleton.mp hb']
        exact Nat.lt_succ_self _
    obtain ⟨k, hk, hrows', heq⟩ := ih hrows hsorted (fun b' hb' => Nat.succ_le_succ (hb b' hb'))
      (hl' b List.mem_cons_self) fun b' hb' => hl' b' (List.mem_cons_of_mem _ hb')
    refine ⟨k, hk, by simpa using hrows', ?_⟩
    rw [List.foldl_cons, add_started hl hnb, heq]
    simp

/-! ## The pattern of a set of blocks -/

theorem pairwise_toList (blocks : SortedSet Block) :
    blocks.toList.Pairwise fun a b => a.row < b.row ∨ a.row = b.row ∧ a.column < b.column :=
  Std.ExtTreeSet.ordered_toList.imp Block.compare_eq_lt_iff.mp

theorem pairwise_row_le (blocks : SortedSet Block) : blocks.toList.Pairwise (·.row ≤ ·.row) :=
  (pairwise_toList blocks).imp fun h => h.elim Nat.le_of_lt fun h => h.1.le

/-- **Every row starts after the blocks above it,** however many rows in sequence have no block. -/
theorem ofBlocks_eq (h : ∀ b ∈ blocks, b.row < rowCount) :
    ofBlocks rowCount columnCount blocks =
      started rowCount columnCount blocks.toList (rowCount + 1) := by
  have hrows : ∀ b ∈ blocks.toList, b.row < rowCount + 1 := fun b hb =>
    Nat.lt_succ_of_lt (h b (Std.ExtTreeSet.mem_toList.mp hb))
  have hnone : (⟨rowCount, columnCount, [0], []⟩ : BlockPattern) = started rowCount columnCount [] 1 := rfl
  obtain ⟨k, hk, hbelow, heq⟩ : ∃ k ≤ rowCount + 1, (∀ b ∈ [] ++ blocks.toList, b.row < k) ∧
      blocks.toList.foldl add (started rowCount columnCount [] 1) =
        started rowCount columnCount ([] ++ blocks.toList) k :=
    foldl_add_started (by simp) (pairwise_row_le blocks) (fun b _ => Nat.le_add_left _ _)
      (Nat.le_add_left _ _) hrows
  rw [ofBlocks, hnone, heq, startRows_started hbelow hk, List.nil_append]

/-- A row of blocks in order has the columns of its blocks. -/
theorem row_started (hsorted : l.Pairwise (·.row ≤ ·.row)) (hi : i + 1 < n) :
    (started rowCount columnCount l n).row i = (l.filter (·.row = i)).map (·.column) := by
  have hoffset : ∀ j < n, (started rowCount columnCount l n).offsets.getD j 0 = l.countP (·.row < j) := by
    intro j hj
    simp [started, hj]
  have hbelow : ∀ j, l.Pairwise fun a b => decide (b.row < j) = true → decide (a.row < j) = true := by
    intro j
    refine hsorted.imp fun hab hb => ?_
    simp only [decide_eq_true_eq] at hb ⊢
    omega
  have hcount : l.countP (·.row < i) = (l.filter (·.row < i + 1)).countP (·.row < i) := by
    rw [List.countP_filter]
    refine List.countP_congr fun b _ => ?_
    simp only [Bool.and_eq_true, decide_eq_true_eq]
    omega
  rw [row, hoffset i (by omega), hoffset (i + 1) hi]
  simp only [started]
  rw [← List.map_take, ← List.map_drop, take_countP (hbelow (i + 1)), hcount,
    drop_countP ((hbelow i).sublist List.filter_sublist), List.filter_filter]
  congr 1
  refine List.filter_congr fun b _ => ?_
  rw [Bool.eq_iff_iff]
  simp only [Bool.and_eq_true, Bool.not_eq_true', decide_eq_true_eq, decide_eq_false_iff_not]
  omega

/-- **A row has the columns of its blocks.** -/
theorem mem_row_ofBlocks (h : ∀ b ∈ blocks, b.row < rowCount) (hi : i < rowCount) :
    j ∈ (ofBlocks rowCount columnCount blocks).row i ↔ ⟨i, j⟩ ∈ blocks := by
  rw [ofBlocks_eq h, row_started (pairwise_row_le blocks) (Nat.succ_lt_succ hi)]
  simp only [List.mem_map, List.mem_filter, Std.ExtTreeSet.mem_toList, decide_eq_true_eq]
  constructor
  · rintro ⟨b, ⟨hb, rfl⟩, rfl⟩
    exact hb
  · exact fun hb => ⟨_, ⟨hb, rfl⟩, rfl⟩

/-- **The pattern of blocks that exist is one in compressed rows.** -/
theorem isCompressed_ofBlocks (hrow : ∀ b ∈ blocks, b.row < rowCount)
    (hcolumn : ∀ b ∈ blocks, b.column < columnCount) : (ofBlocks rowCount columnCount blocks).IsCompressed := by
  rw [ofBlocks_eq hrow]
  constructor
  case length_offsets => simp [started]
  case head?_offsets => simp [started, List.head?_range]
  case getLast?_offsets =>
    have hall : blocks.toList.countP (·.row < rowCount) = blocks.toList.length :=
      List.countP_eq_length.mpr fun b hb => by simpa using hrow b (Std.ExtTreeSet.mem_toList.mp hb)
    simp [started, List.getLast?_range, hall]
  case offsets_le =>
    refine List.pairwise_map.mpr (List.pairwise_lt_range.imp fun hij => List.countP_mono_left fun b _ hb => ?_)
    simp only [decide_eq_true_eq] at hb ⊢
    omega
  case columns_lt =>
    intro j hj
    obtain ⟨b, hb, rfl⟩ := List.mem_map.mp hj
    exact hcolumn b (Std.ExtTreeSet.mem_toList.mp hb)
  case row_lt =>
    intro i hi
    have hi : i < rowCount := hi
    rw [row_started (pairwise_row_le blocks) (Nat.succ_lt_succ hi), List.pairwise_map]
    refine ((pairwise_toList blocks).filter _).imp_of_mem fun {a b} ha hb hab => ?_
    have ha : a.row = i := by simpa using (List.mem_filter.mp ha).2
    have hb : b.row = i := by simpa using (List.mem_filter.mp hb).2
    omega

end BlockPattern

/-! ## Blocks of couplings -/

theorem SortedSet.ncard_mem {α : Type} [Ord α] [Std.TransOrd α] [Std.LawfulEqOrd α] [DecidableEq α]
    (s : SortedSet α) : {a | a ∈ s}.ncard = s.toList.length := by
  have hnodup : s.toList.Nodup := Std.ExtTreeSet.distinct_toList.imp fun h => by
    rintro rfl
    exact h Std.ReflOrd.compare_self
  have hset : {a | a ∈ s} = (s.toList.toFinset : Set α) := by
    ext a
    simp
  rw [hset, Set.ncard_coe_finset, List.toFinset_card_of_nodup hnodup]

namespace Couplings

variable {c : Couplings} {system : EquationSystem} {q : FunctionPair} {b : Block} {e : SystemError}
variable {blocks : SortedSet Block}

/-- Whether a pair couples in some region, in the form or in the boundary conditions. -/
def Couples (c : Couplings) (q : FunctionPair) : Prop :=
  ∃ r, q ∈ c.pairs.getD r ∅ ∨ q ∈ c.boundaryPairs.getD r ∅

theorem mem_allPairs : q ∈ c.allPairs ↔ c.Couples q := by
  have htable : ∀ table : RegionTable FunctionPair,
      (∃ entry ∈ table.toList, q ∈ entry.2) ↔ ∃ r, q ∈ table.getD r ∅ := by
    intro table
    constructor
    · rintro ⟨⟨r, pairs⟩, hentry, hq⟩
      have hr := Std.ExtTreeMap.mem_toList_iff_getElem?_eq_some.mp hentry
      exact ⟨r, by rwa [Std.ExtTreeMap.getD_eq_getD_getElem?, hr]⟩
    · rintro ⟨r, hq⟩
      rw [Std.ExtTreeMap.getD_eq_getD_getElem?] at hq
      cases hr : table[r]? with
      | none => simp [hr] at hq
      | some pairs =>
        rw [hr] at hq
        exact ⟨⟨r, pairs⟩, Std.ExtTreeMap.mem_toList_iff_getElem?_eq_some.mpr hr, hq⟩
  simp only [allPairs, List.mem_flatMap, List.mem_append, or_and_right, exists_or,
    Std.ExtTreeSet.mem_toList, htable, Couples]

theorem getElem?_of_idxOf? {l : List FunctionId} {f : FunctionId} {i : Nat} (h : l.idxOf? f = some i) :
    l[i]? = some f := by
  obtain ⟨hi, hf, -⟩ := List.idxOf?_eq_some_iff.mp h
  exact List.getElem?_eq_some_iff.mpr ⟨hi, hf⟩

/-- A pair has a block unless one of its functions is not listed, which the error names. -/
theorem block_eq_error_iff : block system q = .error e ↔
    q.variation ∉ system.variations ∧ e = .notVariation q.variation ∨
      q.variation ∈ system.variations ∧ q.unknown ∉ system.unknowns ∧ e = .notUnknown q.unknown := by
  rw [block]
  split
  · rename_i hv
    simp [List.idxOf?_eq_none_iff.mp hv, eq_comm]
  · rename_i i hv
    have hv := List.mem_of_getElem? (getElem?_of_idxOf? hv)
    split
    · rename_i hu
      simp [hv, List.idxOf?_eq_none_iff.mp hu, eq_comm]
    · rename_i j hu
      have hu := List.mem_of_getElem? (getElem?_of_idxOf? hu)
      simp [hv, hu]

/-- The block of a pair has the places of its functions. -/
theorem getElem?_of_block (h : block system q = .ok b) :
    system.variations[b.row]? = some q.variation ∧ system.unknowns[b.column]? = some q.unknown := by
  rw [block] at h
  split at h
  · cases h
  · rename_i i hv
    split at h
    · cases h
    · rename_i j hu
      cases h
      exact ⟨getElem?_of_idxOf? hv, getElem?_of_idxOf? hu⟩

/-- Whether both functions of a pair are listed by a system. -/
def IsListed (system : EquationSystem) (q : FunctionPair) : Prop :=
  q.variation ∈ system.variations ∧ q.unknown ∈ system.unknowns

theorem exists_block (h : IsListed system q) : ∃ b, block system q = .ok b := by
  cases hb : block system q with
  | ok b => exact ⟨b, rfl⟩
  | error e => grind [block_eq_error_iff, IsListed]

/-- Where functions are listed once, a block is that of the functions at its places. -/
theorem block_eq_ok_iff (hv : system.variations.Nodup) (hu : system.unknowns.Nodup) :
    block system q = .ok b ↔
      system.variations[b.row]? = some q.variation ∧ system.unknowns[b.column]? = some q.unknown := by
  refine ⟨getElem?_of_block, fun ⟨hrow, hcolumn⟩ => ?_⟩
  obtain ⟨b', hb'⟩ := exists_block ⟨List.mem_of_getElem? hrow, List.mem_of_getElem? hcolumn⟩
  obtain ⟨hrow', hcolumn'⟩ := getElem?_of_block hb'
  have hplace : ∀ {l : List FunctionId} {f : FunctionId} {i j : Nat}, l.Nodup → l[i]? = some f →
      l[j]? = some f → i = j := fun hl hi hj =>
    (List.getElem?_inj (List.getElem?_eq_some_iff.mp hi).1 hl).mp (hi.trans hj.symm)
  have hb : b' = b := by
    cases b; cases b'
    rw [Block.mk.injEq]
    exact ⟨hplace hv hrow' hrow, hplace hu hcolumn' hcolumn⟩
  rw [hb', hb]

/-- Whether blocks are those of the pairs that couple. -/
def AreBlocksOf (c : Couplings) (system : EquationSystem) (blocks : SortedSet Block) : Prop :=
  ∀ b, b ∈ blocks ↔ ∃ q, c.Couples q ∧ block system q = .ok b

/-- A block of couplings has a place in the matrix. -/
theorem AreBlocksOf.lt (h : c.AreBlocksOf system blocks) (hb : b ∈ blocks) :
    b.row < system.variations.length ∧ b.column < system.unknowns.length := by
  obtain ⟨q, -, hq⟩ := (h b).mp hb
  obtain ⟨hrow, hcolumn⟩ := getElem?_of_block hq
  exact ⟨(List.getElem?_eq_some_iff.mp hrow).1, (List.getElem?_eq_some_iff.mp hcolumn).1⟩

/-- A place has a block if the functions there couple. -/
theorem AreBlocksOf.mem_iff (h : c.AreBlocksOf system blocks) (hv : system.variations.Nodup)
    (hu : system.unknowns.Nodup) (hrow : system.variations[b.row]? = some q.variation)
    (hcolumn : system.unknowns[b.column]? = some q.unknown) : b ∈ blocks ↔ c.Couples q := by
  rw [h b]
  constructor
  · rintro ⟨q', hq', hb⟩
    obtain ⟨hrow', hcolumn'⟩ := getElem?_of_block hb
    have hqq : q' = q := by
      cases q; cases q'
      simp_all
    exact hqq ▸ hq'
  · exact fun hq => ⟨q, hq, (block_eq_ok_iff hv hu).mpr ⟨hrow, hcolumn⟩⟩

/-- There are as many blocks as pairs that couple. -/
theorem AreBlocksOf.length_eq (h : c.AreBlocksOf system blocks)
    (hlisted : ∀ q, c.Couples q → IsListed system q) :
    blocks.toList.length = {q | c.Couples q}.ncard := by
  have hpair : ∀ q, c.Couples q → ∃ b, block system q = .ok b := fun q hq => exists_block (hlisted q hq)
  choose place hplace using hpair
  rw [← SortedSet.ncard_mem]
  symm
  refine Set.ncard_congr place (fun q hq => (h _).mpr ⟨q, hq, hplace q hq⟩) (fun q q' hq hq' heq => ?_)
    fun b hb => ?_
  · obtain ⟨hrow, hcolumn⟩ := getElem?_of_block (hplace q hq)
    obtain ⟨hrow', hcolumn'⟩ := getElem?_of_block (hplace q' hq')
    cases q; cases q'
    simp_all
  · obtain ⟨q, hq, hqb⟩ := (h b).mp hb
    refine ⟨q, hq, ?_⟩
    simpa [hplace q hq] using hqb

/-- Whether a pattern has a row for each variation and a column for each unknown, in the order in which they
are listed, with a block for every pair that couples and no other blocks. -/
structure IsPatternOf (c : Couplings) (variations unknowns : List FunctionId) (p : BlockPattern) : Prop where
  rowCount_eq : p.rowCount = variations.length
  columnCount_eq : p.columnCount = unknowns.length
  mem_row_iff : ∀ i v j u, variations[i]? = some v → unknowns[j]? = some u →
    (j ∈ p.row i ↔ c.Couples ⟨v, u⟩)
  length_columns : p.columns.length = {q | c.Couples q}.ncard

theorem AreBlocksOf.isPatternOf (h : c.AreBlocksOf system blocks) (hv : system.variations.Nodup)
    (hu : system.unknowns.Nodup) (hlisted : ∀ q, c.Couples q → IsListed system q) :
    c.IsPatternOf system.variations system.unknowns
      (.ofBlocks system.variations.length system.unknowns.length blocks) := by
  have hrows : ∀ b ∈ blocks, b.row < system.variations.length := fun b hb => (h.lt hb).1
  have heq : BlockPattern.ofBlocks system.variations.length system.unknowns.length blocks =
      .started system.variations.length system.unknowns.length blocks.toList (system.variations.length + 1) :=
    BlockPattern.ofBlocks_eq hrows
  constructor
  case rowCount_eq => rw [heq]; rfl
  case columnCount_eq => rw [heq]; rfl
  case mem_row_iff =>
    intro i v j u hi hj
    rw [BlockPattern.mem_row_ofBlocks hrows (List.getElem?_eq_some_iff.mp hi).1]
    exact h.mem_iff (b := ⟨i, j⟩) (q := ⟨v, u⟩) hv hu hi hj
  case length_columns =>
    rw [heq, ← h.length_eq hlisted]
    exact List.length_map _

/-- **Block patterns encode couplings.** Whatever pairs couple in whatever regions, and for every system that
was accepted, not only the one that was analysed: there is no block pattern exactly if some function of some
pair is not listed by the system in its role, and then the error names such a function. Otherwise the pattern
is one in compressed rows, so that every constructor that accepts all of these accepts it, and it has the
blocks of the pairs that couple. -/
theorem blockPatternBy_encodes {construct : BlockPattern → Except String BlockPattern}
    (hconstruct : ∀ p : BlockPattern, p.IsCompressed → construct p = .ok p) {g : Graph} {form boundary : Form}
    {variations unknowns : List FunctionId}
    (hsystem : EquationSystem.ofForms g form boundary variations unknowns = .ok system) (c : Couplings) :
    ((∃ e, c.blockPatternBy construct system = .error e) ↔
      ∃ q, c.Couples q ∧ (q.variation ∉ variations ∨ q.unknown ∉ unknowns)) ∧
    (∀ e, c.blockPatternBy construct system = .error e → ∃ q, c.Couples q ∧
      (q.variation ∉ variations ∧ e = .notVariation q.variation ∨
        q.unknown ∉ unknowns ∧ e = .notUnknown q.unknown)) ∧
    ∀ p, c.blockPatternBy construct system = .ok p →
      p.IsCompressed ∧ c.IsPatternOf variations unknowns p := by
  obtain ⟨rfl, hv, hu⟩ := system.nodup_of_ofForms hsystem
  cases hblocks : c.allPairs.mapM (block ⟨form, boundary, variations, unknowns⟩) with
  | error e =>
    have hresult : c.blockPatternBy construct ⟨form, boundary, variations, unknowns⟩ = .error e := by
      rw [blockPatternBy, hblocks]
      rfl
    obtain ⟨q, hq, he⟩ := exists_of_mapM_eq_error hblocks
    have hq := mem_allPairs.mp hq
    have hnamed := (block_eq_error_iff.mp he).imp_right And.right
    rw [hresult]
    refine ⟨⟨fun _ => ⟨q, hq, hnamed.imp And.left And.left⟩, fun _ => ⟨e, rfl⟩⟩, ?_, by simp⟩
    rintro _ ⟨⟩
    exact ⟨q, hq, hnamed⟩
  | ok blocks =>
    obtain ⟨hall, hmem⟩ := mem_of_mapM_eq_ok hblocks
    have hlisted : ∀ q, c.Couples q → IsListed ⟨form, boundary, variations, unknowns⟩ q := fun q hq => by
      obtain ⟨b, hb⟩ := hall q (mem_allPairs.mpr hq)
      obtain ⟨hrow, hcolumn⟩ := getElem?_of_block hb
      exact ⟨List.mem_of_getElem? hrow, List.mem_of_getElem? hcolumn⟩
    have hare : c.AreBlocksOf ⟨form, boundary, variations, unknowns⟩ (SortedSet.ofValues blocks) := fun b => by
      simp only [SortedSet.mem_ofValues, hmem, mem_allPairs]
    have hcompressed := BlockPattern.isCompressed_ofBlocks (fun b hb => (hare.lt hb).1) fun b hb => (hare.lt hb).2
    have hresult : c.blockPatternBy construct ⟨form, boundary, variations, unknowns⟩ =
        .ok (.ofBlocks variations.length unknowns.length (SortedSet.ofValues blocks)) := by
      rw [blockPatternBy, hblocks]
      show (construct _).mapError _ = _
      rw [hconstruct _ hcompressed]
      rfl
    rw [hresult]
    refine ⟨⟨by simp, fun ⟨q, hq, hnot⟩ => ?_⟩, by simp, ?_⟩
    · exact absurd (hlisted q hq) fun ⟨hqv, hqu⟩ => hnot.elim (· hqv) (· hqu)
    · rintro _ ⟨⟩
      exact ⟨hcompressed, hare.isPatternOf hv hu hlisted⟩

/-- The constructor that takes the patterns in compressed rows and no others. -/
def takeCompressed (p : BlockPattern) : Except String BlockPattern :=
  if p.IsCompressed then .ok p else .error "not in compressed rows"

/-- Five variations and two unknowns. -/
def fiveByTwo : Graph where
  dimension := 1
  nodes := #[.symbolic "u" 11 .unknown .zero, .symbolic "p" 10 .unknown .zero,
    .symbolic "a" 5 .variation .zero, .symbolic "b" 4 .variation .zero, .symbolic "c" 3 .variation .zero,
    .symbolic "d" 2 .variation .zero, .symbolic "e" 1 .variation .zero]

/-- Couplings on two regions, in which three of the five variations take no part. -/
def sparseCouplings : Couplings :=
  ((({} : Couplings).addPair ⟨"left", 0⟩ ⟨2, 10⟩ true).addPair ⟨"interior", 1⟩ ⟨2, 11⟩ false).addPair
    ⟨"interior", 1⟩ ⟨4, 10⟩ false

/-- The first row, the row in the middle and the last row are empty. -/
theorem blockPatternBy_encodes_sparseCouplings :
    (∀ p : BlockPattern, p.IsCompressed → takeCompressed p = .ok p) ∧
    EquationSystem.ofForms fiveByTwo ⟨[]⟩ ⟨[]⟩ [5, 4, 3, 2, 1] [11, 10] =
      .ok ⟨⟨[]⟩, ⟨[]⟩, [5, 4, 3, 2, 1], [11, 10]⟩ ∧
    ∃ p, sparseCouplings.blockPatternBy takeCompressed ⟨⟨[]⟩, ⟨[]⟩, [5, 4, 3, 2, 1], [11, 10]⟩ = .ok p ∧
      p.offsets = [0, 0, 1, 1, 3, 3] ∧ p.columns = [1, 0, 1] ∧ sparseCouplings.Couples ⟨2, 11⟩ ∧
      {q | sparseCouplings.Couples q}.ncard = 3 := by
  have hconstruct : ∀ p : BlockPattern, p.IsCompressed → takeCompressed p = .ok p := fun p hp => if_pos hp
  have hsystem : EquationSystem.ofForms fiveByTwo ⟨[]⟩ ⟨[]⟩ [5, 4, 3, 2, 1] [11, 10] =
      .ok ⟨⟨[]⟩, ⟨[]⟩, [5, 4, 3, 2, 1], [11, 10]⟩ := by decide +kernel
  have hresult : sparseCouplings.blockPatternBy takeCompressed ⟨⟨[]⟩, ⟨[]⟩, [5, 4, 3, 2, 1], [11, 10]⟩ =
      .ok ⟨5, 2, [0, 0, 1, 1, 3, 3], [1, 0, 1]⟩ := by decide +kernel
  obtain ⟨-, hpattern⟩ := (blockPatternBy_encodes hconstruct hsystem sparseCouplings).2.2 _ hresult
  refine ⟨hconstruct, hsystem, _, hresult, rfl, rfl, ?_, hpattern.length_columns.symm⟩
  exact (hpattern.mem_row_iff 3 2 0 11 rfl rfl).mp (by decide)

end Couplings

end FormSparsity

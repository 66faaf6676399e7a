import FormSparsity.Json.Render
import FormSparsity.Proofs.Json.Tokens
import Mathlib.Data.List.TakeWhile
import Mathlib.Tactic.IntervalCases

/-!
Values from their texts. A value is read from the text that is written for it (`parse?_render`), provided that
each number and string in it denotes something (`IsDefinite`): the text of a token is taken in as that token
(`scan_text`), and tokens that can follow each other without blanks as they stand (`scan_flatMap_text`).
-/
namespace FormSparsity

/-- Parts that denote something. What does not is written as null. -/
def Scalar.IsDefinite : Scalar → Prop
  | .number none | .string none => False
  | _ => True

namespace Json

/-! ## Numbers and words -/

theorem isDigit_of_mem {n : Nat} {c : Char} (hc : c ∈ Nat.toDigits 10 n) : c.isDigit :=
  Nat.isDigit_of_mem_toDigits (by decide) (by decide) hc

theorem head?_toDigits_ne {n : Nat} (hn : 0 < n) : (Nat.toDigits 10 n).head? ≠ some '0' := by
  induction n using Nat.strongRecOn with
  | ind n ih =>
    rw [Nat.toDigits_eq_if (by decide)]
    split
    · interval_cases n <;> decide
    · have hhead := ih (n / 10) (by omega) (by omega)
      rwa [List.head?_append_of_ne_nil _ Nat.toDigits_ne_nil]

/-- **Decimal digits** are read as the number that they denote. -/
theorem readUnsigned_toDigits (negative : Bool) (n : Nat) :
    readUnsigned negative (Nat.toDigits 10 n) =
      some (.number (if negative then (if n = 0 then none else some (-n)) else some n)) := by
  have hwhole : (Nat.toDigits 10 n).takeWhile Char.isDigit = Nat.toDigits 10 n :=
    List.takeWhile_eq_self_iff.mpr fun _ => isDigit_of_mem
  have hrest : (Nat.toDigits 10 n).dropWhile Char.isDigit = [] :=
    List.dropWhile_eq_nil_iff.mpr fun _ => isDigit_of_mem
  have hzero : ¬ ((Nat.toDigits 10 n).head? = some '0' ∧ (Nat.toDigits 10 n).length > 1) := by
    rintro ⟨hhead, hlength⟩
    rcases Nat.eq_zero_or_pos n with rfl | hn
    · exact absurd hlength (by decide)
    · exact head?_toDigits_ne hn hhead
  simp [readUnsigned, hwhole, hrest, Nat.toDigits_ne_nil, Nat.ofDigitChars_ten_toDigits]
  simpa using hzero

theorem ne_of_isDigit {c d : Char} (hc : c.isDigit) (hd : d.isDigit = false) : c ≠ d := by
  rintro rfl
  simp [hd] at hc

/-- No word begins with a digit. -/
theorem readWord_digits {c : Char} {cs : List Char} (hc : c.isDigit) :
    readWord (c :: cs) = readUnsigned false (c :: cs) := by
  have hword (d : Char) (ds : List Char) (hd : d.isDigit = false) : c :: cs ≠ d :: ds := fun h =>
    ne_of_isDigit hc hd (List.cons.inj h).1
  have hnull : c :: cs ≠ "null".toList := hword 'n' ['u', 'l', 'l'] (by decide)
  have htrue : c :: cs ≠ "true".toList := hword 't' ['r', 'u', 'e'] (by decide)
  have hfalse : c :: cs ≠ "false".toList := hword 'f' ['a', 'l', 's', 'e'] (by decide)
  unfold readWord
  rw [if_neg hnull, if_neg htrue, if_neg hfalse]
  split
  · exact absurd ‹_› (hword '-' _ (by decide))
  · rfl

theorem readWord_toDigits (n : Nat) : readWord (Nat.toDigits 10 n) = some (.number (some n)) := by
  have hread := readUnsigned_toDigits false n
  obtain ⟨c, cs, heq⟩ := List.exists_cons_of_ne_nil (Nat.toDigits_ne_nil (n := n) (b := 10))
  have hc : c.isDigit := isDigit_of_mem (n := n) (heq ▸ List.mem_cons_self)
  rw [heq] at hread ⊢
  rw [readWord_digits hc, hread]
  rfl

/-- The digits of an integer, after a sign if it is negative. -/
theorem toList_toString (n : Int) :
    (toString n).toList = if 0 ≤ n then Nat.toDigits 10 n.toNat else '-' :: Nat.toDigits 10 (-n).toNat := by
  show n.repr.toList = _
  rw [Int.repr_eq_if]
  split
  · exact Nat.toList_repr
  · rw [String.toList_append, Nat.toList_repr]
    rfl

/-- **An integer** is read from its digits. -/
theorem readWord_toString (n : Int) : readWord (toString n).toList = some (.number (some n)) := by
  rw [toList_toString]
  split
  case isTrue h => rw [readWord_toDigits, Int.toNat_of_nonneg h]
  case isFalse h =>
    have hne : (-n).toNat ≠ 0 := by omega
    have hneg : -((-n).toNat : Int) = n := by omega
    show readUnsigned true _ = _
    rw [readUnsigned_toDigits, if_pos rfl, if_neg hne, hneg]

/-! ## Strings -/

/-- Characters that stand for themselves in a string. -/
def IsPlain (c : Char) : Prop := 0x20 ≤ c.toNat ∧ c ≠ '"' ∧ c ≠ '\\'

/-- The three ways in which a character is written in a string. -/
theorem escape_cases (c : Char) :
    (IsPlain c ∧ escape c = [c]) ∨
    (∃ d, escaped d = some c ∧ 0x20 ≤ d.toNat ∧ escape c = ['\\', d]) ∨
    (c.toNat < 0x20 ∧ escape c = ['\\', 'u', '0', '0', hexDigit (c.toNat / 16), hexDigit (c.toNat % 16)]) := by
  by_cases h₁ : c = '"'
  · exact .inr (.inl ⟨'"', by subst h₁; decide⟩)
  by_cases h₂ : c = '\\'
  · exact .inr (.inl ⟨'\\', by subst h₂; decide⟩)
  by_cases h₃ : c = '\x08'
  · exact .inr (.inl ⟨'b', by subst h₃; decide⟩)
  by_cases h₄ : c = '\x0c'
  · exact .inr (.inl ⟨'f', by subst h₄; decide⟩)
  by_cases h₅ : c = '\n'
  · exact .inr (.inl ⟨'n', by subst h₅; decide⟩)
  by_cases h₆ : c = '\r'
  · exact .inr (.inl ⟨'r', by subst h₆; decide⟩)
  by_cases h₇ : c = '\t'
  · exact .inr (.inl ⟨'t', by subst h₇; decide⟩)
  by_cases h₈ : c.toNat < 0x20
  · exact .inr (.inr ⟨h₈, by simp [escape, *]⟩)
  · exact .inl ⟨⟨by omega, h₁, h₂⟩, by simp [escape, *]⟩

theorem hexValue_hexDigit {n : Nat} (hn : n < 16) : hexValue (hexDigit n) = some n := by
  interval_cases n <;> decide

theorem unescape_escape (c : Char) (cs : List Char) :
    unescape (escape c ++ cs) = (unescape cs).map (c.toNat :: ·) := by
  rcases escape_cases c with ⟨⟨_, _, hc⟩, heq⟩ | ⟨d, hd, _, heq⟩ | ⟨hc, heq⟩
  · rw [heq, List.singleton_append, unescape.eq_5 _ _ (fun _ _ _ _ _ h => absurd h hc)
      (fun _ _ h => absurd h hc) (fun h => absurd h hc)]
    cases unescape cs <;> rfl
  · have hu : d ≠ 'u' := by
      rintro rfl
      simp [escaped] at hd
    rw [heq, List.cons_append, List.singleton_append, unescape.eq_3 _ _ fun _ _ _ _ _ h => absurd h hu, hd]
    cases unescape cs <;> rfl
  · have hzero : hexValue '0' = some 0 := by decide
    have hcode : 4096 * 0 + 256 * 0 + 16 * (c.toNat / 16) + c.toNat % 16 = c.toNat := by omega
    rw [heq]
    simp only [List.cons_append, List.nil_append]
    rw [unescape, hzero, hexValue_hexDigit (by omega), hexValue_hexDigit (by omega)]
    simp only [Option.bind_eq_bind, Option.bind_some, hcode]
    cases unescape cs <;> rfl

/-- **The inside of a string** is read as the characters that were escaped. -/
theorem unescape_flatMap_escape (cs : List Char) : unescape (cs.flatMap escape) = some (cs.map Char.toNat) := by
  induction cs with
  | nil => rfl
  | cons c cs ih => rw [List.flatMap_cons, unescape_escape, ih]; rfl

/-- Characters are not halves of surrogate pairs. -/
theorem not_surrogate (c : Char) : isHighSurrogate c.toNat = false ∧ isLowSurrogate c.toNat = false := by
  have hvalid : c.toNat < 0xd800 ∨ 0xdfff < c.toNat ∧ c.toNat < 0x110000 := c.valid
  simp only [isHighSurrogate, isLowSurrogate, Bool.and_eq_false_iff, decide_eq_false_iff_not]
  omega

theorem joinSurrogates_toNat (cs : List Char) : joinSurrogates (cs.map Char.toNat) = some cs := by
  induction cs with
  | nil => rfl
  | cons c cs ih =>
    obtain ⟨hhigh, hlow⟩ := not_surrogate c
    cases cs with
    | nil => simp [joinSurrogates, hhigh, hlow]
    | cons d cs =>
      rw [List.map_cons, List.map_cons, joinSurrogates, ← List.map_cons, ih]
      simp [hhigh, hlow]

/-- **A string** is read from its escaped characters. -/
theorem readString_escape (s : String) :
    readString (s.toList.flatMap escape) = some (.string (some s)) := by
  rw [readString, unescape_flatMap_escape]
  simp [joinSurrogates_toNat]

/-! ## Scanning -/

theorem not_endsWord_of_isDigit {c : Char} (hc : c.isDigit) : endsWord c = false := by
  have hne (d : Char) (hd : d.isDigit = false) : c ≠ d := ne_of_isDigit hc hd
  have hmark : Token.ofChar? c = none := by
    unfold Token.ofChar?
    split <;> first | rfl | exact absurd rfl (hne _ (by decide))
  simp [endsWord, isBlank, hmark, hne ' ' (by decide), hne '\n' (by decide), hne '\t' (by decide),
    hne '\r' (by decide), hne '"' (by decide)]

theorem any_endsWord_toString (n : Int) : (toString n).toList.any endsWord = false := by
  have hdigits (k : Nat) : (Nat.toDigits 10 k).any endsWord = false := by
    simpa using fun c (hc : c ∈ Nat.toDigits 10 k) => not_endsWord_of_isDigit (isDigit_of_mem hc)
  rw [toList_toString]
  split
  · exact hdigits _
  · exact hdigits _

theorem toList_toString_ne_nil (n : Int) : (toString n).toList ≠ [] := by
  rw [toList_toString]
  split
  · exact Nat.toDigits_ne_nil
  · exact List.cons_ne_nil _ _

/-- The characters of a word or number belong together. -/
theorem scan_word {w : List Char} (hw : ∀ c ∈ w, endsWord c = false) (taken cs : List Char) :
    scan (.word taken) (w ++ cs) = scan (.word (w.reverse ++ taken)) cs := by
  induction w generalizing taken with
  | nil => rfl
  | cons c w ih =>
    have hc := hw c List.mem_cons_self
    rw [List.cons_append, scan, Mode.step, hc, if_neg Bool.false_ne_true]
    simp [ih fun d hd => hw d (List.mem_cons_of_mem _ hd)]

/-- Texts by which a word or number is not continued. -/
def Ends (cs : List Char) : Prop := ∀ c ∈ cs.head?, endsWord c

theorem scan_endOfWord {taken cs : List Char} (hcs : Ends cs) :
    scan (.word taken) cs = do
      let value ← readWord taken.reverse
      return .scalar value :: (← scan .between cs) := by
  cases cs with
  | nil => rw [scan, Mode.finish]; cases readWord taken.reverse <;> rfl
  | cons c cs =>
    rw [scan, scan, Mode.step, Mode.step, if_pos (hcs c rfl)]
    cases readWord taken.reverse with
    | none => rfl
    | some value => cases hscan : scan (Mode.start c).2 cs <;> simp [hscan]

theorem start_word {c : Char} (hc : endsWord c = false) : Mode.start c = ([], .word [c]) := by
  simp only [endsWord, Bool.or_eq_false_iff, decide_eq_false_iff_not, Option.isSome_eq_false_iff,
    Option.isNone_iff_eq_none] at hc
  obtain ⟨⟨hblank, hquote⟩, hmark⟩ := hc
  simp [Mode.start, hblank, hquote, hmark]

/-- **A word or number** is taken in as a whole. -/
theorem scan_scalarWord {w cs : List Char} (hne : w ≠ []) (hw : w.any endsWord = false) (hcs : Ends cs) :
    scan .between (w ++ cs) = do
      let value ← readWord w
      return .scalar value :: (← scan .between cs) := by
  have hw : ∀ c ∈ w, endsWord c = false := by simpa using hw
  obtain ⟨c, w, rfl⟩ := List.exists_cons_of_ne_nil hne
  calc scan .between (c :: w ++ cs)
    _ = scan (.word [c]) (w ++ cs) := by
        rw [List.cons_append, scan, Mode.step, start_word (hw c List.mem_cons_self)]
        simp
    _ = scan (.word (w.reverse ++ [c])) cs := scan_word (fun d hd => hw d (List.mem_cons_of_mem _ hd)) _ _
    _ = _ := by
        rw [scan_endOfWord hcs, List.reverse_append, List.reverse_reverse]
        rfl

theorem scan_plain {c : Char} (hc : IsPlain c) (taken cs : List Char) :
    scan (.string taken false) (c :: cs) = scan (.string (c :: taken) false) cs := by
  obtain ⟨hlow, hquote, hslash⟩ := hc
  rw [scan, Mode.step, if_neg (by omega), if_neg hquote, decide_eq_false hslash]
  simp

theorem scan_backslash {d : Char} (hd : 0x20 ≤ d.toNat) (taken cs : List Char) :
    scan (.string taken false) ('\\' :: d :: cs) = scan (.string (d :: '\\' :: taken) false) cs := by
  rw [scan, Mode.step, if_neg (by decide), if_neg (by decide)]
  simp only [decide_true, Option.bind_eq_bind, Option.bind_some, List.nil_append]
  rw [scan, Mode.step, if_neg (by omega)]
  simp

theorem isPlain_hexDigit {n : Nat} (hn : n < 16) : IsPlain (hexDigit n) := by
  interval_cases n <;> exact ⟨by decide, by decide, by decide⟩

/-- The inside of a string does not end it. -/
theorem scan_escape (c : Char) (taken cs : List Char) :
    scan (.string taken false) (escape c ++ cs) = scan (.string ((escape c).reverse ++ taken) false) cs := by
  rcases escape_cases c with ⟨hc, heq⟩ | ⟨d, _, hd, heq⟩ | ⟨hc, heq⟩
  · rw [heq]
    exact scan_plain hc taken cs
  · rw [heq]
    exact scan_backslash hd taken cs
  · have hzero : IsPlain '0' := ⟨by decide, by decide, by decide⟩
    rw [heq]
    simp only [List.cons_append, List.nil_append]
    rw [scan_backslash (by decide), scan_plain hzero, scan_plain hzero, scan_plain (isPlain_hexDigit (by omega)),
      scan_plain (isPlain_hexDigit (by omega))]
    rfl

theorem scan_flatMap_escape (s taken cs : List Char) :
    scan (.string taken false) (s.flatMap escape ++ cs) =
      scan (.string ((s.flatMap escape).reverse ++ taken) false) cs := by
  induction s generalizing taken with
  | nil => rfl
  | cons c s ih =>
    rw [List.flatMap_cons, List.append_assoc, scan_escape, ih, List.reverse_append, List.append_assoc]

/-- **A string** is taken in as a whole. -/
theorem scan_quote (s : String) (cs : List Char) :
    scan .between (quote s ++ cs) = do return .scalar (.string (some s)) :: (← scan .between cs) := by
  have hquote : Mode.start '"' = ([], .string [] false) := rfl
  have hread : readString ((s.toList.flatMap escape).reverse ++ []).reverse = some (.string (some s)) := by
    rw [List.append_nil, List.reverse_reverse, readString_escape]
  rw [quote, List.cons_append, List.append_assoc, scan, Mode.step, hquote]
  simp only [Option.bind_eq_bind, Option.bind_some, List.nil_append]
  rw [scan_flatMap_escape, List.singleton_append, scan, Mode.step, if_neg (by decide), if_pos rfl, hread]
  simp

/-- Characters that stand for themselves between tokens. -/
theorem scan_mark {c : Char} {t : Token} (hc : Token.ofChar? c = some t) (hblank : isBlank c = false)
    (hquote : c ≠ '"') (cs : List Char) : scan .between (c :: cs) = do return t :: (← scan .between cs) := by
  rw [scan, Mode.step]
  simp [Mode.start, hc, hblank, hquote]

/-- Tokens that denote something if they are scalars. -/
def Token.IsDefinite : Token → Prop
  | scalar value => value.IsDefinite
  | _ => True

theorem scan_scalarText {value : Scalar} (hvalue : value.IsDefinite) {cs : List Char} (hcs : Ends cs) :
    scan .between (scalarText value ++ cs) = do return .scalar value :: (← scan .between cs) := by
  cases value with
  | null => exact scan_scalarWord (by decide) (by decide) hcs
  | bool b =>
    cases b with
    | false => exact scan_scalarWord (by decide) (by decide) hcs
    | true => exact scan_scalarWord (by decide) (by decide) hcs
  | number n =>
    cases n with
    | none => exact hvalue.elim
    | some n =>
      show scan .between ((toString n).toList ++ cs) = _
      rw [scan_scalarWord (toList_toString_ne_nil n) (any_endsWord_toString n) hcs, readWord_toString]
      rfl
  | string text =>
    cases text with
    | none => exact hvalue.elim
    | some s => exact scan_quote s cs

/-- **The text of a token** is taken in as that token. -/
theorem scan_text {t : Token} (ht : t.IsDefinite) {cs : List Char} (hcs : t.IsMark ∨ Ends cs) :
    scan .between (t.text ++ cs) = do return t :: (← scan .between cs) := by
  cases t with
  | scalar value => exact scan_scalarText ht (hcs.resolve_left id)
  | leftBracket => exact scan_mark rfl rfl (by decide) cs
  | rightBracket => exact scan_mark rfl rfl (by decide) cs
  | leftBrace => exact scan_mark rfl rfl (by decide) cs
  | rightBrace => exact scan_mark rfl rfl (by decide) cs
  | comma => exact scan_mark rfl rfl (by decide) cs
  | colon => exact scan_mark rfl rfl (by decide) cs

theorem ends_text {t : Token} (ht : t.IsMark) (cs : List Char) : Ends (t.text ++ cs) := by
  cases t with
  | scalar value => exact ht.elim
  | _ => exact fun c hc => by cases hc; rfl

/-- **Tokens** that can follow each other without blanks are read from their texts. -/
theorem scan_flatMap_text {ts : List Token} (hdefinite : ∀ t ∈ ts, t.IsDefinite)
    (hchain : ts.IsChain Token.Meets) : scan .between (ts.flatMap Token.text) = some ts := by
  induction ts with
  | nil => rfl
  | cons t ts ih =>
    have hends : t.IsMark ∨ Ends (ts.flatMap Token.text) := by
      cases ts with
      | nil => exact .inr fun c hc => nomatch hc
      | cons u ts =>
        exact hchain.rel.imp_right fun hu => ends_text hu _
    rw [List.flatMap_cons, scan_text (hdefinite t List.mem_cons_self) hends,
      ih (fun u hu => hdefinite u (List.mem_cons_of_mem _ hu)) hchain.tail]
    rfl

/-! ## Values -/

/-- Values of which each number and string denotes something. -/
def IsDefinite (v : Json) : Prop := ∀ t ∈ v.tokens, t.IsDefinite

/-- **A value** is read from the text that is written for it. -/
theorem parse?_render {v : Json} (hv : v.IsDefinite) : parse? v.render = some v := by
  rw [parse?, render, String.toList_ofList, scan_flatMap_text hv (isChain_tokens v)]
  exact ofTokens?_tokens v

end Json
end FormSparsity

import EpochConsensus.Json

/-! # What JSON texts spell

The grammar of strings, lists and objects beside their readers.  A character of a string may be
written as it is or escaped in several ways (`Spelled`), and white space is free between the parts
of a list or an object (`Items`).  A reader `Reads` a text as a value when it takes exactly this
text off, in front of whatever cannot go on a number.  Strings are read from all of their spellings
(`string?_of_quoted`), numbers from their decimal digits (`integer?_toDigits`), and a list is read
when its items are (`items?_of_items`).
-/
namespace EpochConsensus.Json

variable {α : Type} {ws text rest : List Char} {c : Char}

/-! ### White space -/

/-- White space only. -/
def Blank (ws : List Char) : Prop := ws.all isBlank = true

instance (ws : List Char) : Decidable (Blank ws) :=
  inferInstanceAs (Decidable (ws.all isBlank = true))

theorem blank_nil : Blank [] := rfl

/-- What stands behind white space and is none itself. -/
theorem skipBlank_append (blank : Blank ws) (h : isBlank c = false) :
    skipBlank (ws ++ c :: text) = c :: text := by
  unfold skipBlank
  rw [List.dropWhile_append_of_pos (List.all_eq_true.mp blank)]
  simp [h]

theorem skipBlank_eq_nil (blank : Blank ws) : skipBlank ws = [] := by
  unfold skipBlank
  rw [← List.append_nil ws, List.dropWhile_append_of_pos (List.all_eq_true.mp blank),
    List.dropWhile_nil]

theorem token?_append (blank : Blank ws) (h : isBlank c = false) :
    token? c (ws ++ c :: text) = some text := by
  simp [token?, skipBlank_append blank h, literal?]

/-- Nothing that a number goes on with. -/
def Ends (rest : List Char) : Prop := ∀ c ∈ rest.head?, c.isDigit = false

theorem ends_cons (h : c.isDigit = false) : Ends (c :: rest) := by simpa [Ends] using h

theorem isDigit_of_isBlank (h : isBlank c = true) : c.isDigit = false := by
  simp only [isBlank, Bool.or_eq_true, beq_iff_eq] at h
  obtain ((rfl | rfl) | rfl) | rfl := h <;> rfl

/-- White space ends a number, and so does what is no digit. -/
theorem ends_append (blank : Blank ws) (h : Ends rest) : Ends (ws ++ rest) := by
  cases ws with
  | nil => exact h
  | cons d ws =>
    exact ends_cons (isDigit_of_isBlank (List.all_eq_true.mp blank d List.mem_cons_self))

/-- The reader takes this text off as a value, in front of whatever cannot go on a number. -/
def Reads (read? : List Char → Option (α × List Char)) (text : List Char) (a : α) : Prop :=
  ∀ rest, Ends rest → read? (text ++ rest) = some (a, rest)

/-- A value starts neither with white space nor with the end of a list. -/
def Opens (text : List Char) : Prop := ∃ c cs, text = c :: cs ∧ isBlank c = false ∧ c ≠ ']'

/-! ### Numbers -/

theorem ofDigits_toDigits (n : Nat) : ofDigits (Nat.toDigits 10 n) = n :=
  Nat.ofDigitChars_ten_toDigits

/-- Only zero is written with a zero in front. -/
theorem head?_toDigits {n : Nat} (pos : 0 < n) : (Nat.toDigits 10 n).head? ≠ some '0' := by
  induction n using Nat.strongRecOn with
  | ind n ih =>
    by_cases hlt : n < 10
    · rw [Nat.toDigits_of_lt_base hlt]
      intro h
      have hchar := Nat.toNat_digitChar_of_lt_ten hlt
      rw [Option.some.inj h] at hchar
      simp at hchar
      omega
    · have hle : 10 ≤ n := Nat.le_of_not_lt hlt
      have hfront := ih (n / 10) (Nat.div_lt_self pos (by decide)) (Nat.div_pos hle (by decide))
      obtain ⟨d, ds, hds⟩ := List.exists_cons_of_ne_nil
        (Nat.toDigits_ne_nil : Nat.toDigits 10 (n / 10) ≠ [])
      rw [Nat.toDigits_of_base_le (by decide) hle, hds]
      rwa [hds] at hfront

/-- The decimal digits of a number are an integer. -/
theorem integer?_toDigits (n : Nat) (h : Ends rest) :
    integer? (Nat.toDigits 10 n ++ rest) = some (Nat.toDigits 10 n, rest) := by
  rcases Nat.eq_zero_or_pos n with rfl | pos
  · simp [Nat.toDigits_zero, integer?]
  have hdigits : ∀ c ∈ Nat.toDigits 10 n, c.isDigit = true := fun c hc =>
    Nat.isDigit_of_mem_toDigits (by decide) (by decide) hc
  have hrest : rest.takeWhile Char.isDigit = [] ∧ rest.dropWhile Char.isDigit = rest := by
    cases rest with
    | nil => exact ⟨rfl, rfl⟩
    | cons d rest =>
      have hd : d.isDigit = false := h d rfl
      simp [hd]
  have htake : (Nat.toDigits 10 n ++ rest).takeWhile Char.isDigit = Nat.toDigits 10 n := by
    rw [List.takeWhile_append_of_pos hdigits, hrest.1, List.append_nil]
  have hdrop : (Nat.toDigits 10 n ++ rest).dropWhile Char.isDigit = rest := by
    rw [List.dropWhile_append_of_pos hdigits, hrest.2]
  have hhead := head?_toDigits pos
  have hne : Nat.toDigits 10 n ≠ [] := Nat.toDigits_ne_nil
  cases hcs : Nat.toDigits 10 n with
  | nil => exact absurd hcs hne
  | cons d ds =>
    rw [hcs] at htake hdrop hhead
    have hd : d ≠ '0' := fun h => hhead (congrArg some h)
    unfold integer?
    split
    · rename_i heq
      exact absurd (List.cons.inj heq).1 hd
    · rw [htake, hdrop]

/-! ### Strings -/

/-- Whether a character may stand in a string without an escape. -/
def isBare (c : Char) : Bool := isPlain c && c != '"' && c != '\\'

/-- The ways to write a character of a string. -/
inductive Spelled : Char → List Char → Prop
  | bare {c : Char} (h : isBare c = true) : Spelled c [c]
  | escape {e c : Char} (stands : escape? e = some c) : Spelled c ['\\', e]
  | unit {a b c d : Char} {u : Nat} (number : unit? a b c d = some u) (notHigh : isHigh u = false)
    (notLow : isLow u = false) : Spelled (Char.ofNat u) ['\\', 'u', a, b, c, d]
  /-- A character beyond 16 bits takes two code units. -/
  | pair {a b c d a' b' c' d' : Char} {u v : Nat} (high : unit? a b c d = some u)
    (low : unit? a' b' c' d' = some v) (isHigh : isHigh u = true) (isLow : isLow v = true) :
    Spelled (pair u v) ['\\', 'u', a, b, c, d, '\\', 'u', a', b', c', d']

/-- The ways to write a string, after its opening quote and up to its closing one. -/
inductive Quoted : List Char → List Char → Prop
  | close : Quoted [] ['"']
  | char {c : Char} {cs s t : List Char} (first : Spelled c s) (more : Quoted cs t) :
    Quoted (c :: cs) (s ++ t)

/-- A code unit that is no surrogate spells its character, whatever follows it. -/
theorem spell?_unit {u : Nat} (notHigh : isHigh u = false) (notLow : isLow u = false)
    (ps : List Piece) : spell? (.unit u :: ps) = (Char.ofNat u :: ·) <$> spell? ps := by
  cases ps with
  | nil => simp [spell?, notHigh, notLow]
  | cons p ps => cases p <;> simp [spell?, notHigh, notLow]

/-- One more character is read in front of the others. -/
theorem pieces?_of_spelled {s t cs : List Char} {ps : List Piece} (first : Spelled c s)
    (more : pieces? t = some (ps, rest)) (spells : spell? ps = some cs) :
    ∃ ps', pieces? (s ++ t) = some (ps', rest) ∧ spell? ps' = some (c :: cs) := by
  cases first with
  | bare h =>
    obtain ⟨⟨visible, quote⟩, backslash⟩ : (isPlain c = true ∧ c ≠ '"') ∧ c ≠ '\\' := by
      simpa [isBare] using h
    refine ⟨.char c :: ps, ?_, ?_⟩
    · simp [pieces?, visible, more, backslash]
    · simp [spell?, spells]
  | @escape e _ stands =>
    have hunit : e ≠ 'u' := by
      rintro rfl
      cases stands
    refine ⟨.char c :: ps, ?_, ?_⟩
    · simp [pieces?, hunit, stands, more]
    · simp [spell?, spells]
  | @unit _ _ _ _ u number notHigh notLow =>
    refine ⟨.unit u :: ps, ?_, ?_⟩
    · simp [pieces?, number, more]
    · rw [spell?_unit notHigh notLow, spells]
      rfl
  | @pair _ _ _ _ _ _ _ _ u v high low isHigh isLow =>
    refine ⟨.unit u :: .unit v :: ps, ?_, ?_⟩
    · simp [pieces?, high, low, more]
    · simp [spell?, isHigh, isLow, spells]

/-- **A string is read from every spelling of it.** -/
theorem string?_of_quoted {cs t : List Char} (quoted : Quoted cs t) (rest : List Char) :
    string? (t ++ rest) = some (cs, rest) := by
  suffices h : ∃ ps, pieces? (t ++ rest) = some (ps, rest) ∧ spell? ps = some cs by
    obtain ⟨ps, hpieces, hspell⟩ := h
    simp [string?, hpieces, hspell]
  induction quoted with
  | close => exact ⟨[], rfl, rfl⟩
  | char first more ih =>
    obtain ⟨ps, hpieces, hspell⟩ := ih
    rw [List.append_assoc]
    exact pieces?_of_spelled first hpieces hspell

/-- Text without anything that needs an escape may stand as it is. -/
theorem quoted_of_bare {cs : List Char} (bare : cs.all isBare = true) :
    Quoted cs (cs ++ ['"']) := by
  induction cs with
  | nil => exact .close
  | cons c cs ih =>
    obtain ⟨hc, hcs⟩ := Bool.and_eq_true_iff.mp (List.all_cons ▸ bare)
    exact Quoted.char (s := [c]) (.bare hc) (ih hcs)

/-! ### Lists and objects -/

/-- The rest of a list or an object after one of its items, up to the closing bracket. -/
inductive More (bracket : Char) (Item : α → List Char → Prop) : List α → List Char → Prop
  | close {ws : List Char} (blank : Blank ws) : More bracket Item [] (ws ++ [bracket])
  | item {a : α} {as : List α} {ws ws' s t : List Char} (before : Blank ws) (after : Blank ws')
    (item : Item a s) (more : More bracket Item as t) :
    More bracket Item (a :: as) (ws ++ ',' :: (ws' ++ (s ++ t)))

/-- The items of a list or the members of an object, after the opening bracket and up to the closing
one. -/
inductive Items (bracket : Char) (Item : α → List Char → Prop) : List α → List Char → Prop
  | none {ws : List Char} (blank : Blank ws) : Items bracket Item [] (ws ++ [bracket])
  | some {a : α} {as : List α} {ws s t : List Char} (blank : Blank ws) (item : Item a s)
    (more : More bracket Item as t) : Items bracket Item (a :: as) (ws ++ (s ++ t))

variable {bracket : Char} {Item : α → List Char → Prop} {as : List α} {t : List Char}

/-- Every item takes at least its comma. -/
theorem More.length_lt (more : More bracket Item as t) : as.length < t.length := by
  induction more with
  | close => simp
  | item before after item more ih =>
    simp only [List.length_cons, List.length_append]
    omega

/-- A number may stand in front of the rest of a list. -/
theorem More.ends (more : More bracket Item as t) (h : bracket.isDigit = false)
    (rest : List Char) : Ends (t ++ rest) := by
  cases more with
  | close blank =>
    rw [List.append_assoc]
    exact ends_append blank (ends_cons h)
  | item before =>
    rw [List.append_assoc]
    exact ends_append before (ends_cons rfl)

/-- What follows the first of some items without white space between them. -/
theorem exists_more_intercalate {write : α → List Char} (item : ∀ a ∈ as, Item a (write a))
    (a : α) : ∃ t, More bracket Item as t ∧
      [','].intercalate ((a :: as).map write) ++ [bracket] = write a ++ t := by
  induction as generalizing a with
  | nil => exact ⟨[bracket], .close blank_nil, by simp⟩
  | cons b as ih =>
    obtain ⟨hb, has⟩ := List.forall_mem_cons.mp item
    obtain ⟨t, more, heq⟩ := ih has b
    refine ⟨',' :: (write b ++ t), .item blank_nil blank_nil hb more, ?_⟩
    rw [← heq]
    simp

/-- The items without white space between them. -/
theorem items_intercalate {write : α → List Char} (item : ∀ a ∈ as, Item a (write a)) :
    Items bracket Item as ([','].intercalate (as.map write) ++ [bracket]) := by
  cases as with
  | nil => exact .none blank_nil
  | cons a as =>
    obtain ⟨ha, has⟩ := List.forall_mem_cons.mp item
    obtain ⟨t, more, heq⟩ := exists_more_intercalate has a
    rw [heq]
    exact .some blank_nil ha more

section Lists

variable {item? : List Char → Option (α × List Char)}

/-- One round for each item and one for the end suffice. -/
theorem moreItems?_of_more (more : More ']' Item as t)
    (reads : ∀ a s, Item a s → Reads item? s a ∧ Opens s) {rounds : Nat}
    (enough : as.length < rounds) (rest : List Char) :
    moreItems? item? rounds (t ++ rest) = some (as, rest) := by
  induction more generalizing rounds with
  | close blank =>
    obtain ⟨rounds, rfl⟩ := Nat.exists_eq_add_one_of_ne_zero (Nat.ne_of_gt enough)
    rw [moreItems?, List.append_assoc, List.singleton_append, skipBlank_append blank rfl]
    rfl
  | @item a as ws ws' s t before after item more ih =>
    obtain ⟨rounds, rfl⟩ := Nat.exists_eq_add_one_of_ne_zero (Nat.ne_zero_of_lt enough)
    obtain ⟨hreads, c, cs, rfl, hc, -⟩ := reads a s item
    have hskip : skipBlank (ws' ++ (c :: cs ++ t) ++ rest) = c :: cs ++ (t ++ rest) := by
      rw [List.append_assoc, List.append_assoc, List.cons_append, skipBlank_append after hc]
    have hmore := ih (Nat.lt_of_succ_lt_succ enough)
    rw [moreItems?, List.append_assoc, List.cons_append, skipBlank_append before rfl]
    simp only [hskip, hreads _ (more.ends rfl rest), Option.bind_eq_bind, Option.bind_some, hmore]
    rfl

/-- **A list is read when its items are.** -/
theorem items?_of_items (items : Items ']' Item as t)
    (reads : ∀ a s, Item a s → Reads item? s a ∧ Opens s) (rest : List Char) :
    items? item? (t ++ rest) = some (as, rest) := by
  cases items with
  | none blank =>
    unfold items?
    rw [List.append_assoc, List.singleton_append, skipBlank_append blank rfl]
    rfl
  | @some a as ws s t blank item more =>
    obtain ⟨hreads, c, cs, rfl, hc, hclose⟩ := reads a s item
    have hlong : as.length < (t ++ rest).length := by
      rw [List.length_append]
      exact Nat.lt_add_right _ more.length_lt
    have hread := hreads (t ++ rest) (more.ends rfl rest)
    have hmore := moreItems?_of_more more reads hlong rest
    unfold items?
    rw [List.append_assoc, List.append_assoc, List.cons_append, skipBlank_append blank hc]
    split
    · rename_i heq
      exact absurd (List.cons.inj heq).1 hclose
    · rw [← List.cons_append, hread]
      simp only [Option.bind_eq_bind, Option.bind_some, hmore]
      rfl

end Lists

end EpochConsensus.Json

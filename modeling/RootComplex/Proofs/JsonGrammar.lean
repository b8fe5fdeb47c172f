import Mathlib.Data.List.Induction
import Mathlib.Data.List.TakeWhile
import RootComplex.Json.Reader

/-! # The JSON grammar

The grammar relates a run of characters to the value that it spells. White space stands around
values, names and the marks between them. A number begins with a decimal numeral, and so has no
leading zeros. A string is a run of units, which are characters or halves of surrogate pairs. The
readers of numbers and strings read the grammar and nothing else. -/

namespace RootComplex.Json

/-! ## White space -/

def Blank (cs : List Char) : Prop := ∀ c ∈ cs, isSpace c = true

theorem blank_nil : Blank [] := List.forall_mem_nil _

theorem Blank.append {a b : List Char} (ha : Blank a) (hb : Blank b) : Blank (a ++ b) :=
  List.forall_mem_append.mpr ⟨ha, hb⟩

theorem skipSpace_blank {a : List Char} (h : Blank a) (cs : List Char) :
    skipSpace (a ++ cs) = skipSpace cs :=
  List.dropWhile_append_of_pos h

theorem skipSpace_cons {c : Char} (h : isSpace c = false) (cs : List Char) :
    skipSpace (c :: cs) = c :: cs := by
  rw [skipSpace, List.dropWhile_cons_of_neg (by rw [h]; exact Bool.false_ne_true)]

/-- What is skipped is white space. -/
theorem exists_blank (cs : List Char) : ∃ a, Blank a ∧ cs = a ++ skipSpace cs :=
  ⟨cs.takeWhile isSpace, fun _ hc => List.mem_takeWhile_imp hc,
    List.takeWhile_append_dropWhile.symm⟩

/-! ## Numbers -/

/-- One digit or more. -/
def Digits (ds : List Char) : Prop := ds ≠ [] ∧ ∀ d ∈ ds, d.isDigit = true

inductive Fraction : List Char → Prop where
  | none : Fraction []
  | point {ds : List Char} (h : Digits ds) : Fraction ('.' :: ds)

inductive Exponent : List Char → Prop where
  | none : Exponent []
  | mark {mark : Char} {sign ds : List Char} (hm : mark = 'e' ∨ mark = 'E')
      (hs : sign = [] ∨ sign = ['+'] ∨ sign = ['-']) (h : Digits ds) :
      Exponent (mark :: sign ++ ds)

/-- A number without a sign. It is kept as it is spelled, unless it is only a numeral. -/
inductive Unsigned : List Char → Json → Prop where
  | natural (n : Nat) : Unsigned (Nat.toDigits 10 n) (.natural n)
  | spelled (n : Nat) {fraction exponent : List Char} (hf : Fraction fraction)
      (he : Exponent exponent) (h : fraction ≠ [] ∨ exponent ≠ []) :
      Unsigned (Nat.toDigits 10 n ++ fraction ++ exponent)
        (.number (String.ofList (Nat.toDigits 10 n ++ fraction ++ exponent)))

inductive Number : List Char → Json → Prop where
  | unsigned {w : List Char} {v : Json} (h : Unsigned w v) : Number w v
  | minus {w : List Char} {v : Json} (h : Unsigned w v) :
      Number ('-' :: w) (.number (String.ofList ('-' :: w)))

/-- A number ends before these characters, or at the end of the text. -/
def Stops (cs : List Char) : Prop :=
  ∀ c ∈ cs.head?, c.isDigit = false ∧ c ≠ '.' ∧ c ≠ 'e' ∧ c ≠ 'E'

theorem stops_cons {c : Char} {cs : List Char}
    (h : c.isDigit = false ∧ c ≠ '.' ∧ c ≠ 'e' ∧ c ≠ 'E') : Stops (c :: cs) := by
  intro d hd
  cases hd
  exact h

section Decimal

theorem naturalOfDigits_eq (ds : List Char) : naturalOfDigits ds = Nat.ofDigitChars 10 ds 0 := by
  unfold naturalOfDigits Nat.ofDigitChars
  congr 1
  funext n d
  rw [Nat.mul_comm]

theorem naturalOfDigits_toDigits (n : Nat) : naturalOfDigits (Nat.toDigits 10 n) = n := by
  rw [naturalOfDigits_eq, Nat.ofDigitChars_ten_toDigits]

theorem digits_toDigits (n : Nat) : Digits (Nat.toDigits 10 n) :=
  ⟨Nat.toDigits_ne_nil, fun _ hd => Nat.isDigit_of_mem_toDigits (by decide) (by decide) hd⟩

/-- Only the numeral of zero begins with a zero. -/
theorem toDigits_eq_cons {n : Nat} (h : 0 < n) :
    ∃ d ds, Nat.toDigits 10 n = d :: ds ∧ d ≠ '0' := by
  induction n using Nat.strongRecOn with
  | ind n ih =>
    by_cases hn : n < 10
    · refine ⟨n.digitChar, [], Nat.toDigits_of_lt_base hn, fun hzero => ?_⟩
      rw [Nat.digitChar_eq_zero] at hzero
      omega
    · obtain ⟨d, ds, hds, hd⟩ := ih (n / 10) (by omega) (by omega)
      refine ⟨d, ds ++ [(n % 10).digitChar], ?_, hd⟩
      rw [Nat.toDigits_of_base_le (by decide) (by omega), hds, List.cons_append]

theorem exists_digitChar {d : Char} (h : d.isDigit = true) : ∃ k < 10, d = Nat.digitChar k := by
  simp only [Char.isDigit, Bool.and_eq_true, decide_eq_true_eq] at h
  have low : 48 ≤ d.toNat := h.1
  have high : d.toNat ≤ 57 := h.2
  refine ⟨d.toNat - 48, by omega, Char.toNat_inj.mp ?_⟩
  rw [Nat.toNat_digitChar_of_lt_ten (by omega)]
  omega

/-- Digits that do not begin with a zero are a numeral. -/
theorem exists_toDigits {ds : List Char} (h : Digits ds) (h0 : ds.head? ≠ some '0') :
    ∃ n, 0 < n ∧ ds = Nat.toDigits 10 n := by
  induction ds using List.reverseRecOn with
  | nil => exact absurd rfl h.1
  | append_singleton ds d ih =>
    obtain ⟨k, hk, rfl⟩ := exists_digitChar (h.2 d (by simp))
    cases ds with
    | nil =>
      refine ⟨k, Nat.pos_of_ne_zero fun hz => h0 ?_, ?_⟩
      · rw [hz]
        rfl
      · rw [Nat.toDigits_of_lt_base hk]
        rfl
    | cons c cs =>
      have digits : Digits (c :: cs) :=
        ⟨List.cons_ne_nil c cs, fun e he => h.2 e (List.mem_append_left _ he)⟩
      obtain ⟨n, hn, hcs⟩ := ih digits h0
      refine ⟨10 * n + k, by omega, ?_⟩
      rw [hcs, ← Nat.toDigits_append_toDigits (by decide) hn hk, Nat.toDigits_of_lt_base hk]

end Decimal

section Numbers

variable {cs rest w : List Char} {v : Json}

theorem digits?_sound {ds : List Char} (h : digits? cs = some (ds, rest)) :
    cs = ds ++ rest ∧ Digits ds := by
  unfold digits? at h
  split at h
  · cases h
  · rename_i taken
    cases h
    exact ⟨List.takeWhile_append_dropWhile.symm, taken, fun d hd => List.mem_takeWhile_imp hd⟩

theorem digits?_append {ds : List Char} (h : Digits ds)
    (hrest : ∀ c ∈ rest.head?, c.isDigit = false) : digits? (ds ++ rest) = some (ds, rest) := by
  have none : rest.takeWhile Char.isDigit = [] ∧ rest.dropWhile Char.isDigit = rest := by
    cases rest with
    | nil => exact ⟨rfl, rfl⟩
    | cons c rest =>
      have hc : ¬c.isDigit = true := by simp [hrest c rfl]
      exact ⟨List.takeWhile_cons_of_neg hc, List.dropWhile_cons_of_neg hc⟩
  unfold digits?
  rw [List.takeWhile_append_of_pos h.2, List.dropWhile_append_of_pos h.2, none.1, none.2,
    List.append_nil]
  split
  · exact absurd rfl h.1
  · rfl

theorem whole?_sound {ds : List Char} (h : whole? cs = some (ds, rest)) :
    cs = ds ++ rest ∧ ∃ n, ds = Nat.toDigits 10 n := by
  unfold whole? at h
  split at h
  · cases h
    exact ⟨rfl, 0, rfl⟩
  · rename_i hzero
    obtain ⟨rfl, digits⟩ := digits?_sound h
    refine ⟨rfl, ?_⟩
    obtain ⟨n, -, hn⟩ := exists_toDigits digits fun hhead => by
      obtain ⟨tail, htail⟩ := List.head?_eq_some_iff.mp hhead
      exact hzero (tail ++ rest) (by rw [htail]; rfl)
    exact ⟨n, hn⟩

theorem whole?_append (n : Nat) (hrest : ∀ c ∈ rest.head?, c.isDigit = false) :
    whole? (Nat.toDigits 10 n ++ rest) = some (Nat.toDigits 10 n, rest) := by
  rcases Nat.eq_zero_or_pos n with rfl | hn
  · rfl
  · unfold whole?
    split
    · rename_i tail heq
      obtain ⟨d, ds, hds, hd⟩ := toDigits_eq_cons hn
      rw [hds] at heq
      exact absurd (List.cons.inj heq).1 hd
    · exact digits?_append (digits_toDigits n) hrest

theorem fraction?_sound {f : List Char} (h : fraction? cs = some (f, rest)) :
    cs = f ++ rest ∧ Fraction f := by
  unfold fraction? at h
  split at h
  · obtain ⟨⟨ds, more⟩, hds, heq⟩ := Option.map_eq_some_iff.mp h
    cases heq
    obtain ⟨rfl, digits⟩ := digits?_sound hds
    exact ⟨rfl, .point digits⟩
  · cases h
    exact ⟨rfl, .none⟩

theorem fraction?_append {f : List Char} (h : Fraction f)
    (hrest : ∀ c ∈ rest.head?, c.isDigit = false ∧ c ≠ '.') :
    fraction? (f ++ rest) = some (f, rest) := by
  cases h with
  | none =>
    rw [List.nil_append]
    unfold fraction?
    split
    · exact absurd rfl (hrest '.' rfl).2
    · rfl
  | point digits =>
    rw [List.cons_append, fraction?, digits?_append digits fun c hc => (hrest c hc).1]
    rfl

theorem exponentSign_eq (cs : List Char) : cs = (exponentSign cs).1 ++ (exponentSign cs).2 ∧
    ((exponentSign cs).1 = [] ∨ (exponentSign cs).1 = ['+'] ∨ (exponentSign cs).1 = ['-']) := by
  unfold exponentSign
  split
  · exact ⟨rfl, .inr (.inl rfl)⟩
  · exact ⟨rfl, .inr (.inr rfl)⟩
  · exact ⟨rfl, .inl rfl⟩

theorem exponent?_sound {e : List Char} (h : exponent? cs = some (e, rest)) :
    cs = e ++ rest ∧ Exponent e := by
  unfold exponent? at h
  split at h
  · rename_i c cs
    split at h
    · rename_i hmark
      obtain ⟨hsplit, hsign⟩ := exponentSign_eq cs
      generalize exponentSign cs = parts at h hsplit hsign
      obtain ⟨⟨ds, more⟩, hds, heq⟩ := Option.map_eq_some_iff.mp h
      cases heq
      obtain ⟨hafter, digits⟩ := digits?_sound hds
      refine ⟨?_, .mark hmark hsign digits⟩
      rw [hsplit, hafter]
      simp
    · cases h
      exact ⟨rfl, .none⟩
  · cases h
    exact ⟨rfl, .none⟩

theorem exponentSign_append {sign ds : List Char} (hs : sign = [] ∨ sign = ['+'] ∨ sign = ['-'])
    (digits : Digits ds) (rest : List Char) : exponentSign (sign ++ (ds ++ rest)) = (sign, ds ++ rest) := by
  rcases hs with rfl | rfl | rfl
  · rw [List.nil_append]
    obtain ⟨d, ds', rfl⟩ := List.exists_cons_of_ne_nil digits.1
    have hd := digits.2 d List.mem_cons_self
    unfold exponentSign
    split
    · rename_i heq
      cases heq
      exact absurd hd (by decide)
    · rename_i heq
      cases heq
      exact absurd hd (by decide)
    · rfl
  · rfl
  · rfl

theorem exponent?_append {e : List Char} (h : Exponent e) (hrest : Stops rest) :
    exponent? (e ++ rest) = some (e, rest) := by
  cases h with
  | none =>
    rw [List.nil_append]
    cases rest with
    | nil => rfl
    | cons c rest =>
      obtain ⟨-, -, he, hE⟩ := hrest c rfl
      rw [exponent?, if_neg (by simp [he, hE])]
  | @mark mark sign ds hm hs digits =>
    have sign := exponentSign_append hs digits rest
    rw [List.cons_append, List.cons_append, List.append_assoc, exponent?, if_pos hm, sign]
    simp only
    rw [digits?_append digits fun c hc => (hrest c hc).1]
    rfl

/-- What comes after the whole part and the fraction does not go on with them. -/
theorem exponent_head {e : List Char} (h : Exponent e) (hrest : Stops rest) :
    ∀ c ∈ (e ++ rest).head?, c.isDigit = false ∧ c ≠ '.' := by
  intro c hc
  cases h with
  | none => exact ⟨(hrest c hc).1, (hrest c hc).2.1⟩
  | mark hm =>
    cases hc
    rcases hm with rfl | rfl <;> decide

theorem fraction_head {f : List Char} (h : Fraction f)
    (hrest : ∀ c ∈ rest.head?, c.isDigit = false ∧ c ≠ '.') :
    ∀ c ∈ (f ++ rest).head?, c.isDigit = false := by
  intro c hc
  cases h with
  | none => exact (hrest c hc).1
  | point =>
    cases hc
    decide

theorem readUnsigned?_sound (h : readUnsigned? cs = some (v, rest)) :
    ∃ w, cs = w ++ rest ∧ Unsigned w v := by
  unfold readUnsigned? at h
  obtain ⟨⟨ds, rest₁⟩, hds, h₁⟩ := Option.bind_eq_some_iff.mp h
  obtain ⟨⟨f, rest₂⟩, hf, h₂⟩ := Option.bind_eq_some_iff.mp h₁
  obtain ⟨⟨e, rest₃⟩, he, h₃⟩ := Option.bind_eq_some_iff.mp h₂
  obtain ⟨rfl, n, rfl⟩ := whole?_sound hds
  obtain ⟨rfl, fraction⟩ := fraction?_sound hf
  obtain ⟨rfl, exponent⟩ := exponent?_sound he
  dsimp only at h₃
  refine ⟨Nat.toDigits 10 n ++ f ++ e, ?_, ?_⟩
  · rw [List.append_assoc, List.append_assoc]
    split at h₃ <;> cases h₃ <;> rfl
  · split at h₃
    · cases h₃
      rw [naturalOfDigits_toDigits, List.append_nil, List.append_nil]
      exact .natural n
    · rename_i hparts
      cases h₃
      refine .spelled n fraction exponent ?_
      by_contra! hnil
      exact hparts hnil.1 hnil.2

theorem readUnsigned?_parts (n : Nat) {f e : List Char} (hf : Fraction f) (he : Exponent e)
    (hrest : Stops rest) : readUnsigned? (Nat.toDigits 10 n ++ (f ++ (e ++ rest))) =
      some (if f = [] ∧ e = [] then .natural n
        else .number (String.ofList (Nat.toDigits 10 n ++ f ++ e)), rest) := by
  have exponent := exponent?_append he hrest
  have fraction := fraction?_append hf (exponent_head he hrest)
  have whole := whole?_append n (fraction_head hf (exponent_head he hrest))
  unfold readUnsigned?
  simp only [Option.bind_eq_bind, whole, fraction, exponent, Option.bind_some,
    naturalOfDigits_toDigits]
  split
  · rw [if_pos ⟨rfl, rfl⟩]
  · rename_i parts
    rw [if_neg fun h => parts h.1 h.2]

theorem readUnsigned?_append (h : Unsigned w v) (hrest : Stops rest) :
    readUnsigned? (w ++ rest) = some (v, rest) := by
  cases h with
  | natural n => exact readUnsigned?_parts n .none .none hrest
  | @spelled n f e hf he parts =>
    rw [List.append_assoc, List.append_assoc, readUnsigned?_parts n hf he hrest,
      if_neg fun h => parts.elim (· h.1) (· h.2)]

theorem minus_append (w : List Char) : "-" ++ String.ofList w = String.ofList ('-' :: w) :=
  String.toList_inj.mp (by simp)

theorem readNumber?_sound (h : readNumber? cs = some (v, rest)) :
    ∃ w, cs = w ++ rest ∧ Number w v := by
  unfold readNumber? at h
  split at h
  · rename_i cs
    split at h
    · rename_i n more hn
      cases h
      obtain ⟨w, rfl, unsigned⟩ := readUnsigned?_sound hn
      refine ⟨'-' :: w, rfl, ?_⟩
      rw [Nat.toString_eq_ofList_toDigits, minus_append]
      cases unsigned
      exact .minus (.natural n)
    · rename_i s more hs
      cases h
      obtain ⟨w, rfl, unsigned⟩ := readUnsigned?_sound hs
      refine ⟨'-' :: w, rfl, ?_⟩
      cases unsigned with
      | spelled n hf he parts =>
        rw [minus_append]
        exact .minus (.spelled n hf he parts)
    · cases h
  · obtain ⟨w, hw, unsigned⟩ := readUnsigned?_sound h
    exact ⟨w, hw, .unsigned unsigned⟩

/-- Only digits begin a number without a sign. -/
theorem Unsigned.exists_digit (h : Unsigned w v) : ∃ d ds, w = d :: ds ∧ d.isDigit = true := by
  have numeral (n : Nat) : ∃ d ds, Nat.toDigits 10 n = d :: ds ∧ d.isDigit = true := by
    obtain ⟨made, digits⟩ := digits_toDigits n
    obtain ⟨d, ds, hds⟩ := List.exists_cons_of_ne_nil made
    exact ⟨d, ds, hds, digits d (hds ▸ List.mem_cons_self)⟩
  cases h with
  | natural n => exact numeral n
  | spelled n =>
    obtain ⟨d, ds, hds, hd⟩ := numeral n
    rw [hds, List.append_assoc]
    exact ⟨d, _, rfl, hd⟩

theorem readNumber?_append (h : Number w v) (hrest : Stops rest) :
    readNumber? (w ++ rest) = some (v, rest) := by
  cases h with
  | unsigned h =>
    obtain ⟨d, ds, rfl, hd⟩ := h.exists_digit
    have minus : d ≠ '-' := by
      rintro rfl
      exact absurd hd (by decide)
    unfold readNumber?
    split
    · rename_i heq
      exact absurd (List.cons.inj heq).1 minus
    · exact readUnsigned?_append h hrest
  | @minus w v h =>
    rw [List.cons_append, readNumber?, readUnsigned?_append h hrest]
    cases h with
    | natural n =>
      dsimp only
      rw [Nat.toString_eq_ofList_toDigits, minus_append]
    | spelled n =>
      dsimp only
      rw [minus_append]

end Numbers

/-! ## Strings -/

/-- What the body of a string spells: the code point of a character that stands for itself or is
escaped by a letter, and the number that four hexadecimal digits give. -/
inductive Units : List Char → List Nat → Prop where
  | nil : Units [] []
  | plain {c : Char} {cs : List Char} {us : List Nat} (visible : 0x20 ≤ c.toNat) (hq : c ≠ '"')
      (hb : c ≠ '\\') (h : Units cs us) : Units (c :: cs) (c.toNat :: us)
  | escape {c : Char} {u : Nat} {cs : List Char} {us : List Nat} (hc : escape? c = some u)
      (h : Units cs us) : Units ('\\' :: c :: cs) (u :: us)
  | hex {a b c d : Char} {x y z u : Nat} {cs : List Char} {us : List Nat}
      (ha : Text.hexValue? a = some x) (hb : Text.hexValue? b = some y)
      (hc : Text.hexValue? c = some z) (hd : Text.hexValue? d = some u) (h : Units cs us) :
      Units ('\\' :: 'u' :: a :: b :: c :: d :: cs) ((((x * 16 + y) * 16 + z) * 16 + u) :: us)

/-- The units of a text: a character is its code point or, beyond the first plane, a pair of
surrogates. -/
inductive Joins : List Nat → List Char → Prop where
  | nil : Joins [] []
  | char (c : Char) {us : List Nat} {cs : List Char} (h : Joins us cs) :
      Joins (c.toNat :: us) (c :: cs)
  | pair {high low : Nat} (c : Char) {us : List Nat} {cs : List Char}
      (hh : 0xD800 ≤ high ∧ high < 0xDC00) (hl : 0xDC00 ≤ low ∧ low < 0xE000)
      (hc : c.toNat = 0x10000 + (high - 0xD800) * 0x400 + (low - 0xDC00)) (h : Joins us cs) :
      Joins (high :: low :: us) (c :: cs)

/-- A string in its quotes, and the text that it spells if it spells one. -/
def Quoted (w : List Char) (t : Option String) : Prop :=
  ∃ body us, w = '"' :: body ++ ['"'] ∧ Units body us ∧ ∀ s : String, t = some s ↔ Joins us s.toList

section Strings

variable {cs rest body w : List Char} {us : List Nat} {t : Option String}

theorem readHexOnto?_four {a b c d : Char} {n : Nat} :
    Text.readHexOnto? 0 [a, b, c, d] = some n ↔ ∃ x y z u, Text.hexValue? a = some x ∧
      Text.hexValue? b = some y ∧ Text.hexValue? c = some z ∧ Text.hexValue? d = some u ∧
      n = ((x * 16 + y) * 16 + z) * 16 + u := by
  simp only [Text.readHexOnto?, Option.bind_eq_some_iff, Nat.zero_mul, Nat.zero_add,
    Option.some.injEq]
  constructor
  · rintro ⟨x, hx, y, hy, z, hz, u, hu, rfl⟩
    exact ⟨x, y, z, u, hx, hy, hz, hu, rfl⟩
  · rintro ⟨x, y, z, u, hx, hy, hz, hu, rfl⟩
    exact ⟨x, hx, y, hy, z, hz, u, hu, rfl⟩

theorem readUnits?_sound (h : readUnits? cs = some (us, rest)) :
    ∃ body, cs = body ++ '"' :: rest ∧ Units body us := by
  fun_induction readUnits? cs generalizing us rest with
  | case1 more =>
    cases h
    exact ⟨[], rfl, .nil⟩
  | case2 a b c d more ih =>
    obtain ⟨n, hn, h₁⟩ := Option.bind_eq_some_iff.mp h
    obtain ⟨⟨units, after⟩, hunits, h₂⟩ := Option.bind_eq_some_iff.mp h₁
    cases h₂
    obtain ⟨body, rfl, spelled⟩ := ih hunits
    obtain ⟨x, y, z, u, ha, hb, hc, hd, rfl⟩ := readHexOnto?_four.mp hn
    exact ⟨_ :: _ :: _ :: _ :: _ :: _ :: body, rfl, .hex ha hb hc hd spelled⟩
  | case3 c more _ ih =>
    obtain ⟨u, hu, h₁⟩ := Option.bind_eq_some_iff.mp h
    obtain ⟨⟨units, after⟩, hunits, h₂⟩ := Option.bind_eq_some_iff.mp h₁
    cases h₂
    obtain ⟨body, rfl, spelled⟩ := ih hunits
    exact ⟨_ :: _ :: body, rfl, .escape hu spelled⟩
  | case4 => cases h
  | case5 c more quote _ _ plain ih =>
    obtain ⟨⟨units, after⟩, hunits, h₁⟩ := Option.map_eq_some_iff.mp h
    cases h₁
    obtain ⟨body, rfl, spelled⟩ := ih hunits
    exact ⟨c :: body, rfl, .plain (Nat.le_of_not_lt fun h => plain (.inl h)) quote
      (fun h => plain (.inr h)) spelled⟩
  | case6 => cases h

theorem readUnits?_append (h : Units body us) : readUnits? (body ++ '"' :: rest) = some (us, rest) := by
  induction h with
  | nil => rfl
  | @plain c cs us visible hq hb _ ih =>
    rw [List.cons_append, readUnits?.eq_def]
    split
    · rename_i heq
      exact absurd (List.cons.inj heq).1 hq
    · rename_i heq
      exact absurd (List.cons.inj heq).1 hb
    · rename_i heq
      exact absurd (List.cons.inj heq).1 hb
    · rename_i heq
      cases heq
      rw [if_neg fun h => h.elim (Nat.not_lt.mpr visible) hb, ih]
      rfl
    · rename_i heq
      cases heq
  | @escape c u cs us hc _ ih =>
    rw [List.cons_append, List.cons_append, readUnits?.eq_def]
    split
    · rename_i heq
      cases heq
    · rename_i heq
      obtain ⟨rfl, -⟩ := List.cons.inj (List.cons.inj heq).2
      cases hc
    · rename_i heq
      cases heq
      rw [hc, ih]
      rfl
    · rename_i other heq
      cases heq
      exact absurd rfl (other _ _ rfl)
    · rename_i heq
      cases heq
  | hex ha hb hc hd _ ih =>
    have unit := readHexOnto?_four.mpr ⟨_, _, _, _, ha, hb, hc, hd, rfl⟩
    simp only [List.cons_append]
    rw [readUnits?, unit, ih]
    rfl

theorem hexValue?_lt {c : Char} {n : Nat} (h : Text.hexValue? c = some n) : n < 16 := by
  unfold Text.hexValue? at h
  split at h
  · rename_i hc
    have high : c.toNat ≤ 57 := hc.2
    have zero : '0'.toNat = 48 := rfl
    cases h
    omega
  · split at h
    · rename_i hc
      have high : c.toNat ≤ 102 := hc.2
      have first : 'a'.toNat = 97 := rfl
      cases h
      omega
    · split at h
      · rename_i hc
        have high : c.toNat ≤ 70 := hc.2
        have first : 'A'.toNat = 65 := rfl
        cases h
        omega
      · cases h

theorem Units.lt (h : Units body us) : ∀ u ∈ us, u < 0x110000 := by
  have point (c : Char) : c.toNat < 0x110000 := by
    rcases c.valid with h | h
    · exact Nat.lt_trans h (by decide)
    · exact h.2
  induction h with
  | nil => exact fun u hu => absurd hu List.not_mem_nil
  | @plain c _ _ _ _ _ _ ih => exact List.forall_mem_cons.mpr ⟨point c, ih⟩
  | escape hc _ ih =>
    refine List.forall_mem_cons.mpr ⟨?_, ih⟩
    unfold escape? at hc
    split at hc <;> cases hc <;> decide
  | hex ha hb hc hd _ ih =>
    refine List.forall_mem_cons.mpr ⟨?_, ih⟩
    have := hexValue?_lt ha
    have := hexValue?_lt hb
    have := hexValue?_lt hc
    have := hexValue?_lt hd
    omega

theorem isHighSurrogate_iff {u : Nat} : isHighSurrogate u = true ↔ 0xD800 ≤ u ∧ u < 0xDC00 := by
  simp [isHighSurrogate]

theorem isLowSurrogate_iff {u : Nat} : isLowSurrogate u = true ↔ 0xDC00 ≤ u ∧ u < 0xE000 := by
  simp [isLowSurrogate]

theorem isValidChar_iff {u : Nat} (bound : u < 0x110000) :
    u.isValidChar ↔ ¬isHighSurrogate u = true ∧ ¬isLowSurrogate u = true := by
  rw [isHighSurrogate_iff, isLowSurrogate_iff]
  omega

theorem toNat_ofNat {u : Nat} (valid : u.isValidChar) : (Char.ofNat u).toNat = u := by
  unfold Char.ofNat
  rw [dif_pos valid]
  rfl

/-- A unit that is no surrogate is a character by itself. -/
theorem Joins.unit {u : Nat} {cs : List Char} (valid : u.isValidChar) (h : Joins us cs) :
    Joins (u :: us) (Char.ofNat u :: cs) := by
  have char := Joins.char (Char.ofNat u) h
  rwa [toNat_ofNat valid] at char

theorem charsOfUnits?_cons {c : Char} :
    charsOfUnits? (c.toNat :: us) = (charsOfUnits? us).map (c :: ·) := by
  have valid : c.toNat.isValidChar := c.valid
  have bound : c.toNat < 0x110000 := by omega
  obtain ⟨high, low⟩ := (isValidChar_iff bound).mp valid
  cases us with
  | nil => simp [charsOfUnits?, high, low]
  | cons v us => simp [charsOfUnits?, high, low]

theorem charsOfUnits?_of_joins {cs : List Char} (h : Joins us cs) : charsOfUnits? us = some cs := by
  induction h with
  | nil => rfl
  | char c _ ih => rw [charsOfUnits?_cons, ih, Option.map_some]
  | pair c hh hl hc _ ih =>
    rw [charsOfUnits?, if_pos (isHighSurrogate_iff.mpr hh), if_pos (isLowSurrogate_iff.mpr hl), ih,
      Option.map_some, ← hc, Char.ofNat_toNat]

theorem joins_of_charsOfUnits? {cs : List Char} (bound : ∀ u ∈ us, u < 0x110000)
    (h : charsOfUnits? us = some cs) : Joins us cs := by
  fun_induction charsOfUnits? us generalizing cs with
  | case1 =>
    cases h
    exact .nil
  | case2 => cases h
  | case3 u single =>
    cases h
    refine .unit ((isValidChar_iff (bound u List.mem_cons_self)).mpr ?_) .nil
    simpa using single
  | case4 u v rest high low ih =>
    obtain ⟨more, hmore, rfl⟩ := Option.map_eq_some_iff.mp h
    have later (w : Nat) (hw : w ∈ rest) : w < 0x110000 :=
      bound w (List.mem_cons_of_mem _ (List.mem_cons_of_mem _ hw))
    rw [isHighSurrogate_iff] at high
    rw [isLowSurrogate_iff] at low
    refine .pair _ high low ?_ (ih later hmore)
    exact toNat_ofNat (.inr (by omega))
  | case5 => cases h
  | case6 => cases h
  | case7 u v rest high low ih =>
    obtain ⟨more, hmore, rfl⟩ := Option.map_eq_some_iff.mp h
    exact .unit ((isValidChar_iff (bound u List.mem_cons_self)).mpr ⟨high, low⟩)
      (ih (fun w hw => bound w (List.mem_cons_of_mem _ hw)) hmore)

theorem charsOfUnits?_iff {cs : List Char} (bound : ∀ u ∈ us, u < 0x110000) :
    charsOfUnits? us = some cs ↔ Joins us cs :=
  ⟨joins_of_charsOfUnits? bound, charsOfUnits?_of_joins⟩

theorem text_eq_iff (h : Units body us) (t : Option String) :
    t = (charsOfUnits? us).map String.ofList ↔ ∀ s : String, t = some s ↔ Joins us s.toList := by
  have text (s : String) : (charsOfUnits? us).map String.ofList = some s ↔ Joins us s.toList := by
    rw [← charsOfUnits?_iff h.lt, Option.map_eq_some_iff]
    constructor
    · rintro ⟨cs, hcs, rfl⟩
      rw [hcs, String.toList_ofList]
    · intro hs
      exact ⟨_, hs, String.ofList_toList⟩
  constructor
  · rintro rfl
    exact text
  · intro ht
    exact Option.ext fun s => (ht s).trans (text s).symm

theorem readText?_sound (h : readText? cs = some (t, rest)) :
    ∃ w, '"' :: cs = w ++ rest ∧ Quoted w t := by
  obtain ⟨⟨us, more⟩, hunits, hparts⟩ := Option.map_eq_some_iff.mp h
  cases hparts
  obtain ⟨body, rfl, spelled⟩ := readUnits?_sound hunits
  exact ⟨'"' :: body ++ ['"'], by simp, body, us, rfl, spelled, (text_eq_iff spelled _).mp rfl⟩

theorem readText?_append (h : Quoted w t) :
    ∃ cs, w = '"' :: cs ∧ ∀ rest, readText? (cs ++ rest) = some (t, rest) := by
  obtain ⟨body, us, rfl, spelled, ht⟩ := h
  refine ⟨body ++ ['"'], rfl, fun rest => ?_⟩
  have units : readUnits? (body ++ ['"'] ++ rest) = some (us, rest) := by
    rw [List.append_assoc]
    exact readUnits?_append spelled
  rw [readText?, units, (text_eq_iff spelled t).mpr ht]
  rfl

end Strings

end RootComplex.Json

import RootComplex.Proofs.JsonGrammar

/-! # Reading JSON

A text is read as a value if and only if it spells that value by the grammar, so that it spells
one value at most. The reader goes by a bound that falls with every step; a text is too short for
it to be met. -/

namespace RootComplex.Json

/-! ## The grammar of values -/

mutual

/-- A value without white space around it. -/
inductive Value : List Char → Json → Prop where
  | null : Value ['n', 'u', 'l', 'l'] .null
  | yes : Value ['t', 'r', 'u', 'e'] (.bool true)
  | no : Value ['f', 'a', 'l', 's', 'e'] (.bool false)
  | number {w : List Char} {v : Json} (h : Number w v) : Value w v
  | text {w : List Char} {t : Option String} (h : Quoted w t) : Value w (.text t)
  | emptyArray {a : List Char} (ha : Blank a) : Value ('[' :: a ++ [']']) (.array [])
  | array {es : List Char} {vs : List Json} (h : Items es vs) :
      Value ('[' :: es ++ [']']) (.array vs)
  | emptyObject {a : List Char} (ha : Blank a) : Value ('\x7b' :: a ++ ['\x7d']) (.object [])
  | object {ms : List Char} {members : List (Option String × Json)} (h : Members ms members) :
      Value ('\x7b' :: ms ++ ['\x7d']) (.object members)

inductive Element : List Char → Json → Prop where
  | padded {a w b : List Char} {v : Json} (ha : Blank a) (h : Value w v) (hb : Blank b) :
      Element (a ++ w ++ b) v

inductive Items : List Char → List Json → Prop where
  | last {e : List Char} {v : Json} (h : Element e v) : Items e [v]
  | more {e es : List Char} {v : Json} {vs : List Json} (h : Element e v) (hs : Items es vs) :
      Items (e ++ ',' :: es) (v :: vs)

inductive Members : List Char → List (Option String × Json) → Prop where
  | last {a k b e : List Char} {name : Option String} {v : Json} (ha : Blank a)
      (hk : Quoted k name) (hb : Blank b) (h : Element e v) :
      Members (a ++ k ++ b ++ ':' :: e) [(name, v)]
  | more {a k b e ms : List Char} {name : Option String} {v : Json}
      {members : List (Option String × Json)} (ha : Blank a) (hk : Quoted k name) (hb : Blank b)
      (h : Element e v) (hs : Members ms members) :
      Members (a ++ k ++ b ++ ':' :: (e ++ ',' :: ms)) ((name, v) :: members)

end

/-- The text spells the value. -/
def Spells (text : String) (v : Json) : Prop := Element text.toList v

variable {fuel : Nat} {cs rest w : List Char} {v : Json} {vs : List Json}
  {members : List (Option String × Json)}

/-! ## White space in front -/

theorem Element.blank_append {a : List Char} (ha : Blank a) (h : Element w v) :
    Element (a ++ w) v := by
  cases h with
  | padded hb value hc =>
    rw [← List.append_assoc, ← List.append_assoc]
    exact .padded (ha.append hb) value hc

theorem Items.blank_append {a : List Char} (ha : Blank a) (h : Items w vs) : Items (a ++ w) vs := by
  cases h with
  | last element => exact .last (element.blank_append ha)
  | more element others =>
    rw [← List.append_assoc]
    exact .more (element.blank_append ha) others

theorem Members.blank_append {a : List Char} (ha : Blank a) (h : Members w members) :
    Members (a ++ w) members := by
  cases h with
  | last hb quoted hc element =>
    simp only [← List.append_assoc]
    exact .last (ha.append hb) quoted hc element
  | more hb quoted hc element others =>
    have whole := Members.more (ha.append hb) quoted hc element others
    simpa only [List.append_assoc] using whole

/-! ## What is read is spelled -/

/-- With this bound only what the grammar spells is read. -/
structure ReadsOnly (fuel : Nat) : Prop where
  value : ∀ cs v rest, readValue? fuel cs = some (v, rest) →
    ∃ a w, cs = a ++ w ++ rest ∧ Blank a ∧ Value w v
  items : ∀ cs vs rest, readItems? fuel cs = some (vs, rest) →
    ∃ es, cs = es ++ ']' :: rest ∧ Items es vs
  members : ∀ cs members rest, readMembers? fuel cs = some (members, rest) →
    ∃ ms, cs = ms ++ '\x7d' :: rest ∧ Members ms members

theorem ReadsOnly.element (h : ReadsOnly fuel) {c : Char} {more : List Char}
    (hread : readValue? fuel cs = some (v, rest)) (hskip : skipSpace rest = c :: more) :
    ∃ e, cs = e ++ c :: more ∧ Element e v := by
  obtain ⟨a, w, rfl, ha, hw⟩ := h.value _ _ _ hread
  obtain ⟨b, hb, hrest⟩ := exists_blank rest
  rw [hskip] at hrest
  refine ⟨a ++ w ++ b, ?_, .padded ha hw hb⟩
  rw [List.append_assoc _ b, ← hrest]

theorem readItems?_only (h : ReadsOnly fuel) (hread : readItems? (fuel + 1) cs = some (vs, rest)) :
    ∃ es, cs = es ++ ']' :: rest ∧ Items es vs := by
  unfold readItems? at hread
  obtain ⟨⟨item, after⟩, hitem, hread⟩ := Option.bind_eq_some_iff.mp hread
  dsimp only at hread
  split at hread
  · rename_i more hskip
    obtain ⟨⟨items, last⟩, hitems, hread⟩ := Option.bind_eq_some_iff.mp hread
    cases hread
    obtain ⟨e, rfl, element⟩ := h.element hitem hskip
    obtain ⟨es, rfl, others⟩ := h.items _ _ _ hitems
    exact ⟨e ++ ',' :: es, by simp, .more element others⟩
  · rename_i more hskip
    cases hread
    obtain ⟨e, rfl, element⟩ := h.element hitem hskip
    exact ⟨e, rfl, .last element⟩
  · cases hread

theorem readMembers?_only (h : ReadsOnly fuel)
    (hread : readMembers? (fuel + 1) cs = some (members, rest)) :
    ∃ ms, cs = ms ++ '\x7d' :: rest ∧ Members ms members := by
  unfold readMembers? at hread
  split at hread
  · rename_i body hquote
    obtain ⟨⟨name, after⟩, hname, hread⟩ := Option.bind_eq_some_iff.mp hread
    dsimp only at hread
    split at hread
    · rename_i tail hcolon
      obtain ⟨⟨value, last⟩, hvalue, hread⟩ := Option.bind_eq_some_iff.mp hread
      dsimp only at hread
      obtain ⟨a, ha, hcs⟩ := exists_blank cs
      obtain ⟨b, hb, hafter⟩ := exists_blank after
      obtain ⟨k, hk, quoted⟩ := readText?_sound hname
      rw [hquote, hk, hafter, hcolon] at hcs
      split at hread
      · rename_i more hskip
        obtain ⟨⟨others, final⟩, hothers, hread⟩ := Option.bind_eq_some_iff.mp hread
        cases hread
        obtain ⟨e, rfl, element⟩ := h.element hvalue hskip
        obtain ⟨ms, rfl, spelled⟩ := h.members _ _ _ hothers
        exact ⟨_, by rw [hcs]; simp, .more ha quoted hb element spelled⟩
      · rename_i more hskip
        cases hread
        obtain ⟨e, rfl, element⟩ := h.element hvalue hskip
        exact ⟨_, by rw [hcs]; simp, .last ha quoted hb element⟩
      · cases hread
    · cases hread
  · cases hread

theorem readValue?_only (h : ReadsOnly fuel) (hread : readValue? (fuel + 1) cs = some (v, rest)) :
    ∃ a w, cs = a ++ w ++ rest ∧ Blank a ∧ Value w v := by
  obtain ⟨a, ha, hcs⟩ := exists_blank cs
  suffices tail : ∃ w, skipSpace cs = w ++ rest ∧ Value w v by
    obtain ⟨w, hw, value⟩ := tail
    exact ⟨a, w, by rw [hcs, hw, List.append_assoc], ha, value⟩
  clear hcs
  unfold readValue? at hread
  split at hread
  · rename_i body hquote
    obtain ⟨⟨t, after⟩, ht, hparts⟩ := Option.map_eq_some_iff.mp hread
    cases hparts
    obtain ⟨w, hw, quoted⟩ := readText?_sound ht
    exact ⟨w, by rw [hquote, hw], .text quoted⟩
  · rename_i body hopen
    obtain ⟨b, hb, hbody⟩ := exists_blank body
    rw [hopen]
    split at hread
    · rename_i after hclose
      cases hread
      rw [hclose] at hbody
      exact ⟨'[' :: b ++ [']'], by rw [hbody]; simp, .emptyArray hb⟩
    · obtain ⟨⟨items, after⟩, hitems, hparts⟩ := Option.map_eq_some_iff.mp hread
      cases hparts
      obtain ⟨es, hes, spelled⟩ := h.items _ _ _ hitems
      rw [hes] at hbody
      exact ⟨'[' :: (b ++ es) ++ [']'], by rw [hbody]; simp, .array (spelled.blank_append hb)⟩
  · rename_i body hopen
    obtain ⟨b, hb, hbody⟩ := exists_blank body
    rw [hopen]
    split at hread
    · rename_i after hclose
      cases hread
      rw [hclose] at hbody
      exact ⟨'\x7b' :: b ++ ['\x7d'], by rw [hbody]; simp, .emptyObject hb⟩
    · obtain ⟨⟨members, after⟩, hmembers, hparts⟩ := Option.map_eq_some_iff.mp hread
      cases hparts
      obtain ⟨ms, hms, spelled⟩ := h.members _ _ _ hmembers
      rw [hms] at hbody
      exact ⟨'\x7b' :: (b ++ ms) ++ ['\x7d'], by rw [hbody]; simp,
        .object (spelled.blank_append hb)⟩
  · rename_i hword
    cases hread
    exact ⟨_, hword, .null⟩
  · rename_i hword
    cases hread
    exact ⟨_, hword, .yes⟩
  · rename_i hword
    cases hread
    exact ⟨_, hword, .no⟩
  · obtain ⟨w, hw, number⟩ := readNumber?_sound hread
    exact ⟨w, hw, .number number⟩

theorem readsOnly (fuel : Nat) : ReadsOnly fuel := by
  induction fuel with
  | zero =>
    refine ⟨fun _ _ _ h => ?_, fun _ _ _ h => ?_, fun _ _ _ h => ?_⟩
    · cases h
    · cases h
    · cases h
  | succ fuel ih =>
    exact ⟨fun _ _ _ h => readValue?_only ih h, fun _ _ _ h => readItems?_only ih h,
      fun _ _ _ h => readMembers?_only ih h⟩

/-! ## What is spelled is read -/

theorem isSpace_iff {c : Char} : isSpace c = true ↔ c = ' ' ∨ c = '\t' ∨ c = '\n' ∨ c = '\r' := by
  simp [isSpace, or_assoc]

theorem Stops.blank_append {a : List Char} (ha : Blank a) (h : Stops rest) : Stops (a ++ rest) := by
  cases a with
  | nil => exact h
  | cons c a =>
    refine stops_cons ?_
    rcases isSpace_iff.mp (ha c List.mem_cons_self) with rfl | rfl | rfl | rfl <;> decide

theorem readValue?_blank {a : List Char} (ha : Blank a) (cs : List Char) :
    readValue? fuel (a ++ cs) = readValue? fuel cs := by
  cases fuel with
  | zero => rfl
  | succ fuel => rw [readValue?, readValue?, skipSpace_blank ha]

theorem readItems?_blank {a : List Char} (ha : Blank a) (cs : List Char) :
    readItems? fuel (a ++ cs) = readItems? fuel cs := by
  cases fuel with
  | zero => rfl
  | succ fuel => rw [readItems?, readItems?, readValue?_blank ha]

theorem readMembers?_blank {a : List Char} (ha : Blank a) (cs : List Char) :
    readMembers? fuel (a ++ cs) = readMembers? fuel cs := by
  cases fuel with
  | zero => rfl
  | succ fuel => rw [readMembers?, readMembers?, skipSpace_blank ha]

/-- The first character of a value is not white space and closes nothing. -/
theorem Value.exists_cons (h : Value w v) : ∃ c cs, w = c :: cs ∧ isSpace c = false ∧ c ≠ ']' := by
  have digit {c : Char} (h : c.isDigit = true) : isSpace c = false ∧ c ≠ ']' := by
    refine ⟨Bool.eq_false_iff.mpr fun hspace => ?_, ?_⟩
    · rcases isSpace_iff.mp hspace with rfl | rfl | rfl | rfl <;> exact absurd h (by decide)
    · rintro rfl
      exact absurd h (by decide)
  cases h with
  | null => exact ⟨_, _, rfl, by decide⟩
  | yes => exact ⟨_, _, rfl, by decide⟩
  | no => exact ⟨_, _, rfl, by decide⟩
  | number h =>
    cases h with
    | unsigned h =>
      obtain ⟨d, ds, rfl, hd⟩ := h.exists_digit
      exact ⟨d, ds, rfl, digit hd⟩
    | minus h => exact ⟨_, _, rfl, by decide⟩
  | text h =>
    obtain ⟨body, -, rfl, -⟩ := h
    exact ⟨_, _, rfl, by decide⟩
  | emptyArray => exact ⟨_, _, rfl, by decide⟩
  | array => exact ⟨_, _, rfl, by decide⟩
  | emptyObject => exact ⟨_, _, rfl, by decide⟩
  | object => exact ⟨_, _, rfl, by decide⟩

/-- With this bound all is read that the grammar spells and that is short enough. -/
structure ReadsAll (fuel : Nat) : Prop where
  value : ∀ w v rest, Value w v → 2 * w.length ≤ fuel → Stops rest →
    readValue? fuel (w ++ rest) = some (v, rest)
  items : ∀ es vs rest, Items es vs → 2 * es.length < fuel →
    readItems? fuel (es ++ ']' :: rest) = some (vs, rest)
  members : ∀ ms members rest, Members ms members → 2 * ms.length < fuel →
    readMembers? fuel (ms ++ '\x7d' :: rest) = some (members, rest)

/-- An element is read up to the mark after it. -/
theorem ReadsAll.element (h : ReadsAll fuel) {e : List Char} {c : Char} (he : Element e v)
    (hfuel : 2 * e.length ≤ fuel) (hc : c = ',' ∨ c = ']' ∨ c = '\x7d') (rest : List Char) :
    ∃ after, readValue? fuel (e ++ c :: rest) = some (v, after) ∧ skipSpace after = c :: rest := by
  have mark : isSpace c = false ∧ Stops (c :: rest) := by
    rcases hc with rfl | rfl | rfl <;> exact ⟨by decide, stops_cons (by decide)⟩
  cases he with
  | @padded a w b v ha hw hb =>
    rw [List.length_append, List.length_append] at hfuel
    refine ⟨b ++ c :: rest, ?_, ?_⟩
    · rw [List.append_assoc, List.append_assoc, readValue?_blank ha]
      exact h.value _ _ _ hw (by omega) (mark.2.blank_append hb)
    · rw [skipSpace_blank hb, skipSpace_cons mark.1]

theorem readItems?_all (h : ReadsAll fuel) {es : List Char} (hs : Items es vs)
    (hfuel : 2 * es.length < fuel + 1) :
    readItems? (fuel + 1) (es ++ ']' :: rest) = some (vs, rest) := by
  cases hs with
  | last he =>
    obtain ⟨after, hread, hskip⟩ := h.element he (by omega) (.inr (.inl rfl)) rest
    rw [readItems?, hread]
    simp only [Option.bind_eq_bind, Option.bind_some, hskip]
  | @more e es v vs he hs =>
    rw [List.length_append, List.length_cons] at hfuel
    obtain ⟨after, hread, hskip⟩ := h.element he (by omega) (.inl rfl) (es ++ ']' :: rest)
    rw [List.append_assoc, List.cons_append, readItems?, hread]
    simp only [Option.bind_eq_bind, Option.bind_some, hskip]
    rw [h.items _ _ _ hs (by omega)]
    rfl

theorem readMembers?_all (h : ReadsAll fuel) {ms : List Char} (hs : Members ms members)
    (hfuel : 2 * ms.length < fuel + 1) :
    readMembers? (fuel + 1) (ms ++ '\x7d' :: rest) = some (members, rest) := by
  have quote : isSpace '"' = false := by decide
  have colon : isSpace ':' = false := by decide
  cases hs with
  | @last a k b e name v ha hk hb he =>
    obtain ⟨body, rfl, hbody⟩ := readText?_append hk
    simp only [List.length_append, List.length_cons] at hfuel
    obtain ⟨after, hread, hskip⟩ := h.element he (by omega) (.inr (.inr rfl)) rest
    simp only [List.append_assoc, List.cons_append]
    rw [readMembers?, skipSpace_blank ha, skipSpace_cons quote]
    simp only [hbody, Option.bind_eq_bind, Option.bind_some, skipSpace_blank hb,
      skipSpace_cons colon, hread, hskip]
  | @more a k b e ms name v others ha hk hb he hs =>
    obtain ⟨body, rfl, hbody⟩ := readText?_append hk
    simp only [List.length_append, List.length_cons] at hfuel
    obtain ⟨after, hread, hskip⟩ := h.element he (by omega) (.inl rfl) (ms ++ '\x7d' :: rest)
    simp only [List.append_assoc, List.cons_append]
    rw [readMembers?, skipSpace_blank ha, skipSpace_cons quote]
    simp only [hbody, Option.bind_eq_bind, Option.bind_some, skipSpace_blank hb,
      skipSpace_cons colon, hread, hskip, h.members _ _ _ hs (by omega : 2 * ms.length < fuel)]

/-- The first item is not the end of its array. -/
theorem Items.skipSpace_ne (h : Items w vs) (rest more : List Char) :
    skipSpace (w ++ rest) ≠ ']' :: more := by
  have element {e : List Char} {v : Json} (h : Element e v) (rest : List Char) :
      skipSpace (e ++ rest) ≠ ']' :: more := by
    cases h with
    | padded ha value hb =>
      obtain ⟨c, cs, rfl, hspace, hclose⟩ := value.exists_cons
      rw [List.append_assoc, List.append_assoc, skipSpace_blank ha, List.cons_append,
        skipSpace_cons hspace]
      exact fun heq => hclose (List.cons.inj heq).1
  cases h with
  | last h => exact element h rest
  | more h hs =>
    rw [List.append_assoc]
    exact element h _

theorem Members.skipSpace_ne (h : Members w members) (rest more : List Char) :
    skipSpace (w ++ rest) ≠ '\x7d' :: more := by
  have quoted {a k : List Char} {name : Option String} (ha : Blank a) (hk : Quoted k name)
      (rest : List Char) : skipSpace (a ++ (k ++ rest)) ≠ '\x7d' :: more := by
    obtain ⟨body, -, rfl, -⟩ := hk
    have quote : isSpace '"' = false := by decide
    rw [skipSpace_blank ha, List.cons_append, List.cons_append, skipSpace_cons quote]
    exact fun heq => absurd (List.cons.inj heq).1 (by decide)
  cases h with
  | last ha hk hb h =>
    simp only [List.append_assoc]
    exact quoted ha hk _
  | more ha hk hb h hs =>
    simp only [List.append_assoc]
    exact quoted ha hk _

theorem readValue?_number (h : Number w v) (hrest : Stops rest) :
    readValue? (fuel + 1) (w ++ rest) = some (v, rest) := by
  have first : ∃ c cs, w = c :: cs ∧ (c.isDigit = true ∨ c = '-') := by
    cases h with
    | unsigned h =>
      obtain ⟨d, ds, rfl, hd⟩ := h.exists_digit
      exact ⟨d, ds, rfl, .inl hd⟩
    | minus h => exact ⟨_, _, rfl, .inr rfl⟩
  obtain ⟨c, cs, rfl, hc⟩ := first
  obtain ⟨_, _, heq, hspace, -⟩ := (Value.number h).exists_cons
  cases heq
  -- nothing else begins as a number does
  have other (d : Char) (hd : d.isDigit = false ∧ d ≠ '-') : c ≠ d := by
    rintro rfl
    rcases hc with hdigit | rfl
    · rw [hd.1] at hdigit
      cases hdigit
    · exact hd.2 rfl
  have number := readNumber?_append h hrest
  rw [List.cons_append] at number ⊢
  unfold readValue?
  rw [skipSpace_cons hspace]
  split
  · rename_i heq
    exact absurd (List.cons.inj heq).1 (other _ (by decide))
  · rename_i heq
    exact absurd (List.cons.inj heq).1 (other _ (by decide))
  · rename_i heq
    exact absurd (List.cons.inj heq).1 (other _ (by decide))
  · rename_i heq
    exact absurd (List.cons.inj heq).1 (other _ (by decide))
  · rename_i heq
    exact absurd (List.cons.inj heq).1 (other _ (by decide))
  · rename_i heq
    exact absurd (List.cons.inj heq).1 (other _ (by decide))
  · exact number

theorem readValue?_all (h : ReadsAll fuel) (hv : Value w v) (hfuel : 2 * w.length ≤ fuel + 1)
    (hrest : Stops rest) : readValue? (fuel + 1) (w ++ rest) = some (v, rest) := by
  have bracket : isSpace '[' = false ∧ isSpace ']' = false := by decide
  have brace : isSpace '\x7b' = false ∧ isSpace '\x7d' = false := by decide
  cases hv with
  | null => rfl
  | yes => rfl
  | no => rfl
  | number h => exact readValue?_number h hrest
  | text hq =>
    obtain ⟨body, rfl, hbody⟩ := readText?_append hq
    have quote : isSpace '"' = false := by decide
    rw [List.cons_append, readValue?, skipSpace_cons quote]
    simp only [hbody, Option.map_some]
  | @emptyArray a ha =>
    simp only [List.cons_append, List.append_assoc, List.nil_append]
    rw [readValue?, skipSpace_cons bracket.1]
    simp only [skipSpace_blank ha, skipSpace_cons bracket.2]
  | @array es vs hs =>
    simp only [List.length_append, List.length_cons, List.length_nil] at hfuel
    have items := h.items _ _ rest hs (by omega)
    have more := hs.skipSpace_ne (']' :: rest)
    obtain ⟨a, ha, hes⟩ := exists_blank (es ++ ']' :: rest)
    rw [hes, readItems?_blank ha] at items
    simp only [List.cons_append, List.append_assoc, List.nil_append]
    rw [readValue?, skipSpace_cons bracket.1]
    generalize hskip : skipSpace (es ++ ']' :: rest) = tail at items more
    simp only [hskip, items, Option.map_some]
  | @emptyObject a ha =>
    simp only [List.cons_append, List.append_assoc, List.nil_append]
    rw [readValue?, skipSpace_cons brace.1]
    simp only [skipSpace_blank ha, skipSpace_cons brace.2]
  | @object ms members hs =>
    simp only [List.length_append, List.length_cons, List.length_nil] at hfuel
    have items := h.members _ _ rest hs (by omega)
    have more := hs.skipSpace_ne ('\x7d' :: rest)
    obtain ⟨a, ha, hms⟩ := exists_blank (ms ++ '\x7d' :: rest)
    rw [hms, readMembers?_blank ha] at items
    simp only [List.cons_append, List.append_assoc, List.nil_append]
    rw [readValue?, skipSpace_cons brace.1]
    generalize hskip : skipSpace (ms ++ '\x7d' :: rest) = tail at items more
    simp only [hskip, items, Option.map_some]

theorem readsAll (fuel : Nat) : ReadsAll fuel := by
  induction fuel with
  | zero =>
    refine ⟨fun w v rest h hfuel => ?_, fun _ _ _ _ hfuel => ?_, fun _ _ _ _ hfuel => ?_⟩
    · obtain ⟨c, cs, rfl, -⟩ := h.exists_cons
      rw [List.length_cons] at hfuel
      omega
    · omega
    · omega
  | succ fuel ih =>
    exact ⟨fun _ _ _ h hfuel hrest => readValue?_all ih h hfuel hrest,
      fun _ _ _ h hfuel => readItems?_all ih h hfuel,
      fun _ _ _ h hfuel => readMembers?_all ih h hfuel⟩

/-! ## A whole text -/

theorem read?_eq_some_iff {text : String} : read? text = some v ↔ Spells text v := by
  unfold read? Spells
  constructor
  · intro h
    split at h
    · rename_i value rest hread
      split at h
      · rename_i hrest
        cases h
        obtain ⟨a, w, htext, ha, hw⟩ := (readsOnly _).value _ _ _ hread
        obtain ⟨b, hb, hsplit⟩ := exists_blank rest
        rw [List.isEmpty_iff.mp hrest, List.append_nil] at hsplit
        rw [htext, hsplit]
        exact .padded ha hw hb
      · cases h
    · cases h
  · intro h
    have stops : Stops [] := fun c hc => nomatch hc
    generalize htext : text.toList = cs at h
    have hlength : text.length = cs.length := by rw [← htext, String.length_toList]
    cases h with
    | @padded a w b v ha hw hb =>
      have hfuel : 2 * w.length ≤ 2 * text.length + 2 := by
        rw [hlength, List.length_append, List.length_append]
        omega
      have after : Stops b := by
        have := stops.blank_append hb
        rwa [List.append_nil] at this
      have rest : skipSpace b = [] := by
        have := skipSpace_blank hb []
        rwa [List.append_nil] at this
      rw [List.append_assoc, readValue?_blank ha, (readsAll _).value _ _ _ hw hfuel after]
      simp only [rest, List.isEmpty_nil, if_true]

/-- A text spells one value at most. -/
theorem Spells.unique {text : String} {v u : Json} (hv : Spells text v) (hu : Spells text u) :
    v = u :=
  Option.some.inj ((read?_eq_some_iff.mpr hv).symm.trans (read?_eq_some_iff.mpr hu))

theorem read?_eq_none_iff {text : String} : read? text = none ↔ ∀ v, ¬Spells text v := by
  rw [Option.eq_none_iff_forall_ne_some]
  exact forall_congr' fun v => not_congr read?_eq_some_iff

/-! ## Values that have a spelling -/

/-- Some text spells the value. -/
def Spellable (v : Json) : Prop := ∃ w, Value w v

theorem exists_units (cs : List Char) : ∃ body, Units body (cs.map Char.toNat) := by
  induction cs with
  | nil => exact ⟨[], .nil⟩
  | cons c cs ih =>
    obtain ⟨body, h⟩ := ih
    by_cases hq : c = '"'
    · subst hq
      exact ⟨'\\' :: '"' :: body, .escape rfl h⟩
    · by_cases hb : c = '\\'
      · subst hb
        exact ⟨'\\' :: '\\' :: body, .escape rfl h⟩
      · by_cases hvisible : 0x20 ≤ c.toNat
        · exact ⟨c :: body, .plain hvisible hq hb h⟩
        -- a control character is the number of its code point
        · have digit : ∀ k < 16, Text.hexValue? (Nat.digitChar k) = some k := by decide
          have unit : ((0 * 16 + 0) * 16 + c.toNat / 16) * 16 + c.toNat % 16 = c.toNat := by omega
          have units := Units.hex (digit 0 (by decide)) (digit 0 (by decide))
            (digit (c.toNat / 16) (by omega)) (digit (c.toNat % 16) (by omega)) h
          rw [unit] at units
          exact ⟨_, units⟩

theorem joins_map_toNat (cs : List Char) : Joins (cs.map Char.toNat) cs := by
  induction cs with
  | nil => exact .nil
  | cons c cs ih => exact .char c ih

theorem exists_quoted (s : String) : ∃ w, Quoted w (some s) := by
  obtain ⟨body, units⟩ := exists_units s.toList
  refine ⟨_, body, _, rfl, units, (text_eq_iff units _).mp ?_⟩
  rw [charsOfUnits?_of_joins (joins_map_toNat _), Option.map_some, String.ofList_toList]

theorem Value.element (h : Value w v) : Element w v := by
  have padded := Element.padded blank_nil h blank_nil
  rwa [List.nil_append, List.append_nil] at padded

namespace Spellable

theorem natural (n : Nat) : Spellable (.natural n) := ⟨_, .number (.unsigned (.natural n))⟩

theorem str (s : String) : Spellable (.str s) := by
  obtain ⟨w, h⟩ := exists_quoted s
  exact ⟨w, .text h⟩

theorem array (h : ∀ v ∈ vs, Spellable v) : Spellable (.array vs) := by
  have items : vs ≠ [] → ∃ es, Items es vs := by
    induction vs with
    | nil => exact fun hnil => absurd rfl hnil
    | cons v vs ih =>
      obtain ⟨⟨w, value⟩, others⟩ := List.forall_mem_cons.mp h
      cases vs with
      | nil => exact fun _ => ⟨w, .last value.element⟩
      | cons u vs =>
        obtain ⟨es, items⟩ := ih others (List.cons_ne_nil u vs)
        exact fun _ => ⟨_, .more value.element items⟩
  by_cases hnil : vs = []
  · rw [hnil]
    exact ⟨_, .emptyArray blank_nil⟩
  · obtain ⟨es, items⟩ := items hnil
    exact ⟨_, .array items⟩

theorem object {members : List (String × Json)} (h : ∀ m ∈ members, Spellable m.2) :
    Spellable (.ofMembers members) := by
  have spelled : members ≠ [] → ∃ ms, Members ms (members.map fun m => (some m.1, m.2)) := by
    induction members with
    | nil => exact fun hnil => absurd rfl hnil
    | cons m members ih =>
      obtain ⟨⟨w, value⟩, others⟩ := List.forall_mem_cons.mp h
      obtain ⟨k, quoted⟩ := exists_quoted m.1
      cases members with
      | nil => exact fun _ => ⟨_, .last blank_nil quoted blank_nil value.element⟩
      | cons n members =>
        obtain ⟨ms, rest⟩ := ih others (List.cons_ne_nil n members)
        exact fun _ => ⟨_, .more blank_nil quoted blank_nil value.element rest⟩
  by_cases hnil : members = []
  · rw [hnil]
    exact ⟨_, .emptyObject blank_nil⟩
  · obtain ⟨ms, spelled⟩ := spelled hnil
    exact ⟨_, .object spelled⟩

theorem exists_text (h : Spellable v) : ∃ text, Spells text v := by
  obtain ⟨w, value⟩ := h
  refine ⟨String.ofList w, ?_⟩
  rw [Spells, String.toList_ofList]
  exact value.element

end Spellable

end RootComplex.Json

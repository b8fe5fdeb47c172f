import Mathlib.Data.List.Induction
import RootComplex.Proofs.PropertyValue

/-! # Property codec

What is read from a property is what was last written to it. Cells come back as they were. Strings
come back as the stretches between their NULs: a NUL inside a string splits it, and what is empty
is gone. Of bytes that were not written in this way, cells are read exactly from whole ones, and
strings exactly from UTF-8: the stretches of a text are texts, and texts between NULs are one. -/

namespace RootComplex

/-! ## Stretches -/

/-- `runs` are the longest stretches of a list that are free of `sep`, in order. -/
inductive Stretches {α : Type} (sep : α) : List α → List (List α) → Prop where
  | gap (n : Nat) : Stretches sep (List.replicate n sep) []
  | run (n : Nat) {r rest : List α} {runs : List (List α)} (nonempty : r ≠ [])
      (free : sep ∉ r) (ends : rest = [] ∨ ∃ more, rest = sep :: more)
      (others : Stretches sep rest runs) :
      Stretches sep (List.replicate n sep ++ r ++ rest) (r :: runs)

/-- The pieces between separators, without the empty ones. -/
def piecesBetween {α : Type} [BEq α] (sep : α) (l : List α) : List (List α) :=
  (l.splitOn sep).filter (!·.isEmpty)

section Stretches

variable {α : Type} [BEq α] [LawfulBEq α] {sep : α}

theorem piecesBetween_append_cons (l more : List α) :
    piecesBetween sep (l ++ sep :: more) = piecesBetween sep l ++ piecesBetween sep more := by
  rw [piecesBetween, List.splitOn_append_cons_self, List.filter_append]
  rfl

theorem piecesBetween_of_free {run : List α} (nonempty : run ≠ []) (free : sep ∉ run) :
    piecesBetween sep run = [run] := by
  rw [piecesBetween, List.splitOn_eq_singleton free]
  simp [nonempty]

theorem piecesBetween_gap (n : Nat) (l : List α) :
    piecesBetween sep (List.replicate n sep ++ l) = piecesBetween sep l := by
  induction n with
  | zero => rfl
  | succ n ih =>
    rw [List.replicate_succ, List.cons_append]
    exact (piecesBetween_append_cons [] _).trans ih

namespace Stretches

omit [BEq α] [LawfulBEq α] in
theorem sep_cons {l : List α} {runs : List (List α)} (h : Stretches sep l runs) :
    Stretches sep (sep :: l) runs := by
  cases h with
  | gap n => exact .gap (n + 1)
  | run n nonempty free ends others => exact .run (n + 1) nonempty free ends others

omit [BEq α] [LawfulBEq α] in
/-- An element that is no separator joins a stretch that the list begins with, or begins one. -/
theorem cons {a : α} {l : List α} {runs : List (List α)} (ha : a ≠ sep)
    (h : Stretches sep l runs) : ∃ runs, Stretches sep (a :: l) runs := by
  have alone : sep ∉ [a] := fun h => ha (List.mem_singleton.mp h).symm
  cases h with
  | gap n =>
    refine ⟨_, .run 0 (r := [a]) (List.cons_ne_nil a []) alone ?_ (.gap n)⟩
    cases n with
    | zero => exact .inl rfl
    | succ n => exact .inr ⟨_, rfl⟩
  | @run n run rest runs nonempty free ends others =>
    cases n with
    | zero =>
      refine ⟨_, .run 0 (r := a :: run) (List.cons_ne_nil a run) ?_ ends others⟩
      exact List.not_mem_cons_of_ne_of_not_mem ha.symm free
    | succ n =>
      exact ⟨_, .run 0 (r := [a]) (List.cons_ne_nil a []) alone (.inr ⟨_, rfl⟩)
        (.run (n + 1) nonempty free ends others)⟩

theorem eq_piecesBetween {l : List α} {runs : List (List α)} (h : Stretches sep l runs) :
    runs = piecesBetween sep l := by
  induction h with
  | gap n =>
    have gap : piecesBetween sep (List.replicate n sep ++ []) = piecesBetween sep [] :=
      piecesBetween_gap n []
    rw [List.append_nil] at gap
    exact gap.symm
  | @run n run rest runs nonempty free ends others ih =>
    rw [List.append_assoc, piecesBetween_gap, ih]
    have head := piecesBetween_of_free nonempty free
    rcases ends with rfl | ⟨more, rfl⟩
    · rw [List.append_nil, head]
      rfl
    · rw [piecesBetween_append_cons, head]
      exact congrArg (run :: ·) (piecesBetween_append_cons [] more)

omit [BEq α] [LawfulBEq α] in
theorem free_of_mem {l run : List α} {runs : List (List α)} (h : Stretches sep l runs)
    (hr : run ∈ runs) : run ≠ [] ∧ sep ∉ run := by
  induction h with
  | gap n => cases hr
  | run n nonempty free ends others ih =>
    rcases List.mem_cons.mp hr with rfl | hr
    · exact ⟨nonempty, free⟩
    · exact ih hr

/-- A list has its stretches, and no others. -/
theorem iff_eq_piecesBetween {l : List α} {runs : List (List α)} :
    Stretches sep l runs ↔ runs = piecesBetween sep l := by
  have exist : ∃ runs, Stretches sep l runs := by
    induction l with
    | nil => exact ⟨[], .gap 0⟩
    | cons a l ih =>
      obtain ⟨runs, h⟩ := ih
      by_cases ha : a = sep
      · exact ⟨runs, ha ▸ h.sep_cons⟩
      · exact h.cons ha
  constructor
  · exact eq_piecesBetween
  · rintro rfl
    obtain ⟨runs, h⟩ := exist
    exact h.eq_piecesBetween ▸ h

end Stretches

end Stretches

/-! ## Text and its bytes -/

namespace Property

theorem textBytes_eq (s : String) : textBytes s = s.toList.flatMap String.utf8EncodeChar := by
  have hs : s.toUTF8 = s.toList.utf8Encode := by
    rw [← String.toByteArray_ofList, String.ofList_toList]
    rfl
  rw [textBytes, hs, List.utf8Encode, List.toList_data_toByteArray]

theorem textBytes_injective : Function.Injective textBytes := fun _ _ h =>
  Option.some.inj ((readText?_eq_some_iff.mpr rfl).symm.trans (readText?_eq_some_iff.mpr h.symm))

/-- A character other than NUL has no zero byte. -/
theorem zero_mem_utf8EncodeChar {c : Char} : 0 ∈ String.utf8EncodeChar c ↔ c = '\x00' := by
  have byte (n : Nat) : 0 = UInt8.ofNat n ↔ n % 256 = 0 := by
    rw [← UInt8.toNat_inj, UInt8.toNat_ofNat', eq_comm]
    rfl
  constructor
  · intro h
    apply Char.toNat_inj.mp
    show c.val.toNat = 0
    unfold String.utf8EncodeChar at h
    dsimp only at h
    split at h
    · simp only [List.mem_singleton, byte] at h
      omega
    -- all other bytes are marked in their highest bit
    · exfalso
      split at h
      · simp only [List.mem_cons, List.not_mem_nil, or_false, byte] at h
        omega
      · split at h <;> simp only [List.mem_cons, List.not_mem_nil, or_false, byte] at h <;> omega
  · rintro rfl
    exact List.mem_singleton_self _

theorem utf8EncodeChar_ne_nil (c : Char) : String.utf8EncodeChar c ≠ [] := by
  intro h
  have hlength := String.length_utf8EncodeChar c
  rw [h] at hlength
  exact absurd hlength.symm (Nat.ne_of_gt c.utf8Size_pos)

theorem zero_mem_utf8 {cs : List Char} : 0 ∈ cs.flatMap String.utf8EncodeChar ↔ '\x00' ∈ cs := by
  rw [List.mem_flatMap]
  constructor
  · rintro ⟨c, hc, h⟩
    exact zero_mem_utf8EncodeChar.mp h ▸ hc
  · intro h
    exact ⟨_, h, zero_mem_utf8EncodeChar.mpr rfl⟩

theorem utf8_replicate (n : Nat) :
    (List.replicate n '\x00').flatMap String.utf8EncodeChar = List.replicate n 0 := by
  induction n with
  | zero => rfl
  | succ n ih =>
    rw [List.replicate_succ, List.flatMap_cons, ih]
    rfl

/-- Splitting text at its NULs and its bytes at the zeros is the same. -/
theorem stretches_utf8 {cs : List Char} {runs : List (List Char)} (h : Stretches '\x00' cs runs) :
    Stretches 0 (cs.flatMap String.utf8EncodeChar)
      (runs.map (·.flatMap String.utf8EncodeChar)) := by
  induction h with
  | gap n =>
    rw [utf8_replicate]
    exact .gap n
  | @run n run rest runs nonempty free ends others ih =>
    rw [List.flatMap_append, List.flatMap_append, utf8_replicate]
    refine .run n ?_ (mt zero_mem_utf8.mp free) ?_ ih
    · obtain ⟨c, more, rfl⟩ := List.exists_cons_of_ne_nil nonempty
      exact fun hnil => utf8EncodeChar_ne_nil c (List.append_eq_nil_iff.mp hnil).1
    · rcases ends with rfl | ⟨more, rfl⟩
      · exact .inl rfl
      · exact .inr ⟨_, rfl⟩

/-- Texts between zeros are one text with NULs in it. -/
theorem exists_text_of_stretches {bytes : Bytes} {runs : List Bytes}
    (h : Stretches 0 bytes runs) {texts : List (List Char)}
    (ht : texts.map (·.flatMap String.utf8EncodeChar) = runs) :
    ∃ cs : List Char, cs.flatMap String.utf8EncodeChar = bytes := by
  induction h generalizing texts with
  | gap n => exact ⟨List.replicate n '\x00', utf8_replicate n⟩
  | run n nonempty free ends others ih =>
    obtain ⟨text, texts, rfl, rfl, hothers⟩ := List.map_eq_cons_iff.mp ht
    obtain ⟨cs, rfl⟩ := ih hothers
    exact ⟨List.replicate n '\x00' ++ text ++ cs, by simp only [List.flatMap_append, utf8_replicate]⟩

/-- The stretches of a text. -/
def textPieces (s : String) : List String := (piecesBetween '\x00' s.toList).map String.ofList

theorem stretches_textPieces {s : String} {list : List String} :
    Stretches '\x00' s.toList (list.map String.toList) ↔ list = textPieces s := by
  rw [Stretches.iff_eq_piecesBetween, textPieces]
  constructor
  · intro h
    simp [← h]
  · rintro rfl
    simp

theorem pieces_textBytes (s : String) : pieces (textBytes s) = (textPieces s).map textBytes := by
  have bytes := stretches_utf8 (stretches_textPieces.mpr (rfl : textPieces s = textPieces s))
  rw [← textBytes_eq, List.map_map] at bytes
  have texts : (·.flatMap String.utf8EncodeChar) ∘ String.toList = textBytes :=
    funext fun s => (textBytes_eq s).symm
  rw [texts] at bytes
  exact bytes.eq_piecesBetween.symm

theorem exists_text_iff {bytes : Bytes} :
    (∃ s, textBytes s = bytes) ↔ (ByteArray.mk bytes.toArray).IsValidUTF8 := by
  constructor
  · rintro ⟨s, rfl⟩
    exact s.isValidUTF8
  · intro h
    refine ⟨String.fromUTF8 _ h, readText?_eq_some_iff.mp ?_⟩
    rw [readText?, String.fromUTF8?, dif_pos h]

/-- Bytes are read as strings exactly if they are the bytes of a text, and then as its stretches. -/
theorem strings_eq_ok_iff_text {bytes : Bytes} {list : List String} :
    strings bytes = .ok list ↔ ∃ s, textBytes s = bytes ∧ list = textPieces s := by
  rw [strings_eq_ok_iff]
  constructor
  · intro h
    have runs : Stretches 0 bytes (pieces bytes) := Stretches.iff_eq_piecesBetween.mpr rfl
    have texts : (list.map String.toList).map (·.flatMap String.utf8EncodeChar) = pieces bytes := by
      rw [← h, List.map_map]
      exact List.map_congr_left fun s _ => (textBytes_eq s).symm
    obtain ⟨cs, rfl⟩ := exists_text_of_stretches runs texts
    have hs : textBytes (String.ofList cs) = cs.flatMap String.utf8EncodeChar := by
      rw [textBytes_eq, String.toList_ofList]
    refine ⟨String.ofList cs, hs, ?_⟩
    rw [← hs, pieces_textBytes] at h
    exact List.map_injective_iff.mpr textBytes_injective h
  · rintro ⟨s, rfl, rfl⟩
    exact (pieces_textBytes s).symm

/-- The NUL behind each string keeps the stretches of the others apart from its own. -/
theorem strings_ofStrings (list : List String) :
    strings (ofStrings list) = .ok (list.flatMap textPieces) := by
  rw [strings_eq_ok_iff]
  induction list with
  | nil => rfl
  | cons s rest ih =>
    have encoded : ofStrings (s :: rest) = textBytes s ++ 0 :: ofStrings rest := by
      rw [ofStrings, List.flatMap_cons, List.append_assoc]
      rfl
    have split : pieces (textBytes s ++ 0 :: ofStrings rest) =
        pieces (textBytes s) ++ pieces (ofStrings rest) := piecesBetween_append_cons _ _
    rw [encoded, split, pieces_textBytes, ← ih, List.flatMap_cons, List.map_append]

/-- Nothing splits the string, and something is in it. -/
def Whole (s : String) : Prop := s ≠ "" ∧ '\x00' ∉ s.toList

instance (s : String) : Decidable (Whole s) := inferInstanceAs (Decidable (_ ∧ _))

theorem whole_of_mem_textPieces {s t : String} (h : t ∈ textPieces s) : Whole t := by
  have runs := stretches_textPieces.mpr (rfl : textPieces s = textPieces s)
  obtain ⟨nonempty, free⟩ := runs.free_of_mem (List.mem_map_of_mem h)
  exact ⟨fun ht => nonempty (ht ▸ rfl), free⟩

theorem textPieces_of_whole {s : String} (h : Whole s) : textPieces s = [s] := by
  have nonempty : s.toList ≠ [] := fun hnil => h.1 (String.toList_eq_nil_iff.mp hnil)
  rw [textPieces, piecesBetween_of_free nonempty h.2, List.map_singleton, String.ofList_toList]

/-- Strings come back as they were exactly if every one of them is whole. -/
theorem flatMap_textPieces_eq_iff {list : List String} :
    list.flatMap textPieces = list ↔ ∀ s ∈ list, Whole s := by
  constructor
  · intro h s hs
    rw [← h] at hs
    obtain ⟨t, -, ht⟩ := List.mem_flatMap.mp hs
    exact whole_of_mem_textPieces ht
  · intro h
    induction list with
    | nil => rfl
    | cons s rest ih =>
      rw [List.flatMap_cons, textPieces_of_whole (h s List.mem_cons_self),
        ih fun t ht => h t (List.mem_cons_of_mem _ ht)]
      rfl

/-! ## Cells and their bytes -/

theorem cellOfBytes_cellBytes (c : Word) :
    ∃ b₀ b₁ b₂ b₃, cellBytes c = [b₀, b₁, b₂, b₃] ∧ cellOfBytes b₀ b₁ b₂ b₃ = c := by
  refine ⟨_, _, _, _, rfl, ?_⟩
  apply BitVec.eq_of_toNat_eq
  have hc := c.isLt
  rw [toNat_cellOfBytes]
  simp only [UInt8.toNat_ofNat', BitVec.toNat_ushiftRight, Nat.shiftRight_eq_div_pow]
  omega

theorem cellBytes_cellOfBytes (b₀ b₁ b₂ b₃ : UInt8) :
    cellBytes (cellOfBytes b₀ b₁ b₂ b₃) = [b₀, b₁, b₂, b₃] := by
  have h₀ := b₀.toNat_lt
  have h₁ := b₁.toNat_lt
  have h₂ := b₂.toNat_lt
  have h₃ := b₃.toNat_lt
  simp only [cellBytes, List.map_cons, List.map_nil, List.cons.injEq, and_true,
    ← UInt8.toNat_inj, UInt8.toNat_ofNat', BitVec.toNat_ushiftRight, Nat.shiftRight_eq_div_pow,
    toNat_cellOfBytes]
  omega

theorem readCells?_ofCells (list : List Word) : readCells? (ofCells list) = some list := by
  induction list with
  | nil => rfl
  | cons c rest ih =>
    obtain ⟨b₀, b₁, b₂, b₃, hbytes, hcell⟩ := cellOfBytes_cellBytes c
    rw [ofCells, List.flatMap_cons, hbytes]
    show (readCells? (ofCells rest)).map (cellOfBytes b₀ b₁ b₂ b₃ :: ·) = _
    rw [ih, hcell]
    rfl

/-- Cells are read from their own bytes and from no others. -/
theorem cells_eq_ok_iff {bytes : Bytes} {list : List Word} :
    cells bytes = .ok list ↔ ofCells list = bytes := by
  unfold cells
  constructor
  · intro h
    split at h
    · rename_i found hfound
      cases h
      fun_induction readCells? bytes generalizing list with
      | case1 =>
        cases hfound
        rfl
      | case2 a b c d rest ih =>
        obtain ⟨others, ho, rfl⟩ := Option.map_eq_some_iff.mp hfound
        rw [ofCells, List.flatMap_cons, cellBytes_cellOfBytes, ← ih ho]
        rfl
      | case3 => cases hfound
    · cases h
  · rintro rfl
    rw [readCells?_ofCells]

theorem cells_eq_error {bytes : Bytes} (h : ¬4 ∣ bytes.length) :
    cells bytes = .error (.cellLength bytes.length) := by
  unfold cells
  split
  · rename_i list hlist
    exact absurd (exists_readCells?_iff.mp ⟨list, hlist⟩) h
  · rfl

theorem exists_cells_iff {bytes : Bytes} : (∃ list, cells bytes = .ok list) ↔ 4 ∣ bytes.length := by
  rw [← exists_readCells?_iff]
  refine exists_congr fun list => ?_
  unfold cells
  split
  · rename_i found hfound
    rw [hfound]
    simp
  · rename_i hnone
    rw [hnone]
    simp

end Property

namespace Node

/-! ## Steps -/

/-- The property that a step sets or removes. -/
def Edit.target : Edit → String
  | .cells name _ => name
  | .string name _ => name
  | .strings name _ => name
  | .without name => name

/-- What a step leaves of its property. -/
def Edit.value? : Edit → Option Bytes
  | .cells _ list => some (Property.ofCells list)
  | .string _ s => some (Property.ofStrings [s])
  | .strings _ list => some (Property.ofStrings list)
  | .without _ => none

theorem property?_edit (n : Node) (e : Edit) (p : String) :
    (n.edit e).property? p = if e.target = p then e.value? else n.property? p := by
  cases e with
  | without name => exact property?_erase n name p
  | _ => exact property?_insert n _ p _

/-- The last step that names a property. -/
def lastEdit? (edits : List Edit) (p : String) : Option Edit :=
  edits.reverse.find? (·.target = p)

theorem property?_build (name : String) (edits : List Edit) (p : String) :
    (build name edits).property? p = (lastEdit? edits p).bind Edit.value? := by
  induction edits using List.reverseRecOn with
  | nil => rfl
  | append_singleton edits e ih =>
    have last : build name (edits ++ [e]) = (build name edits).edit e := by
      rw [build, List.foldl_append]
      rfl
    rw [last, property?_edit, ih, lastEdit?, lastEdit?, List.reverse_append, List.reverse_singleton,
      List.singleton_append, List.find?_cons]
    by_cases h : e.target = p <;> simp [h]

/-! ## Reading them back -/

variable {n : Node} {p : String} {bytes : Bytes}

theorem cells?_of_property (h : n.property? p = some bytes) :
    n.cells? p = (Property.cells bytes).map some := by
  rw [cells?, h]

theorem strings?_of_property (h : n.property? p = some bytes) :
    n.strings? p = (Property.strings bytes).map some := by
  rw [strings?, h]

theorem map_some_eq_ok {ε α : Type} {x : Except ε α} {a : α} :
    x.map some = .ok (some a) ↔ x = .ok a := by
  cases x <;> simp [Except.map]

/-- What a node says of a property after the last step that names it. -/
def Recalls (n : Node) (p : String) : Option Edit → Prop
  | none => n.cells? p = .ok none ∧ n.strings? p = .ok none
  | some (.without _) => n.cells? p = .ok none ∧ n.strings? p = .ok none
  | some (.cells _ list) => n.cells? p = .ok (some list)
  | some (.string _ s) => n.strings? p = .ok (some (Property.textPieces s))
  | some (.strings _ list) =>
    n.strings? p = .ok (some (list.flatMap Property.textPieces)) ∧
      (n.strings? p = .ok (some list) ↔ ∀ s ∈ list, Property.Whole s)

theorem recalls_of_property {e : Option Edit} (h : n.property? p = e.bind Edit.value?) :
    n.Recalls p e := by
  have absent (hnone : n.property? p = none) : n.cells? p = .ok none ∧ n.strings? p = .ok none := by
    rw [cells?, strings?, hnone]
    exact ⟨rfl, rfl⟩
  rcases e with _ | e
  · exact absent h
  · cases e with
    | without name => exact absent h
    | cells name list =>
      exact (cells?_of_property h).trans
        (map_some_eq_ok.mpr (Property.cells_eq_ok_iff.mpr rfl))
    | string name s =>
      refine (strings?_of_property h).trans (map_some_eq_ok.mpr ?_)
      rw [Property.strings_ofStrings, List.flatMap_singleton]
    | strings name list =>
      have read := strings?_of_property h
      rw [Property.strings_ofStrings] at read
      refine ⟨read, ?_⟩
      rw [read, map_some_eq_ok, Except.ok.injEq, Property.flatMap_textPieces_eq_iff]

/-- What a node says of a property with these bytes: whole cells if they are whole, and their
stretches if they are UTF-8. -/
structure Renders (n : Node) (p : String) (bytes : Bytes) : Prop where
  cells : (∃ list, n.cells? p = .ok (some list)) ↔ 4 ∣ bytes.length
  sameCells : ∀ list, n.cells? p = .ok (some list) → Property.ofCells list = bytes
  ragged : ¬4 ∣ bytes.length → n.cells? p = .error (.cellLength bytes.length)
  strings : (∃ list, n.strings? p = .ok (some list)) ↔ (ByteArray.mk bytes.toArray).IsValidUTF8
  stretches : ∀ list, n.strings? p = .ok (some list) →
    Stretches 0 bytes (list.map Property.textBytes)
  noText : ¬(ByteArray.mk bytes.toArray).IsValidUTF8 → n.strings? p = .error .invalidString

theorem renders_of_property (h : n.property? p = some bytes) : n.Renders p bytes := by
  have text : (∃ list, Property.strings bytes = .ok list) ↔
      (ByteArray.mk bytes.toArray).IsValidUTF8 := by
    rw [← Property.exists_text_iff]
    constructor
    · rintro ⟨list, hl⟩
      obtain ⟨s, hs, -⟩ := Property.strings_eq_ok_iff_text.mp hl
      exact ⟨s, hs⟩
    · rintro ⟨s, hs⟩
      exact ⟨_, Property.strings_eq_ok_iff_text.mpr ⟨s, hs, rfl⟩⟩
  constructor
  case cells =>
    rw [cells?_of_property h, ← Property.exists_cells_iff]
    exact exists_congr fun list => map_some_eq_ok
  case sameCells =>
    intro list hl
    rw [cells?_of_property h] at hl
    exact Property.cells_eq_ok_iff.mp (map_some_eq_ok.mp hl)
  case ragged =>
    intro hn
    rw [cells?_of_property h, Property.cells_eq_error hn]
    rfl
  case strings =>
    rw [strings?_of_property h, ← text]
    exact exists_congr fun list => map_some_eq_ok
  case stretches =>
    intro list hl
    rw [strings?_of_property h] at hl
    exact Stretches.iff_eq_piecesBetween.mpr
      (Property.strings_eq_ok_iff.mp (map_some_eq_ok.mp hl))
  case noText =>
    intro hn
    rw [strings?_of_property h]
    cases hs : Property.strings bytes with
    | ok list => exact absurd (text.mp ⟨list, hs⟩) hn
    | error e =>
      cases e with
      | cellLength length =>
        unfold Property.strings at hs
        split at hs <;> cases hs
      | invalidString => rfl

end Node

/-- A property is what the last step that names it makes of it, and is read back as that step gave
it. Whatever bytes a property has, they are read as far as they are cells or text, and cells are
written as the same bytes again. -/
theorem property_codec_exact (name p : String) (edits : List Node.Edit) :
    (Node.build name edits).property? p = (Node.lastEdit? edits p).bind Node.Edit.value? ∧
    (Node.build name edits).Recalls p (Node.lastEdit? edits p) ∧
    ∀ (n : Node) (bytes : Bytes), n.property? p = some bytes → n.Renders p bytes :=
  ⟨Node.property?_build name edits p,
    Node.recalls_of_property (Node.property?_build name edits p),
    fun _ _ h => Node.renders_of_property h⟩

/-- Strings written over cells come back without what a NUL of their own cut off, and six raw bytes
are no cells but two strings. -/
theorem property_codec_exact_example :
    (Node.build "n" [.cells "p" [1], .strings "p" ["a\x00b", ""], .cells "q" [2]]).strings? "p" =
      .ok (some ["a", "b"]) ∧
    ∃ n : Node, n.property? "p" = some [0x61, 0xC3, 0xA9, 0, 0, 0x62] ∧
      n.cells? "p" = .error (.cellLength 6) ∧
      ∃ list, n.strings? "p" = .ok (some list) ∧
        Stretches 0 [0x61, 0xC3, 0xA9, 0, 0, 0x62] (list.map Property.textBytes) := by
  let edits : List Node.Edit := [.cells "p" [1], .strings "p" ["a\x00b", ""], .cells "q" [2]]
  let n : Node := ⟨"n", [("p", [0x61, 0xC3, 0xA9, 0, 0, 0x62])]⟩
  obtain ⟨-, recalls, renders⟩ := property_codec_exact "n" "p" edits
  have hn : n.property? "p" = some [0x61, 0xC3, 0xA9, 0, 0, 0x62] := by decide
  obtain ⟨-, -, ragged, strings, stretches, -⟩ := renders n _ hn
  obtain ⟨list, hlist⟩ := strings.mpr (by decide)
  refine ⟨?_, n, hn, ragged (by decide), list, hlist, stretches list hlist⟩
  have last : Node.lastEdit? edits "p" = some (.strings "p" ["a\x00b", ""]) := by decide
  rw [last] at recalls
  exact recalls.1.trans (by decide)

end RootComplex

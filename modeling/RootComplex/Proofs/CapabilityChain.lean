import Mathlib.Data.Finset.Card
import RootComplex.Proofs.Footprint
import RootComplex.Proofs.Training

/-! # The chain of capabilities

The headers of a function form a chain, which may turn back on itself. It has no more places
for a header than a walk looks at, and once it comes to a place again it only repeats itself.
So a walk of that many steps misses no capability that the chain leads to. -/

namespace RootComplex

open Program

namespace Capability

/-- The offset that a header leads to: its bits 15 to 8, rounded down to whole words. -/
def pointer (header : Word) : Nat := (header.extractLsb' 8 8 &&& 0xFC).toNat

/-- The place at `offset` belongs to the chain. The standard header ends the chain, and so does
a place that no function answers for. -/
def place? (header : Nat → Word) (offset : Nat) : Option Nat :=
  if offset < 0x40 ∨ header offset = BitVec.allOnes 32 then none else some offset

/-- The offset of header number `k` of the chain, which is `none` from the cut on. -/
def chain (header : Nat → Word) : Nat → Option Nat
  | 0 => place? header 0x40
  | k + 1 => (chain header k).bind fun offset => place? header (pointer (header offset))

/-- Header number `k` of the chain is there and has the wanted ID in its low byte. -/
def Holds (header : Nat → Word) (wanted k : Nat) : Prop :=
  ∃ offset, chain header k = some offset ∧ (header offset).toNat % 0x100 = wanted

variable {header : Nat → Word} {wanted k : Nat} {offset found : Nat}

/-! ## Places -/

theorem next_eq_pointer (header : Word) : next header = pointer header := by
  have small : next header < 2 ^ 8 := Nat.lt_of_le_of_lt (next_le header) (by decide)
  rw [← Nat.mod_eq_of_lt small, next, Nat.and_mod_two_pow, pointer, BitVec.toNat_and,
    BitVec.extractLsb'_toNat, BitVec.toNat_ushiftRight]
  rfl

theorem place?_eq_some :
    place? header offset = some found ↔
      found = offset ∧ 0x40 ≤ offset ∧ header offset ≠ BitVec.allOnes 32 := by
  unfold place?
  split
  · rename_i cut
    constructor
    · intro h
      cases h
    · intro h
      exact absurd cut (not_or.mpr ⟨Nat.not_lt.mpr h.2.1, h.2.2⟩)
  · rename_i kept
    obtain ⟨inside, claimed⟩ := not_or.mp kept
    constructor
    · intro h
      exact ⟨(Option.some.inj h).symm, Nat.le_of_not_lt inside, claimed⟩
    · intro h
      rw [h.1]

/-- Every place of the chain can hold a header. -/
theorem isHeader_of_chain (h : chain header k = some offset) : IsHeader offset := by
  cases k with
  | zero =>
    obtain ⟨rfl, -, -⟩ := place?_eq_some.mp h
    exact ⟨Nat.le_refl _, by decide, by decide⟩
  | succ k =>
    obtain ⟨before, -, hplace⟩ := Option.bind_eq_some_iff.mp h
    obtain ⟨rfl, first, -⟩ := place?_eq_some.mp hplace
    rw [← next_eq_pointer] at first ⊢
    exact ⟨first, next_le _, next_mod _⟩

/-! ## Repetition -/

/-- What the chain does from a place on depends on the place only. -/
theorem chain_add_eq {i j : Nat} (h : chain header i = chain header j) (m : Nat) :
    chain header (i + m) = chain header (j + m) := by
  induction m with
  | zero => exact h
  | succ m ih => rw [← Nat.add_assoc, ← Nat.add_assoc, chain, chain, ih]

/-- There is nothing behind the cut. -/
theorem chain_eq_none {j : Nat} (h : chain header k = none) (hkj : k ≤ j) :
    chain header j = none := by
  induction hkj with
  | refl => exact h
  | step _ ih => rw [chain, ih, Option.bind_none]

/-- A chain of more than 48 headers comes to one of its places again. -/
theorem exists_repeat (h : chain header k = some offset) (long : 48 ≤ k) :
    ∃ i j, i < j ∧ j ≤ k ∧ chain header i = chain header j := by
  have reached : ∀ i ≤ k, ∃ o, chain header i = some o := by
    intro i hi
    cases hc : chain header i with
    | none => rw [chain_eq_none hc hi] at h; cases h
    | some o => exact ⟨o, rfl⟩
  -- the places are numbered from 0 to 47
  let number (i : Nat) : Nat := ((chain header i).getD 0 - 0x40) / 4
  have numbered : ∀ i ∈ Finset.range (k + 1), number i ∈ Finset.range 48 := by
    intro i hi
    obtain ⟨o, ho⟩ := reached i (Nat.le_of_lt_succ (Finset.mem_range.mp hi))
    obtain ⟨first, last, -⟩ := isHeader_of_chain ho
    simp only [number, ho, Option.getD_some, Finset.mem_range]
    omega
  obtain ⟨i, hi, j, hj, hne, hsame⟩ := Finset.exists_ne_map_eq_of_card_lt_of_maps_to
    (by simp only [Finset.card_range]; omega) numbered
  have again : chain header i = chain header j := by
    obtain ⟨o, ho⟩ := reached i (Nat.le_of_lt_succ (Finset.mem_range.mp hi))
    obtain ⟨o', ho'⟩ := reached j (Nat.le_of_lt_succ (Finset.mem_range.mp hj))
    obtain ⟨first, last, aligned⟩ := isHeader_of_chain ho
    obtain ⟨first', last', aligned'⟩ := isHeader_of_chain ho'
    simp only [number, ho, ho', Option.getD_some] at hsame
    rw [ho, ho', show o = o' by omega]
  rw [Finset.mem_range] at hi hj
  rcases Nat.lt_or_gt_of_ne hne with hij | hji
  · exact ⟨i, j, hij, Nat.le_of_lt_succ hj, again⟩
  · exact ⟨j, i, hji, Nat.le_of_lt_succ hi, again.symm⟩

/-- The first header with the wanted ID is one of the first 48. -/
theorem first_lt (first : FirstFrom (Holds header wanted) 0 k) : k < 48 := by
  by_contra long
  obtain ⟨offset, hoffset, hid⟩ := first.holds
  obtain ⟨i, j, hij, hjk, again⟩ := exists_repeat hoffset (Nat.le_of_not_lt long)
  -- without the round from `i` to `j` the chain comes to the same header earlier
  have earlier : chain header (i + (k - j)) = some offset := by
    rw [chain_add_eq again, Nat.add_sub_cancel' hjk, hoffset]
  exact first.before (i + (k - j)) (Nat.zero_le _) (by omega) ⟨offset, earlier, hid⟩

/-! ## The walk -/

variable {config : Address} {entries : Nat} {path : List Exchange} {result : Option Nat}

theorem findFrom_length (h : Runs (findFrom config wanted entries offset) path result) :
    path.length ≤ entries := by
  induction entries generalizing offset path with
  | zero =>
    obtain ⟨rfl, -⟩ := runs_done.mp h
    exact Nat.zero_le _
  | succ entries ih =>
    unfold findFrom at h
    split at h
    · obtain ⟨rfl, -⟩ := runs_done.mp h
      exact Nat.zero_le _
    · obtain ⟨v, rest, rfl, h₁⟩ := runs_read_bind.mp h
      rw [List.length_cons]
      apply Nat.succ_le_succ
      split at h₁
      · obtain ⟨rfl, -⟩ := runs_done.mp h₁
        exact Nat.zero_le _
      · split at h₁
        · obtain ⟨rfl, -⟩ := runs_done.mp h₁
          exact Nat.zero_le _
        · exact ih h₁

/-- The path shows these headers, wherever it reads one. -/
def Shows (config : Address) (header : Nat → Word) (path : List Exchange) : Prop :=
  ∀ offset ≤ 0xFC, ∀ v, ⟨.read (config.at offset), v⟩ ∈ path → v = header offset

/-- A walk that is at header number `k` finds the first header from there on that has the wanted
ID, unless it comes too late for the walk. -/
theorem findFrom_search (small : offset ≤ 0xFC) (at_k : chain header k = place? header offset)
    (h : Runs (findFrom config wanted entries offset) path result) (shows : Shows config header path) :
    (∃ j, FirstFrom (Holds header wanted) k j ∧ result = chain header j) ∨
      (result = none ∧ ∀ j, k ≤ j → j < k + entries → ¬Holds header wanted j) := by
  induction entries generalizing k offset path with
  | zero =>
    obtain ⟨-, hresult⟩ := runs_done.mp h
    exact .inr ⟨hresult, fun j _ _ => by omega⟩
  | succ entries ih =>
    have ended (cut : place? header offset = none) :
        ∀ j, k ≤ j → j < k + (entries + 1) → ¬Holds header wanted j := by
      intro j hkj _ holds
      obtain ⟨o, ho, -⟩ := holds
      rw [chain_eq_none (at_k.trans cut) hkj] at ho
      cases ho
    unfold findFrom at h
    split at h
    · rename_i low
      obtain ⟨-, hresult⟩ := runs_done.mp h
      exact .inr ⟨hresult, ended (if_pos (.inl low))⟩
    · rename_i inside
      obtain ⟨v, rest, rfl, h₁⟩ := runs_read_bind.mp h
      obtain rfl : v = header offset := shows offset small v List.mem_cons_self
      split at h₁
      · rename_i unclaimed
        obtain ⟨-, hresult⟩ := runs_done.mp h₁
        exact .inr ⟨hresult, ended (if_pos (.inr unclaimed))⟩
      · rename_i claimed
        have here : chain header k = some offset :=
          at_k.trans (place?_eq_some.mpr ⟨rfl, Nat.le_of_not_lt inside, claimed⟩)
        split at h₁
        · rename_i hid
          obtain ⟨-, hresult⟩ := runs_done.mp h₁
          exact .inl ⟨k, .here ⟨offset, here, hid⟩, hresult.trans here.symm⟩
        · rename_i hid
          have other : ¬Holds header wanted k := by
            intro holds
            obtain ⟨o, ho, hwanted⟩ := holds
            cases here.symm.trans ho
            exact hid hwanted
          have next_k : chain header (k + 1) = place? header (next (header offset)) := by
            rw [chain, here, Option.bind_some, next_eq_pointer]
          rcases ih (next_le _) next_k h₁ (fun o ho v hv => shows o ho v (List.mem_cons_of_mem _ hv))
            with ⟨j, first, hresult⟩ | ⟨hresult, none⟩
          · exact .inl ⟨j, first.of_succ other, hresult⟩
          · refine .inr ⟨hresult, fun j hj hlt => ?_⟩
            rcases Nat.eq_or_lt_of_le hj with rfl | later
            · exact other
            · exact none j later (by omega)

/-- A walk from the first place finds the first header that has the wanted ID, as no chain is too
long for it. -/
theorem find_search (h : Runs (find config wanted) path result) (shows : Shows config header path) :
    (∃ j, FirstFrom (Holds header wanted) 0 j ∧ result = chain header j) ∨
      (result = none ∧ ∀ k, ¬Holds header wanted k) := by
  rcases findFrom_search (k := 0) (by decide) rfl h shows with found | ⟨hnone, early⟩
  · exact .inl found
  · refine .inr ⟨hnone, fun k holds => ?_⟩
    obtain ⟨j, first⟩ := FirstFrom.exists_of_holds holds
    have bound : j < 0 + maxEntries := by
      rw [Nat.zero_add]
      exact first_lt first
    exact early j (Nat.zero_le j) bound first.holds

end Capability

/-- A walk of the list makes at most 48 reads. Over headers that read the same each time it finds
the first header of the chain that has the wanted ID, however long the chain is and wherever it
turns back, and nothing only if there is none. -/
theorem find_first_on_chain {config : Address} {wanted : Nat} {path : List Exchange}
    {result : Option Nat} (h : Runs (Capability.find config wanted) path result) :
    path.length ≤ 48 ∧ ∀ header, Capability.Shows config header path →
      (∀ offset, result = some offset ↔ ∃ k,
        FirstFrom (Capability.Holds header wanted) 0 k ∧ Capability.chain header k = some offset) ∧
      (result = none ↔ ∀ k, ¬Capability.Holds header wanted k) ∧
      ∀ offset, result = some offset → Capability.IsHeader offset := by
  refine ⟨Capability.findFrom_length h, fun header shows => ?_⟩
  have isHeader : ∀ offset, result = some offset → Capability.IsHeader offset := by
    intro offset hfound
    rw [hfound] at h
    exact Capability.isHeader_of_find h
  rcases Capability.find_search h shows with ⟨j, first, hj⟩ | ⟨hnone, absent⟩
  · refine ⟨fun offset => ⟨fun hfound => ?_, fun hfound => ?_⟩, ?_, isHeader⟩
    · exact ⟨j, first, hj.symm.trans hfound⟩
    · obtain ⟨k, hk, hoffset⟩ := hfound
      rw [hj, first.unique hk, hoffset]
    · obtain ⟨offset, hoffset, -⟩ := first.holds
      rw [hj, hoffset]
      constructor
      · intro hnone
        cases hnone
      · intro absent
        exact absurd first.holds (absent j)
  · refine ⟨fun offset => ⟨fun hfound => ?_, fun hfound => ?_⟩,
      ⟨fun _ => absent, fun _ => hnone⟩, isHeader⟩
    · rw [hnone] at hfound
      cases hfound
    · obtain ⟨k, hk, -⟩ := hfound
      exact absurd hk.holds (absent k)

/-- A platform whose registers keep what they hold. -/
def Platform.holding (contents : Address → Word) : Platform Unit where
  answer
    | .read a, _ => (contents a, ())
    | .write _ _, _ => ((), ())
    | .barrier, _ => ((), ())
    | .stall _, _ => ((), ())
    | .listens _, _ => (true, ())
    | .report _, _ => ((), ())

theorem Platform.read_holding {α : Type} {contents : Address → Word} {p : Program α} {a : Address}
    {v : Word} (h : ⟨.read a, v⟩ ∈ p.exchanges (.holding contents) ()) : v = contents a := by
  induction p with
  | done b => cases h
  | step c next ih =>
    rcases List.mem_cons.mp h with hc | h
    · cases hc
      rfl
    · exact ih _ h

/-- A chain through every place a header can have, up to the wanted one at the last place. -/
def longChain (a : Address) : Word := if a = 0xFC then 0x10 else (a.setWidth 32 + 4) <<< 8

/-- The walk gets to the last place. -/
theorem find_first_on_chain_example :
    (∃ k, FirstFrom (Capability.Holds (fun o => longChain (Address.at 0 o)) Capability.express) 0 k ∧
        Capability.chain (fun o => longChain (Address.at 0 o)) k = some 0xFC) ∧
      ((Capability.find 0 Capability.express).exchanges (.holding longChain) ()).length = 48 := by
  have h := runs_exchanges (.holding longChain) (Capability.find 0 Capability.express) ()
  have found : ((Capability.find 0 Capability.express).run (.holding longChain) ()).1 = some 0xFC := by
    decide +kernel
  rw [found] at h
  obtain ⟨-, search⟩ := find_first_on_chain h
  have shows : Capability.Shows 0 (fun o => longChain (Address.at 0 o))
      ((Capability.find 0 Capability.express).exchanges (.holding longChain) ()) :=
    fun offset _ v hv => Platform.read_holding hv
  exact ⟨((search _ shows).1 0xFC).mp rfl, by decide +kernel⟩

end RootComplex

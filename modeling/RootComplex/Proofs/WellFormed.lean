import RootComplex.Proofs.Admission
import RootComplex.Proofs.PropertyValue

/-! # Well-formed nodes

The loader returns the controller of a node exactly if the node is enabled and well-formed.
What that means is said here of the bytes of its properties, with numbers that do not wrap. -/

namespace RootComplex

open Property (cellAt wordAt)

/-! ## What a node has to say -/

/-- A run of addresses. It may go past the last one. -/
structure Extent where
  base : Nat
  size : Nat
  deriving DecidableEq, Repr

namespace Extent

/-- Base and size in the four cells from number `i` on. -/
def ofCells (cell : Nat → Nat) (i : Nat) : Extent where
  base := cell i * 0x100000000 + cell (i + 1)
  size := cell (i + 2) * 0x100000000 + cell (i + 3)

/-- It is not empty and does not go past the last address. -/
def Fits (e : Extent) : Prop := 0 < e.size ∧ e.base + e.size ≤ 0x10000000000000000

/-- It fits, and is not at zero. -/
def Usable (e : Extent) : Prop := e.base ≠ 0 ∧ e.Fits

/-- Two translation regions can map it as a config window: one the first bus and one the
others, of which there is at least one. -/
structure Configures (e : Extent) : Prop where
  usable : e.Usable
  baseAligned : 0x10000 ∣ e.base
  sizeAligned : 0x10000 ∣ e.size
  minSize : 0x200000 ≤ e.size
  maxSize : e.size - 0x100000 < 0x100000000

/-- One translation region can map the CPU addresses to the bus addresses, as many of them. -/
structure MapsTo (cpu pci : Extent) : Prop where
  minSize : 0x10000 ≤ cpu.size
  maxSize : cpu.size < 0x100000000
  cpuAligned : 0x10000 ∣ cpu.base
  pciAligned : 0x10000 ∣ pci.base
  sizeAligned : 0x10000 ∣ cpu.size
  cpuFits : cpu.Fits
  pciFits : pci.Fits

end Extent

namespace Node

/-- The property is there, and its pieces between NUL bytes are the bytes of the strings. -/
def Spells (n : Node) (name : String) (strings : List String) : Prop :=
  ∃ bytes ∈ n.property? name, strings.map Property.textBytes = Property.pieces bytes

/-- There is no status, or its first string says that the node is in use. -/
def Enabled (n : Node) : Prop :=
  n.property? "status" = none ∨
    ∃ first rest, n.Spells "status" (first :: rest) ∧ (first = "okay" ∨ first = "ok")

/-- Entries number `dbi` and `config` of `reg` are those blocks, and a controller of the chip
is named: by the last cell of a property, or by the base of the first block. -/
def Locates (soc : Soc) (n : Node) (reg : Bytes) (dbi config : Nat) : Prop :=
  match soc.blocks with
  | .named _ _ =>
    (∃ names, n.Spells "reg-names" names ∧ names.idxOf? "dbi" = some dbi ∧
      names.idxOf? "config" = some config) ∧
    dbi < reg.length / 16 ∧ config < reg.length / 16 ∧
    ∃ number ∈ n.property? "baikal,pcie-lcru", 4 ∣ number.length ∧ number ≠ [] ∧
      cellAt number (number.length / 4 - 1) < soc.controllers
  | .positional dbiBases =>
    dbi = 0 ∧ config = 2 ∧ reg.length / 16 = 3 ∧
    (∃ base ∈ dbiBases, base.toNat = (Extent.ofCells (cellAt reg) 0).base) ∧
    (Extent.ofCells (cellAt reg) 4).Usable

/-- The seven cells from number `i` on are no range of a space that has windows, or one that
a translation region can map. -/
def RangeUsable (cell : Nat → Nat) (i : Nat) : Prop :=
  cell i / 0x1000000 % 4 = 0 ∨
    (Extent.ofCells cell (i + 3)).MapsTo
      ⟨cell (i + 1) * 0x100000000 + cell (i + 2), (Extent.ofCells cell (i + 3)).size⟩

/-- The node describes a controller of the chip, without a fault. -/
structure WellFormed (soc : Soc) (n : Node) : Prop where
  blocks : ∃ reg ∈ n.property? "reg", reg ≠ [] ∧ 16 ∣ reg.length ∧
    ∃ dbi config, n.Locates soc reg dbi config ∧
      (Extent.ofCells (cellAt reg) (4 * dbi)).Usable ∧
      (Extent.ofCells (cellAt reg) (4 * config)).Configures
  ranges : ∀ ranges ∈ n.property? "ranges", 28 ∣ ranges.length ∧
    ∀ k < ranges.length / 28, RangeUsable (cellAt ranges) (7 * k)
  lanes : ∀ count ∈ n.property? "num-lanes", count.length = 4
  maxSpeed : ∀ code ∈ n.property? "max-link-speed", code.length = 4
  resetLine : ∀ line ∈ n.property? "reset-gpios", 4 ∣ line.length ∧ 8 ≤ line.length ∧
    cellAt line (line.length / 4 - 2) < GpioPort.pins
  msiNumber : soc.msi.isSome → ∀ map ∈ n.property? "msi-map", map.length = 16

end Node

/-! ## Reading properties -/

theorem Except.not_exists_throw {ε α : Type} {e : ε} :
    ¬∃ a : α, (throw e : Except ε α) = .ok a := by
  rintro ⟨a, h⟩
  cases h

/-- Splits off a condition without which there is an error. -/
theorem Except.ite_throw_eq_ok {ε α : Type} {e : ε} {x : Except ε α} {a : α} {p : Prop}
    [Decidable p] : (if p then x else throw e) = .ok a ↔ p ∧ x = .ok a := by
  by_cases h : p
  · rw [if_pos h, and_iff_right h]
  · rw [if_neg h]
    exact iff_of_false (by rintro ⟨⟩) (fun hp => h hp.1)

theorem Except.exists_ite_throw {ε α : Type} {e : ε} {x : Except ε α} {p : Prop} [Decidable p] :
    (∃ a, (if p then x else throw e) = .ok a) ↔ p ∧ ∃ a, x = .ok a := by
  simp only [Except.ite_throw_eq_ok, exists_and_left]

namespace Node

variable {n : Node} {name : String}

theorem strings?_eq_ok_none : n.strings? name = .ok none ↔ n.property? name = none := by
  unfold strings?
  split
  · rename_i h
    simp [h]
  · rename_i bytes h
    cases Property.strings bytes <;> simp [h, Except.map]

theorem strings?_eq_ok_some {strings : List String} :
    n.strings? name = .ok (some strings) ↔ n.Spells name strings := by
  unfold strings? Spells
  split
  · rename_i h
    simp [h]
  · rename_i bytes h
    simp only [h, Option.mem_def, Option.some.injEq, exists_eq_left', ← Property.strings_eq_ok_iff]
    cases hs : Property.strings bytes <;> simp [Except.map]

theorem isEnabled_iff : n.isEnabled = true ↔ n.Enabled := by
  unfold isEnabled Enabled
  split
  · rename_i h
    simp [strings?_eq_ok_none.mp h]
  · rename_i first rest h
    have hn : n.property? "status" ≠ none := by
      intro hn
      rw [strings?_eq_ok_none.mpr hn] at h
      cases h
    simp only [hn, false_or, ← strings?_eq_ok_some, h, Bool.or_eq_true, decide_eq_true_eq]
    simp
  · rename_i hnone hcons
    simp only [Bool.false_eq_true, false_iff, not_or]
    refine ⟨fun hn => hnone (strings?_eq_ok_none.mpr hn), ?_⟩
    rintro ⟨first, rest, hs, -⟩
    exact hcons first rest (strings?_eq_ok_some.mpr hs)

instance (n : Node) : Decidable n.Enabled := decidable_of_iff _ isEnabled_iff

theorem requireStrings_eq_ok {strings : List String} :
    n.requireStrings name = .ok strings ↔ n.Spells name strings := by
  rw [← strings?_eq_ok_some, requireStrings, Except.bind_eq_ok]
  unfold decodeStrings
  cases n.strings? name with
  | error e => simp [Except.mapError]
  | ok found => cases found <;> simp [Except.mapError, pure, Except.pure]

theorem decodeCells_eq_ok_none : n.decodeCells name = .ok none ↔ n.property? name = none := by
  unfold decodeCells cells?
  split
  · rename_i h
    simp [h, Except.mapError]
  · rename_i bytes h
    cases hc : Property.cells bytes <;> simp [h, Except.map, Except.mapError]

theorem decodeCells_eq_ok_some {cells : List Word} :
    n.decodeCells name = .ok (some cells) ↔
      ∃ bytes ∈ n.property? name, Property.readCells? bytes = some cells := by
  unfold decodeCells cells? Property.cells
  split
  · rename_i h
    simp [h, Except.mapError]
  · rename_i bytes h
    cases hc : Property.readCells? bytes <;> simp [h, hc, Except.map, Except.mapError]

/-- A check of an optional property passes if the property is absent, or has whole cells and
they pass. -/
theorem exists_ok_optional {α : Type} {f : Option (List Word) → Except NodeError α}
    {P : Bytes → Prop} (absent : ∃ a, f none = .ok a)
    (given : ∀ bytes cells, Property.readCells? bytes = some cells →
      ((∃ a, f (some cells) = .ok a) ↔ P bytes)) :
    (∃ a, n.decodeCells name >>= f = .ok a) ↔
      ∀ bytes ∈ n.property? name, 4 ∣ bytes.length ∧ P bytes := by
  simp only [Except.bind_eq_ok]
  constructor
  · rintro ⟨a, found, hd, ha⟩ bytes hb
    cases found with
    | none =>
      rw [decodeCells_eq_ok_none.mp hd] at hb
      cases hb
    | some cells =>
      obtain ⟨bytes', hb', hc⟩ := decodeCells_eq_ok_some.mp hd
      obtain rfl : bytes = bytes' := Option.mem_unique hb hb'
      exact ⟨Property.exists_readCells?_iff.mp ⟨cells, hc⟩, (given bytes cells hc).mp ⟨a, ha⟩⟩
  · intro h
    cases hp : n.property? name with
    | none =>
      obtain ⟨a, ha⟩ := absent
      exact ⟨a, none, decodeCells_eq_ok_none.mpr hp, ha⟩
    | some bytes =>
      obtain ⟨hlength, hP⟩ := h bytes hp
      obtain ⟨cells, hc⟩ := Property.exists_readCells?_iff.mpr hlength
      obtain ⟨a, ha⟩ := (given bytes cells hc).mpr hP
      exact ⟨a, some cells, decodeCells_eq_ok_some.mpr ⟨bytes, hp, hc⟩, ha⟩

theorem requireCells_eq_ok {cells : List Word} :
    n.requireCells name = .ok cells ↔
      ∃ bytes ∈ n.property? name, Property.readCells? bytes = some cells := by
  rw [← decodeCells_eq_ok_some, requireCells, Except.bind_eq_ok]
  cases n.decodeCells name with
  | error e => simp
  | ok found => cases found <;> simp [pure, Except.pure]

/-- What is made of a required property is made of its cells, and it has whole ones. -/
theorem requireCells_bind_eq_ok {α : Type} {f : List Word → Except NodeError α} {a : α}
    {P : Bytes → Prop}
    (given : ∀ bytes cells, Property.readCells? bytes = some cells → (f cells = .ok a ↔ P bytes)) :
    n.requireCells name >>= f = .ok a ↔
      ∃ bytes ∈ n.property? name, 4 ∣ bytes.length ∧ P bytes := by
  simp only [Except.bind_eq_ok, requireCells_eq_ok]
  constructor
  · rintro ⟨cells, ⟨bytes, hb, hc⟩, ha⟩
    exact ⟨bytes, hb, Property.exists_readCells?_iff.mp ⟨cells, hc⟩, (given bytes cells hc).mp ha⟩
  · rintro ⟨bytes, hb, hlength, hP⟩
    obtain ⟨cells, hc⟩ := Property.exists_readCells?_iff.mpr hlength
    exact ⟨cells, ⟨bytes, hb, hc⟩, (given bytes cells hc).mpr hP⟩

theorem exists_singleCell_iff :
    (∃ value, n.singleCell name = .ok value) ↔ ∀ bytes ∈ n.property? name, bytes.length = 4 := by
  refine (exists_ok_optional (P := fun bytes => bytes.length = 4) ?_ ?_).trans ?_
  · exact ⟨none, rfl⟩
  · intro bytes cells hc
    obtain ⟨hlength, -⟩ := Property.readCells?_spec hc
    match cells with
    | [] => exact iff_of_false Except.not_exists_throw (by simp [hlength])
    | [_] => exact iff_of_true ⟨_, rfl⟩ hlength
    | _ :: _ :: rest =>
      refine iff_of_false Except.not_exists_throw ?_
      rw [hlength]
      simp only [List.length_cons]
      omega
  · refine forall₂_congr fun bytes _ => and_iff_right_of_imp ?_
    intro h
    exact ⟨1, h⟩

/-- What can be made of every single cell only needs the property to be one. -/
theorem exists_ok_singleCell {α : Type} {f : Option Nat → Except NodeError α}
    (total : ∀ value, ∃ a, f value = .ok a) :
    (∃ a, n.singleCell name >>= f = .ok a) ↔
      ∀ bytes ∈ n.property? name, bytes.length = 4 := by
  rw [← exists_singleCell_iff]
  simp only [Except.bind_eq_ok]
  constructor
  · rintro ⟨a, value, hvalue, -⟩
    exact ⟨value, hvalue⟩
  · rintro ⟨value, hvalue⟩
    obtain ⟨a, ha⟩ := total value
    exact ⟨a, value, hvalue, ha⟩

end Node

/-! ## Checks of extents -/

theorem Address.toNat_ofWords (hi lo : Word) :
    (Address.ofWords hi lo).toNat = hi.toNat * 0x100000000 + lo.toNat := by
  have hlo := lo.isLt
  rw [Address.ofWords, BitVec.toNat_cast, BitVec.toNat_append,
    ← Nat.shiftLeft_add_eq_or_of_lt hlo, Nat.shiftLeft_eq]

theorem Address.aligned_iff {a : Address} : a.Aligned ↔ 0x10000 ∣ a.toNat :=
  Nat.dvd_iff_mod_eq_zero.symm

namespace Region

def extent (r : Region) : Extent := ⟨r.base.toNat, r.size.toNat⟩

theorem fits_iff {r : Region} : r.Fits ↔ r.extent.Fits := by
  have hzero : r.size ≠ 0 ↔ 0 < r.size.toNat := by
    rw [Nat.pos_iff_ne_zero, not_iff_not, ← BitVec.toNat_inj]
    rfl
  unfold Fits Extent.Fits extent Address.count
  rw [hzero]
  dsimp only
  -- a size that is not zero makes the subtraction exact
  omega

theorem usable_iff {r : Region} : r.Usable ↔ r.extent.Usable := by
  unfold Usable Extent.Usable
  rw [fits_iff, ne_eq, ← BitVec.toNat_inj]
  rfl

theorem configures_iff {r : Region} :
    Placement.ConfigUsable r ∧ minConfigSize ≤ r.size.toNat ↔ r.extent.Configures := by
  unfold Placement.ConfigUsable
  rw [usable_iff, Address.aligned_iff, Address.aligned_iff]
  constructor
  · rintro ⟨⟨usable, hbase, hsize, hmax⟩, hmin⟩
    exact ⟨usable, hbase, hsize, hmin, hmax⟩
  · rintro ⟨usable, hbase, hsize, hmin, hmax⟩
    exact ⟨⟨usable, hbase, hsize, hmax⟩, hmin⟩

/-- The regions are the entries of `reg`. -/
structure Entries (reg : Bytes) (regions : List Region) : Prop where
  length : reg.length = 16 * regions.length
  get : ∀ k region, regions[k]? = some region →
    region.extent = Extent.ofCells (cellAt reg) (4 * k)

theorem ofCells?_spec {cells : List Word} {regions : List Region}
    (h : ofCells? cells = some regions) :
    cells.length = 4 * regions.length ∧ ∀ k region, regions[k]? = some region →
      region.extent = Extent.ofCells (wordAt cells) (4 * k) := by
  fun_induction ofCells? cells generalizing regions with
  | case1 =>
    cases h
    exact ⟨rfl, fun _ _ h => by cases h⟩
  | case2 a b c d rest ih =>
    obtain ⟨others, ho, rfl⟩ := Option.map_eq_some_iff.mp h
    obtain ⟨hlength, hget⟩ := ih ho
    refine ⟨by simp only [List.length_cons]; omega, fun k region hk => ?_⟩
    cases k with
    | zero =>
      cases hk
      simp [extent, Extent.ofCells, Address.toNat_ofWords, wordAt]
    | succ k =>
      rw [hget k region hk]
      rfl
  | case3 => cases h

theorem exists_ofCells?_iff {cells : List Word} :
    (∃ regions, ofCells? cells = some regions) ↔ 4 ∣ cells.length := by
  constructor
  · rintro ⟨regions, h⟩
    exact ⟨_, (ofCells?_spec h).1⟩
  · intro h
    fun_induction ofCells? cells with
    | case1 => exact ⟨[], rfl⟩
    | case2 a b c d rest ih =>
      have hrest : 4 ∣ rest.length := by
        simp only [List.length_cons] at h
        omega
      obtain ⟨regions, hr⟩ := ih hrest
      exact ⟨_, by rw [hr]; rfl⟩
    | case3 cells hnil hlong =>
      obtain ⟨a, b, c, d, rest, rfl⟩ := exists_four_of_dvd_length hnil h
      exact absurd rfl (hlong a b c d rest)

end Region

namespace Node

variable {n : Node}

theorem regions_eq_ok {regions : List Region} (h : n.regions = .ok regions) :
    ∃ reg ∈ n.property? "reg", reg ≠ [] ∧ Region.Entries reg regions := by
  obtain ⟨cells, hc, h⟩ := Except.bind_eq_ok.mp h
  obtain ⟨reg, hreg, hr⟩ := requireCells_eq_ok.mp hc
  obtain ⟨hbytes, hcell⟩ := Property.readCells?_spec hr
  split at h
  · rename_i region rest ho
    cases h
    obtain ⟨hlength, hget⟩ := Region.ofCells?_spec ho
    rw [← hcell] at hget
    refine ⟨reg, hreg, ?_, ⟨by omega, hget⟩⟩
    rintro rfl
    simp only [List.length_nil, List.length_cons] at hbytes hlength
    omega
  · cases h

theorem exists_regions {reg : Bytes} (hreg : reg ∈ n.property? "reg") (hne : reg ≠ [])
    (hlength : 16 ∣ reg.length) : ∃ regions, n.regions = .ok regions := by
  obtain ⟨cells, hc⟩ := Property.exists_readCells?_iff.mpr (Nat.dvd_trans ⟨4, rfl⟩ hlength)
  obtain ⟨hbytes, -⟩ := Property.readCells?_spec hc
  obtain ⟨regions, hr⟩ := Region.exists_ofCells?_iff.mpr (by omega : 4 ∣ cells.length)
  have hpos := List.length_pos_iff.mpr hne
  cases regions with
  | nil =>
    have := (Region.ofCells?_spec hr).1
    simp only [List.length_nil] at this
    omega
  | cons region rest =>
    have hcells := requireCells_eq_ok.mpr ⟨reg, hreg, hc⟩
    refine ⟨region :: rest, Except.bind_eq_ok.mpr ⟨cells, hcells, ?_⟩⟩
    rw [hr]
    rfl

end Node

/-! ## Checks of a placement -/

namespace Placement

variable {soc : Soc} {n : Node}

theorem namedRegion_eq_ok {names : List String} {regions : List Region} {name : String}
    {region : Region} :
    namedRegion names regions name = .ok region ↔
      ∃ i, names.idxOf? name = some i ∧ regions[i]? = some region := by
  rw [← Option.bind_eq_some_iff, namedRegion]
  cases (names.idxOf? name).bind (regions[·]?) with
  | none => exact iff_of_false (by rintro ⟨⟩) (by rintro ⟨⟩)
  | some found => simp [pure, Except.pure]

theorem declaredIndex_eq_ok {index : Nat} :
    declaredIndex soc n = .ok index ↔
      ∃ number ∈ n.property? "baikal,pcie-lcru", 4 ∣ number.length ∧ number ≠ [] ∧
        cellAt number (number.length / 4 - 1) < soc.controllers ∧
        cellAt number (number.length / 4 - 1) = index := by
  refine Node.requireCells_bind_eq_ok fun number cells hc => ?_
  obtain ⟨hlength, hcell⟩ := Property.readCells?_spec hc
  rw [hcell, hlength, Nat.mul_div_cancel_left _ (by decide)]
  rcases List.eq_nil_or_concat' cells with rfl | ⟨front, cell, rfl⟩
  · exact iff_of_false (by rintro ⟨⟩) fun h => h.1 (List.length_eq_zero_iff.mp hlength)
  · have hne : number ≠ [] := by
      rintro rfl
      simp at hlength
    have hlast : wordAt (front ++ [cell]) ((front ++ [cell]).length - 1) = cell.toNat := by
      simp [wordAt]
    rw [List.getLast?_concat, hlast, and_iff_right hne]
    exact Except.ite_throw_eq_ok.trans (and_congr_right fun _ => ⟨Except.ok.inj, congrArg _⟩)

theorem lt_of_locates {reg : Bytes} {dbi config : Nat} (h : n.Locates soc reg dbi config) :
    dbi < reg.length / 16 ∧ config < reg.length / 16 := by
  unfold Node.Locates at h
  split at h
  · exact ⟨h.2.1, h.2.2.1⟩
  · obtain ⟨rfl, rfl, hlength, -⟩ := h
    rw [hlength]
    decide

/-- What it takes to place a node on a chip of either kind. -/
theorem locate_eq_ok {regions : List Region} {p : Placement} (h : locate soc n regions = .ok p) :
    (∃ controlBase stride names, soc.blocks = .named controlBase stride ∧
      n.Spells "reg-names" names ∧ namedRegion names regions "dbi" = .ok p.dbi ∧
      namedRegion names regions "config" = .ok p.config ∧ declaredIndex soc n = .ok p.index) ∨
    ∃ dbiBases apb, soc.blocks = .positional dbiBases ∧ regions = [p.dbi, apb, p.config] ∧
      dbiBases.idxOf? p.dbi.base = some p.index ∧ apb.Usable := by
  unfold locate at h
  split at h
  · rename_i controlBase stride hblocks
    obtain ⟨names, hn, h⟩ := Except.bind_eq_ok.mp h
    obtain ⟨dbi, hd, h⟩ := Except.bind_eq_ok.mp h
    obtain ⟨config, hc, h⟩ := Except.bind_eq_ok.mp h
    obtain ⟨index, hx, h⟩ := Except.bind_eq_ok.mp h
    cases h
    exact .inl ⟨controlBase, stride, names, hblocks, Node.requireStrings_eq_ok.mp hn, hd, hc, hx⟩
  · rename_i dbiBases hblocks
    split at h
    · rename_i dbi apb config
      split at h
      · cases h
      · rename_i index hx
        obtain ⟨hu, h⟩ := Except.ite_throw_eq_ok.mp h
        cases h
        exact .inr ⟨dbiBases, apb, hblocks, rfl, hx, hu⟩
    · cases h

/-- The blocks that a node places are two of its regions. -/
theorem exists_locate_iff {reg : Bytes} {regions : List Region} (he : Region.Entries reg regions)
    {d c : Region} :
    (∃ p, locate soc n regions = .ok p ∧ p.dbi = d ∧ p.config = c) ↔
      ∃ dbi config, n.Locates soc reg dbi config ∧ regions[dbi]? = some d ∧
        regions[config]? = some c := by
  have hcount : reg.length / 16 = regions.length := by
    rw [he.length, Nat.mul_div_cancel_left _ (by decide)]
  unfold Node.Locates
  rw [hcount]
  constructor
  · rintro ⟨p, h, rfl, rfl⟩
    rcases locate_eq_ok h with ⟨_, _, names, hblocks, hn, hd, hc, hx⟩ |
      ⟨dbiBases, apb, hblocks, hr, hx, hu⟩
    · rw [hblocks]
      obtain ⟨i, hi, hd⟩ := namedRegion_eq_ok.mp hd
      obtain ⟨j, hj, hc⟩ := namedRegion_eq_ok.mp hc
      obtain ⟨number, hnumber, hdvd, hne, hlt, -⟩ := declaredIndex_eq_ok.mp hx
      exact ⟨i, j, ⟨⟨names, hn, hi, hj⟩, (List.getElem?_eq_some_iff.mp hd).1,
        (List.getElem?_eq_some_iff.mp hc).1, number, hnumber, hdvd, hne, hlt⟩, hd, hc⟩
    · rw [hblocks]
      subst hr
      refine ⟨0, 2, ⟨rfl, rfl, rfl, ⟨p.dbi.base, ?_, ?_⟩, ?_⟩, rfl, rfl⟩
      · exact List.isSome_idxOf?.mp (by rw [hx]; rfl)
      · rw [← he.get 0 p.dbi rfl]
        rfl
      · rw [← he.get 1 apb rfl]
        exact Region.usable_iff.mp hu
  · rintro ⟨dbi, config, hl, hd, hc⟩
    unfold locate
    revert hl
    cases soc.blocks with
    | named controlBase stride =>
      rintro ⟨⟨names, hn, hi, hj⟩, -, -, number, hnumber, hdvd, hne, hlt⟩
      have hn := Node.requireStrings_eq_ok.mpr hn
      have hd := namedRegion_eq_ok.mpr ⟨dbi, hi, hd⟩
      have hc := namedRegion_eq_ok.mpr ⟨config, hj, hc⟩
      have hx := declaredIndex_eq_ok.mpr ⟨number, hnumber, hdvd, hne, hlt, rfl⟩
      simp only [Except.bind_eq_ok]
      exact ⟨_, ⟨names, hn, d, hd, c, hc, _, hx, rfl⟩, rfl, rfl⟩
    | positional dbiBases =>
      rintro ⟨rfl, rfl, hlength, ⟨base, hb, hbase⟩, hu⟩
      obtain ⟨first, apb, last, rfl⟩ := List.length_eq_three.mp hlength
      cases hd
      cases hc
      rw [← he.get 0 d rfl] at hbase
      obtain rfl : base = d.base := BitVec.eq_of_toNat_eq hbase
      obtain ⟨index, hx⟩ := Option.isSome_iff_exists.mp (List.isSome_idxOf?.mpr hb)
      rw [← he.get 1 apb rfl, ← Region.usable_iff] at hu
      refine ⟨⟨index, d, apb.base, c⟩, ?_, rfl, rfl⟩
      dsimp only
      rw [hx]
      exact if_pos hu

theorem exists_ofNode_iff :
    (∃ p, Placement.ofNode soc n = .ok p) ↔
      ∃ reg ∈ n.property? "reg", reg ≠ [] ∧ 16 ∣ reg.length ∧
        ∃ dbi config, n.Locates soc reg dbi config ∧
          (Extent.ofCells (cellAt reg) (4 * dbi)).Usable ∧
          (Extent.ofCells (cellAt reg) (4 * config)).Configures := by
  constructor
  · rintro ⟨p, h⟩
    obtain ⟨regions, hr, hp, hdbi, hconfig⟩ := ofNode_eq_ok.mp h
    obtain ⟨reg, hreg, hne, he⟩ := Node.regions_eq_ok hr
    obtain ⟨dbi, config, hl, hd, hc⟩ := (exists_locate_iff he).mp ⟨p, hp, rfl, rfl⟩
    refine ⟨reg, hreg, hne, ⟨_, he.length⟩, dbi, config, hl, ?_, ?_⟩
    · rw [← he.get dbi _ hd]
      exact Region.usable_iff.mp hdbi
    · rw [← he.get config _ hc]
      exact Region.configures_iff.mp hconfig
  · rintro ⟨reg, hreg, hne, hdvd, dbi, config, hl, hdbi, hconfig⟩
    obtain ⟨regions, hr⟩ := Node.exists_regions hreg hne hdvd
    obtain ⟨reg', hreg', -, he⟩ := Node.regions_eq_ok hr
    obtain rfl : reg = reg' := Option.mem_unique hreg hreg'
    obtain ⟨hd, hc⟩ := lt_of_locates hl
    rw [he.length, Nat.mul_div_cancel_left _ (by decide)] at hd hc
    have hd := List.getElem?_eq_getElem hd
    have hc := List.getElem?_eq_getElem hc
    obtain ⟨p, hp, hpd, hpc⟩ := (exists_locate_iff he).mpr ⟨dbi, config, hl, hd, hc⟩
    rw [← he.get dbi _ hd, ← hpd, ← Region.usable_iff] at hdbi
    rw [← he.get config _ hc, ← hpc, ← Region.configures_iff] at hconfig
    exact ⟨p, ofNode_eq_ok.mpr ⟨regions, hr, hp, hdbi, hconfig⟩⟩

end Placement

/-! ## Checks of windows and settings -/

namespace Window

theorem spaceOfCell?_eq_none_iff {kind : Word} :
    spaceOfCell? kind = none ↔ kind.toNat / 0x1000000 % 4 = 0 := by
  have hkind : (kind >>> 24).toNat = kind.toNat / 0x1000000 := by
    rw [BitVec.toNat_ushiftRight, Nat.shiftRight_eq_div_pow]
  unfold spaceOfCell?
  rw [hkind]
  have hcode : kind.toNat / 0x1000000 % 4 < 4 := Nat.mod_lt _ (by decide)
  generalize kind.toNat / 0x1000000 % 4 = code at hcode
  match code, hcode with
  | 0, _ | 1, _ | 2, _ | 3, _ => simp

theorem mappable_iff {w : Window} : w.Mappable ↔ w.cpuRegion.extent.MapsTo w.pciRegion.extent := by
  constructor
  · rintro ⟨hmin, hmax, hcpu, hpci, hsize, hcf, hpf⟩
    exact ⟨hmin, hmax, Address.aligned_iff.mp hcpu, Address.aligned_iff.mp hpci,
      Address.aligned_iff.mp hsize, Region.fits_iff.mp hcf, Region.fits_iff.mp hpf⟩
  · rintro ⟨hmin, hmax, hcpu, hpci, hsize, hcf, hpf⟩
    exact ⟨hmin, hmax, Address.aligned_iff.mpr hcpu, Address.aligned_iff.mpr hpci,
      Address.aligned_iff.mpr hsize, Region.fits_iff.mpr hcf, Region.fits_iff.mpr hpf⟩

theorem rangeUsable_cons {kind a b c d e f : Word} {rest : List Word} :
    (∀ k < (kind :: a :: b :: c :: d :: e :: f :: rest).length / 7,
        Node.RangeUsable (wordAt (kind :: a :: b :: c :: d :: e :: f :: rest)) (7 * k)) ↔
      (kind.toNat / 0x1000000 % 4 = 0 ∨
        Extent.MapsTo ⟨(Address.ofWords c d).toNat, (Address.ofWords e f).toNat⟩
          ⟨(Address.ofWords a b).toNat, (Address.ofWords e f).toNat⟩) ∧
      ∀ k < rest.length / 7, Node.RangeUsable (wordAt rest) (7 * k) := by
  have hlength : (kind :: a :: b :: c :: d :: e :: f :: rest).length / 7 = rest.length / 7 + 1 := by
    simp only [List.length_cons]
    omega
  rw [hlength, Nat.forall_lt_succ_left]
  simp only [Address.toNat_ofWords]
  exact Iff.rfl

/-- The ranges give windows exactly if each can be mapped or asks for none. -/
theorem exists_ofCells_iff {cells : List Word} (h : cells.length % 7 = 0) :
    (∃ windows, ofCells cells = .ok windows) ↔
      ∀ k < cells.length / 7, Node.RangeUsable (wordAt cells) (7 * k) := by
  fun_induction ofCells cells with
  | case1 kind a b c d e f rest hs ih =>
    rw [rangeUsable_cons, ih (by simp only [List.length_cons] at h; omega)]
    exact (and_iff_right (.inl (spaceOfCell?_eq_none_iff.mp hs))).symm
  | case2 kind a b c d e f rest space hs ih =>
    rw [rangeUsable_cons, ← ih (by simp only [List.length_cons] at h; omega)]
    simp only [Except.bind_eq_ok, check_eq_ok]
    have hkind : ¬kind.toNat / 0x1000000 % 4 = 0 := by
      rw [← spaceOfCell?_eq_none_iff, hs]
      exact Option.some_ne_none space
    rw [or_iff_right hkind]
    constructor
    · rintro ⟨_, _, ⟨-, hm⟩, windows, hw, -⟩
      exact ⟨mappable_iff.mp hm, windows, hw⟩
    · rintro ⟨hm, windows, hw⟩
      exact ⟨_, _, ⟨rfl, mappable_iff.mpr hm⟩, windows, hw, rfl⟩
  | case3 cells hshort =>
    have hnil : cells.length / 7 = 0 := by
      rcases cells with _ | ⟨kind, _ | ⟨a, _ | ⟨b, _ | ⟨c, _ | ⟨d, _ | ⟨e, _ | ⟨f, rest⟩⟩⟩⟩⟩⟩⟩
      case nil => rfl
      case cons.cons.cons.cons.cons.cons.cons => exact absurd rfl (hshort kind a b c d e f rest)
      all_goals simp at h
    rw [hnil]
    exact iff_of_true ⟨[], rfl⟩ fun k hk => absurd hk (Nat.not_lt_zero k)

theorem exists_ofNode_iff {n : Node} :
    (∃ windows, Window.ofNode n = .ok windows) ↔
      ∀ ranges ∈ n.property? "ranges", 28 ∣ ranges.length ∧
        ∀ k < ranges.length / 28, Node.RangeUsable (cellAt ranges) (7 * k) := by
  refine (Node.exists_ok_optional (P := fun ranges => 28 ∣ ranges.length ∧
    ∀ k < ranges.length / 28, Node.RangeUsable (cellAt ranges) (7 * k)) ?_ ?_).trans ?_
  · exact ⟨[], rfl⟩
  · intro ranges cells hc
    obtain ⟨hlength, hcell⟩ := Property.readCells?_spec hc
    have hdvd : 28 ∣ ranges.length ↔ cells.length % 7 = 0 := by omega
    have hcount : ranges.length / 28 = cells.length / 7 := by omega
    dsimp only
    rw [hcell, hcount, hdvd, Except.exists_ite_throw]
    exact and_congr_right exists_ofCells_iff
  · refine forall₂_congr fun ranges _ => and_iff_right_of_imp fun h => ?_
    exact Nat.dvd_trans ⟨7, rfl⟩ h.1

end Window

namespace Controller

variable {soc : Soc} {n : Node}

theorem exists_lanesOfNode_iff :
    (∃ lanes, lanesOfNode n = .ok lanes) ↔
      ∀ count ∈ n.property? "num-lanes", count.length = 4 := by
  refine Node.exists_ok_singleCell fun count => ?_
  cases count <;> exact ⟨_, rfl⟩

theorem exists_maxSpeedOfNode_iff :
    (∃ speed, maxSpeedOfNode n = .ok speed) ↔
      ∀ code ∈ n.property? "max-link-speed", code.length = 4 := by
  refine Node.exists_ok_singleCell fun code => ?_
  cases code <;> exact ⟨_, rfl⟩

theorem exists_resetLineOfNode_iff :
    (∃ line, resetLineOfNode n = .ok line) ↔
      ∀ line ∈ n.property? "reset-gpios", 4 ∣ line.length ∧ 8 ≤ line.length ∧
        cellAt line (line.length / 4 - 2) < GpioPort.pins := by
  refine Node.exists_ok_optional (P := fun line => 8 ≤ line.length ∧
    cellAt line (line.length / 4 - 2) < GpioPort.pins) ?_ ?_
  · exact ⟨none, rfl⟩
  · intro line cells hc
    obtain ⟨hlength, hcell⟩ := Property.readCells?_spec hc
    dsimp only
    rw [hcell, hlength, Nat.mul_div_cancel_left _ (by decide)]
    match hr : cells.reverse with
    | [] | [_] =>
      have hshort : cells.length < 2 := by
        rw [← List.length_reverse, hr]
        simp
      exact iff_of_false Except.not_exists_throw (by omega)
    | flags :: pin :: rest =>
      obtain rfl : cells = rest.reverse ++ [pin, flags] := by
        rw [← List.reverse_reverse cells, hr]
        simp
      have hpin : wordAt (rest.reverse ++ [pin, flags])
          ((rest.reverse ++ [pin, flags]).length - 2) = pin.toNat := by simp [wordAt]
      rw [hpin, and_iff_right (by simp; omega)]
      exact Except.exists_ite_throw.trans (and_iff_left ⟨_, rfl⟩)

theorem exists_msiNumberOfNode_iff :
    (∃ number, msiNumberOfNode soc n = .ok number) ↔
      (soc.msi.isSome → ∀ map ∈ n.property? "msi-map", map.length = 16) := by
  unfold msiNumberOfNode
  by_cases hmsi : soc.msi.isNone
  · rw [if_pos hmsi]
    refine iff_of_true ⟨none, rfl⟩ fun hsome => ?_
    rw [Option.isNone_iff_eq_none.mp hmsi] at hsome
    cases hsome
  · rw [if_neg hmsi]
    have hsome : soc.msi.isSome = true := Option.isSome_iff_ne_none.mpr
      fun hnone => hmsi (Option.isNone_iff_eq_none.mpr hnone)
    simp only [hsome, forall_const]
    refine (Node.exists_ok_optional (P := fun map => map.length = 16) ?_ ?_).trans ?_
    · exact ⟨none, rfl⟩
    · intro map cells hc
      obtain ⟨hlength, -⟩ := Property.readCells?_spec hc
      split
      · rename_i h
        cases h
      · rename_i h
        cases h
        exact iff_of_true ⟨_, rfl⟩ hlength
      · rename_i found hshape h
        refine iff_of_false Except.not_exists_throw fun h16 => ?_
        cases h
        have hfour : cells.length = 4 := by omega
        obtain ⟨a, b, c, d, rfl⟩ := List.length_eq_four.mp hfour
        exact hshape a b c d rfl
    · refine forall₂_congr fun map _ => and_iff_right_of_imp fun h => ?_
      exact ⟨4, h⟩

/-- A node describes a controller exactly if it is well-formed. -/
theorem exists_ofNode_iff : (∃ c, Controller.ofNode soc n = .ok c) ↔ n.WellFormed soc := by
  constructor
  · rintro ⟨c, h⟩
    obtain ⟨p, windows, lanes, speed, line, number, hp, hw, hl, hs, hr, hm, -⟩ := ofNode_eq_ok.mp h
    exact {
      blocks := Placement.exists_ofNode_iff.mp ⟨p, hp⟩
      ranges := Window.exists_ofNode_iff.mp ⟨windows, hw⟩
      lanes := exists_lanesOfNode_iff.mp ⟨lanes, hl⟩
      maxSpeed := exists_maxSpeedOfNode_iff.mp ⟨speed, hs⟩
      resetLine := exists_resetLineOfNode_iff.mp ⟨line, hr⟩
      msiNumber := exists_msiNumberOfNode_iff.mp ⟨number, hm⟩ }
  · intro h
    obtain ⟨p, hp⟩ := Placement.exists_ofNode_iff.mpr h.blocks
    obtain ⟨windows, hw⟩ := Window.exists_ofNode_iff.mpr h.ranges
    obtain ⟨lanes, hl⟩ := exists_lanesOfNode_iff.mpr h.lanes
    obtain ⟨speed, hs⟩ := exists_maxSpeedOfNode_iff.mpr h.maxSpeed
    obtain ⟨line, hr⟩ := exists_resetLineOfNode_iff.mpr h.resetLine
    obtain ⟨number, hm⟩ := exists_msiNumberOfNode_iff.mpr h.msiNumber
    exact ⟨_, ofNode_eq_ok.mpr
      ⟨p, windows, lanes, speed, line, number, hp, hw, hl, hs, hr, hm, rfl⟩⟩

theorem isOk_ofNode_iff : (Controller.ofNode soc n).isOk = true ↔ n.WellFormed soc := by
  rw [← exists_ofNode_iff]
  cases Controller.ofNode soc n with
  | error e => exact iff_of_false Bool.false_ne_true Except.not_exists_throw
  | ok c => exact iff_of_true rfl ⟨c, rfl⟩

end Controller

instance (soc : Soc) (n : Node) : Decidable (n.WellFormed soc) :=
  decidable_of_iff _ Controller.isOk_ofNode_iff

/-! ## The loader -/

/-- A node gives the controller that it describes, unless it is disabled or the number is
given away. -/
theorem Verdict.controller?_ofNode {soc : Soc} {taken : List Nat} {n : Node} {c : Controller} :
    (Verdict.ofNode soc taken n).controller? = some c ↔
      n.isEnabled = true ∧ Controller.ofNode soc n = .ok c ∧ c.index ∉ taken := by
  unfold Verdict.ofNode
  by_cases henabled : n.isEnabled = true
  · rw [if_pos henabled, and_iff_right henabled]
    cases Controller.ofNode soc n with
    | error e => exact iff_of_false (by rintro ⟨⟩) (by rintro ⟨⟨⟩, -⟩)
    | ok d =>
      by_cases htaken : d.index ∈ taken
      · simp only [List.contains_iff_mem.mpr htaken, if_true]
        refine iff_of_false (by rintro ⟨⟩) ?_
        rintro ⟨hd, hfree⟩
        cases hd
        exact hfree htaken
      · have hfree : taken.contains d.index = false := by simpa using htaken
        simp only [hfree, Bool.false_eq_true, if_false]
        constructor
        · rintro ⟨⟩
          exact ⟨rfl, htaken⟩
        · rintro ⟨⟨⟩, -⟩
          rfl
  · rw [if_neg henabled]
    exact iff_of_false (by rintro ⟨⟩) (fun h => henabled h.1)

/-- A node alone gives what its verdict accepts. -/
theorem Topology.load_singleton (soc : Soc) (n : Node) :
    (load soc [n]).controllers = (Verdict.ofNode soc [] n).controller?.toList := by
  show ([(n, Verdict.ofNode soc [] n)].filterMap (·.2.controller?)).mergeSort _ = _
  cases h : (Verdict.ofNode soc [] n).controller? <;> simp [h]

/-- For a node alone, the loader returns a controller exactly if the node is enabled and
well-formed, and otherwise it returns none. -/
theorem loads_wellFormed_only (soc : Soc) (n : Node) :
    ((∃ c, (Topology.load soc [n]).controllers = [c]) ↔ n.Enabled ∧ n.WellFormed soc) ∧
    ((Topology.load soc [n]).controllers = [] ↔ ¬(n.Enabled ∧ n.WellFormed soc)) := by
  have accepted : (∃ c, (Verdict.ofNode soc [] n).controller? = some c) ↔
      n.Enabled ∧ n.WellFormed soc := by
    rw [← Node.isEnabled_iff, ← Controller.exists_ofNode_iff, ← exists_and_left]
    refine exists_congr fun c => Verdict.controller?_ofNode.trans ?_
    rw [and_iff_left List.not_mem_nil]
  rw [Topology.load_singleton, ← accepted]
  constructor
  · exact exists_congr fun c => Option.toList_eq_singleton_iff
  · rw [Option.toList_eq_nil_iff, Option.eq_none_iff_forall_ne_some, not_exists]

example : exampleNode.Enabled ∧ exampleNode.WellFormed Bm1000.soc := by decide +kernel

end RootComplex

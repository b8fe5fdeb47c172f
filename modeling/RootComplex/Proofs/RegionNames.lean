import RootComplex.Proofs.ApertureMap
import RootComplex.Proofs.PropertyCodec
import RootComplex.Proofs.WellFormed

/-! # Region names

A name in `reg-names` stands for the entry of `reg` at its own place. The names are read as the
pieces between NULs, and an empty name leaves no piece: a name is found at its place among those
that are not empty, while the entries of `reg` all keep theirs. So a controller gets the blocks that
its node names as long as no empty name stands before them. -/

namespace RootComplex

/-- An element that passes a filter is found after those that pass it before. -/
theorem idxOf?_filter {α : Type} [BEq α] [LawfulBEq α] {p : α → Bool} {a : α} (ha : p a = true)
    (l : List α) : (l.filter p).idxOf? a = (l.idxOf? a).map fun i => (l.take i).countP p := by
  induction l with
  | nil => rfl
  | cons b rest ih =>
    rw [List.filter_cons, List.idxOf?_cons]
    by_cases hba : b = a
    · subst hba
      simp [ha, List.idxOf?_cons]
    · have hne : (b == a) = false := beq_eq_false_iff_ne.mpr hba
      simp only [hne, Bool.false_eq_true, if_false, Option.map_map]
      -- `b` stands before `a`: it moves `a` one place on among those that pass, if it passes
      by_cases hb : p b = true
      · simp only [hb, if_true, List.idxOf?_cons, hne, Bool.false_eq_true, if_false, ih,
          Option.map_map]
        congr 1
        funext i
        simp [hb]
      · simp only [hb, Bool.false_eq_true, if_false, ih]
        congr 1
        funext i
        simp [hb]

/-! ## Names -/

namespace Property

theorem textPieces_of_free {s : String} (h : '\x00' ∉ s.toList) :
    textPieces s = [s].filter (· ≠ "") := by
  by_cases hs : s = ""
  · subst hs
    rfl
  · rw [textPieces_of_whole ⟨hs, h⟩]
    simp [hs]

/-- Of strings without NULs the empty ones are not read back. -/
theorem strings_ofStrings_of_free {list : List String} (h : ∀ s ∈ list, '\x00' ∉ s.toList) :
    strings (ofStrings list) = .ok (list.filter (· ≠ "")) := by
  rw [strings_ofStrings]
  congr 1
  induction list with
  | nil => rfl
  | cons s rest ih =>
    rw [List.flatMap_cons, textPieces_of_free (h s List.mem_cons_self),
      ih fun t ht => h t (List.mem_cons_of_mem _ ht), ← List.filter_append]
    rfl

end Property

/-- The place of name number `i` once the empty names are gone. -/
def placeRead (names : List String) (i : Nat) : Nat := (names.take i).countP (· ≠ "")

theorem placeRead_eq_iff {names : List String} {i : Nat} (hi : i ≤ names.length) :
    placeRead names i = i ↔ "" ∉ names.take i := by
  have hlength : (names.take i).length = i := List.length_take_of_le hi
  calc placeRead names i = i
      ↔ (names.take i).countP (· ≠ "") = (names.take i).length := by rw [hlength, placeRead]
    _ ↔ ∀ s ∈ names.take i, decide (s ≠ "") = true := List.countP_eq_length
    _ ↔ "" ∉ names.take i := by
      simp only [decide_eq_true_eq]
      exact ⟨fun h hmem => h "" hmem rfl, fun h s hs hempty => h (hempty ▸ hs)⟩

/-- A name that is not empty selects the entry at its place among such names. -/
theorem Placement.namedRegion_filter_eq_ok {names : List String} {regions : List Region}
    {name : String} (hname : name ≠ "") {region : Region} :
    namedRegion (names.filter (· ≠ "")) regions name = .ok region ↔
      ∃ i, names.idxOf? name = some i ∧ regions[placeRead names i]? = some region := by
  rw [namedRegion_eq_ok, idxOf?_filter (by simpa using hname)]
  constructor
  · rintro ⟨k, hk, hregion⟩
    obtain ⟨i, hi, rfl⟩ := Option.map_eq_some_iff.mp hk
    exact ⟨i, hi, hregion⟩
  · rintro ⟨i, hi, hregion⟩
    exact ⟨placeRead names i, Option.map_eq_some_iff.mpr ⟨i, hi, rfl⟩, hregion⟩

/-! ## Entries -/

namespace Region

/-- The four cells of an entry: base and size, the high cell of each first. -/
def cells (r : Region) : List Word := [r.base.high, r.base.low, r.size.high, r.size.low]

theorem ofCells?_cells (regions : List Region) :
    ofCells? (regions.flatMap cells) = some regions := by
  induction regions with
  | nil => rfl
  | cons r rest ih =>
    rw [List.flatMap_cons]
    show (ofCells? (rest.flatMap cells)).map _ = _
    rw [ih, Address.ofWords_high_low, Address.ofWords_high_low]
    rfl

end Region

/-- The node has these names, none of them with a NUL in it, and these entries. -/
structure Node.Declares (n : Node) (names : List String) (regions : List Region) : Prop where
  regNames : n.property? "reg-names" = some (Property.ofStrings names)
  free : ∀ s ∈ names, '\x00' ∉ s.toList
  reg : n.property? "reg" = some (Property.ofCells (regions.flatMap Region.cells))

/-- Entry number `dbi` begins with the controller's root port block, and entry number `config` is
its config window. -/
structure Controller.BlocksAt (c : Controller) (regions : List Region) (dbi config : Nat) :
    Prop where
  dbi : (regions[dbi]?).map (·.base) = some c.dbi
  config : regions[config]? = some ⟨c.config, c.configSize⟩

theorem Controller.BlocksAt.unique {c : Controller} {regions : List Region} {i j i' j' : Nat}
    (hbases : (regions.map (·.base)).Nodup) (h : c.BlocksAt regions i j)
    (h' : c.BlocksAt regions i' j') : i = i' ∧ j = j' := by
  have base (k : Nat) : (regions.map (·.base))[k]? = (regions[k]?).map (·.base) :=
    List.getElem?_map
  have same {k k' : Nat} {a : Address} (hk : (regions[k]?).map (·.base) = some a)
      (hk' : (regions[k']?).map (·.base) = some a) : k = k' := by
    rw [← base] at hk hk'
    have hlt := (List.getElem?_eq_some_iff.mp hk).1
    exact (List.getElem?_inj hlt hbases).mp (hk.trans hk'.symm)
  refine ⟨same h.dbi h'.dbi, same (a := c.config) ?_ ?_⟩
  · rw [h.config]
    rfl
  · rw [h'.config]
    rfl

namespace Node.Declares

variable {n : Node} {names : List String} {regions : List Region} {c : Controller}

theorem spells (h : n.Declares names regions) {list : List String}
    (hlist : n.Spells "reg-names" list) : list = names.filter (· ≠ "") := by
  obtain ⟨bytes, hbytes, hpieces⟩ := hlist
  obtain rfl := Option.mem_unique hbytes h.regNames
  have read := Property.strings_ofStrings_of_free h.free
  rw [Property.strings_eq_ok_iff.mpr hpieces] at read
  exact Except.ok.inj read

theorem regions_eq (h : n.Declares names regions) {found : List Region}
    (hfound : n.regions = .ok found) : found = regions := by
  obtain ⟨cells, hcells, hfound⟩ := Except.bind_eq_ok.mp hfound
  obtain ⟨bytes, hbytes, hread⟩ := requireCells_eq_ok.mp hcells
  obtain rfl := Option.mem_unique hbytes h.reg
  rw [Property.readCells?_ofCells] at hread
  cases hread
  rw [Region.ofCells?_cells] at hfound
  split at hfound
  · rename_i region rest heq
    cases hfound
    exact (Option.some.inj heq).symm
  · cases hfound

theorem blocksAt (h : n.Declares names regions) (hc : Controller.ofNode Bm1000.soc n = .ok c) :
    ∃ i j, names.idxOf? "dbi" = some i ∧ names.idxOf? "config" = some j ∧
      c.BlocksAt regions (placeRead names i) (placeRead names j) := by
  obtain ⟨p, _, _, _, _, _, hp, -, -, -, -, -, rfl⟩ := Controller.ofNode_eq_ok.mp hc
  obtain ⟨found, hfound, hlocated, -⟩ := Placement.ofNode_eq_ok.mp hp
  obtain rfl := h.regions_eq hfound
  rcases Placement.locate_eq_ok hlocated with ⟨_, _, list, -, hlist, hd, hconfig, -⟩ |
    ⟨_, _, hblocks, -⟩
  · obtain rfl := h.spells hlist
    obtain ⟨i, hi, hd⟩ := (Placement.namedRegion_filter_eq_ok (by decide)).mp hd
    obtain ⟨j, hj, hconfig⟩ := (Placement.namedRegion_filter_eq_ok (by decide)).mp hconfig
    exact ⟨i, j, hi, hj, by rw [hd]; rfl, hconfig⟩
  · cases hblocks

end Node.Declares

/-- A controller that is accepted on BM1000 has the blocks at the places of `dbi` and `config` among
the names that are not empty. These are their own places in the list of names as long as no empty
name stands before them, and only then if no two entries begin alike. -/
theorem region_names_select_iff {nodes : List Node} {n : Node} {c : Controller}
    {names : List String} {regions : List Region}
    (accepted : (n, Verdict.accepted c) ∈ Topology.verdicts Bm1000.soc nodes)
    (h : n.Declares names regions) :
    c ∈ (Topology.load Bm1000.soc nodes).controllers ∧
    ∃ i j, names.idxOf? "dbi" = some i ∧ names.idxOf? "config" = some j ∧
      c.BlocksAt regions (placeRead names i) (placeRead names j) ∧
      ("" ∉ names.take i → "" ∉ names.take j → c.BlocksAt regions i j) ∧
      ((regions.map (·.base)).Nodup →
        (c.BlocksAt regions i j ↔ "" ∉ names.take i ∧ "" ∉ names.take j)) := by
  have loaded : c ∈ (Topology.load Bm1000.soc nodes).controllers :=
    Topology.mem_controllers.mpr (List.mem_filterMap.mpr ⟨_, accepted, rfl⟩)
  obtain ⟨i, j, hi, hj, blocks⟩ := h.blocksAt (Topology.ofNode_of_mem_verdictsAfter accepted).1
  have hi' : placeRead names i = i ↔ "" ∉ names.take i :=
    placeRead_eq_iff (List.idxOf?_eq_some_iff.mp hi).1.le
  have hj' : placeRead names j = j ↔ "" ∉ names.take j :=
    placeRead_eq_iff (List.idxOf?_eq_some_iff.mp hj).1.le
  have own (hdbi : "" ∉ names.take i) (hconfig : "" ∉ names.take j) : c.BlocksAt regions i j := by
    rwa [hi'.mpr hdbi, hj'.mpr hconfig] at blocks
  refine ⟨loaded, i, j, hi, hj, blocks, own, fun hbases => ⟨fun hown => ?_, fun hfree => ?_⟩⟩
  · obtain ⟨hdbi, hconfig⟩ := blocks.unique hbases hown
    exact ⟨hi'.mp hdbi, hj'.mp hconfig⟩
  · exact own hfree.1 hfree.2

/-- The node with other names and other entries. -/
def Node.withRegions (n : Node) (names : List String) (regions : List Region) : Node :=
  (n.edit (.strings "reg-names" names)).edit (.cells "reg" (regions.flatMap Region.cells))

theorem Node.declares_withRegions (n : Node) {names : List String} (regions : List Region)
    (free : ∀ s ∈ names, '\x00' ∉ s.toList) :
    (n.withRegions names regions).Declares names regions where
  regNames := by
    rw [withRegions, property?_edit, property?_edit]
    rfl
  free := free
  reg := by
    rw [withRegions, property?_edit]
    rfl

/-- Five entries, of which two have the same name and one has none. -/
def repeatedEntries : List Region := [⟨0x03200000, 0x1000⟩, ⟨0x03300000, 0x1000⟩,
  ⟨0x1000000000, 0x10000000⟩, ⟨0x2000000000, 0x200000⟩, ⟨0x3000000000, 0x200000⟩]

def repeatedNamesNode : Node :=
  exampleNode.withRegions ["dbi", "dbi", "config", "", "config"] repeatedEntries

/-- The first entry of a name counts, and an empty name behind it moves nothing. -/
theorem region_names_select_iff_example :
    (repeatedNamesNode, Verdict.accepted exampleController) ∈
      Topology.verdicts Bm1000.soc [repeatedNamesNode] ∧
    repeatedNamesNode.Declares ["dbi", "dbi", "config", "", "config"] repeatedEntries ∧
    exampleController.BlocksAt repeatedEntries 0 2 := by
  have accepted : (repeatedNamesNode, Verdict.accepted exampleController) ∈
      Topology.verdicts Bm1000.soc [repeatedNamesNode] := by decide +kernel
  have declares : repeatedNamesNode.Declares ["dbi", "dbi", "config", "", "config"]
      repeatedEntries := exampleNode.declares_withRegions repeatedEntries (by decide)
  obtain ⟨-, i, j, hi, hj, -, -, selects⟩ := region_names_select_iff accepted declares
  obtain rfl : 0 = i := Option.some.inj (Eq.trans (by decide) hi)
  obtain rfl : 2 = j := Option.some.inj (Eq.trans (by decide) hj)
  exact ⟨accepted, declares, (selects (by decide)).mpr (by decide)⟩

/-- Three entries, of which the first has no name. -/
def unnamedEntries : List Region :=
  [⟨0x03100000, 0x1000⟩, ⟨0x03200000, 0x200000⟩, ⟨0x1000000000, 0x10000000⟩]

def unnamedEntryNode : Node := exampleNode.withRegions ["", "dbi", "config"] unnamedEntries

/-- The node is accepted, with the entry that has no name as its root port block, and with the
entry that is named `dbi` as its config window. -/
theorem unnamed_entry_shifts_names :
    unnamedEntryNode.Declares ["", "dbi", "config"] unnamedEntries ∧
    ["", "dbi", "config"].idxOf? "dbi" = some 1 ∧ ["", "dbi", "config"].idxOf? "config" = some 2 ∧
    ∃ c, (unnamedEntryNode, Verdict.accepted c) ∈ Topology.verdicts Bm1000.soc [unnamedEntryNode] ∧
      c.BlocksAt unnamedEntries 0 1 ∧
      (unnamedEntries[1]?).map (·.base) ≠ some c.dbi ∧
      unnamedEntries[2]? ≠ some ⟨c.config, c.configSize⟩ := by
  refine ⟨exampleNode.declares_withRegions unnamedEntries (by decide), by decide, by decide,
    { exampleController with dbi := 0x03100000, config := 0x03200000, configSize := 0x200000 },
    ?accepted, ?blocks, by decide, by decide⟩
  case accepted => decide +kernel
  case blocks => exact ⟨rfl, rfl⟩

end RootComplex

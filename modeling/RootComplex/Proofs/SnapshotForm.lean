import Mathlib.Data.List.Forall2
import Mathlib.Data.Option.Basic
import RootComplex.DeviceTree.Tree
import RootComplex.Proofs.JsonReading
import RootComplex.Proofs.PropertyCodec

/-! # The JSON form of a device tree

A JSON value denotes a list of nodes, each with the properties that are set in it. A text that
spells such a value gives the tree that the builder gives for these nodes, and no other text gives
a tree. -/

namespace RootComplex

/-! ## The form -/

/-- What a property is set to. -/
inductive PropertyForm where
  | cells (list : List Word)
  | string (value : String)
  | strings (list : List String)

namespace PropertyForm

def bytes : PropertyForm → Bytes
  | cells list => Property.ofCells list
  | string value => Property.ofStrings [value]
  | strings list => Property.ofStrings list

/-- The step of a builder that sets the property. -/
def edit (name : String) : PropertyForm → Node.Edit
  | cells list => .cells name list
  | string value => .string name value
  | strings list => .strings name list

/-- An empty list is one of cells. -/
inductive Denotes : Json → PropertyForm → Prop where
  | cells (list : List Word) :
      Denotes (.array (list.map fun c => .natural c.toNat)) (.cells list)
  | string (value : String) : Denotes (.str value) (.string value)
  | strings {list : List String} (some : list ≠ []) :
      Denotes (.array (list.map Json.str)) (.strings list)

end PropertyForm

/-- A node with its properties in the order in which they are set. -/
structure NodeForm where
  name : String
  properties : List (String × PropertyForm)

namespace NodeForm

/-- What the builder makes of it. -/
def node (f : NodeForm) : Node := Node.build f.name (f.properties.map fun p => p.2.edit p.1)

/-- What a property is set to at last. -/
def property? (f : NodeForm) (p : String) : Option PropertyForm :=
  (f.properties.reverse.find? (·.1 = p)).map (·.2)

/-- The members of an object are properties. -/
inductive Lists : Json → List (String × PropertyForm) → Prop where
  | object {members : List (Option String × Json)} {properties : List (String × PropertyForm)}
      (h : List.Forall₂ (fun m p => m.1 = some p.1 ∧ p.2.Denotes m.2) members properties) :
      Lists (.object members) properties

end NodeForm

/-- The members are the given ones, in some order and among others whose names are not known. -/
def Json.Fields (members : List (Option String × Json)) (given : List (String × Json))
    (known : List String) : Prop :=
  ∃ others, members.Perm (given.map (fun m => (some m.1, m.2)) ++ others) ∧
    ∀ m ∈ others, ∃ name, m.1 = some name ∧ name ∉ known

/-- A node is an object, or a list of what its object gives by name. It may have no properties. -/
inductive NodeForm.Denotes : Json → NodeForm → Prop where
  | object {members : List (Option String × Json)} {properties : Json} {f : NodeForm}
      (h : Json.Fields members [("name", .str f.name), ("properties", properties)]
        ["name", "properties"])
      (hp : Lists properties f.properties) : Denotes (.object members) f
  | bareObject {members : List (Option String × Json)} {name : String}
      (h : Json.Fields members [("name", .str name)] ["name", "properties"]) :
      Denotes (.object members) ⟨name, []⟩
  | list {properties : Json} {f : NodeForm} (hp : Lists properties f.properties) :
      Denotes (.array [.str f.name, properties]) f
  | bareList (name : String) : Denotes (.array [.str name]) ⟨name, []⟩

inductive DeviceTree.Denotes : Json → List NodeForm → Prop where
  | object {members : List (Option String × Json)} {items : List Json} {forms : List NodeForm}
      (h : Json.Fields members [("nodes", .array items)] ["nodes"])
      (hs : List.Forall₂ NodeForm.Denotes items forms) : Denotes (.object members) forms
  | list {items : List Json} {forms : List NodeForm}
      (hs : List.Forall₂ NodeForm.Denotes items forms) : Denotes (.array [.array items]) forms

/-! ## Members by name -/

namespace DeviceTree

variable {members others : List (Option String × Json)} {name : String} {v : Json}

theorem uniqueMember?_eq_some_none :
    uniqueMember? name members = some none ↔ ∀ m ∈ members, m.1 ≠ some name := by
  unfold uniqueMember?
  constructor
  · intro h
    split at h
    · rename_i hnone
      simpa using hnone
    · cases h
    · cases h
  · intro h
    have none : members.filter (·.1 == some name) = [] := by simpa using h
    rw [none]

theorem uniqueMember?_cons_of_ne {m : Option String × Json} (h : m.1 ≠ some name) :
    uniqueMember? name (m :: members) = uniqueMember? name members := by
  unfold uniqueMember?
  rw [List.filter_cons_of_neg (by simpa using h)]

theorem uniqueMember?_cons_self (h : ∀ m ∈ others, m.1 ≠ some name) :
    uniqueMember? name ((some name, v) :: others) = some (some v) := by
  have none : others.filter (·.1 == some name) = [] := by simpa using h
  unfold uniqueMember?
  rw [List.filter_cons_of_pos (by simp), none]

/-- The order of the members does not matter. -/
theorem uniqueMember?_perm (h : members.Perm others) :
    uniqueMember? name members = uniqueMember? name others := by
  have kept := h.filter (·.1 == some name)
  unfold uniqueMember?
  generalize members.filter (·.1 == some name) = l at kept ⊢
  generalize others.filter (·.1 == some name) = r at kept ⊢
  rcases l with _ | ⟨a, _ | ⟨b, l⟩⟩
  · rw [List.nil_perm.mp kept]
  · rw [List.singleton_perm.mp kept]
  · have more := kept.length_eq
    rcases r with _ | ⟨c, _ | ⟨d, r⟩⟩
    · cases more
    · cases more
    · rfl

/-- A member that is given once can be taken out. -/
theorem exists_perm_of_uniqueMember? (h : uniqueMember? name members = some (some v)) :
    ∃ others, members.Perm ((some name, v) :: others) ∧ ∀ m ∈ others, m.1 ≠ some name := by
  have split := (List.filter_append_perm (·.1 == some name) members).symm
  unfold uniqueMember? at h
  split at h
  · cases h
  · rename_i key value hone
    cases h
    rw [hone] at split
    have key : (key, v) ∈ members.filter (·.1 == some name) := by
      rw [hone]
      exact List.mem_singleton_self _
    obtain rfl : _ = some name := by simpa using (List.mem_filter.mp key).2
    refine ⟨_, split, fun m hm => ?_⟩
    simpa using (List.mem_filter.mp hm).2
  · cases h

/-- Known members are given once at most, and the others have names. -/
theorem fields_iff {given : List (String × Json)} {known : List String}
    (nodup : (given.map (·.1)).Nodup) (sub : ∀ m ∈ given, m.1 ∈ known) :
    Json.Fields members given known ↔ namesAreText members = true ∧
      ∀ name ∈ known, uniqueMember? name members = some (given.lookup name) := by
  induction given generalizing members with
  | nil =>
    have named : namesAreText members = true ↔ ∀ m ∈ members, ∃ name, m.1 = some name := by
      simp [namesAreText, Option.isSome_iff_exists]
    simp only [Json.Fields, List.map_nil, List.nil_append, List.lookup_nil,
      uniqueMember?_eq_some_none, named]
    constructor
    · rintro ⟨others, perm, unknown⟩
      refine ⟨fun m hm => ?_, fun name hname m hm hm1 => ?_⟩
      · obtain ⟨name, h, -⟩ := unknown m (perm.mem_iff.mp hm)
        exact ⟨name, h⟩
      · obtain ⟨_, h, hnot⟩ := unknown m (perm.mem_iff.mp hm)
        cases hm1.symm.trans h
        exact hnot hname
    · rintro ⟨named, absent⟩
      refine ⟨members, .refl _, fun m hm => ?_⟩
      obtain ⟨name, h⟩ := named m hm
      exact ⟨name, h, fun hname => absent name hname m hm h⟩
  | cons first given ih =>
    obtain ⟨key, value⟩ := first
    obtain ⟨fresh, nodup⟩ := List.nodup_cons.mp nodup
    obtain ⟨hkey, sub⟩ := List.forall_mem_cons.mp sub
    have absent : given.lookup key = none := by
      refine List.lookup_eq_none_iff.mpr fun m hm => bne_iff_ne.mpr fun h => fresh ?_
      exact List.mem_map.mpr ⟨m, hm, h.symm⟩
    have other {name : String} (h : name ≠ key) :
        ((key, value) :: given).lookup name = given.lookup name := by
      rw [List.lookup_cons, beq_false_of_ne h]
    have apart {name : String} (h : name ≠ key) : ((some key, value) : Option String × Json).1 ≠
        some name := fun heq => h (Option.some.inj heq).symm
    constructor
    · rintro ⟨others, perm, unknown⟩
      obtain ⟨named, once⟩ := (ih nodup sub).mp ⟨others, .refl _, unknown⟩
      have free := once key hkey
      rw [absent, uniqueMember?_eq_some_none] at free
      refine ⟨?_, fun name hname => ?_⟩
      · rw [namesAreText, perm.all_eq]
        exact named
      · rw [uniqueMember?_perm perm, List.map_cons, List.cons_append]
        by_cases h : name = key
        · rw [h, uniqueMember?_cons_self free, List.lookup_cons_self]
        · rw [uniqueMember?_cons_of_ne (apart h), once name hname, other h]
    · rintro ⟨named, once⟩
      have found := once key hkey
      rw [List.lookup_cons_self] at found
      obtain ⟨rest, perm, free⟩ := exists_perm_of_uniqueMember? found
      rw [namesAreText, perm.all_eq, List.all_cons] at named
      have later : ∀ name ∈ known, uniqueMember? name rest = some (given.lookup name) := by
        intro name hname
        by_cases h : name = key
        · rw [h, absent]
          exact uniqueMember?_eq_some_none.mpr free
        · rw [← other h, ← once name hname, uniqueMember?_perm perm,
            uniqueMember?_cons_of_ne (apart h)]
      obtain ⟨others, hrest, unknown⟩ :=
        (ih nodup sub).mpr ⟨(Bool.and_eq_true_iff.mp named).2, later⟩
      exact ⟨others, perm.trans (hrest.cons _), unknown⟩

/-! ## Lists of values -/

section Lists

variable {α β γ : Type} {f : α → Option β} {R : α → γ → Prop} {g : γ → β}

/-- A list is read if every element of it is, and gives what they give. -/
theorem mapM_eq_some_iff (h : ∀ a b, f a = some b ↔ ∃ c, R a c ∧ g c = b) {l : List α}
    {r : List β} : l.mapM f = some r ↔ ∃ cs, List.Forall₂ R l cs ∧ cs.map g = r := by
  induction l generalizing r with
  | nil =>
    constructor
    · intro hr
      exact ⟨[], .nil, Option.some.inj hr⟩
    · rintro ⟨cs, hcs, rfl⟩
      cases hcs
      rfl
  | cons a l ih =>
    rw [List.mapM_cons]
    constructor
    · intro hr
      obtain ⟨b, hb, hr⟩ := Option.bind_eq_some_iff.mp hr
      obtain ⟨bs, hbs, hr⟩ := Option.bind_eq_some_iff.mp hr
      cases hr
      obtain ⟨c, hc, rfl⟩ := (h a b).mp hb
      obtain ⟨cs, hcs, rfl⟩ := ih.mp hbs
      exact ⟨c :: cs, .cons hc hcs, rfl⟩
    · rintro ⟨cs, hcs, rfl⟩
      cases hcs with
      | @cons _ c _ cs hc hcs =>
        rw [(h a (g c)).mpr ⟨c, hc, rfl⟩, ih.mpr ⟨cs, hcs, rfl⟩]
        rfl

/-- A list each of whose values is read from one element only is read from one list only. -/
theorem mapM_eq_some_map_iff {g : β → α} (h : ∀ a b, f a = some b ↔ a = g b) {l : List α}
    {r : List β} : l.mapM f = some r ↔ l = r.map g := by
  have each (a : α) (b : β) : f a = some b ↔ ∃ c, a = g c ∧ id c = b := by
    rw [h]
    simp
  rw [mapM_eq_some_iff each]
  simp only [List.map_id, exists_eq_right]
  rw [← List.forall₂_eq_eq_eq, List.forall₂_map_right_iff]

end Lists

theorem cellOfJson?_eq_some {j : Json} {c : Word} :
    cellOfJson? j = some c ↔ j = .natural c.toNat := by
  have count : Word.count = 2 ^ 32 := rfl
  constructor
  · intro h
    unfold cellOfJson? at h
    split at h
    · rename_i n
      split at h
      · rename_i hn
        cases h
        rw [BitVec.toNat_ofNat, Nat.mod_eq_of_lt (count ▸ hn)]
      · cases h
    · cases h
  · rintro rfl
    rw [cellOfJson?, if_pos (count ▸ c.isLt), BitVec.ofNat_toNat, BitVec.setWidth_eq]

theorem text?_eq_some {j : Json} {s : String} : j.text? = some s ↔ j = .str s := by
  constructor
  · intro h
    unfold Json.text? at h
    split at h
    · rw [h]
      rfl
    · cases h
  · rintro rfl
    rfl

theorem mapM_cellOfJson? {items : List Json} {list : List Word} :
    items.mapM cellOfJson? = some list ↔ items = list.map fun c => .natural c.toNat :=
  mapM_eq_some_map_iff fun _ _ => cellOfJson?_eq_some

theorem mapM_text? {items : List Json} {list : List String} :
    items.mapM Json.text? = some list ↔ items = list.map Json.str :=
  mapM_eq_some_map_iff fun _ _ => text?_eq_some

/-! ## What is read from a value -/

theorem valueOfJson?_eq_some {j : Json} {bytes : Bytes} :
    valueOfJson? j = some bytes ↔ ∃ f : PropertyForm, f.Denotes j ∧ f.bytes = bytes := by
  constructor
  · intro h
    unfold valueOfJson? at h
    split at h
    · rename_i s
      exact ⟨.string s, .string s, Option.some.inj h⟩
    · rename_i items
      split at h
      · rename_i list hlist
        obtain rfl := mapM_cellOfJson?.mp hlist
        exact ⟨.cells list, .cells list, Option.some.inj h⟩
      · rename_i hnone
        obtain ⟨list, hlist, hbytes⟩ := Option.map_eq_some_iff.mp h
        obtain rfl := mapM_text?.mp hlist
        refine ⟨.strings list, .strings ?_, hbytes⟩
        rintro rfl
        cases hnone
    · cases h
  · rintro ⟨f, denotes, rfl⟩
    cases denotes with
    | cells list =>
      rw [valueOfJson?, mapM_cellOfJson?.mpr rfl]
      rfl
    | string s => rfl
    | @strings list nonempty =>
      have none : (list.map Json.str).mapM cellOfJson? = none := by
        obtain ⟨s, rest, rfl⟩ := List.exists_cons_of_ne_nil nonempty
        rfl
      rw [valueOfJson?, none, mapM_text?.mpr rfl]
      rfl

theorem propertyOfJson?_eq_some (m : Option String × Json) (pair : String × Bytes) :
    propertyOfJson? m = some pair ↔ ∃ p : String × PropertyForm,
      (m.1 = some p.1 ∧ p.2.Denotes m.2) ∧ (p.1, p.2.bytes) = pair := by
  obtain ⟨key, value⟩ := m
  cases key with
  | none => simp [propertyOfJson?]
  | some name =>
    rw [propertyOfJson?, Option.map_eq_some_iff]
    constructor
    · rintro ⟨bytes, hbytes, rfl⟩
      obtain ⟨f, denotes, rfl⟩ := valueOfJson?_eq_some.mp hbytes
      exact ⟨(name, f), ⟨rfl, denotes⟩, rfl⟩
    · rintro ⟨⟨other, f⟩, ⟨hname, denotes⟩, rfl⟩
      cases hname
      exact ⟨f.bytes, valueOfJson?_eq_some.mpr ⟨f, denotes, rfl⟩, rfl⟩

/-- A builder sets the properties one after the other. -/
theorem foldl_insert (name : String) (properties : List (String × PropertyForm)) :
    (properties.map fun p => (p.1, p.2.bytes)).foldl (fun node p => node.insert p.1 p.2)
      (Node.empty name) = (NodeForm.mk name properties).node := by
  rw [NodeForm.node, Node.build, List.foldl_map, List.foldl_map]
  congr 1
  funext node p
  cases p.2 <;> rfl

theorem propertiesOfJson?_eq_some {name : String} {j : Json} {node : Node} :
    propertiesOfJson? name j = some node ↔
      ∃ properties, NodeForm.Lists j properties ∧ (NodeForm.mk name properties).node = node := by
  constructor
  · intro h
    unfold propertiesOfJson? at h
    split at h
    · obtain ⟨pairs, hpairs, rfl⟩ := Option.map_eq_some_iff.mp h
      obtain ⟨properties, hall, rfl⟩ := (mapM_eq_some_iff propertyOfJson?_eq_some).mp hpairs
      exact ⟨properties, .object hall, (foldl_insert name properties).symm⟩
    · cases h
  · rintro ⟨properties, ⟨hall⟩, rfl⟩
    rw [propertiesOfJson?, (mapM_eq_some_iff propertyOfJson?_eq_some).mpr ⟨properties, hall, rfl⟩,
      Option.map_some, foldl_insert]

theorem nodeOfParts?_none {j : Json} {node : Node} :
    nodeOfParts? j none = some node ↔ ∃ name, j = .str name ∧ (NodeForm.mk name []).node = node := by
  unfold nodeOfParts?
  simp only [Option.bind_eq_bind, Option.bind_eq_some_iff, text?_eq_some, Option.some.injEq]
  rfl

theorem nodeOfParts?_some {j properties : Json} {node : Node} :
    nodeOfParts? j (some properties) = some node ↔
      ∃ f : NodeForm, j = .str f.name ∧ NodeForm.Lists properties f.properties ∧ f.node = node := by
  unfold nodeOfParts?
  simp only [Option.bind_eq_bind, Option.bind_eq_some_iff, text?_eq_some,
    propertiesOfJson?_eq_some]
  constructor
  · rintro ⟨name, hname, list, hlist, hnode⟩
    exact ⟨⟨name, list⟩, hname, hlist, hnode⟩
  · rintro ⟨⟨name, list⟩, hname, hlist, hnode⟩
    exact ⟨name, hname, list, hlist, hnode⟩

/-- The members of a node, as they are looked up. -/
theorem fields_node {name : Json} {properties : Option Json} :
    Json.Fields members (("name", name) :: properties.toList.map (("properties", ·)))
        ["name", "properties"] ↔
      namesAreText members = true ∧ uniqueMember? "name" members = some (some name) ∧
        uniqueMember? "properties" members = some properties := by
  cases properties with
  | none =>
    rw [fields_iff (by simp) (by simp)]
    simp [List.lookup_cons]
  | some properties =>
    rw [fields_iff (by simp) (by simp)]
    simp [List.lookup_cons]

theorem nodeOfJson?_object {node : Node} : nodeOfJson? (.object members) = some node ↔
    ∃ name properties, Json.Fields members
      (("name", name) :: properties.toList.map (("properties", ·))) ["name", "properties"] ∧
      nodeOfParts? name properties = some node := by
  simp only [fields_node]
  unfold nodeOfJson?
  simp only [Option.bind_eq_bind, Option.bind_eq_some_iff, Option.guard_eq_some']
  constructor
  · rintro ⟨_, named, _, hname, name, rfl, properties, hproperties, hnode⟩
    exact ⟨name, properties, ⟨named, hname, hproperties⟩, hnode⟩
  · rintro ⟨name, properties, ⟨named, hname, hproperties⟩, hnode⟩
    exact ⟨(), named, _, hname, name, rfl, properties, hproperties, hnode⟩

theorem nodeOfJson?_eq_some (j : Json) (node : Node) :
    nodeOfJson? j = some node ↔ ∃ f : NodeForm, f.Denotes j ∧ f.node = node := by
  constructor
  · intro h
    cases j with
    | object members =>
      obtain ⟨name, properties, fields, hnode⟩ := nodeOfJson?_object.mp h
      cases properties with
      | none =>
        obtain ⟨name, rfl, rfl⟩ := nodeOfParts?_none.mp hnode
        exact ⟨_, .bareObject fields, rfl⟩
      | some properties =>
        obtain ⟨f, rfl, lists, rfl⟩ := nodeOfParts?_some.mp hnode
        exact ⟨f, .object fields lists, rfl⟩
    | array items =>
      rcases items with _ | ⟨name, _ | ⟨properties, _ | ⟨_, _⟩⟩⟩
      · cases h
      · obtain ⟨name, rfl, rfl⟩ := nodeOfParts?_none.mp h
        exact ⟨_, .bareList name, rfl⟩
      · obtain ⟨f, rfl, lists, rfl⟩ := nodeOfParts?_some.mp h
        exact ⟨f, .list lists, rfl⟩
      · cases h
    | _ => cases h
  · rintro ⟨f, denotes, rfl⟩
    cases denotes with
    | @object members properties _ fields lists =>
      exact nodeOfJson?_object.mpr
        ⟨_, some properties, fields, nodeOfParts?_some.mpr ⟨f, rfl, lists, rfl⟩⟩
    | bareObject fields =>
      exact nodeOfJson?_object.mpr ⟨_, none, fields, nodeOfParts?_none.mpr ⟨_, rfl, rfl⟩⟩
    | list lists => exact nodeOfParts?_some.mpr ⟨f, rfl, lists, rfl⟩
    | bareList name => exact nodeOfParts?_none.mpr ⟨name, rfl, rfl⟩

theorem nodesOfJson?_eq_some {j : Json} {t : DeviceTree} :
    nodesOfJson? j = some t ↔ ∃ items forms, j = .array items ∧
      List.Forall₂ NodeForm.Denotes items forms ∧ ⟨forms.map (·.node)⟩ = t := by
  cases j with
  | array items =>
    unfold nodesOfJson?
    simp only [Json.items?, Option.bind_eq_bind, Option.bind_some, Option.bind_eq_some_iff,
      mapM_eq_some_iff nodeOfJson?_eq_some, Option.some.injEq]
    constructor
    · rintro ⟨_, ⟨forms, hall, rfl⟩, rfl⟩
      exact ⟨items, forms, rfl, hall, rfl⟩
    · rintro ⟨_, forms, heq, hall, rfl⟩
      cases heq
      exact ⟨_, ⟨forms, hall, rfl⟩, rfl⟩
  | _ =>
    refine iff_of_false (fun h => nomatch h) ?_
    rintro ⟨_, _, heq, -⟩
    cases heq

theorem ofJson?_object {t : DeviceTree} : ofJson? (.object members) = some t ↔
    ∃ nodes, Json.Fields members [("nodes", nodes)] ["nodes"] ∧ nodesOfJson? nodes = some t := by
  have fields (nodes : Json) : Json.Fields members [("nodes", nodes)] ["nodes"] ↔
      namesAreText members = true ∧ uniqueMember? "nodes" members = some (some nodes) := by
    rw [fields_iff (by simp) (by simp)]
    simp [List.lookup_cons]
  simp only [fields]
  unfold ofJson?
  simp only [Option.bind_eq_bind, Option.bind_eq_some_iff, Option.guard_eq_some']
  constructor
  · rintro ⟨_, named, _, hnodes, nodes, rfl, ht⟩
    exact ⟨nodes, ⟨named, hnodes⟩, ht⟩
  · rintro ⟨nodes, ⟨named, hnodes⟩, ht⟩
    exact ⟨(), named, _, hnodes, nodes, rfl, ht⟩

theorem ofJson?_eq_some {j : Json} {t : DeviceTree} :
    ofJson? j = some t ↔ ∃ forms, Denotes j forms ∧ ⟨forms.map (·.node)⟩ = t := by
  constructor
  · intro h
    cases j with
    | object members =>
      obtain ⟨nodes, fields, hnodes⟩ := ofJson?_object.mp h
      obtain ⟨items, forms, rfl, hall, rfl⟩ := nodesOfJson?_eq_some.mp hnodes
      exact ⟨forms, .object fields hall, rfl⟩
    | array items =>
      rcases items with _ | ⟨nodes, _ | ⟨_, _⟩⟩
      · cases h
      · obtain ⟨items, forms, rfl, hall, rfl⟩ := nodesOfJson?_eq_some.mp h
        exact ⟨forms, .list hall, rfl⟩
      · cases h
    | _ => cases h
  · rintro ⟨forms, denotes, rfl⟩
    cases denotes with
    | object fields hall =>
      exact ofJson?_object.mpr ⟨_, fields, nodesOfJson?_eq_some.mpr ⟨_, forms, rfl, hall, rfl⟩⟩
    | list hall => exact nodesOfJson?_eq_some.mpr ⟨_, forms, rfl, hall, rfl⟩

/-- The text spells a value that denotes the nodes. -/
def Snapshot (text : String) (forms : List NodeForm) : Prop :=
  ∃ j, Json.Spells text j ∧ Denotes j forms

theorem parse?_eq_some {text : String} {t : DeviceTree} :
    parse? text = some t ↔ ∃ forms, Snapshot text forms ∧ ⟨forms.map (·.node)⟩ = t := by
  rw [parse?, Option.bind_eq_some_iff]
  constructor
  · rintro ⟨j, hj, ht⟩
    obtain ⟨forms, denotes, rfl⟩ := ofJson?_eq_some.mp ht
    exact ⟨forms, ⟨j, Json.read?_eq_some_iff.mp hj, denotes⟩, rfl⟩
  · rintro ⟨forms, ⟨j, hj, denotes⟩, rfl⟩
    exact ⟨j, Json.read?_eq_some_iff.mpr hj, ofJson?_eq_some.mpr ⟨forms, denotes, rfl⟩⟩

theorem read_eq_ok {text : String} {t : DeviceTree} : read text = .ok t ↔ parse? text = some t := by
  unfold read
  cases parse? text <;> simp

theorem read_eq_error {text : String} :
    read text = .error invalidSnapshot ↔ ∀ forms, ¬Snapshot text forms := by
  have none : read text = .error invalidSnapshot ↔ parse? text = none := by
    unfold read
    cases parse? text <;> simp
  rw [none, Option.eq_none_iff_forall_ne_some]
  constructor
  · intro h forms snapshot
    exact h _ (parse?_eq_some.mpr ⟨forms, snapshot, rfl⟩)
  · rintro h t ht
    obtain ⟨forms, snapshot, -⟩ := parse?_eq_some.mp ht
    exact h forms snapshot

end DeviceTree

/-! ## Writing the form -/

def PropertyForm.json : PropertyForm → Json
  | cells list => .array (list.map fun c => .natural c.toNat)
  | string value => .str value
  | strings list => .array (list.map Json.str)

namespace NodeForm

def json (f : NodeForm) : Json :=
  .ofMembers [("name", .str f.name),
    ("properties", .ofMembers (f.properties.map fun p => (p.1, p.2.json)))]

def treeJson (forms : List NodeForm) : Json := .ofMembers [("nodes", .array (forms.map json))]

end NodeForm

namespace DeviceTree

theorem mapM_map_eq_some {α β γ : Type} {f : α → Option β} {g : γ → α} {k : γ → β}
    (h : ∀ c, f (g c) = some (k c)) (l : List γ) : (l.map g).mapM f = some (l.map k) := by
  induction l with
  | nil => rfl
  | cons c l ih =>
    rw [List.map_cons, List.mapM_cons, h c, ih]
    rfl

/-- An empty list of strings has the bytes of an empty list of cells. -/
theorem valueOfJson?_json (f : PropertyForm) : valueOfJson? f.json = some f.bytes := by
  cases f with
  | cells list => exact valueOfJson?_eq_some.mpr ⟨_, .cells list, rfl⟩
  | string value => rfl
  | strings list =>
    by_cases h : list = []
    · rw [h]
      rfl
    · exact valueOfJson?_eq_some.mpr ⟨_, .strings h, rfl⟩

theorem fields_given (given : List (String × Json)) (known : List String) :
    Json.Fields (given.map fun m => (some m.1, m.2)) given known :=
  ⟨[], by rw [List.append_nil], fun m hm => absurd hm List.not_mem_nil⟩

theorem nodeOfJson?_json (f : NodeForm) : nodeOfJson? f.json = some f.node := by
  have each (p : String × PropertyForm) :
      propertyOfJson? (some p.1, p.2.json) = some (p.1, p.2.bytes) := by
    rw [propertyOfJson?, valueOfJson?_json, Option.map_some]
  have properties : propertiesOfJson? f.name
      (.ofMembers (f.properties.map fun p => (p.1, p.2.json))) = some f.node := by
    have all := mapM_map_eq_some each f.properties
    rw [Json.ofMembers, List.map_map, propertiesOfJson?]
    exact (congrArg (Option.map _) all).trans (congrArg some (foldl_insert f.name f.properties))
  exact nodeOfJson?_object.mpr ⟨.str f.name, some _, fields_given _ _, properties⟩

theorem ofJson?_treeJson (forms : List NodeForm) :
    ofJson? (NodeForm.treeJson forms) = some ⟨forms.map (·.node)⟩ := by
  refine ofJson?_object.mpr ⟨_, fields_given _ _, ?_⟩
  rw [nodesOfJson?, Json.items?]
  simp only [Option.bind_eq_bind, Option.bind_some, mapM_map_eq_some nodeOfJson?_json]

theorem spellable_treeJson (forms : List NodeForm) : (NodeForm.treeJson forms).Spellable := by
  have property (f : PropertyForm) : f.json.Spellable := by
    cases f with
    | cells list => exact .array (List.forall_mem_map.mpr fun c _ => .natural _)
    | string value => exact .str value
    | strings list => exact .array (List.forall_mem_map.mpr fun s _ => .str s)
  have node (f : NodeForm) : f.json.Spellable :=
    .object (List.forall_mem_cons.mpr ⟨.str _, List.forall_mem_singleton.mpr
      (.object (List.forall_mem_map.mpr fun p _ => property p.2))⟩)
  exact .object (List.forall_mem_singleton.mpr
    (.array (List.forall_mem_map.mpr fun f _ => node f)))

/-- Every tree that the builder makes has a text. -/
theorem exists_parse? (forms : List NodeForm) :
    ∃ text, parse? text = some ⟨forms.map (·.node)⟩ := by
  obtain ⟨text, spells⟩ := (spellable_treeJson forms).exists_text
  refine ⟨text, ?_⟩
  rw [parse?, Json.read?_eq_some_iff.mpr spells]
  exact ofJson?_treeJson forms

end DeviceTree

/-! ## What the builder makes of a node -/

namespace Node

theorem name_build (name : String) (edits : List Edit) : (build name edits).name = name := by
  induction edits using List.reverseRecOn with
  | nil => rfl
  | append_singleton edits e ih =>
    rw [build, List.foldl_append]
    cases e <;> exact ih

end Node

namespace NodeForm

theorem property?_node (f : NodeForm) (p : String) :
    f.node.property? p = (f.property? p).map PropertyForm.bytes := by
  have target (q : String × PropertyForm) : (q.2.edit q.1).target = q.1 := by
    cases q.2 <;> rfl
  have value (q : String × PropertyForm) : (q.2.edit q.1).value? = some q.2.bytes := by
    cases q.2 <;> rfl
  rw [node, Node.property?_build, Node.lastEdit?, ← List.map_reverse, List.find?_map, property?]
  simp only [Function.comp_def, target]
  cases f.properties.reverse.find? (·.1 = p) with
  | none => rfl
  | some q => exact value q

end NodeForm

/-- A text that denotes nodes is read as the tree that the builder makes of them, whatever its
white space, escapes, order of members and unknown members; any other text is refused as a whole.
A property is what it is set to at last. Every tree that the builder makes is read from some
text. -/
theorem json_form_exact :
    (∀ text forms, DeviceTree.Snapshot text forms →
      DeviceTree.read text = .ok ⟨forms.map (·.node)⟩) ∧
    (∀ text, DeviceTree.read text = .error DeviceTree.invalidSnapshot ↔
      ∀ forms, ¬DeviceTree.Snapshot text forms) ∧
    (∀ (f : NodeForm) (p : String), f.node.name = f.name ∧
      f.node.property? p = (f.property? p).map PropertyForm.bytes) ∧
    ∀ forms : List NodeForm, ∃ text, DeviceTree.read text = .ok ⟨forms.map (·.node)⟩ := by
  refine ⟨fun text forms h => ?_, fun text => DeviceTree.read_eq_error,
    fun f p => ⟨Node.name_build _ _, f.property?_node p⟩, fun forms => ?_⟩
  · exact DeviceTree.read_eq_ok.mpr (DeviceTree.parse?_eq_some.mpr ⟨forms, h, rfl⟩)
  · obtain ⟨text, h⟩ := DeviceTree.exists_parse? forms
    exact ⟨text, DeviceTree.read_eq_ok.mpr h⟩

/-- A node given by its list, and one whose members come in another order, with a property that is
set twice, once by an escaped name. A tree whose nodes are a number is refused. -/
theorem json_form_exact_example :
    (∃ forms, DeviceTree.Snapshot "\x7b\"v\": [1.5, \"\\ud800\"], \"nodes\" : [[\"bare\"],
        \x7b\"properties\": \x7b\"reg\": \"x\", \"\\u0072eg\": [4294967295], \"none\": []\x7d,
          \"name\": \"pcie\"\x7d]\x7d" forms ∧
      forms.map (·.node) =
        [⟨"bare", []⟩, ⟨"pcie", [("none", []), ("reg", [0xFF, 0xFF, 0xFF, 0xFF])]⟩]) ∧
    ∀ forms, ¬DeviceTree.Snapshot "\x7b\"nodes\": 5\x7d" forms := by
  have denoted {text : String} {nodes : List Node} (h : DeviceTree.read text = .ok ⟨nodes⟩) :
      ∃ forms, DeviceTree.Snapshot text forms ∧ forms.map (·.node) = nodes := by
    obtain ⟨forms, snapshot⟩ : ∃ forms, DeviceTree.Snapshot text forms := by
      refine not_forall_not.mp fun none => ?_
      rw [(json_form_exact.2.1 text).mpr none] at h
      cases h
    rw [json_form_exact.1 text forms snapshot] at h
    exact ⟨forms, snapshot, congrArg DeviceTree.nodes (Except.ok.inj h)⟩
  exact ⟨denoted (by decide +kernel), (json_form_exact.2.1 _).mp (by decide +kernel)⟩

end RootComplex

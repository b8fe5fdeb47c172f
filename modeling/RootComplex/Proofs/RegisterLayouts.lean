import Mathlib.Algebra.Group.Nat.Defs
import Mathlib.Data.List.Induction
import Mathlib.Data.List.Nodup
import Mathlib.Data.List.Pairwise
import RootComplex.Register.Catalogue

/-! # Register layouts

A register type is declared by its members from bit 0 up, fields and gaps of reserved bits, which
fill it together. Its layout has the fields at the places that the declaration gives them. Whatever
a register held at first, after any assignments each field reads what it was last given, and every
bit outside the fields that were assigned is as it was. A value that does not fit is refused. -/

namespace RootComplex

/-! ## Fields -/

namespace Field

variable {w : Nat} {f g : Field w} {v : Nat} {r s : BitVec w}

theorem set?_eq_some : f.set? v r = some s ↔ v < 2 ^ f.width ∧ s = f.set v r := by
  have fits : (BitVec.ofNat f.width v).toNat = v ↔ v < 2 ^ f.width := by
    rw [BitVec.toNat_ofNat, Nat.mod_eq_iff_lt (Nat.ne_of_gt (Nat.two_pow_pos _))]
  unfold set?
  by_cases h : v < 2 ^ f.width
  · rw [if_pos (fits.mpr h), Option.some.injEq, and_iff_right h, eq_comm]
  · rw [if_neg (mt fits.mp h)]
    exact iff_of_false (by rintro ⟨⟩) (fun hs => h hs.1)

theorem test_eq_getLsbD_bitsOf (h : 0 < f.width) : f.test r = (f.bitsOf r).getLsbD 0 := by
  rw [getLsbD_bitsOf, decide_eq_true h, Bool.true_and, Nat.add_zero, test]

end Field

namespace NamedField

variable {w : Nat}

/-- A flag is one bit. -/
def Proper (f : NamedField w) : Prop := f.kind = .flag → f.field.width = 1

instance (f : NamedField w) : Decidable f.Proper := inferInstanceAs (Decidable (_ → _))

/-- The field has room for the value. Of a flag it only counts whether the value is zero. -/
def Takes (f : NamedField w) (v : Nat) : Prop := f.kind = .number → v < 2 ^ f.field.width

/-- The bits that stand for the value. -/
def code (f : NamedField w) (v : Nat) : Nat :=
  match f.kind with
  | .number => v
  | .flag => (v != 0).toNat

/-- What the field reads when it has the value. -/
def reading (f : NamedField w) (v : Nat) : FieldValue :=
  match f.kind with
  | .number => .number v
  | .flag => .flag (v != 0)

variable {f : NamedField w} {v : Nat} {r s : BitVec w}

theorem assign?_eq_some : f.assign? v r = some s ↔ f.Takes v ∧ s = f.field.set (f.code v) r := by
  unfold assign? Takes code
  cases f.kind with
  | number => simp [Field.set?_eq_some]
  | flag => simp [Field.put, eq_comm]

theorem value_set (hf : f.Proper) (hv : f.Takes v) :
    f.value (f.field.set (f.code v) r) = f.reading v := by
  unfold Proper at hf
  unfold Takes at hv
  unfold value code reading
  cases hkind : f.kind with
  | number =>
    dsimp only
    rw [Field.get_set, BitVec.toNat_ofNat, Nat.mod_eq_of_lt (hv hkind)]
  | flag =>
    have hwidth := hf hkind
    dsimp only
    rw [Field.test_eq_getLsbD_bitsOf (by omega), Field.bitsOf_set, BitVec.getLsbD_ofNat, hwidth]
    cases v != 0 <;> rfl

theorem value_congr (hf : f.Proper) (h : f.field.bitsOf r = f.field.bitsOf s) :
    f.value r = f.value s := by
  unfold Proper at hf
  unfold value
  cases hkind : f.kind with
  | number =>
    dsimp only
    rw [Field.get, Field.get, h]
  | flag =>
    have hwidth := hf hkind
    dsimp only
    rw [Field.test_eq_getLsbD_bitsOf (by omega), Field.test_eq_getLsbD_bitsOf (by omega), h]

end NamedField

/-! ## Assignments -/

/-- The value that a name was last given. -/
def lastGiven? (sets : List (String × Nat)) (name : String) : Option Nat :=
  sets.reverse.lookup name

theorem lastGiven?_append_singleton (sets : List (String × Nat)) (name other : String) (v : Nat) :
    lastGiven? (sets ++ [(name, v)]) other =
      if other = name then some v else lastGiven? sets other := by
  rw [lastGiven?, List.reverse_append, List.reverse_singleton, List.singleton_append,
    List.lookup_cons]
  by_cases h : other = name
  · simp [h]
  · have hne : (other == name) = false := beq_eq_false_iff_ne.mpr h
    rw [hne, if_neg h]
    rfl

namespace Layout

variable {w : Nat} {l : Layout w}

/-- The names tell the fields apart, and flags are single bits. -/
structure Proper (l : Layout w) : Prop where
  names : (l.fields.map (·.name)).Nodup
  flags : ∀ f ∈ l.fields, f.Proper

/-- The assignment names a field that has room for its value. -/
def Fits (l : Layout w) (set : String × Nat) : Prop :=
  ∃ f ∈ l.fields, f.name = set.1 ∧ f.Takes set.2

/-- What a register holds after assignments to what it held at first. -/
structure Holds (l : Layout w) (start : BitVec w) (sets : List (String × Nat)) (r : BitVec w) :
    Prop where
  reads : ∀ f ∈ l.fields, f.value r = ((lastGiven? sets f.name).map f.reading).getD (f.value start)
  keeps : ∀ i, (∀ f ∈ l.fields, f.name ∈ sets.map Prod.fst → f.field.covers i = false) →
    r.getLsbD i = start.getLsbD i

/-- Two fields share no bit. -/
theorem below_or_below {f g : NamedField w} (hf : f ∈ l.fields) (hg : g ∈ l.fields)
    (h : f.name ≠ g.name) : f.field.Below g.field ∨ g.field.Below f.field := by
  have either : l.fields.Pairwise fun f g => f.field.Below g.field ∨ g.field.Below f.field :=
    l.ascending.imp Or.inl
  have symm : Std.Symm fun f g : NamedField w => f.field.Below g.field ∨ g.field.Below f.field :=
    ⟨fun _ _ => Or.symm⟩
  exact either.forall hf hg fun hfg => h (hfg ▸ rfl)

theorem assignAll?_append_singleton (l : Layout w) (start : BitVec w) (sets : List (String × Nat))
    (set : String × Nat) : l.assignAll? (sets ++ [set]) start =
      (l.assignAll? sets start).bind (l.assign? set.1 set.2) := by
  rw [assignAll?, List.foldlM_append]
  congr 1
  funext r
  rw [List.foldlM_cons]
  exact bind_pure _

namespace Proper

variable {start r s : BitVec w} {sets : List (String × Nat)} {name : String} {v : Nat}

theorem field?_eq_some (hl : l.Proper) {f : NamedField w} :
    l.field? name = some f ↔ f ∈ l.fields ∧ f.name = name := by
  constructor
  · intro h
    exact ⟨List.mem_of_find?_eq_some h, by simpa using List.find?_some h⟩
  · rintro ⟨hf, rfl⟩
    have found : (l.fields.find? (·.name == f.name)).isSome :=
      List.find?_isSome.mpr ⟨f, hf, beq_self_eq_true f.name⟩
    obtain ⟨g, hg⟩ := Option.isSome_iff_exists.mp found
    have hname : g.name = f.name := by simpa using List.find?_some hg
    rw [field?, hg, List.inj_on_of_nodup_map hl.names (List.mem_of_find?_eq_some hg) hf hname]

theorem assign?_eq_some (hl : l.Proper) : l.assign? name v r = some s ↔
    ∃ f ∈ l.fields, f.name = name ∧ f.Takes v ∧ s = f.field.set (f.code v) r := by
  unfold assign?
  simp only [Option.bind_eq_some_iff, hl.field?_eq_some, NamedField.assign?_eq_some, and_assoc]

/-- One assignment more changes the field that it names and no other. -/
theorem holds_assign (hl : l.Proper) (h : l.Holds start sets r)
    (hs : l.assign? name v r = some s) : l.Holds start (sets ++ [(name, v)]) s := by
  obtain ⟨f, hf, rfl, hv, rfl⟩ := hl.assign?_eq_some.mp hs
  constructor
  case reads =>
    intro g hg
    rw [lastGiven?_append_singleton]
    by_cases hname : g.name = f.name
    · obtain rfl := List.inj_on_of_nodup_map hl.names hg hf hname
      rw [if_pos rfl]
      exact NamedField.value_set (hl.flags g hg) hv
    · rw [if_neg hname, ← h.reads g hg]
      exact NamedField.value_congr (hl.flags g hg)
        (Field.bitsOf_set_of_below _ _ _ _ (below_or_below hf hg (Ne.symm hname)))
  case keeps =>
    intro i hi
    rw [Field.getLsbD_set_of_not_covers f.field _ r (hi f hf (by simp))]
    exact h.keeps i fun g hg hname => hi g hg (by simp [hname])

-- by induction from the last assignment back, as the last one decides what is read
theorem holds_assignAll (hl : l.Proper) (h : l.assignAll? sets start = some r) :
    l.Holds start sets r := by
  induction sets using List.reverseRecOn generalizing r with
  | nil =>
    cases h
    exact ⟨fun _ _ => rfl, fun _ _ => rfl⟩
  | append_singleton sets set ih =>
    rw [assignAll?_append_singleton] at h
    obtain ⟨s, hs, h⟩ := Option.bind_eq_some_iff.mp h
    exact hl.holds_assign (ih hs) h

theorem exists_assignAll?_iff (hl : l.Proper) :
    (∃ r, l.assignAll? sets start = some r) ↔ ∀ set ∈ sets, l.Fits set := by
  induction sets using List.reverseRecOn with
  | nil => exact iff_of_true ⟨start, rfl⟩ fun _ h => absurd h List.not_mem_nil
  | append_singleton sets set ih =>
    rw [assignAll?_append_singleton, List.forall_mem_append, ← ih, List.forall_mem_singleton]
    simp only [Option.bind_eq_some_iff, hl.assign?_eq_some]
    constructor
    · rintro ⟨s, r, hr, f, hf, hname, hv, -⟩
      exact ⟨⟨r, hr⟩, f, hf, hname, hv⟩
    · rintro ⟨⟨r, hr⟩, f, hf, hname, hv⟩
      exact ⟨_, r, hr, f, hf, hname, hv, rfl⟩

end Proper

end Layout

/-! ## Declarations -/

/-- A member of a register: a field, or bits that no field has. -/
inductive Member where
  | number (name : String) (width : Nat)
  | flag (name : String)
  | reserved (width : Nat)
  deriving DecidableEq, Repr

/-- Where a field lies in its register. -/
structure FieldPlace where
  name : String
  kind : FieldKind
  offset : Nat
  width : Nat
  deriving DecidableEq, Repr

namespace Member

/-- The places of the fields if members follow one another from bit `start` up. -/
def places (start : Nat) : List Member → List FieldPlace
  | [] => []
  | number name width :: rest => ⟨name, .number, start, width⟩ :: places (start + width) rest
  | flag name :: rest => ⟨name, .flag, start, 1⟩ :: places (start + 1) rest
  | reserved width :: rest => places (start + width) rest

/-- The number of bits that members take together. -/
def span : List Member → Nat
  | [] => 0
  | number _ width :: rest => width + span rest
  | flag _ :: rest => 1 + span rest
  | reserved width :: rest => width + span rest

end Member

/-- A register type by its members, from bit 0 up. -/
structure Declaration where
  name : String
  members : List Member

/-- Name and width of a register type, and the places of its fields. -/
structure RegisterPlan where
  name : String
  width : Nat
  fields : List FieldPlace
  deriving DecidableEq, Repr

def Declaration.plan (d : Declaration) : RegisterPlan :=
  ⟨d.name, Member.span d.members, Member.places 0 d.members⟩

def NamedField.place {w : Nat} (f : NamedField w) : FieldPlace :=
  ⟨f.name, f.kind, f.field.offset, f.field.width⟩

def RegisterType.plan (t : RegisterType) : RegisterPlan :=
  ⟨t.name, t.width, t.layout.fields.map NamedField.place⟩

def registerDeclarations : List Declaration := [
  ⟨"LinkCapabilities", [
    .number "max_link_speed" 4, .number "max_link_width" 6, .number "aspm_support" 2,
    .number "l0s_exit_latency" 3, .number "l1_exit_latency" 3, .flag "clock_power_management",
    .flag "surprise_down_error_reporting", .flag "data_link_layer_link_active_reporting",
    .flag "link_bandwidth_notification_capability", .flag "aspm_optionality_compliance",
    .reserved 1, .number "port_number" 8]⟩,
  ⟨"LinkControl", [
    .number "aspm_control" 2, .reserved 1, .number "read_completion_boundary" 1,
    .flag "link_disable", .flag "retrain_link", .flag "common_clock_configuration",
    .flag "extended_synch", .flag "enable_clock_power_management",
    .flag "hardware_autonomous_width_disable", .flag "link_bandwidth_management_interrupt_enable",
    .flag "link_autonomous_bandwidth_interrupt_enable", .reserved 4]⟩,
  ⟨"LinkStatus", [
    .number "current_link_speed" 4, .number "negotiated_link_width" 6, .reserved 1,
    .flag "link_training", .flag "slot_clock_configuration", .flag "data_link_layer_link_active",
    .flag "link_bandwidth_management_status", .flag "link_autonomous_bandwidth_status"]⟩,
  ⟨"LinkControl2", [
    .number "target_link_speed" 4, .flag "enter_compliance",
    .flag "hardware_autonomous_speed_disable", .number "selectable_de_emphasis" 1,
    .number "transmit_margin" 3, .flag "enter_modified_compliance", .flag "compliance_sos",
    .number "compliance_preset_de_emphasis" 4]⟩,
  ⟨"PortLinkControl", [
    .flag "vendor_specific_dllp_request", .flag "scramble_disable", .flag "loopback_enable",
    .flag "reset_assert", .reserved 1, .flag "dll_link_enable", .flag "link_disable",
    .flag "fast_link_mode", .number "link_rate" 4, .reserved 4, .number "link_capable" 6,
    .reserved 10]⟩,
  ⟨"Gen2Control", [
    .number "fast_training_sequences" 8, .number "num_of_lanes" 5, .reserved 4,
    .flag "direct_speed_change", .reserved 14]⟩,
  ⟨"MiscControl1", [.flag "dbi_ro_write_enable", .reserved 31]⟩,
  ⟨"RegionControl1", [.number "region_type" 5, .reserved 27]⟩,
  ⟨"RegionControl2", [.reserved 28, .flag "cfg_shift_mode", .reserved 2, .flag "region_enable"]⟩,
  ⟨"LinkDebugStatus", [
    .number "ltssm" 6, .flag "smlh_link_up", .flag "rdlh_link_up", .reserved 24]⟩,
  ⟨"bm1000.ResetControl", [
    .flag "phy", .reserved 3, .flag "pipe0", .flag "pipe1", .reserved 2, .flag "core",
    .flag "power", .flag "sticky", .flag "non_sticky", .flag "hot", .flag "adb_power_down",
    .reserved 18]⟩,
  ⟨"bm1000.GeneralControl", [
    .reserved 1, .flag "ltssm_enable", .flag "dbi2_mode", .flag "phy_management_enable",
    .reserved 28]⟩,
  ⟨"bm1000.PhyAddress", [.number "address" 31, .flag "write"]⟩,
  ⟨"bm1000.PhyStatus", [.flag "done", .flag "busy", .reserved 30]⟩,
  ⟨"bs1000.ResetControl", [
    .flag "phy", .flag "pipe0", .flag "pipe1", .flag "core", .flag "power", .flag "sticky",
    .flag "non_sticky", .flag "hot", .flag "adb_power_down", .reserved 23]⟩,
  ⟨"bs1000.ResetStatus", [.flag "reset_done", .reserved 31]⟩,
  ⟨"bs1000.GeneralControl3", [.flag "ltssm_enable", .reserved 31]⟩,
  ⟨"AllocationAttributes", [
    .flag "combine_mem_pmem", .flag "mem64_decode", .reserved 62]⟩]

/-- The fields lie where the declarations put them, and the members fill each register. -/
theorem plan_registerTypes :
    registerTypes.map RegisterType.plan = registerDeclarations.map Declaration.plan := rfl

theorem proper_of_mem {t : RegisterType} (ht : t ∈ registerTypes) : t.layout.Proper := by
  have all : ∀ t ∈ registerTypes,
      (t.layout.fields.map (·.name)).Nodup ∧ ∀ f ∈ t.layout.fields, f.Proper := by
    decide +kernel
  obtain ⟨names, flags⟩ := all t ht
  exact ⟨names, flags⟩

/-- Every register type has its fields where its declaration puts them. Assignments to a register
succeed exactly if each of them names a field that has room for its value. Then each field reads
what it was last given, or as at first if it was given nothing, and all bits outside the fields that
were assigned are as they were. -/
theorem register_layouts_lawful :
    registerTypes.map RegisterType.plan = registerDeclarations.map Declaration.plan ∧
    ∀ t ∈ registerTypes, ∀ (start : BitVec t.width) (sets : List (String × Nat)),
      ((∃ r, t.layout.assignAll? sets start = some r) ↔ ∀ set ∈ sets, t.layout.Fits set) ∧
      ∀ r, t.layout.assignAll? sets start = some r → t.layout.Holds start sets r := by
  refine ⟨plan_registerTypes, fun t ht start sets => ?_⟩
  have proper := proper_of_mem ht
  exact ⟨proper.exists_assignAll?_iff, fun r h => proper.holds_assignAll h⟩

/-- Link control 2 with a field that is assigned twice and a flag that is given a number, and a
speed that its field has no room for. -/
theorem register_layouts_lawful_example :
    ⟨"LinkControl2", 16, LinkControl2.layout⟩ ∈ registerTypes ∧
    LinkControl2.layout.assignAll? [("target_link_speed", 3), ("transmit_margin", 5),
      ("enter_compliance", 2), ("target_link_speed", 1)] 0xF00E#16 = some 0xF291#16 ∧
    LinkControl2.layout.Holds 0xF00E#16 [("target_link_speed", 3), ("transmit_margin", 5),
      ("enter_compliance", 2), ("target_link_speed", 1)] 0xF291#16 ∧
    ¬LinkControl2.layout.Fits ("target_link_speed", 16) := by
  obtain ⟨-, lawful⟩ := register_layouts_lawful
  have ht : (⟨"LinkControl2", 16, LinkControl2.layout⟩ : RegisterType) ∈ registerTypes :=
    List.mem_of_getElem? (show registerTypes[3]? = some _ from rfl)
  have assigned : LinkControl2.layout.assignAll? [("target_link_speed", 3), ("transmit_margin", 5),
      ("enter_compliance", 2), ("target_link_speed", 1)] 0xF00E#16 = some 0xF291#16 := by decide
  refine ⟨ht, assigned, (lawful _ ht _ _).2 _ assigned, fun hfits => ?_⟩
  obtain ⟨r, hr⟩ := (lawful _ ht 0 [("target_link_speed", 16)]).1.mpr (by simpa using hfits)
  have refused : LinkControl2.layout.assignAll? [("target_link_speed", 16)] 0 = none := by decide
  rw [refused] at hr
  cases hr

end RootComplex

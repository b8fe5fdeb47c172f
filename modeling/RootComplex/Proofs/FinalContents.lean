import RootComplex.Proofs.BringUpUpdates

/-! # What a bring-up leaves

The contents of every register after a bring-up, from what was there before. The registers that
are only updated hold what their updates make of it, whichever way the training went, and all
that the engine does not write is as it was. -/

namespace RootComplex

open Program

theorem Soc.core_subset_base {soc : Soc} (hs : soc ∈ Soc.all) :
    soc.reset.core &&& ~~~soc.reset.base = 0 := by
  revert soc
  decide

namespace Port

variable {p : Port} {a : Address}

/-! ## The updates of one register -/

section

open Update

/-- Of the registers that no reset is a matter of, training changes none. -/
theorem contents_of_not_sequence (ha : a ∉ p.sequenceRegisters) (outcome : LinkOutcome)
    (v : Word) : contents a (p.bringUpUpdates outcome) v =
      contents a (p.msiUpdates ++ p.identityUpdates ++ [p.speedUpdate LinkSpeed.gen1.code]) v := by
  have ltssm (enable : Bool) : (p.ltssmUpdate enable).register ≠ a := fun he =>
    ha (he ▸ ltssm_sequence)
  have asserts : a ∉ p.assertUpdates.map (·.register) := fun h =>
    ha (line_sequence (assertUpdates_registers h))
  have releases : a ∉ p.releaseUpdates.map (·.register) := fun h =>
    ha (line_sequence (releaseUpdates_registers h))
  have resets (held released : Word) : a ∉ (p.resetUpdates held released).map (·.register) :=
    fun h => ha (resetUpdates_registers _ _ h)
  have trains : a ∉ (p.trainUpdates outcome).map (·.register) := fun h =>
    ha (trainUpdates_registers outcome h)
  rw [bringUpUpdates, contents_append, contents_of_not_mem trains]
  simp only [configureUpdates, List.cons_append, contents_cons, contents_append,
    contents_of_not_mem asserts, contents_of_not_mem releases, contents_of_not_mem (resets _ _),
    ltssm, if_false]

/-- A register that describes the port is changed by the description alone. -/
theorem contents_identity (hn : p.registers.Nodup) (ha : a ∈ p.identityRegisters)
    (outcome : LinkOutcome) (v : Word) :
    contents a (p.bringUpUpdates outcome) v = contents a p.identityUpdates v := by
  have plain := identity_disjoint_plain hn ha
  have sequence : a ∉ p.sequenceRegisters := fun h =>
    sequence_disjoint_setup hn h (by simp [setupRegisters, ha])
  have msi : a ∉ p.msiUpdates.map (·.register) := by
    rw [msiUpdates_registers]
    intro h
    exact plain (by simp [plainRegisters, settleRegisters, h])
  have speed : (p.speedUpdate LinkSpeed.gen1.code).register ≠ a := by
    intro h
    exact plain (by simp [plainRegisters, trainingRegisters, linkRegisters, ← h, speedUpdate])
  rw [contents_of_not_sequence sequence, contents_append, contents_append,
    contents_of_not_mem msi, contents_cons, if_neg speed, contents_nil]

/-- The registers for the control of the link are for nothing else. -/
theorem link_apart (hn : p.registers.Nodup) (ha : a ∈ p.linkRegisters) :
    a ∉ p.sequenceRegisters ++ p.msiRegisters ++ p.identityRegisters := by
  have sequence : a ∉ p.sequenceRegisters := fun h =>
    sequence_disjoint_setup hn h (by simp [setupRegisters, ha])
  have identity : a ∉ p.identityRegisters := fun h =>
    identity_disjoint_plain hn h (by simp [plainRegisters, trainingRegisters, ha])
  have msi : a ∉ p.msiRegisters := by
    intro h
    rw [registers, quietRegisters, ← List.cons_append] at hn
    exact List.disjoint_of_nodup_append hn (linkRegisters_own ha) (List.mem_append_right _ h)
  simp only [List.mem_append, sequence, msi, identity, or_self, not_false_eq_true]

theorem contents_speed (hn : p.registers.Nodup) (outcome : LinkOutcome) (v : Word) :
    contents (p.dbi PortLogic.linkControlStatus2) (p.bringUpUpdates outcome) v =
      (p.speedUpdate LinkSpeed.gen1.code).change v := by
  have apart : p.dbi PortLogic.linkControlStatus2 ∉
      p.sequenceRegisters ++ p.msiRegisters ++ p.identityRegisters :=
    link_apart hn (by simp [linkRegisters])
  simp only [List.mem_append, not_or] at apart
  obtain ⟨⟨sequence, msi⟩, identity⟩ := apart
  rw [← msiUpdates_registers] at msi
  have described : p.dbi PortLogic.linkControlStatus2 ∉ p.identityUpdates.map (·.register) :=
    fun h => identity (identityUpdates_registers h)
  rw [contents_of_not_sequence sequence, contents_append, contents_append,
    contents_of_not_mem msi, contents_of_not_mem described, contents_cons, contents_nil]
  exact if_pos rfl

end

/-- The core is reset with the bundle. -/
theorem core_subset_bundle (hs : p.soc ∈ Soc.all) :
    p.soc.reset.core &&& ~~~p.resetBundle = 0 := by
  have base := Soc.core_subset_base hs
  unfold resetBundle
  split
  · rw [BitVec.not_or, ← BitVec.and_assoc, base]
    exact BitVec.zero_and
  · exact base

/-- Setting bits that are cleared afterwards leaves no trace. -/
theorem held_released (v held extra : Word) :
    (v ||| held) &&& ~~~(held ||| extra) = v &&& ~~~(held ||| extra) := by
  ext i hi
  simp only [BitVec.getElem_and, BitVec.getElem_or, BitVec.getElem_not]
  grind

/-- The bits of a pulse are clear already. -/
theorem pulsed_released {core held : Word} (h : core &&& ~~~held = 0) (v extra : Word) :
    ((v &&& ~~~(held ||| extra)) ||| core) &&& ~~~core = v &&& ~~~(held ||| extra) := by
  ext i hi
  have bit : (core &&& ~~~held)[i] = (0 : Word)[i] := by rw [h]
  simp only [BitVec.getElem_and, BitVec.getElem_not, BitVec.ofNat_eq_ofNat,
    BitVec.getElem_zero] at bit
  simp only [BitVec.getElem_and, BitVec.getElem_or, BitVec.getElem_not]
  grind

section

open Update

theorem reset_apart (hn : p.registers.Nodup) :
    (∀ enable, (p.ltssmUpdate enable).register ≠ p.resetRegister) ∧
    p.resetRegister ∉ p.assertUpdates.map (·.register) ∧
    p.resetRegister ∉ p.releaseUpdates.map (·.register) := by
  obtain ⟨ltssm, rest⟩ := List.nodup_cons.mp (sequence_nodup hn)
  have line := (List.nodup_cons.mp rest).1
  exact ⟨fun enable he => ltssm (he ▸ List.mem_cons_self),
    fun h => line (assertUpdates_registers h), fun h => line (releaseUpdates_registers h)⟩

theorem contents_reset_configure (hn : p.registers.Nodup) (v : Word) :
    contents p.resetRegister p.configureUpdates v =
      v &&& ~~~(p.resetBundle ||| p.soc.reset.releaseExtra) := by
  obtain ⟨ltssm, asserts, releases⟩ := reset_apart hn
  have setup := sequence_disjoint_setup hn reset_sequence
  have msi : p.resetRegister ∉ p.msiUpdates.map (·.register) := by
    rw [msiUpdates_registers]
    intro h
    exact setup (by simp [setupRegisters, settleRegisters, h])
  have identity : p.resetRegister ∉ p.identityUpdates.map (·.register) := fun h =>
    setup (by simp [setupRegisters, identityUpdates_registers h])
  have speed : (p.speedUpdate LinkSpeed.gen1.code).register ≠ p.resetRegister := fun h =>
    setup (by simp [setupRegisters, linkRegisters, ← h, speedUpdate])
  simp only [configureUpdates, resetUpdates, List.cons_append, contents_append, contents_cons,
    contents_nil, contents_of_not_mem asserts, contents_of_not_mem msi,
    contents_of_not_mem identity, contents_of_not_mem releases, ltssm, speed, if_false, if_true]
  exact held_released ..

theorem contents_reset_pulse (hn : p.registers.Nodup) (v : Word) :
    contents p.resetRegister p.pulseUpdates v = (v ||| p.soc.reset.core) &&& ~~~p.soc.reset.core := by
  obtain ⟨ltssm, asserts, releases⟩ := reset_apart hn
  simp only [pulseUpdates, resetUpdates, List.cons_append, contents_append, contents_cons,
    contents_nil, contents_of_not_mem asserts, contents_of_not_mem releases, ltssm, if_false,
    if_true]

/-- A recovery changes nothing of what the reset left. -/
theorem contents_reset (hs : p.soc ∈ Soc.all) (hn : p.registers.Nodup) (outcome : LinkOutcome)
    (v : Word) : contents p.resetRegister (p.bringUpUpdates outcome) v =
      v &&& ~~~(p.resetBundle ||| p.soc.reset.releaseExtra) := by
  have ends : p.resetRegister ∉ (p.endUpdates outcome).map (·.register) := by
    unfold endUpdates
    split
    · exact List.not_mem_nil
    · simpa using ((reset_apart hn).1 false).symm
  rw [bringUpUpdates, trainUpdates, contents_append, contents_append, contents_of_not_mem ends,
    contents_reset_configure hn]
  split
  · rw [contents_reset_pulse hn]
    exact pulsed_released (core_subset_bundle hs) v _
  · exact contents_nil _

end

/-! ## The description -/

theorem identity_nodup (hn : p.registers.Nodup) : p.identityRegisters.Nodup := by
  have group : p.identityRegisters.Sublist p.quietGroups.flatten :=
    List.sublist_flatten_of_mem (by simp [quietGroups])
  exact (group.trans (List.sublist_append_left _ _)).nodup (List.nodup_cons.mp hn).2

section

open Update

theorem contents_misc (hn : p.registers.Nodup) (v : Word) :
    contents p.miscRegister p.identityUpdates v =
      MiscControl1.readOnlyWriteEnable.put false
        (MiscControl1.readOnlyWriteEnable.put true v) := by
  have apart := (List.nodup_cons.mp (identity_nodup hn)).1
  have revision : p.dbi ConfigHeader.classRevision ≠ p.miscRegister := fun h =>
    apart (List.mem_cons.mpr (.inl h.symm))
  have width : p.miscRegister ∉
      (p.controller.lanes.toList.flatMap p.laneUpdates).map (·.register) := fun h =>
    apart (List.mem_cons_of_mem _ (widthUpdates_registers h))
  simp only [identityUpdates, writableUpdate, List.cons_append, contents_append, contents_cons,
    contents_nil, contents_of_not_mem width, revision, if_false, if_true]

theorem contents_class (hn : p.registers.Nodup) (v : Word) :
    contents (p.dbi ConfigHeader.classRevision) p.identityUpdates v = bridgeClassWord v := by
  obtain ⟨misc, rest⟩ := List.nodup_cons.mp (identity_nodup hn)
  have apart : p.miscRegister ≠ p.dbi ConfigHeader.classRevision := fun h =>
    misc (List.mem_cons.mpr (.inl h))
  have width : p.dbi ConfigHeader.classRevision ∉
      (p.controller.lanes.toList.flatMap p.laneUpdates).map (·.register) := fun h =>
    (List.nodup_cons.mp rest).1 (widthUpdates_registers h)
  simp only [identityUpdates, writableUpdate, List.cons_append, contents_append, contents_cons,
    contents_nil, contents_of_not_mem width, apart, if_false, if_true]

theorem contents_width (hn : p.registers.Nodup) {lanes : LaneCount}
    (hl : p.controller.lanes = some lanes) (ha : a ∈ p.laneRegisters lanes) (v : Word) :
    contents a p.identityUpdates v = contents a (p.laneUpdates lanes) v := by
  have nodup := identity_nodup hn
  rw [identityRegisters, hl, Option.toList_some, List.flatMap_singleton] at nodup
  obtain ⟨misc, rest⟩ := List.nodup_cons.mp nodup
  have hmisc : p.miscRegister ≠ a := fun h =>
    misc (List.mem_cons_of_mem _ (h ▸ ha : p.miscRegister ∈ p.laneRegisters lanes))
  have hrevision : p.dbi ConfigHeader.classRevision ≠ a := fun h =>
    (List.nodup_cons.mp rest).1 (h ▸ ha)
  simp only [identityUpdates, hl, Option.toList_some, List.flatMap_singleton, writableUpdate,
    List.cons_append, contents_append, contents_cons, contents_nil, hmisc, hrevision, if_false]

theorem dbi_ne {i j : Nat} (hi : i < 0x10000) (hj : j < 0x10000) (hne : i ≠ j) :
    p.dbi i ≠ p.dbi j :=
  fun h => hne (TranslationUnit.at_inj hi hj h)

theorem contents_lanes (lanes : LaneCount) (v : Word) :
    contents (p.dbi PortLogic.portLinkControl) (p.laneUpdates lanes) v =
        PortLinkControl.linkCapable.set lanes.linkCapable v ∧
      contents (p.dbi PortLogic.linkCapabilities) (p.laneUpdates lanes) v =
        LinkCapabilities.maxLinkWidth.set lanes.count v ∧
      (lanes ≠ .x32 → contents (p.dbi PortLogic.gen2Control) (p.laneUpdates lanes) v =
        Gen2Control.numOfLanes.set lanes.count v) := by
  have capable : p.dbi PortLogic.portLinkControl ≠ p.dbi PortLogic.linkCapabilities :=
    dbi_ne (by decide) (by decide) (by decide)
  have number : p.dbi PortLogic.gen2Control ≠ p.dbi PortLogic.portLinkControl :=
    dbi_ne (by decide) (by decide) (by decide)
  have width : p.dbi PortLogic.gen2Control ≠ p.dbi PortLogic.linkCapabilities :=
    dbi_ne (by decide) (by decide) (by decide)
  have numbers : ∀ b, p.dbi PortLogic.gen2Control ≠ b → b ∉ (lanes.predetermined?.toList.map fun n =>
      Update.mk (p.dbi PortLogic.gen2Control) (Gen2Control.numOfLanes.set n)).map (·.register) := by
    intro b hb h
    rw [List.map_map] at h
    obtain ⟨n, -, rfl⟩ := List.mem_map.mp h
    exact hb rfl
  refine ⟨?_, ?_, fun hx => ?_⟩
  · rw [laneUpdates, List.cons_append, contents_cons, contents_append,
      contents_of_not_mem (numbers _ number), contents_cons, contents_nil]
    dsimp only
    rw [if_pos rfl, if_neg capable.symm]
  · rw [laneUpdates, List.cons_append, contents_cons, contents_append,
      contents_of_not_mem (numbers _ width), contents_cons, contents_nil]
    dsimp only
    rw [if_neg capable, if_pos rfl]
  · have some : lanes.predetermined? = some lanes.count := by
      cases lanes <;> first | rfl | exact absurd rfl hx
    rw [laneUpdates, some, List.cons_append, contents_cons, contents_append, Option.toList_some,
      List.map_singleton, contents_cons, contents_cons, contents_nil, contents_nil]
    dsimp only
    rw [if_neg number.symm, if_pos rfl, if_neg width.symm]

end

/-- The lane fields of the port tell its width. The lane count field ends below 32 lanes. -/
structure ShowsWidth (p : Port) (lanes : LaneCount) (old new : Address → Word) : Prop where
  capable : PortLinkControl.linkCapable.Replaced (2 * lanes.count - 1)
    (old (p.dbi PortLogic.portLinkControl)) (new (p.dbi PortLogic.portLinkControl))
  width : LinkCapabilities.maxLinkWidth.Replaced lanes.count
    (old (p.dbi PortLogic.linkCapabilities)) (new (p.dbi PortLogic.linkCapabilities))
  number : lanes ≠ .x32 → Gen2Control.numOfLanes.Replaced lanes.count
    (old (p.dbi PortLogic.gen2Control)) (new (p.dbi PortLogic.gen2Control))

/-- All that a bring-up with this outcome leaves, from what was there before. -/
structure Settles (p : Port) (outcome : LinkOutcome) (old new : Address → Word) : Prop where
  /-- The class code, in bits 31 to 8, is that of a bridge. -/
  bridge : new (p.dbi ConfigHeader.classRevision) >>> 8 = 0x060400
  revision : (new (p.dbi ConfigHeader.classRevision)).setWidth 8 =
    (old (p.dbi ConfigHeader.classRevision)).setWidth 8
  width : ∀ lanes, p.controller.lanes = some lanes → p.ShowsWidth lanes old new
  /-- What describes the port and is not programmed stays as the straps have it. -/
  strapped : ∀ a ∈ p.fieldRegisters, a ∉ p.registers → new a = old a
  locked : new p.miscRegister = old p.miscRegister &&& ~~~1
  speed : Word.ControlReplaced LinkControl2.targetLinkSpeed 1
    (old (p.dbi PortLogic.linkControlStatus2)) (new (p.dbi PortLogic.linkControlStatus2))
  reset : new p.resetRegister =
    old p.resetRegister &&& ~~~(p.resetBundle ||| p.soc.reset.releaseExtra)
  frame : ∀ a, a ∉ p.rawRegisters outcome → a ∉ p.updatedRegisters → new a = old a

theorem bridgeClassWord_class (v : Word) : bridgeClassWord v >>> 8 = 0x060400 := by
  have clear : (v &&& 0xff) >>> 8 = (0 : Word) := by
    rw [BitVec.ushiftRight_and_distrib]
    exact BitVec.and_zero
  rw [bridgeClassWord, BitVec.ushiftRight_or_distrib, clear]
  rfl

theorem bridgeClassWord_revision (v : Word) : (bridgeClassWord v).setWidth 8 = v.setWidth 8 := by
  have clear : (ConfigHeader.bridgeClass <<< 8).setWidth 8 = 0#8 := rfl
  have full : (0xff : Word).setWidth 8 = BitVec.allOnes 8 := rfl
  rw [bridgeClassWord, BitVec.setWidth_or, BitVec.setWidth_and, clear, full, BitVec.zero_or,
    BitVec.and_allOnes]

/-- The enable bit is clear after it was switched off, and the others were never changed. -/
theorem put_put (v : Word) :
    MiscControl1.readOnlyWriteEnable.put false (MiscControl1.readOnlyWriteEnable.put true v) =
      v &&& ~~~1 := by
  apply BitVec.eq_of_getLsbD_eq
  intro i hi
  have off := MiscControl1.switched_put false (MiscControl1.readOnlyWriteEnable.put true v)
  have on := MiscControl1.switched_put true v
  rw [BitVec.getLsbD_and, BitVec.getLsbD_not]
  by_cases h : i = 0
  · subst h
    exact off.enable.trans (by simp)
  · rw [off.others i h, on.others i h]
    simp [hi, h]

theorem rawRegisters_subset (outcome : LinkOutcome) :
    p.rawRegisters outcome ⊆ p.phyRegisters ++ p.unitRegisters ++ p.probeRegisters := by
  have probe : (if outcome.isUp then [p.config ConfigHeader.deviceVendor] else []) ⊆
      p.probeRegisters := by
    split
    · exact List.cons_subset_cons _ (List.nil_subset _)
    · exact List.nil_subset _
  exact List.append_subset.mpr ⟨List.subset_append_left _ _,
    List.Subset.trans probe (List.subset_append_right _ _)⟩

theorem rawRegisters_own (outcome : LinkOutcome) : p.rawRegisters outcome ⊆ p.ownRegisters := by
  intro a ha
  have raw := rawRegisters_subset outcome ha
  simp only [List.mem_append] at raw
  simp only [ownRegisters, quietGroups, List.flatten_cons, List.mem_append, List.mem_cons]
  grind

theorem rawRegisters_registers (outcome : LinkOutcome) : p.rawRegisters outcome ⊆ p.registers :=
  List.Subset.trans (rawRegisters_own outcome)
    (List.cons_subset_cons _ (List.subset_append_left _ _))

theorem updatedRegisters_registers : p.updatedRegisters ⊆ p.registers := by
  intro a ha
  simp only [updatedRegisters, sequenceRegisters, List.mem_append, List.mem_cons] at ha
  simp only [registers, quietRegisters, quietGroups, sharedRegisters, linkRegisters,
    List.flatten_cons, List.mem_append, List.mem_cons]
  grind

theorem raw_disjoint (hn : p.registers.Nodup) (outcome : LinkOutcome) :
    List.Disjoint (p.rawRegisters outcome)
      (p.sequenceRegisters ++ p.msiRegisters ++ p.identityRegisters ++ p.linkRegisters) := by
  simp only [registers, quietRegisters, quietGroups, sharedRegisters, List.flatten_cons,
    List.flatten_nil, List.nodup_cons, List.nodup_append, List.mem_append, List.mem_cons,
    not_or] at hn
  intro a ha hb
  have raw := rawRegisters_subset outcome ha
  simp only [List.mem_append] at raw
  simp only [sequenceRegisters, List.mem_append, List.mem_cons] at hb
  grind

theorem raw_disjoint_updated (hn : p.registers.Nodup) (outcome : LinkOutcome) :
    List.Disjoint (p.rawRegisters outcome) p.updatedRegisters := by
  have link : [p.dbi PortLogic.linkControlStatus2] ⊆ p.linkRegisters :=
    List.subset_cons_of_subset _ (List.Subset.refl _)
  refine List.disjoint_of_subset_right ?_ (raw_disjoint hn outcome)
  exact List.append_subset.mpr
    ⟨List.subset_append_left _ _, List.subset_append_of_subset_right _ link⟩

/-- The lane fields tell the configured width if the registers hold what the updates of the width
make of them. -/
theorem showsWidth_of_updates {lanes : LaneCount} {old new : Address → Word}
    (h : ∀ a ∈ p.laneRegisters lanes, new a = Update.contents a (p.laneUpdates lanes) (old a)) :
    p.ShowsWidth lanes old new := by
  refine ⟨?_, ?_, fun hx => ?_⟩
  · rw [h _ (by simp [laneRegisters]), (contents_lanes lanes _).1]
    exact Field.replaced_set (by cases lanes <;> decide) _
  · rw [h _ (by simp [laneRegisters]), (contents_lanes lanes _).2.1]
    exact Field.replaced_set (by cases lanes <;> decide) _
  · have number : p.dbi PortLogic.gen2Control ∈ p.laneRegisters lanes := by
      cases lanes <;> simp_all [laneRegisters, LaneCount.predetermined?, LaneCount.count]
    have fits : lanes.count < 2 ^ Gen2Control.numOfLanes.width := by
      cases lanes <;> first | decide | exact absurd rfl hx
    rw [h _ number, (contents_lanes lanes _).2.2 hx]
    exact Field.replaced_set fits _

/-- What the updates and the other writes of a bring-up make of the registers. -/
theorem settles_of_updates (hs : p.soc ∈ Soc.all) (hn : p.registers.Nodup) {outcome : LinkOutcome}
    {old new : Address → Word}
    (hu : ∀ a ∈ p.updatedRegisters, new a = Update.contents a (p.bringUpUpdates outcome) (old a))
    (hf : ∀ a, a ∉ p.rawRegisters outcome → a ∉ p.updatedRegisters → new a = old a) :
    p.Settles outcome old new := by
  have identity : ∀ a ∈ p.identityRegisters, new a =
      Update.contents a p.identityUpdates (old a) := by
    intro a ha
    rw [hu a (by simp [updatedRegisters, ha]), contents_identity hn ha]
  have revision : new (p.dbi ConfigHeader.classRevision) =
      bridgeClassWord (old (p.dbi ConfigHeader.classRevision)) := by
    rw [identity _ (by simp [identityRegisters]), contents_class hn]
  refine ⟨?_, ?_, ?_, ?_, ?_, ?_, ?_, hf⟩
  · rw [revision, bridgeClassWord_class]
  · rw [revision, bridgeClassWord_revision]
  · intro lanes hl
    refine showsWidth_of_updates fun a ha => ?_
    rw [identity a (by simp [identityRegisters, hl, ha]), contents_width hn hl ha]
  · intro a _ hr
    exact hf a (fun h => hr (rawRegisters_registers outcome h))
      (fun h => hr (updatedRegisters_registers h))
  · rw [identity p.miscRegister List.mem_cons_self, contents_misc hn, put_put]
  · rw [hu _ (by simp [updatedRegisters]), contents_speed hn]
    exact Word.controlReplaced_set (by decide) _
  · rw [hu _ (by simp [updatedRegisters, reset_sequence]), contents_reset hs hn]

theorem bringUp_settles {soc : Soc} {c : Controller} (hs : soc ∈ Soc.all)
    (hn : (registers ⟨soc, c⟩).Nodup) (r : Recording)
    (hr : ∀ a ∈ updatedRegisters ⟨soc, c⟩, r.file.Plain a) :
    Settles ⟨soc, c⟩ ((PortState.bringUp soc c).run Recording.platform r).1.outcome r.file.peek
      ((PortState.bringUp soc c).run Recording.platform r).2.file.peek := by
  have made := PortState.bringUp_makes
    (runs_exchanges Recording.platform (PortState.bringUp soc c) r)
  have follows := Recording.platform.follows_run (PortState.bringUp soc c) r
  refine settles_of_updates hs hn (fun a ha => ?_) (fun a hraw hupdated => ?_)
  · exact Recording.contents_of_makes made (fun h => raw_disjoint_updated hn _ h ha) (hr a ha)
      follows
  · refine r.peek_run_of_not_mem fun h => ?_
    obtain ⟨w, hw, rfl⟩ := List.mem_map.mp h
    rcases made.mem_of_mem_writes hw with h | h
    · exact hraw h
    · exact hupdated (bringUpUpdates_registers _ h)

end Port

/-- Whatever the registers hold at first, and whichever way the training goes, a bring-up of one
port makes it a bridge of its width that trains at the lowest speed first, leaves it out of
reset, and changes no other bit of these registers and no register that it does not use. -/
theorem bringUp_contents {soc : Soc} (hs : soc ∈ Soc.all) {nodes : List Node} {c : Controller}
    (hc : (Topology.load soc nodes).controllers = [c])
    (hd : (Topology.load soc nodes).RegistersDistinct) (r : Recording)
    (hr : ∀ a ∈ Port.updatedRegisters ⟨soc, c⟩, r.file.Plain a) :
    ∃ s, (r.bringUp (Topology.load soc nodes)).1.ports = [s] ∧ s.controller = c ∧
      Port.Settles ⟨soc, c⟩ s.outcome r.file.peek
        (r.bringUp (Topology.load soc nodes)).2.file.peek := by
  have hn : (Port.registers ⟨soc, c⟩).Nodup := by
    refine hd.nodup_registers hs ?_
    rw [hc]
    exact List.mem_singleton_self c
  obtain ⟨hports, hfile⟩ := r.bringUp_eq (Topology.load soc nodes)
  rw [hc, Host.run_bringUpPorts_cons] at hports hfile
  rw [hfile]
  exact ⟨_, hports, PortState.controller_run_bringUp r, Port.bringUp_settles hs hn r hr⟩

theorem linkedFile_plain (a : Address) : linkedFile.Plain a := by
  refine ⟨?_, ?_⟩
  · simp [linkedFile, RegisterFile.mask, RegisterFile.poke, RegisterFile.empty]
  · simp [linkedFile, RegisterFile.script, RegisterFile.poke, RegisterFile.empty, Script.remaining]

/-- The port of the example tells its four lanes, and nothing of it is held in reset. -/
theorem bringUp_contents_example :
    (Topology.load Bm1000.soc [exampleNode]).RegistersDistinct ∧
    ∃ last, last = ((Recording.start linkedFile none).bringUp
        (Topology.load Bm1000.soc [exampleNode])).2.file.peek ∧
      LinkCapabilities.maxLinkWidth.get (last 0x0320007C) = 4 ∧ last 0x02050020 = 0 ∧
      last 0x03200008 >>> 8 = 0x060400 := by
  have hd := registersDistinct_exampleNode
  obtain ⟨s, -, -, settles⟩ := bringUp_contents List.mem_cons_self load_exampleNode hd
    (.start linkedFile none) fun a _ => linkedFile_plain a
  have clear : linkedFile.peek 0x02050020 = 0 := by decide +kernel
  generalize hlast : ((Recording.start linkedFile none).bringUp
    (Topology.load Bm1000.soc [exampleNode])).2.file.peek = last at settles
  refine ⟨hd, last, rfl, (settles.width .x4 rfl).width.value, settles.reset.trans ?_,
    settles.bridge⟩
  show linkedFile.peek 0x02050020 &&& _ = 0
  rw [clear]
  exact BitVec.zero_and

end RootComplex

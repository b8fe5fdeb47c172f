import RootComplex.Proofs.ConfigSpace
import RootComplex.Proofs.FinalContents
import RootComplex.Proofs.FirstClaim

/-! # Bits of shared registers

The ports share the GPIO registers of their PERST# lines and, on the BM1000, the register that
tags their message interrupts. Each port updates bits of its own in them, and its updates set
these bits to values that only its description decides. So the bits of a port end as it sets
them, however many ports are brought up and in whichever of them the link recovers, and the bits
of no port end as they were. -/

namespace RootComplex

open Program

/-! ## Updates that set bits -/

namespace Word

/-- `f` gives the bits that have a value in `bits` this value, and keeps the others. -/
def Assigns (bits : Nat → Option Bool) (f : Word → Word) : Prop :=
  ∀ v i, (f v).getLsbD i = (bits i).getD (v.getLsbD i)

variable {bits more : Nat → Option Bool} {f g : Word → Word}

theorem Assigns.comp (hf : Assigns bits f) (hg : Assigns more g) :
    Assigns (fun i => (more i).or (bits i)) (g ∘ f) := by
  intro v i
  rw [Function.comp_apply, hg, hf]
  cases hm : more i with
  | none => simp only [hm, Option.getD_none, Option.none_or]
  | some b => simp only [hm, Option.getD_some, Option.some_or]

theorem Assigns.twice (h : Assigns bits f) : Assigns bits (f ∘ f) := by
  have both := h.comp h
  simpa only [Option.or_self] using both

/-- Every bit that is one of a member's has the member's value, and every bit that is no
member's is the old one. -/
structure Merged {β : Type} (members : List β) (bits : β → Nat → Option Bool) (old new : Word) :
    Prop where
  own : ∀ m ∈ members, ∀ i b, bits m i = some b → new.getLsbD i = b
  others : ∀ i, (∀ m ∈ members, bits m i = none) → new.getLsbD i = old.getLsbD i

end Word

namespace Update

variable {β : Type} {a : Address} {members : List β} {us : β → List Update}
  {bits : β → Nat → Option Bool}

theorem contents_flatMap_cons (m : β) (rest : List β) (v : Word) :
    contents a ((m :: rest).flatMap us) v = contents a (rest.flatMap us) (contents a (us m) v) := by
  rw [List.flatMap_cons, contents_append]

/-- Members that have no bits in common leave the bits of each other alone. The induction is on
the members: those that come later keep what the first has set. -/
theorem contents_merged (h : ∀ m ∈ members, Word.Assigns (bits m) (contents a (us m)))
    (hd : members.Pairwise fun m n => ∀ i, bits m i = none ∨ bits n i = none) (v : Word) :
    Word.Merged members bits v (contents a (members.flatMap us) v) := by
  induction members generalizing v with
  | nil => exact ⟨fun m hm => absurd hm List.not_mem_nil, fun _ _ => rfl⟩
  | cons first rest ih =>
    obtain ⟨apart, hrest⟩ := List.pairwise_cons.mp hd
    have sets := h first List.mem_cons_self v
    have later := ih (fun m hm => h m (List.mem_cons_of_mem _ hm)) hrest (contents a (us first) v)
    rw [contents_flatMap_cons]
    refine ⟨fun m hm i b hb => ?_, fun i hi => ?_⟩
    · rcases List.mem_cons.mp hm with rfl | hm
      · have free : ∀ n ∈ rest, bits n i = none := by
          intro n hn
          refine (apart n hn i).resolve_left fun he => ?_
          rw [he] at hb
          cases hb
        rw [later.others i free, sets, hb]
        rfl
      · exact later.own m hm i b hb
    · obtain ⟨hfirst, hi⟩ := List.forall_mem_cons.mp hi
      rw [later.others i hi, sets, hfirst]
      rfl

end Update

/-! ## The bits of one port -/

namespace Perst

theorem assigns_level {l : Perst} (h : l.line.pin < GpioPort.pins) (high : Bool) :
    Word.Assigns (fun i => if l.line.pin = i then some high else none) (l.level high) := by
  have hpin : l.line.pin < 32 := h
  intro v i
  unfold level
  by_cases hi : l.line.pin = i
  · subst hi
    cases high <;> simp [bit_eq, getLsbD_pinMask, hpin]
  · simp only [if_neg hi, Option.getD_none]
    by_cases hw : i < 32
    · cases high <;> simp only [if_true, Bool.false_eq_true, if_false, BitVec.getLsbD_or,
        BitVec.getLsbD_and, BitVec.getLsbD_not, bit_eq, getLsbD_pinMask] <;> simp [hi, hw]
    · rw [BitVec.getLsbD_of_ge _ i (Nat.le_of_not_lt hw),
        BitVec.getLsbD_of_ge _ i (Nat.le_of_not_lt hw)]

end Perst

namespace MsiTranslation

theorem getLsbD_assign (m : MsiTranslation) (index id : Nat) (v : Word) {i : Nat}
    (hi : i < 32) : (m.assign index id v).getLsbD i =
      ((if m.shift index ≤ i ∧ m.numberMask.getLsbD (i - m.shift index) = true then
        id.testBit (i - m.shift index) else v.getLsbD i) || decide (i = m.firstEnable + index)) := by
  have enable : (m.enable index).getLsbD i = decide (i = m.firstEnable + index) := by
    show (BitVec.ofNat 32 (1 <<< (m.firstEnable + index))).getLsbD i = _
    rw [BitVec.getLsbD_ofNat, Nat.one_shiftLeft, Nat.testBit_two_pow]
    simp [hi, eq_comm]
  rw [assign, BitVec.getLsbD_or, enable]
  refine congrArg (· || decide (i = m.firstEnable + index)) ?_
  simp only [BitVec.getLsbD_or, BitVec.getLsbD_and, BitVec.getLsbD_not, BitVec.getLsbD_shiftLeft,
    BitVec.getLsbD_ofNat]
  by_cases hs : m.shift index ≤ i
  · have inside : i - m.shift index < 32 := Nat.lt_of_le_of_lt (Nat.sub_le _ _) hi
    cases hm : m.numberMask.getLsbD (i - m.shift index) with
    | true => simp [hi, hs, inside, Nat.not_lt.mpr hs]
    | false => simp [hi, hs]
  · simp [hi, hs, Nat.lt_of_not_le hs]

end MsiTranslation

namespace Controller

/-- The bit of the controller's PERST# line, with a value for it. -/
def lineBit (c : Controller) (value : ResetLine → Bool) (i : Nat) : Option Bool :=
  c.resetLine.bind fun line => if line.pin = i then some (value line) else none

/-- The number of the controller's message interrupts in its two bits, and its enable bit. -/
def numberBits (c : Controller) (i : Nat) : Option Bool :=
  c.msiNumber.bind fun id =>
    if 2 * c.index ≤ i ∧ i < 2 * c.index + 2 then some (id.testBit (i - 2 * c.index))
    else if i = 9 + c.index then some true
    else none

variable {c d : Controller}

theorem lineBit_eq {line : ResetLine} (h : c.resetLine = some line) (value : ResetLine → Bool)
    (i : Nat) : c.lineBit value i = if line.pin = i then some (value line) else none := by
  rw [lineBit, h]
  rfl

theorem lineBit_eq_none (value : ResetLine → Bool) {i : Nat}
    (h : ∀ line, c.resetLine = some line → line.pin ≠ i) : c.lineBit value i = none := by
  cases hl : c.resetLine with
  | none =>
    rw [lineBit, hl]
    rfl
  | some line => rw [lineBit_eq hl, if_neg (h line hl)]

theorem lineBit_apart (h : ∀ pin, c.resetLine.map (·.pin) = some pin →
      ∀ other, d.resetLine.map (·.pin) = some other → pin ≠ other)
    (value : ResetLine → Bool) (i : Nat) :
    c.lineBit value i = none ∨ d.lineBit value i = none := by
  by_cases hc : ∃ line, c.resetLine = some line ∧ line.pin = i
  · obtain ⟨line, hl, rfl⟩ := hc
    refine .inr (lineBit_eq_none value fun other ho he => ?_)
    exact h line.pin (by rw [hl, Option.map_some]) other.pin (by rw [ho, Option.map_some]) he.symm
  · exact .inl (lineBit_eq_none value fun line hl he => hc ⟨line, hl, he⟩)

theorem numberBits_eq {id : Nat} (h : c.msiNumber = some id) (i : Nat) : c.numberBits i =
    if 2 * c.index ≤ i ∧ i < 2 * c.index + 2 then some (id.testBit (i - 2 * c.index))
    else if i = 9 + c.index then some true
    else none := by
  rw [numberBits, h]
  rfl

theorem numberBits_eq_none {i : Nat} (h : ∀ id, c.msiNumber = some id →
      i ≠ 2 * c.index ∧ i ≠ 2 * c.index + 1 ∧ i ≠ 9 + c.index) : c.numberBits i = none := by
  cases hid : c.msiNumber with
  | none =>
    rw [numberBits, hid]
    rfl
  | some id =>
    have outside := h id hid
    rw [numberBits_eq hid, if_neg (by omega), if_neg outside.2.2]

/-- The fields of two ports share no bit, and no field reaches the enable bits. -/
theorem numberBits_apart (h : c.index < d.index) (hd : d.index < Bm1000.controllers) (i : Nat) :
    c.numberBits i = none ∨ d.numberBits i = none := by
  have hd : d.index < 3 := hd
  by_cases hi : i ≠ 2 * c.index ∧ i ≠ 2 * c.index + 1 ∧ i ≠ 9 + c.index
  · exact .inl (numberBits_eq_none fun _ _ => hi)
  · exact .inr (numberBits_eq_none fun _ _ => by omega)

end Controller

namespace Port

variable {p : Port} {a : Address}

section

open Update

/-- PERST# is asserted, and later released. -/
def lineUpdates (p : Port) : List Update := p.assertUpdates ++ p.releaseUpdates

/-- Of the registers that the port shares, only those of its line and its number are updated. -/
theorem contents_shared (ha : a ∉ p.ownRegisters) (outcome : LinkOutcome) (v : Word) :
    contents a (p.bringUpUpdates outcome) v =
      contents a (p.assertUpdates ++ p.msiUpdates ++ p.releaseUpdates ++
        if outcome.recovered then p.lineUpdates else []) v := by
  have ltssm (enable : Bool) : (p.ltssmUpdate enable).register ≠ a := fun he =>
    ha (he ▸ List.mem_cons_self)
  have reset : p.resetRegister ≠ a := fun he => ha (he ▸ by simp [ownRegisters, quietGroups])
  have identity : a ∉ p.identityUpdates.map (·.register) := fun h =>
    ha (identityRegisters_own (identityUpdates_registers h))
  have speed : (p.speedUpdate LinkSpeed.gen1.code).register ≠ a := fun he =>
    ha (he ▸ by simp [ownRegisters, quietGroups, linkRegisters, speedUpdate])
  have ends : a ∉ (p.endUpdates outcome).map (·.register) := by
    unfold endUpdates
    split
    · exact List.not_mem_nil
    · simpa using (ltssm false).symm
  rw [bringUpUpdates, trainUpdates, contents_append, contents_append, contents_of_not_mem ends]
  split <;> simp only [configureUpdates, pulseUpdates, lineUpdates, resetUpdates,
    List.cons_append, contents_append, contents_cons, contents_nil, contents_of_not_mem identity,
    ltssm, reset, speed, if_false]

/-- What holds of one turn of the line holds of two. -/
theorem assigns_of_line {bits : Nat → Option Bool} (ha : a ∉ p.ownRegisters)
    (hm : a ∉ p.msiRegisters) (h : Word.Assigns bits (contents a p.lineUpdates))
    (outcome : LinkOutcome) : Word.Assigns bits (contents a (p.bringUpUpdates outcome)) := by
  have line : ∀ v, contents a (p.bringUpUpdates outcome) v =
      contents a (if outcome.recovered then p.lineUpdates else []) (contents a p.lineUpdates v) := by
    intro v
    rw [← msiUpdates_registers] at hm
    simp only [contents_shared ha, lineUpdates, contents_append, contents_of_not_mem hm]
  intro v
  rw [line]
  split
  · exact h.twice v
  · exact h v

theorem assigns_of_number {bits : Nat → Option Bool} (ha : a ∉ p.ownRegisters)
    (hl : a ∉ p.lineRegisters) (h : Word.Assigns bits (contents a p.msiUpdates))
    (outcome : LinkOutcome) : Word.Assigns bits (contents a (p.bringUpUpdates outcome)) := by
  have asserts : a ∉ p.assertUpdates.map (·.register) := fun h => hl (assertUpdates_registers h)
  have releases : a ∉ p.releaseUpdates.map (·.register) := fun h => hl (releaseUpdates_registers h)
  have lines : a ∉ p.lineUpdates.map (·.register) := by
    rw [lineUpdates, List.map_append]
    exact fun h => (List.mem_append.mp h).elim asserts releases
  intro v
  rw [contents_shared ha, contents_append, contents_append, contents_append,
    contents_of_not_mem asserts, contents_of_not_mem releases]
  split
  · rw [contents_of_not_mem lines]
    exact h v
  · exact h v

/-! ### The line -/

theorem data_ne_direction (l : Perst) : l.dataRegister ≠ l.directionRegister := fun h =>
  absurd (TranslationUnit.at_inj (by decide) (by decide) h) (by decide)

theorem contents_line {line : Perst} (hl : p.perst? = some line) (v : Word) :
    contents line.dataRegister p.lineUpdates v =
        line.level line.line.activeLow (line.level (!line.line.activeLow) v) ∧
      contents line.directionRegister p.lineUpdates v = line.level true v := by
  have apart := data_ne_direction line
  rw [lineUpdates, assertUpdates, releaseUpdates, hl]
  simp [contents_cons, contents_nil, apart, apart.symm, Perst.level]

theorem assigns_line (hp : p.controller.Encodable) :
    Word.Assigns (p.controller.lineBit (·.activeLow))
        (contents (p.soc.gpioBase.at GpioPort.data) p.lineUpdates) ∧
      Word.Assigns (p.controller.lineBit fun _ => true)
        (contents (p.soc.gpioBase.at GpioPort.direction) p.lineUpdates) := by
  cases hl : p.controller.resetLine with
  | none =>
    have idle : p.lineUpdates = [] := by
      rw [lineUpdates, assertUpdates, releaseUpdates, perst?, hl]
      rfl
    refine ⟨fun v i => ?_, fun v i => ?_⟩ <;> rw [idle, contents_nil, Controller.lineBit, hl] <;> rfl
  | some line =>
    have hline : p.perst? = some ⟨p.soc.gpioBase, line⟩ := by rw [perst?, hl, Option.map_some]
    have level (high : Bool) := Perst.assigns_level (l := ⟨p.soc.gpioBase, line⟩)
      (hp.pin line hl) high
    refine ⟨fun v i => ?_, fun v i => ?_⟩
    -- the level that asserts is overwritten at the same pin
    · have turn := ((level (!line.activeLow)).comp (level line.activeLow)) v i
      rw [Controller.lineBit, hl]
      refine (congrArg (BitVec.getLsbD · i) (contents_line hline v).1).trans (turn.trans ?_)
      by_cases hi : line.pin = i <;> simp [hi]
    · rw [Controller.lineBit, hl]
      exact (congrArg (BitVec.getLsbD · i) (contents_line hline v).2).trans (level true v i)

/-! ### The number -/

theorem getLsbD_msiNumberMask (i : Nat) : Bm1000.msiNumberMask.getLsbD i = decide (i < 2) := by
  show (BitVec.ofNat 32 (2 ^ 2 - 1)).getLsbD i = _
  rw [BitVec.getLsbD_ofNat, Nat.testBit_two_pow_sub_one]
  by_cases h : i < 2
  · simp [h, Nat.lt_trans h]
  · simp [h]

theorem assigns_number {c : Controller} (hx : c.index < Bm1000.controllers) :
    Word.Assigns c.numberBits
      (contents Bm1000.msiTranslation (msiUpdates ⟨Bm1000.soc, c⟩)) := by
  have hx : c.index < 3 := hx
  intro v i
  unfold Controller.numberBits msiUpdates
  cases c.msiNumber with
  | none => rfl
  | some id =>
    show (MsiTranslation.assign _ c.index id v).getLsbD i = _
    by_cases hi : i < 32
    · rw [MsiTranslation.getLsbD_assign _ _ _ _ hi, getLsbD_msiNumberMask, MsiTranslation.shift,
        Option.bind_some]
      have place : (c.index * 2 ≤ i ∧ decide (i - c.index * 2 < 2) = true) ↔
          2 * c.index ≤ i ∧ i < 2 * c.index + 2 := by
        rw [decide_eq_true_iff]
        omega
      by_cases hn : 2 * c.index ≤ i ∧ i < 2 * c.index + 2
      · have apart : i ≠ 9 + c.index := by omega
        rw [if_pos (place.mpr hn), if_pos hn, decide_eq_false apart, Bool.or_false, Nat.mul_comm]
        rfl
      · rw [if_neg (fun h => hn (place.mp h)), if_neg hn]
        by_cases he : i = 9 + c.index <;> simp [he]
    · have outside : ¬(2 * c.index ≤ i ∧ i < 2 * c.index + 2) ∧ i ≠ 9 + c.index := by omega
      rw [Option.bind_some, if_neg outside.1, if_neg outside.2,
        BitVec.getLsbD_of_ge _ i (Nat.le_of_not_lt hi), BitVec.getLsbD_of_ge _ i (Nat.le_of_not_lt hi)]
      rfl

end

end Port

/-! ## All ports -/

/-- After a round of bring-ups the bits that the updates of each port set are as it sets them. -/
theorem Recording.bringUp_merged {soc : Soc} {cs : List Controller} {a : Address}
    {bits : Controller → Nat → Option Bool} (ha : ∀ c ∈ cs, a ∉ Port.ownRegisters ⟨soc, c⟩)
    (hb : ∀ c ∈ cs, ∀ outcome,
      Word.Assigns (bits c) (Update.contents a (Port.bringUpUpdates ⟨soc, c⟩ outcome)))
    (hd : cs.Pairwise fun c d => ∀ i, bits c i = none ∨ bits d i = none) (r : Recording)
    (hr : r.file.Plain a) :
    Word.Merged cs bits (r.file.peek a) ((r.bringUp ⟨soc, cs⟩).2.file.peek a) := by
  have path := runs_exchanges platform (Host.bringUpPorts soc cs) r
  have controllers := Host.controllers_of_bringUpPorts path
  generalize ((Host.bringUpPorts soc cs).run platform r).1 = states at path controllers
  have follows := platform.follows_run (Host.bringUpPorts soc cs) r
  subst controllers
  have raw : a ∉ states.flatMap fun s => Port.rawRegisters ⟨soc, s.controller⟩ s.outcome := by
    intro h
    obtain ⟨s, hs, h⟩ := List.mem_flatMap.mp h
    exact ha s.controller (List.mem_map_of_mem hs) (Port.rawRegisters_own _ h)
  have sets : ∀ s ∈ states, Word.Assigns (bits s.controller)
      (Update.contents a (Port.bringUpUpdates ⟨soc, s.controller⟩ s.outcome)) :=
    fun s hs => hb s.controller (List.mem_map_of_mem hs) s.outcome
  have apart : states.Pairwise fun s t =>
      ∀ i, bits s.controller i = none ∨ bits t.controller i = none :=
    List.pairwise_map.mp hd
  have merged := Update.contents_merged sets apart (r.file.peek a)
  rw [(r.bringUp_eq ⟨soc, states.map (·.controller)⟩).2,
    contents_of_makes (Host.bringUpPorts_makes path) raw hr follows]
  refine ⟨fun c hc => ?_, fun i hi => merged.others i fun s hs => hi _ (List.mem_map_of_mem hs)⟩
  obtain ⟨s, hs, rfl⟩ := List.mem_map.mp hc
  exact merged.own s hs

/-- The GPIO registers of the chip, and the register that tags message interrupts on the
BM1000. -/
def Soc.pooledRegisters (soc : Soc) : List Address :=
  [soc.gpioBase.at GpioPort.data, soc.gpioBase.at GpioPort.direction, Bm1000.msiTranslation]

/-- Every PERST# pin is an output, at the level that releases the line, and every other pin is as
it was. -/
structure Soc.LinesReleased (soc : Soc) (cs : List Controller) (old new : Address → Word) :
    Prop where
  level : ∀ c ∈ cs, ∀ line, c.resetLine = some line →
    (new (soc.gpioBase.at GpioPort.data)).getLsbD line.pin = line.activeLow
  output : ∀ c ∈ cs, ∀ line, c.resetLine = some line →
    (new (soc.gpioBase.at GpioPort.direction)).getLsbD line.pin = true
  others : ∀ i, (∀ c ∈ cs, ∀ line, c.resetLine = some line → line.pin ≠ i) →
    ∀ a ∈ [soc.gpioBase.at GpioPort.data, soc.gpioBase.at GpioPort.direction],
      (new a).getLsbD i = (old a).getLsbD i

/-- Every port that has a number for its message interrupts has it in its two bits and is
enabled, and every bit of no such port is as it was. -/
structure Bm1000.NumbersRouted (cs : List Controller) (old new : Word) : Prop where
  number : ∀ c ∈ cs, ∀ id, c.msiNumber = some id → (new.extractLsb' (2 * c.index) 2).toNat = id
  enabled : ∀ c ∈ cs, ∀ id, c.msiNumber = some id → new.getLsbD (9 + c.index) = true
  others : ∀ i, (∀ c ∈ cs, ∀ id, c.msiNumber = some id →
      i ≠ 2 * c.index ∧ i ≠ 2 * c.index + 1 ∧ i ≠ 9 + c.index) →
    new.getLsbD i = old.getLsbD i

section

variable {soc : Soc} {cs : List Controller}

theorem linesReleased_of_merged {old new : Address → Word}
    (hdata : Word.Merged cs (Controller.lineBit · (·.activeLow))
      (old (soc.gpioBase.at GpioPort.data)) (new (soc.gpioBase.at GpioPort.data)))
    (hdirection : Word.Merged cs (Controller.lineBit · fun _ => true)
      (old (soc.gpioBase.at GpioPort.direction)) (new (soc.gpioBase.at GpioPort.direction))) :
    soc.LinesReleased cs old new := by
  refine ⟨fun c hc line hl => ?_, fun c hc line hl => ?_, fun i hi a ha => ?_⟩
  · refine hdata.own c hc line.pin _ ?_
    rw [Controller.lineBit_eq hl, if_pos rfl]
  · refine hdirection.own c hc line.pin _ ?_
    rw [Controller.lineBit_eq hl, if_pos rfl]
  · rcases List.mem_cons.mp ha with rfl | ha
    · exact hdata.others i fun c hc => Controller.lineBit_eq_none _ (hi c hc)
    · obtain rfl := List.mem_singleton.mp ha
      exact hdirection.others i fun c hc => Controller.lineBit_eq_none _ (hi c hc)

theorem numbersRouted_of_merged {old new : Word} (hc : ∀ c ∈ cs, c.Encodable)
    (hx : ∀ c ∈ cs, c.index < Bm1000.controllers)
    (h : Word.Merged cs Controller.numberBits old new) : Bm1000.NumbersRouted cs old new := by
  refine ⟨fun c hmem id hid => ?_, fun c hmem id hid => ?_, fun i hi => ?_⟩
  · have field : new.extractLsb' (2 * c.index) 2 = BitVec.ofNat 2 id := by
      apply BitVec.eq_of_getLsbD_eq
      intro k hk
      have bit := h.own c hmem (2 * c.index + k) (id.testBit k) (by
        rw [Controller.numberBits_eq hid, if_pos (by omega), Nat.add_sub_cancel_left])
      rw [BitVec.getLsbD_extractLsb', BitVec.getLsbD_ofNat, bit]
    rw [field, BitVec.toNat_ofNat, Nat.mod_eq_of_lt ((hc c hmem).number id hid)]
  · have small : c.index < 3 := hx c hmem
    refine h.own c hmem _ _ ?_
    rw [Controller.numberBits_eq hid, if_neg (by omega), if_pos rfl]
  · exact h.others i fun c hmem => Controller.numberBits_eq_none (hi c hmem)

/-- On the chip that has the register, and on the other as well. -/
theorem Soc.msiTranslation_not_gpio (hs : soc ∈ Soc.all) : Bm1000.msiTranslation ∉
    [soc.gpioBase.at GpioPort.data, soc.gpioBase.at GpioPort.direction] := by
  revert soc
  decide

theorem linesReleased_bringUp (hc : ∀ c ∈ cs, c.Encodable)
    (hpins : (cs.filterMap fun c => c.resetLine.map (·.pin)).Nodup)
    (hblocks : ∀ c ∈ cs, List.Disjoint (Port.ownRegisters ⟨soc, c⟩) soc.pooledRegisters)
    (hs : soc ∈ Soc.all) (r : Recording) (hr : ∀ a ∈ soc.pooledRegisters, r.file.Plain a) :
    soc.LinesReleased cs r.file.peek (r.bringUp ⟨soc, cs⟩).2.file.peek := by
  have apart (value : ResetLine → Bool) := (List.pairwise_filterMap.mp hpins).imp fun {c d} h =>
    Controller.lineBit_apart h value
  have line (a : Address) (ha : a ∈ [soc.gpioBase.at GpioPort.data, soc.gpioBase.at GpioPort.direction])
      (value : ResetLine → Bool) (h : ∀ c ∈ cs, Word.Assigns (c.lineBit value)
        (Update.contents a (Port.lineUpdates ⟨soc, c⟩))) :
      Word.Merged cs (Controller.lineBit · value) (r.file.peek a)
        ((r.bringUp ⟨soc, cs⟩).2.file.peek a) := by
    have pooled : a ∈ soc.pooledRegisters := List.mem_append_left [Bm1000.msiTranslation] ha
    have own : ∀ c ∈ cs, a ∉ Port.ownRegisters ⟨soc, c⟩ := fun c hc h => hblocks c hc h pooled
    refine Recording.bringUp_merged own (fun c hmem outcome => ?_) (apart value) r (hr a pooled)
    have msi : a ∉ Port.msiRegisters ⟨soc, c⟩ := fun h =>
      List.disjoint_of_nodup_append (Soc.nodup_sharedRegisters hs) ha
        (Port.msiRegisters_sublist.subset h)
    exact Port.assigns_of_line (own c hmem) msi (h c hmem) outcome
  have data := line (soc.gpioBase.at GpioPort.data) (by simp) (·.activeLow)
    fun c hmem => (Port.assigns_line (p := ⟨soc, c⟩) (hc c hmem)).1
  have direction := line (soc.gpioBase.at GpioPort.direction) (by simp) (fun _ => true)
    fun c hmem => (Port.assigns_line (p := ⟨soc, c⟩) (hc c hmem)).2
  exact linesReleased_of_merged data direction

theorem numbersRouted_bringUp (hc : ∀ c ∈ cs, c.Encodable)
    (hx : ∀ c ∈ cs, c.index < Bm1000.controllers) (hi : cs.Pairwise (·.index < ·.index))
    (hblocks : ∀ c ∈ cs, List.Disjoint (Port.ownRegisters ⟨Bm1000.soc, c⟩)
      Bm1000.soc.pooledRegisters) (r : Recording)
    (hr : r.file.Plain Bm1000.msiTranslation) :
    Bm1000.NumbersRouted cs (r.file.peek Bm1000.msiTranslation)
      ((r.bringUp ⟨Bm1000.soc, cs⟩).2.file.peek Bm1000.msiTranslation) := by
  have own : ∀ c ∈ cs, Bm1000.msiTranslation ∉ Port.ownRegisters ⟨Bm1000.soc, c⟩ :=
    fun c hmem h => hblocks c hmem h (by simp [Soc.pooledRegisters])
  refine numbersRouted_of_merged hc hx (Recording.bringUp_merged own (fun c hmem outcome => ?_) ?_ r hr)
  · have line : Bm1000.msiTranslation ∉ Port.lineRegisters ⟨Bm1000.soc, c⟩ := fun h =>
      Soc.msiTranslation_not_gpio List.mem_cons_self (Port.lineRegisters_sublist.subset h)
    exact Port.assigns_of_number (own c hmem) line (Port.assigns_number (hx c hmem)) outcome
  · exact hi.imp_of_mem fun {c d} _ hd h => Controller.numberBits_apart h (hx d hd)

end

/-- On the chip without the register nothing uses its address. -/
theorem msiTranslation_not_accessed {cs : List Controller}
    (hblocks : ∀ c ∈ cs, List.Disjoint (Port.ownRegisters ⟨Bs1000.soc, c⟩)
      Bs1000.soc.pooledRegisters) {path : List Exchange} {host : Host}
    (h : Runs (Host.bringUp ⟨Bs1000.soc, cs⟩) path host) :
    ∀ e ∈ path, ¬e.Accesses [Bm1000.msiTranslation] := by
  intro e he haccess
  obtain ⟨hports, -, -⟩ := Host.bringUp_ports h
  have used := haccess.mem (Host.bringUpPorts_within cs _ _ hports e he)
  obtain ⟨c, hc, hmem⟩ := List.mem_flatMap.mp used
  rw [Port.registers, Port.quietRegisters, ← List.cons_append, Port.sharedRegisters] at hmem
  rcases List.mem_append.mp hmem with hown | hshared
  · exact hblocks c hc hown (by simp [Soc.pooledRegisters])
  · rcases List.mem_append.mp hshared with hline | hmsi
    · exact Soc.msiTranslation_not_gpio (List.mem_cons_of_mem _ List.mem_cons_self)
        (Port.lineRegisters_sublist.subset hline)
    · exact absurd (Port.msiRegisters_sublist.subset hmsi) List.not_mem_nil

/-- No PERST# pin and no message interrupt number of a port is lost to another port. -/
theorem bringUp_shares {soc : Soc} (hs : soc ∈ Soc.all) {nodes : List Node}
    (hpins : ((Topology.load soc nodes).controllers.filterMap fun c =>
      c.resetLine.map (·.pin)).Nodup)
    (hblocks : ∀ c ∈ (Topology.load soc nodes).controllers,
      List.Disjoint (Port.ownRegisters ⟨soc, c⟩) soc.pooledRegisters)
    (r : Recording) (hr : ∀ a ∈ soc.pooledRegisters, r.file.Plain a) :
    soc.LinesReleased (Topology.load soc nodes).controllers r.file.peek
      (r.bringUp (Topology.load soc nodes)).2.file.peek ∧
    (soc = Bm1000.soc → Bm1000.NumbersRouted (Topology.load soc nodes).controllers
      (r.file.peek Bm1000.msiTranslation)
      ((r.bringUp (Topology.load soc nodes)).2.file.peek Bm1000.msiTranslation)) ∧
    (soc = Bs1000.soc →
      ∀ e ∈ (Host.bringUp (Topology.load soc nodes)).exchanges Recording.platform r,
        ¬e.Accesses [Bm1000.msiTranslation]) := by
  have encodable : ∀ c ∈ (Topology.load soc nodes).controllers, c.Encodable :=
    fun c hc => Topology.encodable hc
  refine ⟨linesReleased_bringUp encodable hpins hblocks hs r hr, ?_, ?_⟩
  · rintro rfl
    exact numbersRouted_bringUp encodable (fun c hc => Topology.index_lt hs hc)
      Topology.pairwise_index hblocks r (hr _ (by simp [Soc.pooledRegisters]))
  · rintro rfl
    exact msiTranslation_not_accessed hblocks (runs_exchanges _ _ _)

/-- The ports of two neighbours have their pins released and their numbers side by side. The port
of the other chip leaves the register alone. -/
theorem bringUp_shares_example :
    (∃ last, last = ((Recording.start linkedFile none).bringUp
        (Topology.load Bm1000.soc [neighbourNode, exampleNode])).2.file.peek ∧
      (last 0x20200000).getLsbD 5 = true ∧ (last 0x20200000).getLsbD 6 = true ∧
      ((last Bm1000.msiTranslation).extractLsb' 0 2).toNat = 0 ∧
      ((last Bm1000.msiTranslation).extractLsb' 2 2).toNat = 1) ∧
    ∀ e ∈ (Host.bringUp (Topology.load Bs1000.soc [highNode])).exchanges Recording.platform
        (.start linkedFile none), ¬e.Accesses [Bm1000.msiTranslation] := by
  have first : List.Disjoint (Port.ownRegisters ⟨Bm1000.soc, neighbourController⟩)
      Bm1000.soc.pooledRegisters := List.disjoint_of_nodup_append (by decide +kernel)
  have second : List.Disjoint (Port.ownRegisters ⟨Bm1000.soc, exampleController⟩)
      Bm1000.soc.pooledRegisters := List.disjoint_of_nodup_append (by decide +kernel)
  have high : List.Disjoint (Port.ownRegisters ⟨Bs1000.soc, highController⟩)
      Bs1000.soc.pooledRegisters := List.disjoint_of_nodup_append (by decide +kernel)
  have pins : ((Topology.load Bm1000.soc [neighbourNode, exampleNode]).controllers.filterMap
      fun c => c.resetLine.map (·.pin)).Nodup := by
    rw [load_neighbours]
    decide
  have blocks : ∀ c ∈ (Topology.load Bm1000.soc [neighbourNode, exampleNode]).controllers,
      List.Disjoint (Port.ownRegisters ⟨Bm1000.soc, c⟩) Bm1000.soc.pooledRegisters := by
    rw [load_neighbours]
    exact List.forall_mem_cons.mpr ⟨first, List.forall_mem_singleton.mpr second⟩
  have pin : ((Topology.load Bs1000.soc [highNode]).controllers.filterMap
      fun c => c.resetLine.map (·.pin)).Nodup := by
    rw [load_highNode]
    decide
  have block : ∀ c ∈ (Topology.load Bs1000.soc [highNode]).controllers,
      List.Disjoint (Port.ownRegisters ⟨Bs1000.soc, c⟩) Bs1000.soc.pooledRegisters := by
    rw [load_highNode]
    exact List.forall_mem_singleton.mpr high
  obtain ⟨lines, numbers, -⟩ := bringUp_shares List.mem_cons_self pins blocks
    (.start linkedFile none) fun a _ => linkedFile_plain a
  obtain ⟨-, -, quiet⟩ := bringUp_shares (List.mem_cons_of_mem _ List.mem_cons_self) pin block
    (.start linkedFile none) fun a _ => linkedFile_plain a
  have routed := numbers rfl
  rw [load_neighbours] at lines routed
  generalize hlast : ((Recording.start linkedFile none).bringUp
    (Topology.load Bm1000.soc [neighbourNode, exampleNode])).2.file.peek = last at lines routed
  have neighbour : neighbourController ∈ [neighbourController, exampleController] := by simp
  have other : exampleController ∈ [neighbourController, exampleController] := by simp
  exact ⟨⟨last, rfl, lines.level _ neighbour ⟨5, true⟩ rfl, lines.level _ other ⟨6, true⟩ rfl,
    routed.number _ neighbour 0 rfl, routed.number _ other 1 rfl⟩, quiet rfl⟩

end RootComplex

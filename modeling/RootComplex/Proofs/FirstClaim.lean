import Mathlib.Data.List.FinRange
import Mathlib.Logic.Equiv.Defs
import RootComplex.Proofs.WellFormed

/-! # First claims

A topology is what the first good claim on each number gives. A node claims a number, and the
claim is good if the node is enabled and well-formed; the loader keeps the controller of the
first good claim in tree order and sorts what it kept. So a topology depends on the nodes only
through the first good claim on each number. -/

namespace RootComplex

open Property (cellAt)

namespace Node

/-- The node says that its controller has this number. -/
def Claims (soc : Soc) (n : Node) (i : Nat) : Prop :=
  match soc.blocks with
  | .named _ _ => ∃ number ∈ n.property? "baikal,pcie-lcru",
      cellAt number (number.length / 4 - 1) = i
  | .positional dbiBases => ∃ reg ∈ n.property? "reg", ∃ base,
      base.toNat = (Extent.ofCells (cellAt reg) 0).base ∧ dbiBases.idxOf? base = some i

/-- The node is enabled and well-formed, and claims the number. -/
structure Serves (soc : Soc) (n : Node) (i : Nat) : Prop where
  enabled : n.Enabled
  wellFormed : n.WellFormed soc
  claims : n.Claims soc i

/-- The controller that the node describes. -/
def described? (soc : Soc) (n : Node) : Option Controller :=
  if n.isEnabled then (Controller.ofNode soc n).toOption else none

/-- The controller that the node describes, if it has this number. -/
def serving? (soc : Soc) (i : Nat) (n : Node) : Option Controller :=
  (n.described? soc).filter (·.index == i)

variable {soc : Soc} {n : Node} {i j : Nat} {c : Controller}

theorem Claims.unique (hi : n.Claims soc i) (hj : n.Claims soc j) : i = j := by
  unfold Claims at hi hj
  revert hi hj
  split
  · rintro ⟨number, hn, rfl⟩ ⟨number', hn', rfl⟩
    rw [Option.mem_unique hn hn']
  · intro hi hj
    obtain ⟨reg, hr, base, hb, hi⟩ := hi
    obtain ⟨reg', hr', base', hb', hj⟩ := hj
    rw [Option.mem_unique hr hr'] at hb
    rw [BitVec.eq_of_toNat_eq (hb.trans hb'.symm)] at hi
    exact Option.some.inj (hi.symm.trans hj)

theorem described?_eq_some :
    n.described? soc = some c ↔ n.isEnabled = true ∧ Controller.ofNode soc n = .ok c := by
  unfold described?
  by_cases h : n.isEnabled = true
  · rw [if_pos h, and_iff_right h]
    cases Controller.ofNode soc n <;> simp [Except.toOption]
  · rw [if_neg h]
    exact iff_of_false (by rintro ⟨⟩) (fun hn => h hn.1)

end Node

namespace Placement

variable {soc : Soc} {n : Node} {p : Placement}

theorem claims_of_locate {reg : Bytes} {regions : List Region} (hreg : reg ∈ n.property? "reg")
    (he : Region.Entries reg regions) (h : locate soc n regions = .ok p) :
    n.Claims soc p.index := by
  unfold Node.Claims
  rcases locate_eq_ok h with ⟨_, _, names, hblocks, -, -, -, hx⟩ |
    ⟨dbiBases, apb, hblocks, rfl, hx, -⟩
  · rw [hblocks]
    obtain ⟨number, hn, -, -, -, hlast⟩ := declaredIndex_eq_ok.mp hx
    exact ⟨number, hn, hlast⟩
  · rw [hblocks]
    refine ⟨reg, hreg, p.dbi.base, ?_, hx⟩
    rw [← he.get 0 p.dbi rfl]
    rfl

/-- The number of a placed controller is one of the chip's. -/
theorem index_lt_of_locate (hs : soc ∈ Soc.all) {regions : List Region}
    (h : locate soc n regions = .ok p) : p.index < soc.controllers := by
  rcases locate_eq_ok h with ⟨_, _, names, -, -, -, -, hx⟩ | ⟨dbiBases, apb, hblocks, -, hx, -⟩
  · obtain ⟨number, -, -, -, hlt, hlast⟩ := declaredIndex_eq_ok.mp hx
    rwa [hlast] at hlt
  · have htable : dbiBases.length = soc.controllers := by
      simp only [Soc.all, List.mem_cons, List.not_mem_nil, or_false] at hs
      rcases hs with rfl | rfl
      · cases hblocks
      · cases hblocks
        rfl
    rw [← htable]
    exact (List.idxOf?_eq_some_iff.mp hx).1

theorem locate_of_ofNode (h : Placement.ofNode soc n = .ok p) :
    n.Claims soc p.index ∧ ∃ regions, locate soc n regions = .ok p := by
  obtain ⟨regions, hr, hl, -⟩ := ofNode_eq_ok.mp h
  obtain ⟨reg, hreg, -, he⟩ := Node.regions_eq_ok hr
  exact ⟨claims_of_locate hreg he hl, regions, hl⟩

end Placement

namespace Node

variable {soc : Soc} {n : Node} {i : Nat} {c : Controller}

/-- A described controller has the number that its node claims. -/
theorem placed_of_ofNode (h : Controller.ofNode soc n = .ok c) :
    n.Claims soc c.index ∧ (soc ∈ Soc.all → c.index < soc.controllers) := by
  obtain ⟨p, _, _, _, _, _, hp, -, -, -, -, -, rfl⟩ := Controller.ofNode_eq_ok.mp h
  obtain ⟨hclaims, regions, hl⟩ := Placement.locate_of_ofNode hp
  exact ⟨hclaims, fun hs => Placement.index_lt_of_locate hs hl⟩

theorem serving?_eq_some : n.serving? soc i = some c ↔
    (n.isEnabled = true ∧ Controller.ofNode soc n = .ok c) ∧ c.index = i := by
  rw [serving?, Option.filter_eq_some_iff, described?_eq_some, beq_iff_eq]

theorem serves_iff : n.Serves soc i ↔ ∃ c, n.serving? soc i = some c := by
  constructor
  · rintro ⟨henabled, hwf, hclaims⟩
    obtain ⟨c, hc⟩ := Controller.exists_ofNode_iff.mpr hwf
    exact ⟨c, serving?_eq_some.mpr ⟨⟨isEnabled_iff.mpr henabled, hc⟩,
      (placed_of_ofNode hc).1.unique hclaims⟩⟩
  · rintro ⟨c, h⟩
    obtain ⟨⟨henabled, hc⟩, rfl⟩ := serving?_eq_some.mp h
    exact ⟨isEnabled_iff.mp henabled, Controller.exists_ofNode_iff.mp ⟨c, hc⟩,
      (placed_of_ofNode hc).1⟩

theorem serving?_eq_none : n.serving? soc i = none ↔ ¬n.Serves soc i := by
  rw [serves_iff, Option.eq_none_iff_forall_ne_some, not_exists]

theorem Serves.isSome (h : n.Serves soc i) : (n.serving? soc i).isSome :=
  Option.isSome_iff_exists.mpr (serves_iff.mp h)

end Node

namespace Verdict

variable {soc : Soc} {n : Node}

theorem controller?_eq_filter (taken : List Nat) : (Verdict.ofNode soc taken n).controller? =
    (n.described? soc).filter (fun c => decide (c.index ∉ taken)) := by
  ext c
  rw [controller?_ofNode, Option.filter_eq_some_iff, Node.described?_eq_some, decide_eq_true_eq,
    and_assoc]

theorem claims_eq (v : Verdict) : v.claims = (v.controller?.map (·.index)).toList := by
  cases v <;> rfl

end Verdict

namespace Topology

variable {soc : Soc} {nodes : List Node} {c : Controller}

/-- A verdict accepts a controller exactly if its node is the first to serve a number that was
still free. The induction is on the nodes, with the numbers given away growing. -/
theorem mem_verdictsAfter_iff {taken : List Nat} :
    c ∈ (verdictsAfter soc taken nodes).filterMap (·.2.controller?) ↔
      c.index ∉ taken ∧ nodes.findSome? (Node.serving? soc c.index) = some c := by
  induction nodes generalizing taken with
  | nil => simp [verdictsAfter]
  | cons n rest ih =>
    rw [verdictsAfter, List.filterMap_cons, List.findSome?_cons]
    dsimp only
    rw [Verdict.claims_eq, Verdict.controller?_eq_filter, Node.serving?]
    cases n.described? soc with
    | none => exact ih
    | some d =>
      rw [Option.filter_some, Option.filter_some]
      by_cases htaken : d.index ∈ taken
      -- the number is given away, so no free one is lost
      · simp only [htaken, not_true_eq_false, decide_false, Bool.false_eq_true, if_false]
        refine ih.trans (and_congr_right fun hfree => ?_)
        have hother : d.index ≠ c.index := by
          rintro hi
          exact hfree (hi ▸ htaken)
        simp only [beq_eq_false_iff_ne.mpr hother, Bool.false_eq_true, if_false]
      · simp only [htaken, not_false_eq_true, decide_true, if_true, List.mem_cons]
        refine (or_congr_right ih).trans ?_
        by_cases hi : d.index = c.index
        -- from here on the number is taken, and the search ends as well
        · simp only [beq_iff_eq.mpr hi, if_true, Option.some.injEq]
          constructor
          · rintro (rfl | ⟨hfree, -⟩)
            · exact ⟨htaken, rfl⟩
            · exact absurd (by simp [hi]) hfree
          · rintro ⟨-, rfl⟩
            exact .inl rfl
        · have hne : c ≠ d := by
            rintro rfl
            exact hi rfl
          simp only [beq_eq_false_iff_ne.mpr hi, Bool.false_eq_true, if_false, hne, false_or]
          have hnumber : c.index ∉ [d.index] ++ taken ↔ c.index ∉ taken := by
            simp [Ne.symm hi]
          exact and_congr_left fun _ => hnumber

/-- A topology has the controllers that a search for their numbers finds first. -/
theorem mem_load_iff : c ∈ (load soc nodes).controllers ↔
    nodes.findSome? (Node.serving? soc c.index) = some c := by
  rw [mem_controllers]
  exact mem_verdictsAfter_iff.trans (and_iff_right List.not_mem_nil)

/-- A controller is there if it is what the first node that serves its number describes. -/
theorem mem_load_iff_first : c ∈ (load soc nodes).controllers ↔
    ∃ before n after, nodes = before ++ n :: after ∧ n.Serves soc c.index ∧
      Controller.ofNode soc n = .ok c ∧ ∀ m ∈ before, ¬m.Serves soc c.index := by
  rw [mem_load_iff, List.findSome?_eq_some_iff]
  refine exists_congr fun before => exists_congr fun n => exists_congr fun after =>
    and_congr_right fun _ => ?_
  rw [← and_assoc]
  refine and_congr ?_ (forall₂_congr fun m _ => Node.serving?_eq_none)
  constructor
  · intro hn
    exact ⟨Node.serves_iff.mpr ⟨c, hn⟩, (Node.serving?_eq_some.mp hn).1.2⟩
  · rintro ⟨serves, hc⟩
    exact Node.serving?_eq_some.mpr ⟨⟨Node.isEnabled_iff.mpr serves.enabled, hc⟩, rfl⟩

/-- The controllers have growing numbers. -/
theorem pairwise_index : (load soc nodes).controllers.Pairwise (·.index < ·.index) := by
  have hle : (load soc nodes).controllers.Pairwise fun a b => decide (a.index ≤ b.index) := by
    refine List.pairwise_mergeSort ?_ ?_ _
    · intro a b c hab hbc
      simp only [decide_eq_true_eq] at hab hbc ⊢
      exact Nat.le_trans hab hbc
    · intro a b
      simp only [Bool.or_eq_true, decide_eq_true_eq]
      exact Nat.le_total _ _
  have hne := List.pairwise_map.mp (@nodup_index soc nodes)
  refine (hle.and hne).imp fun {a b} h => ?_
  exact Nat.lt_of_le_of_ne (by simpa using h.1) h.2

theorem index_lt (hs : soc ∈ Soc.all) (h : c ∈ (load soc nodes).controllers) :
    c.index < soc.controllers := by
  obtain ⟨-, n, -, -, -, hn, -⟩ := mem_load_iff_first.mp h
  exact (Node.placed_of_ofNode hn).2 hs

/-- The topology depends on the nodes through the first that serves each number. -/
theorem load_congr {nodes' : List Node}
    (h : ∀ i, nodes.findSome? (Node.serving? soc i) = nodes'.findSome? (Node.serving? soc i)) :
    load soc nodes = load soc nodes' := by
  have nodup : ∀ nodes, (load soc nodes).controllers.Nodup := fun nodes =>
    pairwise_index.imp fun hlt heq => absurd (heq ▸ hlt) (Nat.lt_irrefl _)
  refine congrArg (Topology.mk soc) ?_
  refine List.Perm.eq_of_pairwise ?_ pairwise_index pairwise_index ?_
  · intro a b _ _ hab hba
    exact absurd hab (Nat.lt_asymm hba)
  · refine (List.perm_ext_iff_of_nodup (nodup nodes) (nodup nodes')).mpr fun c => ?_
    rw [mem_load_iff, mem_load_iff, h]

/-- A node that serves no number first can be left out. -/
theorem load_remove {before after : List Node} {n : Node}
    (h : ¬(n.Enabled ∧ n.WellFormed soc) ∨ ∃ i, n.Claims soc i ∧ ∃ m ∈ before, m.Serves soc i) :
    load soc (before ++ after) = load soc (before ++ n :: after) := by
  refine load_congr fun i => ?_
  rw [List.findSome?_append, List.findSome?_append, List.findSome?_cons]
  cases hn : n.serving? soc i with
  | none => rfl
  | some c =>
    have serves := Node.serves_iff.mpr ⟨c, hn⟩
    rcases h with h | ⟨j, hj, m, hm, hserves⟩
    · exact absurd ⟨serves.enabled, serves.wellFormed⟩ h
    · obtain rfl := serves.claims.unique hj
      have hearlier : (before.findSome? (Node.serving? soc i)).isSome :=
        List.findSome?_isSome_iff.mpr ⟨m, hm, hserves.isSome⟩
      obtain ⟨d, hd⟩ := Option.isSome_iff_exists.mp hearlier
      rw [hd]
      rfl

end Topology

/-! ## Reordering -/

/-- A search passes over the elements for which it has no result. -/
theorem findSome?_filter_isSome {α β : Type} (f : α → Option β) (l : List α) :
    (l.filter fun x => (f x).isSome).findSome? f = l.findSome? f := by
  rw [← List.head?_filterMap, ← List.head?_filterMap, List.filterMap_filter]
  congr 2
  funext x
  cases f x <;> rfl

/-- A permutation that keeps the order of some elements of a list keeps the list of them. -/
theorem filter_ofFn_perm {α : Type} (l : List α) (σ : Equiv.Perm (Fin l.length)) (p : α → Bool)
    (h : ∀ j k, j < k → p l[σ j] → p l[σ k] → σ j < σ k) :
    (List.ofFn fun k => l[σ k]).filter p = l.filter p := by
  have same : ((List.finRange l.length).filter fun k => p l[σ k]).map σ =
      (List.finRange l.length).filter fun k => p l[k] := by
    have sorted := List.pairwise_lt_finRange l.length
    refine List.Perm.eq_of_pairwise ?_ ?_ (sorted.filter _) ?_
    · intro j k _ _ hjk hkj
      exact absurd hjk (Fin.lt_asymm hkj)
    · refine List.pairwise_map.mpr ((sorted.filter _).imp_of_mem fun {j k} hj hk hjk => ?_)
      exact h j k hjk (List.mem_filter.mp hj).2 (List.mem_filter.mp hk).2
    · refine (List.perm_ext_iff_of_nodup ?_ ?_).mpr fun k => ?_
      · exact ((List.nodup_finRange _).filter _).map σ.injective
      · exact (List.nodup_finRange _).filter _
      · simp only [List.mem_map, List.mem_filter, List.mem_finRange, true_and]
        constructor
        · rintro ⟨j, hj, rfl⟩
          exact hj
        · intro hk
          exact ⟨σ.symm k, by simpa using hk, σ.apply_symm_apply k⟩
  calc (List.ofFn fun k => l[σ k]).filter p
      = ((List.finRange l.length).filter fun k => p l[σ k]).map fun k => l[σ k] := by
        rw [List.ofFn_eq_map, List.filter_map]
        rfl
    _ = (((List.finRange l.length).filter fun k => p l[σ k]).map σ).map fun k => l[k] := by
        rw [List.map_map]
        rfl
    _ = ((List.finRange l.length).filter fun k => p l[k]).map fun k => l[k] := by rw [same]
    _ = (List.ofFn fun k : Fin l.length => l[k]).filter p := by
        rw [List.ofFn_eq_map, List.filter_map]
        rfl
    _ = l.filter p := by
        congr 1
        exact List.ofFn_getElem

/-- A reordering that keeps the order of the nodes that serve one number changes nothing. -/
theorem Topology.load_reorder {soc : Soc} {nodes : List Node}
    (σ : Equiv.Perm (Fin nodes.length))
    (h : ∀ j k, j < k → (∃ i, nodes[σ j].Serves soc i ∧ nodes[σ k].Serves soc i) → σ j < σ k) :
    load soc (List.ofFn fun k => nodes[σ k]) = load soc nodes := by
  refine load_congr fun i => ?_
  rw [← findSome?_filter_isSome, ← findSome?_filter_isSome _ nodes]
  congr 1
  refine filter_ofFn_perm nodes σ _ fun j k hjk hj hk => h j k hjk ⟨i, ?_, ?_⟩
  · exact Node.serves_iff.mpr (Option.isSome_iff_exists.mp hj)
  · exact Node.serves_iff.mpr (Option.isSome_iff_exists.mp hk)

/-- Loading a tree is the ordered union of its nodes, in which the first claim wins. The
controllers have growing numbers that the chip has; a number is there if a node serves it, and
its controller is the one that the first such node describes. So a node can be left out if it
is disabled, malformed or later than another that serves its number, and the nodes can be
reordered as long as those that serve one number keep their order. -/
theorem load_first_claims {soc : Soc} (hs : soc ∈ Soc.all) (nodes : List Node) :
    (Topology.load soc nodes).controllers.Pairwise (·.index < ·.index) ∧
    (∀ c ∈ (Topology.load soc nodes).controllers, c.index < soc.controllers) ∧
    (∀ i, (∃ c ∈ (Topology.load soc nodes).controllers, c.index = i) ↔
      ∃ n ∈ nodes, n.Serves soc i) ∧
    (∀ c, c ∈ (Topology.load soc nodes).controllers ↔
      ∃ before n after, nodes = before ++ n :: after ∧ n.Serves soc c.index ∧
        Controller.ofNode soc n = .ok c ∧ ∀ m ∈ before, ¬m.Serves soc c.index) ∧
    (∀ before n after, nodes = before ++ n :: after →
      (¬(n.Enabled ∧ n.WellFormed soc) ∨
        ∃ i, n.Claims soc i ∧ ∃ m ∈ before, m.Serves soc i) →
      Topology.load soc (before ++ after) = Topology.load soc nodes) ∧
    ∀ σ : Equiv.Perm (Fin nodes.length),
      (∀ j k, j < k → (∃ i, nodes[σ j].Serves soc i ∧ nodes[σ k].Serves soc i) → σ j < σ k) →
      Topology.load soc (List.ofFn fun k => nodes[σ k]) = Topology.load soc nodes := by
  refine ⟨Topology.pairwise_index, fun c hc => ?_, fun i => ?_,
    fun c => Topology.mem_load_iff_first, ?_, ?_⟩
  · obtain ⟨-, n, -, -, -, hn, -⟩ := Topology.mem_load_iff_first.mp hc
    exact (Node.placed_of_ofNode hn).2 hs
  · constructor
    · rintro ⟨c, hc, rfl⟩
      obtain ⟨before, n, after, rfl, serves, -⟩ := Topology.mem_load_iff_first.mp hc
      exact ⟨n, by simp, serves⟩
    · rintro ⟨n, hn, serves⟩
      obtain ⟨c, hc⟩ := Option.isSome_iff_exists.mp
        (List.findSome?_isSome_iff.mpr ⟨n, hn, serves.isSome⟩)
      obtain ⟨m, -, hm⟩ := List.exists_of_findSome?_eq_some hc
      obtain ⟨-, rfl⟩ := Node.serving?_eq_some.mp hm
      exact ⟨c, Topology.mem_load_iff.mpr hc, rfl⟩
  · rintro before n after rfl h
    exact Topology.load_remove h
  · intro σ h
    exact Topology.load_reorder σ h

/-- A node with a fault claims the number first, and a third node claims it again. -/
def claimants : List Node :=
  [exampleNode.edit (.cells "num-lanes" []), exampleNode, exampleNode.edit (.without "ranges")]

theorem load_first_claims_example :
    exampleController ∈ (Topology.load Bm1000.soc claimants).controllers ∧
    Topology.load Bm1000.soc [exampleNode.edit (.cells "num-lanes" []), exampleNode] =
      Topology.load Bm1000.soc claimants := by
  have hs : Bm1000.soc ∈ Soc.all := List.mem_cons_self
  obtain ⟨-, -, -, first, remove, -⟩ := load_first_claims hs claimants
  have serves : exampleNode.Serves Bm1000.soc 1 :=
    Node.serves_iff.mpr ⟨exampleController, by decide +kernel⟩
  have again : (exampleNode.edit (.without "ranges")).Claims Bm1000.soc 1 :=
    (Node.serves_iff.mpr (Option.isSome_iff_exists.mp (by decide +kernel))).claims
  refine ⟨(first exampleController).mpr ⟨[_], exampleNode, [_], rfl, serves, ?_, ?_⟩,
    remove [_, _] _ [] rfl (.inr ⟨1, again, exampleNode, by simp, serves⟩)⟩
  · decide +kernel
  · intro m hm
    obtain rfl := List.mem_singleton.mp hm
    have malformed : ¬(exampleNode.edit (.cells "num-lanes" [])).WellFormed Bm1000.soc := by
      decide +kernel
    exact fun serves => malformed serves.wellFormed

end RootComplex

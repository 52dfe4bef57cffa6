import Mathlib.Data.List.Nodup
import Mathlib.Data.List.Basic
import ProtoSdl.Proofs.GraphNodes

/-! The components of a graph are the classes of nodes that depend on each other. Each is listed
once, in the order of its numbers, and the list of all of them is in the order of their least
numbers. -/
namespace ProtoSdl.Dependency

open Relation

/-- Each of two nodes depends on the other. -/
def Mutual (messages : List Source.Message) (a b : String) : Prop :=
  Depends messages a b ∧ Depends messages b a

/-- A class of nodes that depend on each other, listed in the order of their numbers. -/
structure IsComponent (messages : List Source.Message) (component : List String) : Prop where
  sorted : component.Pairwise fun a b => numberOf messages a < numberOf messages b
  members : ∃ node ∈ numbering messages, ∀ other, other ∈ component ↔ Mutual messages node other

def keyOf (messages : List Source.Message) (component : List String) : Nat :=
  ((component.map (numberOf messages)).min?).getD 0

variable {messages : List Source.Message}

theorem Mutual.refl (a : String) : Mutual messages a a :=
  ⟨.refl, .refl⟩

theorem Mutual.symm {a b : String} (h : Mutual messages a b) : Mutual messages b a :=
  ⟨h.2, h.1⟩

theorem Mutual.trans {a b c : String} (h : Mutual messages a b) (h' : Mutual messages b c) :
    Mutual messages a c :=
  ⟨ReflTransGen.trans h.1 h'.1, ReflTransGen.trans h'.2 h.2⟩

theorem pairwise_numbering (messages : List Source.Message) :
    (numbering messages).Pairwise fun a b => numberOf messages a < numberOf messages b := by
  rw [List.pairwise_iff_getElem]
  intro i j hi hj hlt
  have hn := nodup_numbering messages
  rw [numberOf, numberOf, hn.idxOf_getElem i hi, hn.idxOf_getElem j hj]
  exact hlt

namespace IsComponent

variable {component other : List String}

theorem mutual_of_mem (h : IsComponent messages component) {a b : String} (ha : a ∈ component)
    (hb : b ∈ component) : Mutual messages a b := by
  obtain ⟨node, -, hm⟩ := h.members
  exact ((hm a).mp ha).symm.trans ((hm b).mp hb)

theorem mem_of_mutual (h : IsComponent messages component) {a b : String} (ha : a ∈ component)
    (hab : Mutual messages a b) : b ∈ component := by
  obtain ⟨node, -, hm⟩ := h.members
  exact (hm b).mpr (((hm a).mp ha).trans hab)

theorem subset_numbering (h : IsComponent messages component) {a : String} (ha : a ∈ component) :
    a ∈ numbering messages := by
  obtain ⟨node, hnode, hm⟩ := h.members
  exact ((hm a).mp ha).1.right_mem hnode

theorem exists_mem (h : IsComponent messages component) : ∃ a, a ∈ component := by
  obtain ⟨node, -, hm⟩ := h.members
  exact ⟨node, (hm node).mpr (.refl node)⟩

theorem nodup (h : IsComponent messages component) : component.Nodup :=
  h.sorted.imp fun hlt heq => by simp [heq] at hlt

/-- Components that share a node are the same list. -/
theorem eq_of_mem (h : IsComponent messages component) (h' : IsComponent messages other)
    {a : String} (ha : a ∈ component) (ha' : a ∈ other) : component = other := by
  have hperm : component.Perm other := by
    rw [List.perm_ext_iff_of_nodup h.nodup h'.nodup]
    intro b
    exact ⟨fun hb => h'.mem_of_mutual ha' (h.mutual_of_mem ha hb),
      fun hb => h.mem_of_mutual ha (h'.mutual_of_mem ha' hb)⟩
  refine hperm.eq_of_pairwise (fun x y _ _ hxy hyx => ?_) h.sorted h'.sorted
  exact absurd (Nat.lt_trans hxy hyx) (Nat.lt_irrefl _)

private theorem exists_key (h : IsComponent messages component) :
    ∃ a ∈ component, keyOf messages component = numberOf messages a := by
  obtain ⟨b, hb⟩ := h.exists_mem
  cases hmin : (component.map (numberOf messages)).min? with
  | none =>
    rw [List.min?_eq_none_iff, List.map_eq_nil_iff] at hmin
    simp [hmin] at hb
  | some least =>
    obtain ⟨a, ha, rfl⟩ := List.mem_map.mp (List.min?_mem hmin)
    exact ⟨a, ha, by simp [keyOf, hmin]⟩

/-- Different components have different least numbers. -/
theorem eq_of_key (h : IsComponent messages component) (h' : IsComponent messages other)
    (heq : keyOf messages component = keyOf messages other) : component = other := by
  obtain ⟨a, ha, hka⟩ := h.exists_key
  obtain ⟨b, hb, hkb⟩ := h'.exists_key
  have hab : a = b := numberOf_inj (h.subset_numbering ha) (by rw [← hka, ← hkb, heq])
  exact h.eq_of_mem h' ha (hab ▸ hb)

end IsComponent

namespace Graph

private theorem get?_closures (hn : (messageNames messages).Nodup) {node : String}
    (hm : node ∈ numbering messages) : (ofMessages messages).closures.get? node =
      some (reach (ofMessages messages).dependencies (numbering messages) [] [node]) := by
  have hkeys : (ofMessages messages).closures.keys = numbering messages := by
    simp [closures, Table.keys, nodes_ofMessages hn, Function.comp_def]
  rw [Table.get?_eq_some_iff (by rw [hkeys]; exact nodup_numbering messages)]
  simp only [closures, nodes_ofMessages hn]
  exact List.mem_map.mpr ⟨node, hm, rfl⟩

/-- The component of a node as a part of the numbering, and so in the order of its numbers. -/
theorem componentOf_eq (hn : (messageNames messages).Nodup) {node : String}
    (hm : node ∈ numbering messages) [DecidablePred (Mutual messages node)] :
    componentOf (ofMessages messages).closures node =
      (numbering messages).filter (Mutual messages node) := by
  simp only [componentOf, get?_closures hn hm, Option.getD_some]
  simp only [closures, nodes_ofMessages hn, List.filter_map, List.map_map, Function.comp_def,
    List.map_id']
  apply List.filter_congr
  intro other ho
  rw [Bool.eq_iff_iff, decide_eq_true_eq]
  simp only [List.contains_iff_mem, Bool.and_eq_true, mem_reach_nodes_iff hn hm,
    mem_reach_nodes_iff hn ho, Mutual]

theorem isComponent_componentOf (hn : (messageNames messages).Nodup) {node : String}
    (hm : node ∈ numbering messages) :
    IsComponent messages (componentOf (ofMessages messages).closures node) := by
  classical
  rw [componentOf_eq hn hm]
  refine ⟨(pairwise_numbering messages).filter _, node, hm, fun other => ?_⟩
  simp only [List.mem_filter, decide_eq_true_eq, and_iff_right_iff_imp]
  exact fun h => h.1.right_mem hm

theorem self_mem_componentOf (hn : (messageNames messages).Nodup) {node : String}
    (hm : node ∈ numbering messages) :
    node ∈ componentOf (ofMessages messages).closures node := by
  classical
  rw [componentOf_eq hn hm]
  simp [hm, Mutual.refl]

theorem finished_perm (hn : (messageNames messages).Nodup) :
    (ofMessages messages).finished.Perm (numbering messages) := by
  rw [finished, nodes_ofMessages hn]
  exact finishOrder_perm (nodup_numbering messages)

private theorem componentOf_eq_of_mem (hn : (messageNames messages).Nodup) {a b : String}
    (ha : a ∈ numbering messages) (hb : b ∈ componentOf (ofMessages messages).closures a) :
    componentOf (ofMessages messages).closures b =
      componentOf (ofMessages messages).closures a := by
  have hca := isComponent_componentOf hn ha
  have hbn := hca.subset_numbering hb
  exact (isComponent_componentOf hn hbn).eq_of_mem hca (self_mem_componentOf hn hbn) hb

/-- The node of a component that the walk leaves last. -/
theorem exists_last (hn : (messageNames messages).Nodup) {a : String}
    (ha : a ∈ numbering messages) :
    ∃ last ∈ componentOf (ofMessages messages).closures a,
      ((ofMessages messages).finished.filter
        ((componentOf (ofMessages messages).closures a).contains ·)).getLast? = some last := by
  have hin : a ∈ (ofMessages messages).finished.filter
      ((componentOf (ofMessages messages).closures a).contains ·) := by
    simp [(finished_perm hn).mem_iff, ha, self_mem_componentOf hn ha]
  cases hlast : ((ofMessages messages).finished.filter
      ((componentOf (ofMessages messages).closures a).contains ·)).getLast? with
  | none =>
    rw [List.getLast?_eq_none_iff] at hlast
    rw [hlast] at hin
    simp at hin
  | some last =>
    have hmem := List.mem_of_getLast? hlast
    simp only [List.mem_filter, List.contains_iff_mem] at hmem
    exact ⟨last, hmem.2, rfl⟩

theorem mem_foundComponents (hn : (messageNames messages).Nodup) {component : List String} :
    component ∈ (ofMessages messages).foundComponents ↔ IsComponent messages component := by
  simp only [foundComponents, List.mem_filterMap, Option.ite_none_right_eq_some,
    Option.some.injEq]
  constructor
  · rintro ⟨node, hm, -, rfl⟩
    exact isComponent_componentOf hn ((finished_perm hn).mem_iff.mp hm)
  · intro h
    obtain ⟨a, ha⟩ := h.exists_mem
    have han := h.subset_numbering ha
    have hsame := (isComponent_componentOf hn han).eq_of_mem h (self_mem_componentOf hn han) ha
    obtain ⟨last, hl, hlast⟩ := exists_last hn han
    have hlc := componentOf_eq_of_mem hn han hl
    refine ⟨last, ?_, ?_, by rw [hlc, hsame]⟩
    · exact List.mem_of_mem_filter (List.mem_of_getLast? hlast)
    · rw [hlc]
      exact hlast

private theorem nodup_foundComponents (hn : (messageNames messages).Nodup) :
    (ofMessages messages).foundComponents.Nodup := by
  have hf : (ofMessages messages).finished.Nodup :=
    (finished_perm hn).nodup_iff.mpr (nodup_numbering messages)
  refine hf.filterMap fun a b component ha hb => ?_
  simp only [Option.mem_def, Option.ite_none_right_eq_some, Option.some.injEq] at ha hb
  obtain ⟨hla, rfl⟩ := ha
  obtain ⟨hlb, hcb⟩ := hb
  rw [hcb, hla] at hlb
  exact Option.some.inj hlb

/-- Listing a component in the order of its numbers leaves it as it is. -/
theorem sorted_foundComponents (hn : (messageNames messages).Nodup) :
    ((ofMessages messages).foundComponents.map fun component =>
      component.mergeSort fun a b =>
        decide ((ofMessages messages).number a ≤ (ofMessages messages).number b)) =
      (ofMessages messages).foundComponents := by
  conv_rhs => rw [← List.map_id (ofMessages messages).foundComponents]
  apply List.map_congr_left
  intro component hc
  refine List.mergeSort_of_pairwise (((mem_foundComponents hn).mp hc).sorted.imp fun hlt => ?_)
  simpa [number_ofMessages hn] using Nat.le_of_lt hlt

private theorem leastNumber_eq (hn : (messageNames messages).Nodup) (component : List String) :
    (ofMessages messages).leastNumber component = keyOf messages component := by
  rw [leastNumber, keyOf]
  congr 2
  exact List.map_congr_left fun node _ => number_ofMessages hn node

theorem components_perm (hn : (messageNames messages).Nodup) :
    (ofMessages messages).components.Perm (ofMessages messages).foundComponents := by
  simp only [components, sorted_foundComponents hn]
  exact List.mergeSort_perm _ _

theorem mem_components (hn : (messageNames messages).Nodup) {component : List String} :
    component ∈ (ofMessages messages).components ↔ IsComponent messages component := by
  rw [(components_perm hn).mem_iff, mem_foundComponents hn]

theorem nodup_components (hn : (messageNames messages).Nodup) :
    (ofMessages messages).components.Nodup :=
  (components_perm hn).nodup_iff.mpr (nodup_foundComponents hn)

theorem components_sorted (hn : (messageNames messages).Nodup) :
    (ofMessages messages).components.Pairwise fun a b => keyOf messages a < keyOf messages b := by
  have hle : (ofMessages messages).components.Pairwise
      fun a b => keyOf messages a ≤ keyOf messages b := by
    simp only [components, sorted_foundComponents hn]
    refine (List.pairwise_mergeSort (fun a b c hab hbc => ?_) (fun a b => ?_) _).imp fun hab => ?_
    · simp only [decide_eq_true_eq] at hab hbc ⊢
      exact Nat.le_trans hab hbc
    · simpa using Nat.le_total _ _
    · simpa [leastNumber_eq hn] using hab
  refine (hle.and (nodup_components hn)).imp_of_mem fun ha hb hab => ?_
  refine Nat.lt_of_le_of_ne hab.1 fun heq => hab.2 ?_
  exact ((mem_components hn).mp ha).eq_of_key ((mem_components hn).mp hb) heq

end Graph

end ProtoSdl.Dependency

import ProtoSdl.Proofs.LeastOrder

/-! Cycles of messages. A node lies on a cycle if it refers to itself, directly or through others.
The components that are reported are those of such nodes, so that no type outside the messages is in
one: it refers to nothing. Where none is reported, the order has no reference forward. -/
namespace ProtoSdl.Dependency

open Relation

variable {messages : List Source.Message} {component : List String} {a b : String}

theorem mem_messageNames_of_transGen (h : TransGen (Refers messages) a b) :
    a ∈ messageNames messages := by
  obtain ⟨next, hstep, -⟩ := TransGen.head'_iff.mp h
  exact hstep.left_mem

/-- Between different nodes a dependency takes a step at least. -/
theorem mutual_iff_transGen (hne : a ≠ b) : Mutual messages a b ↔
    TransGen (Refers messages) a b ∧ TransGen (Refers messages) b a := by
  have hpath {x y : String} (hxy : x ≠ y) :
      Depends messages x y ↔ TransGen (Refers messages) x y := by
    rw [Depends, reflTransGen_iff_eq_or_transGen, or_iff_right (Ne.symm hxy)]
  rw [Mutual, hpath hne, hpath (Ne.symm hne)]

theorem transGen_self_of_mutual (h : Mutual messages a b) (hne : a ≠ b) :
    TransGen (Refers messages) a a := by
  obtain ⟨hab, hba⟩ := (mutual_iff_transGen hne).mp h
  exact hab.trans hba

namespace IsComponent

private theorem one_lt_length_iff (h : IsComponent messages component) (ha : a ∈ component) :
    1 < component.length ↔ ∃ b ∈ component, a ≠ b := by
  constructor
  · intro hlong
    by_contra hsame
    push Not at hsame
    have hrep : component = List.replicate component.length a :=
      List.eq_replicate_iff.mpr ⟨rfl, fun b hb => (hsame b hb).symm⟩
    have hshort : component.length ≤ 1 := List.nodup_replicate.mp (hrep ▸ h.nodup)
    omega
  · rintro ⟨b, hb, hne⟩
    by_contra hshort
    have hsize := List.length_pos_of_mem ha
    obtain ⟨c, hc⟩ := List.length_eq_one_iff.mp (by omega : component.length = 1)
    simp only [hc, List.mem_singleton] at ha hb
    exact hne (ha.trans hb.symm)

private theorem transGen_self_iff (h : IsComponent messages component) (ha : a ∈ component)
    (hb : b ∈ component) :
    TransGen (Refers messages) a a ↔ TransGen (Refers messages) b b := by
  have hab := h.mutual_of_mem ha hb
  constructor
  · exact fun hloop => TransGen.trans_right hab.2 (TransGen.trans_left hloop hab.1)
  · exact fun hloop => TransGen.trans_right hab.1 (TransGen.trans_left hloop hab.2)

/-- A component is a cycle if its nodes depend on themselves. A component of one node is a cycle by
a reference from the node to itself, since all nodes on the way back are in the component. -/
theorem isCycle_iff (hn : (messageNames messages).Nodup) (h : IsComponent messages component)
    (ha : a ∈ component) :
    (Graph.ofMessages messages).isCycle component = true ↔ TransGen (Refers messages) a a := by
  simp only [Graph.isCycle, Bool.or_eq_true, decide_eq_true_eq, List.any_eq_true,
    List.contains_iff_mem, Graph.mem_dependencies hn, h.one_lt_length_iff ha]
  constructor
  · rintro (⟨b, hb, hne⟩ | ⟨b, hb, hself⟩)
    · exact transGen_self_of_mutual (h.mutual_of_mem ha hb) hne
    · exact (h.transGen_self_iff ha hb).mpr (.single hself)
  · intro hloop
    obtain ⟨next, hstep, hback⟩ := TransGen.head'_iff.mp hloop
    have hnext : next ∈ component := h.mem_of_mutual ha ⟨.single hstep, hback⟩
    by_cases heq : a = next
    · exact Or.inr ⟨a, ha, by rwa [← heq] at hstep⟩
    · exact Or.inl ⟨next, hnext, heq⟩

/-- Components are listed as parts of the numbering, and so, without outside types, as parts of the
messages. -/
theorem sublist_messageNames (hn : (messageNames messages).Nodup)
    (h : IsComponent messages component) (hin : ∀ node ∈ component, node ∈ messageNames messages) :
    component.Sublist (messageNames messages) := by
  have hall := pairwise_numbering messages
  rw [numbering_eq hn, List.pairwise_append] at hall
  have hpart : (messageNames messages).filter (· ∈ component) = component := by
    have hperm : ((messageNames messages).filter (· ∈ component)).Perm component := by
      rw [List.perm_ext_iff_of_nodup (hn.filter _) h.nodup]
      intro node
      simpa using hin node
    refine hperm.eq_of_pairwise (fun x y _ _ hxy hyx => ?_) (hall.1.filter _) h.sorted
    exact absurd (Nat.lt_trans hxy hyx) (Nat.lt_irrefl _)
  rw [← hpart]
  exact List.filter_sublist

/-- The first node of a component has its least number. -/
theorem keyOf_cons {first : String} {rest : List String}
    (h : IsComponent messages (first :: rest)) :
    keyOf messages (first :: rest) = numberOf messages first := by
  obtain ⟨hfirst, -⟩ := List.pairwise_cons.mp h.sorted
  have hmin : ((first :: rest).map (numberOf messages)).min? = some (numberOf messages first) := by
    rw [List.min?_eq_some_iff]
    refine ⟨List.mem_cons_self, ?_⟩
    intro number hnumber
    obtain ⟨node, hnode, rfl⟩ := List.mem_map.mp hnumber
    rcases List.mem_cons.mp hnode with rfl | hnode
    · exact Nat.le_refl _
    · exact Nat.le_of_lt (hfirst node hnode)
  rw [keyOf, hmin, Option.getD_some]

end IsComponent

private theorem numberOf_eq_idxOf (hn : (messageNames messages).Nodup)
    (ha : a ∈ messageNames messages) :
    numberOf messages a = (messageNames messages).idxOf a := by
  rw [numberOf, numbering_eq hn, List.idxOf_append_of_mem ha]

section Cycles

variable {cycle : List String}

theorem isComponent_of_mem_cycles (hn : (messageNames messages).Nodup)
    (h : cycle ∈ (Graph.ofMessages messages).cycles) : IsComponent messages cycle :=
  (Graph.mem_components hn).mp (List.mem_of_mem_filter h)

theorem transGen_self_of_mem_cycle (hn : (messageNames messages).Nodup)
    (h : cycle ∈ (Graph.ofMessages messages).cycles) (ha : a ∈ cycle) :
    TransGen (Refers messages) a a :=
  ((isComponent_of_mem_cycles hn h).isCycle_iff hn ha).mp (List.mem_filter.mp h).2

/-- A node that depends on itself has its component reported. -/
theorem exists_cycle_of_transGen_self (hn : (messageNames messages).Nodup)
    (h : TransGen (Refers messages) a a) :
    ∃ cycle ∈ (Graph.ofMessages messages).cycles, a ∈ cycle := by
  have hnode : a ∈ numbering messages := mem_numbering.mpr (Or.inl (mem_messageNames_of_transGen h))
  have hcomponent := Graph.isComponent_componentOf hn hnode
  have hself := Graph.self_mem_componentOf hn hnode
  refine ⟨_, List.mem_filter.mpr ⟨(Graph.mem_components hn).mpr hcomponent, ?_⟩, hself⟩
  exact (hcomponent.isCycle_iff hn hself).mpr h

private theorem exists_mem_cycle_iff (hn : (messageNames messages).Nodup) (a : String) :
    (∃ cycle ∈ (Graph.ofMessages messages).cycles, a ∈ cycle) ↔
      TransGen (Refers messages) a a := by
  constructor
  · rintro ⟨cycle, hc, ha⟩
    exact transGen_self_of_mem_cycle hn hc ha
  · exact exists_cycle_of_transGen_self hn

private theorem exists_shared_cycle_iff (hn : (messageNames messages).Nodup) (hne : a ≠ b) :
    (∃ cycle ∈ (Graph.ofMessages messages).cycles, a ∈ cycle ∧ b ∈ cycle) ↔
      TransGen (Refers messages) a b ∧ TransGen (Refers messages) b a := by
  rw [← mutual_iff_transGen hne]
  constructor
  · rintro ⟨cycle, hc, ha, hb⟩
    exact (isComponent_of_mem_cycles hn hc).mutual_of_mem ha hb
  · intro h
    obtain ⟨cycle, hc, ha⟩ := exists_cycle_of_transGen_self hn (transGen_self_of_mutual h hne)
    exact ⟨cycle, hc, ha, (isComponent_of_mem_cycles hn hc).mem_of_mutual ha h⟩

private theorem cycles_disjoint (hn : (messageNames messages).Nodup) :
    (Graph.ofMessages messages).cycles.Pairwise List.Disjoint := by
  have hnodup : (Graph.ofMessages messages).cycles.Nodup := (Graph.nodup_components hn).filter _
  refine hnodup.imp_of_mem fun hc hd hne a hac had => hne ?_
  exact (isComponent_of_mem_cycles hn hc).eq_of_mem (isComponent_of_mem_cycles hn hd) hac had

theorem mem_messageNames_of_mem_cycle (hn : (messageNames messages).Nodup)
    (h : cycle ∈ (Graph.ofMessages messages).cycles) (ha : a ∈ cycle) :
    a ∈ messageNames messages :=
  mem_messageNames_of_transGen (transGen_self_of_mem_cycle hn h ha)

private theorem cycle_sublist (hn : (messageNames messages).Nodup)
    (h : cycle ∈ (Graph.ofMessages messages).cycles) :
    cycle ≠ [] ∧ cycle.Sublist (messageNames messages) := by
  have hcomponent := isComponent_of_mem_cycles hn h
  obtain ⟨a, ha⟩ := hcomponent.exists_mem
  exact ⟨List.ne_nil_of_mem ha,
    hcomponent.sublist_messageNames hn fun _ => mem_messageNames_of_mem_cycle hn h⟩

/-- Of two cycles the one whose first message is declared first is reported first. -/
theorem cycles_sorted (hn : (messageNames messages).Nodup) :
    (Graph.ofMessages messages).cycles.Pairwise fun earlier later =>
      ∀ a ∈ earlier.head?, ∀ b ∈ later.head?,
        (messageNames messages).idxOf a < (messageNames messages).idxOf b := by
  have hkeys : (Graph.ofMessages messages).cycles.Pairwise
      fun earlier later => keyOf messages earlier < keyOf messages later :=
    (Graph.components_sorted hn).filter _
  refine hkeys.imp_of_mem fun {earlier later} hearlier hlater hlt a ha b hb => ?_
  obtain ⟨as, rfl⟩ := List.head?_eq_some_iff.mp ha
  obtain ⟨bs, rfl⟩ := List.head?_eq_some_iff.mp hb
  rw [(isComponent_of_mem_cycles hn hearlier).keyOf_cons,
    (isComponent_of_mem_cycles hn hlater).keyOf_cons] at hlt
  rwa [← numberOf_eq_idxOf hn (mem_messageNames_of_mem_cycle hn hearlier List.mem_cons_self),
    ← numberOf_eq_idxOf hn (mem_messageNames_of_mem_cycle hn hlater List.mem_cons_self)]

theorem cycles_ne_nil_iff (hn : (messageNames messages).Nodup) :
    (Graph.ofMessages messages).cycles ≠ [] ↔
      ∃ message ∈ messages, TransGen (Refers messages) message.fullName message.fullName := by
  constructor
  · intro hne
    obtain ⟨cycle, hc⟩ := List.exists_mem_of_ne_nil _ hne
    obtain ⟨a, ha⟩ := (isComponent_of_mem_cycles hn hc).exists_mem
    obtain ⟨message, hm, rfl⟩ := List.mem_map.mp (mem_messageNames_of_mem_cycle hn hc ha)
    exact ⟨message, hm, transGen_self_of_mem_cycle hn hc ha⟩
  · rintro ⟨message, -, hloop⟩
    obtain ⟨cycle, hc, -⟩ := exists_cycle_of_transGen_self hn hloop
    exact List.ne_nil_of_mem hc

end Cycles

private theorem order?_of_cycles {graph : Graph} (h : graph.cycles ≠ []) :
    graph.order? = .error { cycles := graph.cycles } := by
  simp [Graph.order?, h]

theorem order?_of_no_cycles {graph : Graph} (h : graph.cycles = []) :
    graph.order? = .ok graph.order := by
  simp [Graph.order?, h]

private theorem order?_eq_error_iff (hn : (messageNames messages).Nodup) (error : CycleError) :
    (Graph.ofMessages messages).order? = .error error ↔
      error.cycles = (Graph.ofMessages messages).cycles ∧
        ∃ message ∈ messages, TransGen (Refers messages) message.fullName message.fullName := by
  rw [← cycles_ne_nil_iff hn]
  by_cases h : (Graph.ofMessages messages).cycles = []
  · simp [order?_of_no_cycles h, h]
  · rw [order?_of_cycles h, and_iff_left h]
    constructor
    · rintro ⟨rfl⟩
      rfl
    · rintro hcycles
      rw [← hcycles]

/-- Without cycles no message refers to a later one: the two would depend on each other. -/
theorem order_forward_free (hn : (messageNames messages).Nodup)
    (h : ¬ ∃ message ∈ messages, TransGen (Refers messages) message.fullName message.fullName) :
    (Graph.ofMessages messages).order.Pairwise
      fun earlier later => ¬ Refers messages earlier later := by
  apply (pairwise_order hn).imp
  intro a b hmutual hab
  obtain ⟨message, hm, rfl⟩ := List.mem_map.mp hab.left_mem
  exact h ⟨message, hm, TransGen.head' hab (hmutual hab).2⟩

/-- The cycles are the classes of messages that depend on themselves and on each other, each in the
order of the messages, and in the order of their first messages. They are the error of ordering the
messages where there are any; otherwise the order has every message behind those it refers to. -/
theorem cycles_are_exact (messages : List Source.Message) (hn : (messageNames messages).Nodup) :
    (Graph.ofMessages messages).cycles.Pairwise List.Disjoint ∧
    (∀ a b, a ≠ b →
      ((∃ cycle ∈ (Graph.ofMessages messages).cycles, a ∈ cycle ∧ b ∈ cycle) ↔
        TransGen (Refers messages) a b ∧ TransGen (Refers messages) b a)) ∧
    (∀ a, (∃ cycle ∈ (Graph.ofMessages messages).cycles, a ∈ cycle) ↔
      TransGen (Refers messages) a a) ∧
    (∀ cycle ∈ (Graph.ofMessages messages).cycles,
      cycle ≠ [] ∧ cycle.Sublist (messageNames messages)) ∧
    ((Graph.ofMessages messages).cycles.Pairwise fun earlier later =>
      ∀ a ∈ earlier.head?, ∀ b ∈ later.head?,
        (messageNames messages).idxOf a < (messageNames messages).idxOf b) ∧
    (∀ error, (Graph.ofMessages messages).order? = .error error ↔
      error.cycles = (Graph.ofMessages messages).cycles ∧
        ∃ message ∈ messages, TransGen (Refers messages) message.fullName message.fullName) ∧
    ((¬ ∃ message ∈ messages, TransGen (Refers messages) message.fullName message.fullName) →
      ∃ sorted, (Graph.ofMessages messages).order? = .ok sorted ∧
        sorted.Perm (messageNames messages) ∧
        sorted.Pairwise fun earlier later => ¬ Refers messages earlier later) := by
  refine ⟨cycles_disjoint hn, fun _ _ => exists_shared_cycle_iff hn, exists_mem_cycle_iff hn,
    fun _ => cycle_sublist hn, cycles_sorted hn, order?_eq_error_iff hn, fun hnone => ?_⟩
  have hempty : (Graph.ofMessages messages).cycles = [] := by
    by_contra hne
    exact hnone ((cycles_ne_nil_iff hn).mp hne)
  exact ⟨_, order?_of_no_cycles hempty, order_perm hn, order_forward_free hn hnone⟩

/-- The two messages of the cycle are reported together, the message that leads into it and the type
outside are not, and the messages have no order. -/
theorem ring_cycle_is_exact : (messageNames ring).Nodup ∧
    (∃ cycle ∈ (Graph.ofMessages ring).cycles, "b" ∈ cycle ∧ "c" ∈ cycle) ∧
    (¬ ∃ cycle ∈ (Graph.ofMessages ring).cycles, "a" ∈ cycle ∨ "x" ∈ cycle) ∧
    (Graph.ofMessages ring).order? = .error { cycles := (Graph.ofMessages ring).cycles } := by
  have hn : (messageNames ring).Nodup := by decide
  obtain ⟨-, hshared, hself, -, -, herror, -⟩ := cycles_are_exact ring hn
  have hbc : Refers ring "b" "c" := by
    unfold Refers
    decide
  have hcb : Refers ring "c" "b" := by
    unfold Refers
    decide
  have hnone : ∀ a b, Refers ring a b → b ≠ "a" ∧ a ≠ "x" := by
    have hfields : ∀ message ∈ ring, message.fullName ≠ "x" ∧
        ∀ field ∈ message.fields, field.typeName ≠ "a" := by decide
    rintro a b ⟨message, hm, rfl, field, hf, -, rfl⟩
    exact ⟨(hfields message hm).2 field hf, (hfields message hm).1⟩
  refine ⟨hn, (hshared "b" "c" (by decide)).mpr ⟨.single hbc, .single hcb⟩, ?_, ?_⟩
  · rintro ⟨cycle, hc, ha | hx⟩
    · obtain ⟨last, -, hlast⟩ := TransGen.tail'_iff.mp ((hself "a").mp ⟨cycle, hc, ha⟩)
      exact (hnone last "a" hlast).1 rfl
    · obtain ⟨next, hnext, -⟩ := TransGen.head'_iff.mp ((hself "x").mp ⟨cycle, hc, hx⟩)
      exact (hnone "x" next hnext).2 rfl
  · refine (herror _).mpr ⟨rfl, messageOf "b" ["c"], by simp [ring], ?_⟩
    exact TransGen.tail (.single hbc) hcb

end ProtoSdl.Dependency

import Mathlib.Data.List.Nodup
import ProtoSdl.Proofs.Components

/-! The order of a graph against all topological orders of its components. Taking again and again
the ready component of least number gives the order whose numbers come first in the lexicographic
sense: any other order starts with a component that was ready as well. -/
namespace ProtoSdl.Dependency

open Relation

/-- No node of the earlier component refers to one of the later. -/
def Precedes (messages : List Source.Message) (earlier later : List String) : Prop :=
  ∀ a ∈ earlier, ∀ b ∈ later, ¬ Refers messages a b

/-- A topological order of the condensation: every component once, each behind those it refers
to. -/
structure IsTopological (messages : List Source.Message) (components : List (List String)) :
    Prop where
  nodup : components.Nodup
  mem_iff : ∀ component, component ∈ components ↔ IsComponent messages component
  ordered : components.Pairwise (Precedes messages)

/-- One sequence of numbers is another one or comes before it in the lexicographic order. -/
def LexLe (these those : List Nat) : Prop :=
  these = those ∨ List.Lex (· < ·) these those

/-- What is left while components are taken: components in the order of their least numbers. -/
structure Remaining (messages : List Source.Message) (left : List (List String)) : Prop where
  components : ∀ component ∈ left, IsComponent messages component
  sorted : left.Pairwise fun a b => keyOf messages a < keyOf messages b

variable {messages : List Source.Message}

namespace Remaining

variable {left : List (List String)} {component : List String}

theorem nodup (h : Remaining messages left) : left.Nodup :=
  h.sorted.imp fun hlt heq => by simp [heq] at hlt

theorem filter (h : Remaining messages left) (p : List String → Bool) :
    Remaining messages (left.filter p) :=
  ⟨fun other ho => h.components other (List.mem_of_mem_filter ho), h.sorted.filter p⟩

theorem perm_cons_filter (h : Remaining messages left) (hc : component ∈ left) :
    left.Perm (component :: left.filter (· ≠ component)) := by
  have hrest : (component :: left.filter (· ≠ component)).Nodup :=
    List.nodup_cons.mpr ⟨by simp, h.nodup.filter _⟩
  rw [List.perm_ext_iff_of_nodup h.nodup hrest]
  intro other
  by_cases ho : other = component
  · simp [ho, hc]
  · simp [ho]

end Remaining

/-- A component is ready if it refers to no other of those left. -/
theorem isReady_iff (hn : (messageNames messages).Nodup) {left : List (List String)}
    (h : Remaining messages left) {component : List String} (hc : component ∈ left) :
    (Graph.ofMessages messages).isReady left component = true ↔
      ∀ other ∈ left, other ≠ component → Precedes messages component other := by
  simp only [Graph.isReady, List.all_eq_true, Bool.or_eq_true, Bool.not_eq_true',
    List.contains_iff_mem, Graph.mem_dependencies hn]
  constructor
  · intro hready other ho hne a ha b hb hab
    rcases hready a ha b hab with hmem | hnone
    · exact hne ((h.components other ho).eq_of_mem (h.components component hc) hb hmem)
    · rw [List.any_eq_false] at hnone
      exact hnone other ho (by simpa using hb)
  · intro hready a ha b hab
    by_cases hb : b ∈ component
    · exact Or.inl hb
    · refine Or.inr (List.any_eq_false.mpr fun other ho hmem => ?_)
      have hbo : b ∈ other := by simpa using hmem
      exact hready other ho (fun heq => hb (heq ▸ hbo)) a ha b hbo hab

open Classical in
noncomputable def nodesBelow (messages : List Source.Message) (component : List String) :
    List String :=
  (numbering messages).filter fun x => ∃ a ∈ component, Depends messages a x

/-- A component that refers to another has more nodes below it: its own. -/
theorem nodesBelow_lt {component other : List String} (hc : IsComponent messages component)
    (ho : IsComponent messages other) (hne : other ≠ component) {a b : String}
    (ha : a ∈ component) (hb : b ∈ other) (hab : Refers messages a b) :
    (nodesBelow messages other).length < (nodesBelow messages component).length := by
  refine Walk.length_filter_lt _ _ _ a (hc.subset_numbering ha) ?_ ?_ ?_
  · simpa using ⟨a, ha, .refl⟩
  · simp only [decide_eq_false_iff_not, not_exists, not_and]
    intro d hd hda
    have hba : Depends messages b a := ReflTransGen.trans (ho.mutual_of_mem hb hd).1 hda
    have hmem : a ∈ other := ho.mem_of_mutual hb ⟨hba, .single hab⟩
    exact hne (ho.eq_of_mem hc hmem ha)
  · intro x _ hx
    simp only [decide_eq_true_eq] at hx ⊢
    obtain ⟨d, hd, hdx⟩ := hx
    have had : Depends messages a d := .head hab (ho.mutual_of_mem hb hd).1
    exact ⟨a, ha, ReflTransGen.trans had hdx⟩

/-- Among the components left there is a ready one: following references from any of them comes to
an end. -/
theorem exists_ready {left : List (List String)} (h : Remaining messages left)
    {component : List String} (hc : component ∈ left) :
    ∃ ready ∈ left, ∀ other ∈ left, other ≠ ready → Precedes messages ready other := by
  induction hsize : (nodesBelow messages component).length using Nat.strongRecOn
    generalizing component with
  | _ size ih =>
    by_cases hready : ∀ other ∈ left, other ≠ component → Precedes messages component other
    · exact ⟨component, hc, hready⟩
    · simp only [Precedes, not_forall, not_not] at hready
      obtain ⟨other, ho, hne, a, ha, b, hb, hab⟩ := hready
      -- a component that is not ready leads to one with less below it
      have hlt := nodesBelow_lt (h.components component hc) (h.components other ho) hne ha hb hab
      exact ih _ (hsize ▸ hlt) ho rfl

/-- The component taken next: a ready one, and of the ready ones that of least number. -/
theorem find?_ready (hn : (messageNames messages).Nodup) {left : List (List String)}
    (h : Remaining messages left) (hne : left ≠ []) :
    ∃ taken, left.find? ((Graph.ofMessages messages).isReady left) = some taken ∧
      taken ∈ left ∧ (∀ other ∈ left, other ≠ taken → Precedes messages taken other) ∧
      ∀ ready ∈ left, (∀ other ∈ left, other ≠ ready → Precedes messages ready other) →
        ready = taken ∨ keyOf messages taken < keyOf messages ready := by
  obtain ⟨first, hf⟩ := List.exists_mem_of_ne_nil left hne
  obtain ⟨ready, hr, hready⟩ := exists_ready h hf
  cases hfind : left.find? ((Graph.ofMessages messages).isReady left) with
  | none => exact absurd ((isReady_iff hn h hr).mpr hready) (List.find?_eq_none.mp hfind ready hr)
  | some taken =>
    have ht := List.mem_of_find?_eq_some hfind
    refine ⟨taken, rfl, ht, (isReady_iff hn h ht).mp (List.find?_some hfind), ?_⟩
    intro other ho hother
    -- Before the one found there is no ready one, and behind it the numbers are greater.
    obtain ⟨-, before, behind, hsplit, hbefore⟩ := List.find?_eq_some_iff_append.mp hfind
    have hsorted := h.sorted
    rw [hsplit, List.pairwise_append, List.pairwise_cons] at hsorted
    rw [hsplit] at ho
    rcases List.mem_append.mp ho with hin | hin
    · have hno := hbefore other hin
      have hyes := (isReady_iff hn h (hsplit ▸ List.mem_append_left _ hin)).mpr hother
      simp [hyes] at hno
    · rcases List.mem_cons.mp hin with heq | hin
      · exact Or.inl heq
      · exact Or.inr (hsorted.2.1.1 other hin)

theorem takeReady_succ (graph : Graph) {left : List (List String)} {taken : List String}
    (count : Nat) (h : left.find? (graph.isReady left) = some taken) :
    graph.takeReady (count + 1) left =
      taken :: graph.takeReady count (left.filter (· ≠ taken)) := by
  simp [Graph.takeReady, h]

theorem length_filter_taken {left : List (List String)} (h : Remaining messages left)
    {taken : List String} (ht : taken ∈ left) {count : Nat} (hlen : left.length = count + 1) :
    (left.filter (· ≠ taken)).length = count := by
  have hp := (h.perm_cons_filter ht).length_eq
  simp only [List.length_cons] at hp
  omega

theorem takeReady_perm (hn : (messageNames messages).Nodup) {left : List (List String)}
    (h : Remaining messages left) {count : Nat} (hlen : left.length = count) :
    ((Graph.ofMessages messages).takeReady count left).Perm left := by
  induction count generalizing left with
  | zero =>
    rw [List.length_eq_zero_iff.mp hlen]
    exact .refl _
  | succ count ih =>
    obtain ⟨taken, hfind, ht, -, -⟩ := find?_ready hn h (by rintro rfl; simp at hlen)
    rw [takeReady_succ _ count hfind]
    have hrest := ih (h.filter _) (length_filter_taken h ht hlen)
    exact (hrest.cons taken).trans (h.perm_cons_filter ht).symm

/-- Every component taken refers to none taken later. -/
theorem takeReady_ordered (hn : (messageNames messages).Nodup) {left : List (List String)}
    (h : Remaining messages left) {count : Nat} (hlen : left.length = count) :
    ((Graph.ofMessages messages).takeReady count left).Pairwise (Precedes messages) := by
  induction count generalizing left with
  | zero => exact List.Pairwise.nil
  | succ count ih =>
    obtain ⟨taken, hfind, ht, hready, -⟩ := find?_ready hn h (by rintro rfl; simp at hlen)
    have hl := length_filter_taken h ht hlen
    rw [takeReady_succ _ count hfind]
    refine List.pairwise_cons.mpr ⟨fun later hlater => ?_, ih (h.filter _) hl⟩
    have hmem := (takeReady_perm hn (h.filter _) hl).mem_iff.mp hlater
    simp only [List.mem_filter, decide_eq_true_eq] at hmem
    exact hready later hmem.1 hmem.2

/-- The numbers of the components taken come first among those of all orders of what is left. -/
theorem takeReady_least (hn : (messageNames messages).Nodup) {left others : List (List String)}
    (h : Remaining messages left) {count : Nat} (hlen : left.length = count)
    (hperm : others.Perm left) (hordered : others.Pairwise (Precedes messages)) :
    LexLe (((Graph.ofMessages messages).takeReady count left).map (keyOf messages))
      (others.map (keyOf messages)) := by
  induction count generalizing left others with
  | zero =>
    have hnil : left = [] := List.length_eq_zero_iff.mp hlen
    subst hnil
    exact Or.inl (by rw [hperm.eq_nil]; rfl)
  | succ count ih =>
    obtain ⟨taken, hfind, ht, -, hleast⟩ := find?_ready hn h (by rintro rfl; simp at hlen)
    have hl := length_filter_taken h ht hlen
    rw [takeReady_succ _ count hfind]
    cases others with
    | nil => simp [hperm.symm.eq_nil] at ht
    | cons first others =>
      obtain ⟨hfirst, hrest⟩ := List.pairwise_cons.mp hordered
      have hready : ∀ other ∈ left, other ≠ first → Precedes messages first other := by
        intro other ho hne
        exact hfirst other ((List.mem_cons.mp (hperm.mem_iff.mpr ho)).resolve_left hne)
      -- the other order starts with a ready component too: the same, or one of greater number
      rcases hleast first (hperm.mem_iff.mp List.mem_cons_self) hready with rfl | hlt
      · have hothers : others.Perm (left.filter (· ≠ first)) :=
          (hperm.trans (h.perm_cons_filter ht)).cons_inv
        rcases ih (h.filter _) hl hothers hrest with heq | hlex
        · exact Or.inl (by rw [List.map_cons, List.map_cons, heq])
        · exact Or.inr (.cons hlex)
      · exact Or.inr (.rel hlt)

/-- The components in the order in which they are taken. -/
def takenComponents (messages : List Source.Message) : List (List String) :=
  let components := (Graph.ofMessages messages).components
  (Graph.ofMessages messages).takeReady components.length components

theorem remaining_components (hn : (messageNames messages).Nodup) :
    Remaining messages (Graph.ofMessages messages).components :=
  ⟨fun _ hc => (Graph.mem_components hn).mp hc, Graph.components_sorted hn⟩

private theorem takenComponents_perm (hn : (messageNames messages).Nodup) :
    (takenComponents messages).Perm (Graph.ofMessages messages).components :=
  takeReady_perm hn (remaining_components hn) rfl

theorem isTopological_takenComponents (hn : (messageNames messages).Nodup) :
    IsTopological messages (takenComponents messages) where
  nodup := (takenComponents_perm hn).nodup_iff.mpr (Graph.nodup_components hn)
  mem_iff component := by rw [(takenComponents_perm hn).mem_iff, Graph.mem_components hn]
  ordered := takeReady_ordered hn (remaining_components hn) rfl

private theorem takenComponents_least (hn : (messageNames messages).Nodup)
    {others : List (List String)}
    (h : IsTopological messages others) :
    LexLe ((takenComponents messages).map (keyOf messages)) (others.map (keyOf messages)) := by
  refine takeReady_least hn (remaining_components hn) rfl ?_ h.ordered
  rw [List.perm_ext_iff_of_nodup h.nodup (Graph.nodup_components hn)]
  intro component
  rw [h.mem_iff, Graph.mem_components hn]

theorem order_eq (hn : (messageNames messages).Nodup) : (Graph.ofMessages messages).order =
    (takenComponents messages).flatten.filter (· ∈ messageNames messages) := by
  simp only [Graph.order, takenComponents, Graph.names_ofMessages hn]
  apply List.filter_congr
  intro node _
  rw [Bool.eq_iff_iff, decide_eq_true_eq, List.contains_iff_mem]

namespace IsTopological

variable {components : List (List String)}

private theorem nodup_flatten (h : IsTopological messages components) :
    components.flatten.Nodup := by
  rw [List.nodup_flatten]
  refine ⟨fun component hc => ((h.mem_iff component).mp hc).nodup, ?_⟩
  refine h.nodup.imp_of_mem fun {c d} hc hd hne a hac had => hne ?_
  exact ((h.mem_iff c).mp hc).eq_of_mem ((h.mem_iff d).mp hd) hac had

private theorem mem_flatten (h : IsTopological messages components)
    (hn : (messageNames messages).Nodup)
    {node : String} : node ∈ components.flatten ↔ node ∈ numbering messages := by
  rw [List.mem_flatten]
  constructor
  · rintro ⟨component, hc, hm⟩
    exact ((h.mem_iff component).mp hc).subset_numbering hm
  · intro hm
    exact ⟨_, (h.mem_iff _).mpr (Graph.isComponent_componentOf hn hm),
      Graph.self_mem_componentOf hn hm⟩

/-- In the order of the components a node refers to later nodes only of its own component. -/
theorem pairwise_flatten (h : IsTopological messages components) :
    components.flatten.Pairwise fun a b => Refers messages a b → Mutual messages a b := by
  rw [List.pairwise_flatten]
  refine ⟨fun component hc => ?_, ?_⟩
  · exact List.pairwise_of_forall_mem_list fun a ha b hb _ =>
      ((h.mem_iff component).mp hc).mutual_of_mem ha hb
  · exact h.ordered.imp fun hp a ha b hb hab => absurd hab (hp a ha b hb)

end IsTopological

theorem order_perm (hn : (messageNames messages).Nodup) :
    (Graph.ofMessages messages).order.Perm (messageNames messages) := by
  have h := isTopological_takenComponents hn
  rw [order_eq hn, List.perm_ext_iff_of_nodup (h.nodup_flatten.filter _) hn]
  intro node
  simp only [List.mem_filter, h.mem_flatten hn, decide_eq_true_eq, and_iff_right_iff_imp]
  exact fun hm => mem_numbering.mpr (Or.inl hm)

theorem pairwise_order (hn : (messageNames messages).Nodup) :
    (Graph.ofMessages messages).order.Pairwise
      fun a b => Refers messages a b → Mutual messages a b := by
  rw [order_eq hn]
  exact (isTopological_takenComponents hn).pairwise_flatten.filter _

private theorem rel_of_idxOf_lt {r : String → String → Prop} {items : List String}
    (h : items.Pairwise r) {a b : String} (hb : b ∈ items)
    (hlt : items.idxOf a < items.idxOf b) : r a b := by
  have hbl := List.idxOf_lt_length_of_mem hb
  have h := List.pairwise_iff_getElem.mp h _ _ (Nat.lt_trans hlt hbl) hbl hlt
  simpa using h

/-- A member comes before the members that refer to it, unless it depends on them. -/
theorem idxOf_order_lt (hn : (messageNames messages).Nodup) {a b : String}
    (hab : Refers messages a b) (hb : b ∈ messageNames messages) (hba : ¬ Depends messages b a) :
    (Graph.ofMessages messages).order.idxOf b < (Graph.ofMessages messages).order.idxOf a := by
  have ho := order_perm hn
  have hbo : b ∈ (Graph.ofMessages messages).order := ho.mem_iff.mpr hb
  rcases Nat.lt_trichotomy ((Graph.ofMessages messages).order.idxOf b)
    ((Graph.ofMessages messages).order.idxOf a) with hlt | heq | hlt
  · exact hlt
  · have hsame : b = a := (List.idxOf_inj hbo).mp heq
    exact absurd (hsame ▸ ReflTransGen.refl) hba
  · exact absurd (rel_of_idxOf_lt (pairwise_order hn) hbo hlt hab).2 hba

private theorem orderBelow_names (hn : (messageNames messages).Nodup) :
    (Graph.ofMessages messages).orderBelow (messageNames messages) =
      (Graph.ofMessages messages).order := by
  rw [Graph.orderBelow, List.filter_eq_self]
  intro node hm
  have hnode := (order_perm hn).mem_iff.mp hm
  rw [List.contains_iff_mem, Graph.names_ofMessages hn]
  exact todo_subset_reach hnode hnode

/-- The order lists the components of the messages and the types outside them in the topological
order of least numbers, without the outside types. It is what lies below all members; every message
has one place in it, behind each message it refers to that does not depend on it. -/
theorem order_is_least_topological (messages : List Source.Message)
    (hn : (messageNames messages).Nodup) :
    ∃ components, IsTopological messages components ∧
      (∀ others, IsTopological messages others →
        LexLe (components.map (keyOf messages)) (others.map (keyOf messages))) ∧
      (Graph.ofMessages messages).order =
        components.flatten.filter (· ∈ messageNames messages) ∧
      (Graph.ofMessages messages).orderBelow (messageNames messages) =
        (Graph.ofMessages messages).order ∧
      (Graph.ofMessages messages).order.Perm (messageNames messages) ∧
      ∀ a b, Refers messages a b → b ∈ messageNames messages → ¬ Depends messages b a →
        (Graph.ofMessages messages).order.idxOf b < (Graph.ofMessages messages).order.idxOf a :=
  ⟨takenComponents messages, isTopological_takenComponents hn,
    fun _ h => takenComponents_least hn h, order_eq hn, orderBelow_names hn, order_perm hn,
    fun _ _ => idxOf_order_lt hn⟩

/-- A message whose fields have the given message types. -/
def messageOf (name : String) (types : List String) : Source.Message :=
  { home :=
      { position := 0, name := "ring", package := "", syntaxName := "proto3", nameSpace := .null }
    address := []
    path := [name]
    fullName := name
    parent := none
    nested := []
    enums := []
    isMap := false
    fields := types.map fun type =>
      { name := type, kind := .message, typeName := type, label := .optional, membership := none
        proto3Optional := false, isDeprecated := false, foreignKey := none }
    oneofNames := [] }

/-- A message that leads into a cycle and to a type outside. -/
def ring : List Source.Message :=
  [messageOf "a" ["b", "x"], messageOf "b" ["c"], messageOf "c" ["b", "c"]]

/-- The cycle is listed before the message that leads into it. -/
theorem ring_order_is_least : (messageNames ring).Nodup ∧
    (∃ components, IsTopological ring components ∧ ∀ others, IsTopological ring others →
      LexLe (components.map (keyOf ring)) (others.map (keyOf ring))) ∧
    (Graph.ofMessages ring).order.idxOf "b" < (Graph.ofMessages ring).order.idxOf "a" := by
  have hn : (messageNames ring).Nodup := by decide
  have hstay : ∀ message ∈ ring, message.fullName ∈ ["b", "c"] →
      ∀ field ∈ message.fields, field.typeName ∈ ["b", "c"] := by decide
  have hcycle : ∀ node, Depends ring "b" node → node ∈ ["b", "c"] := by
    intro node path
    induction path with
    | refl => decide
    | tail _ hstep ih =>
      obtain ⟨message, hm, rfl, field, hf, -, rfl⟩ := hstep
      exact hstay message hm ih field hf
  have hrefers : Refers ring "a" "b" := by
    unfold Refers
    decide
  obtain ⟨components, htopological, hleast, -, -, -, hbefore⟩ := order_is_least_topological ring hn
  refine ⟨hn, ⟨components, htopological, hleast⟩, hbefore "a" "b" hrefers (by decide) ?_⟩
  intro hback
  exact absurd (hcycle "a" hback) (by decide)

end ProtoSdl.Dependency

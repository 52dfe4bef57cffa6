import ProtoSdl.Proofs.LeastOrder

/-! What lies below given roots. The search from the roots finds the messages that they refer to,
directly or not, as long as every message on the way is one of the graph; roots outside the graph
find nothing. The messages found stand in the order of all. -/
namespace ProtoSdl.Dependency

open Relation

/-- The message `a` has a field whose type is the message `b`, and `b` is one of those given. -/
def RefersWithin (messages : List Source.Message) (a b : String) : Prop :=
  Refers messages a b ∧ b ∈ messageNames messages

/-- A message is one of the roots, or is reached from one by references among the messages. A root
is a node of the graph: one of the messages, or a type outside that one of them refers to. -/
def LiesBelow (messages : List Source.Message) (roots : List String) (name : String) : Prop :=
  name ∈ messageNames messages ∧ ∃ root ∈ roots, root ∈ numbering messages ∧
    ReflTransGen (RefersWithin messages) root name

variable {messages : List Source.Message} {roots others : List String} {name : String}

/-- Nothing starts at a type outside, so that a path to a message starts at one. -/
theorem mem_messageNames_of_path {root : String} (hm : name ∈ messageNames messages)
    (path : ReflTransGen (RefersWithin messages) root name) : root ∈ messageNames messages := by
  rcases ReflTransGen.cases_head path with rfl | ⟨next, ⟨hrefers, -⟩, -⟩
  · exact hm
  · exact hrefers.left_mem

theorem LiesBelow.step (h : LiesBelow messages roots name) {next : String}
    (hstep : RefersWithin messages name next) : LiesBelow messages roots next := by
  obtain ⟨-, root, hr, hnode, path⟩ := h
  exact ⟨hstep.2, root, hr, hnode, path.tail hstep⟩

theorem LiesBelow.mono (h : LiesBelow messages roots name) (hsub : roots ⊆ others) :
    LiesBelow messages others name := by
  obtain ⟨hm, root, hr, hnode, path⟩ := h
  exact ⟨hm, root, hsub hr, hnode, path⟩

/-- What lies below messages that lie below roots lies below the roots. -/
theorem LiesBelow.trans (hothers : ∀ other ∈ others, LiesBelow messages roots other)
    (h : LiesBelow messages others name) : LiesBelow messages roots name := by
  obtain ⟨hm, middle, hmiddle, -, path⟩ := h
  obtain ⟨-, root, hr, hnode, before⟩ := hothers middle hmiddle
  exact ⟨hm, root, hr, hnode, ReflTransGen.trans before path⟩

theorem liesBelow_of_mem (hm : name ∈ messageNames messages) (hr : name ∈ roots) :
    LiesBelow messages roots name :=
  ⟨hm, name, hr, mem_numbering.mpr (Or.inl hm), .refl⟩

theorem mem_orderBelow_iff (hn : (messageNames messages).Nodup) :
    name ∈ (Graph.ofMessages messages).orderBelow roots ↔ LiesBelow messages roots name := by
  have hstep : StepsTo (Graph.ofMessages messages).dependencies (messageNames messages) =
      RefersWithin messages := by
    funext a b
    rw [StepsTo, Graph.mem_dependencies hn, RefersWithin]
  rw [Graph.orderBelow, List.mem_filter, (order_perm hn).mem_iff, List.contains_iff_mem,
    Graph.names_ofMessages hn, mem_reach_iff, hstep]
  refine and_congr_right fun hm => ⟨?_, ?_⟩
  · rintro ⟨root, hr, hroot, path⟩
    exact ⟨root, hr, mem_numbering.mpr (Or.inl hroot), path⟩
  · rintro ⟨root, hr, -, path⟩
    exact ⟨root, hr, mem_messageNames_of_path hm path, path⟩

open Classical in
theorem orderBelow_eq_filter (hn : (messageNames messages).Nodup) (roots : List String) :
    (Graph.ofMessages messages).orderBelow roots =
      (Graph.ofMessages messages).order.filter fun name => LiesBelow messages roots name := by
  have hbelow : ∀ name ∈ (Graph.ofMessages messages).order,
      name ∈ (Graph.ofMessages messages).orderBelow roots ↔
        name ∈ reach (Graph.ofMessages messages).dependencies (Graph.ofMessages messages).names []
          roots := by
    intro name hname
    rw [Graph.orderBelow, List.mem_filter, List.contains_iff_mem, and_iff_right hname]
  rw [Graph.orderBelow]
  apply List.filter_congr
  intro name hname
  rw [Bool.eq_iff_iff, List.contains_iff_mem, ← hbelow name hname, mem_orderBelow_iff hn,
    decide_eq_true_eq]

/-- More that lies below other roots keeps the messages in their order. -/
theorem orderBelow_sublist (hn : (messageNames messages).Nodup)
    (h : ∀ name, LiesBelow messages roots name → LiesBelow messages others name) :
    ((Graph.ofMessages messages).orderBelow roots).Sublist
      ((Graph.ofMessages messages).orderBelow others) := by
  classical
  rw [orderBelow_eq_filter hn, orderBelow_eq_filter hn]
  exact List.monotone_filter_right _ fun name hname => by simpa using h name (by simpa using hname)

private theorem orderBelow_congr (hn : (messageNames messages).Nodup)
    (h : ∀ name, LiesBelow messages roots name ↔ LiesBelow messages others name) :
    (Graph.ofMessages messages).orderBelow roots =
      (Graph.ofMessages messages).orderBelow others :=
  List.Sublist.antisymm (orderBelow_sublist hn fun name => (h name).mp)
    (orderBelow_sublist hn fun name => (h name).mpr)

open Classical in
/-- Below roots stand, in the order of all, the messages that are reached from them. They depend on
the set of the roots alone and grow with it, a message that one of them refers to is among them, and
nothing new lies below them. -/
theorem orderBelow_is_the_closure (messages : List Source.Message)
    (hn : (messageNames messages).Nodup) :
    (∀ roots, (Graph.ofMessages messages).orderBelow roots =
      (Graph.ofMessages messages).order.filter fun name => LiesBelow messages roots name) ∧
    (∀ roots others, (∀ root, root ∈ roots ↔ root ∈ others) →
      (Graph.ofMessages messages).orderBelow roots =
        (Graph.ofMessages messages).orderBelow others) ∧
    (∀ roots others, roots ⊆ others → ((Graph.ofMessages messages).orderBelow roots).Sublist
      ((Graph.ofMessages messages).orderBelow others)) ∧
    (∀ roots, ∀ a ∈ (Graph.ofMessages messages).orderBelow roots, ∀ b,
      RefersWithin messages a b → b ∈ (Graph.ofMessages messages).orderBelow roots) ∧
    ∀ roots, (Graph.ofMessages messages).orderBelow ((Graph.ofMessages messages).orderBelow roots) =
      (Graph.ofMessages messages).orderBelow roots := by
  refine ⟨orderBelow_eq_filter hn, ?_, ?_, ?_, ?_⟩
  · intro roots others hsame
    exact orderBelow_congr hn fun name =>
      ⟨fun h => h.mono fun root => (hsame root).mp, fun h => h.mono fun root => (hsame root).mpr⟩
  · intro roots others hsub
    exact orderBelow_sublist hn fun name h => h.mono hsub
  · intro roots a ha b hab
    rw [mem_orderBelow_iff hn] at ha ⊢
    exact ha.step hab
  · intro roots
    refine orderBelow_congr hn fun name => ⟨?_, ?_⟩
    · exact LiesBelow.trans fun other ho => (mem_orderBelow_iff hn).mp ho
    · exact fun h => liesBelow_of_mem h.1 ((mem_orderBelow_iff hn).mpr h)

/-- From a type outside, a name that nothing has and a message of the cycle, named twice, the cycle
is found and the message that leads into it is not. -/
theorem ring_below_its_cycle : (messageNames ring).Nodup ∧
    "b" ∈ (Graph.ofMessages ring).orderBelow ["x", "c", "nowhere", "c"] ∧
    "a" ∉ (Graph.ofMessages ring).orderBelow ["x", "c", "nowhere", "c"] ∧
    (Graph.ofMessages ring).orderBelow ["x", "c", "nowhere", "c"] =
      (Graph.ofMessages ring).orderBelow ["nowhere", "c", "x"] := by
  classical
  have hn : (messageNames ring).Nodup := by decide
  obtain ⟨hfilter, hset, -, hclosed, -⟩ := orderBelow_is_the_closure ring hn
  have hroot : "c" ∈ (Graph.ofMessages ring).orderBelow ["x", "c", "nowhere", "c"] := by
    rw [mem_orderBelow_iff hn]
    exact liesBelow_of_mem (by decide) (by decide)
  have hrefers : RefersWithin ring "c" "b" := by
    unfold RefersWithin Refers
    decide
  have hnone : ∀ a, ¬ RefersWithin ring a "a" := by
    have hfields : ∀ message ∈ ring, ∀ field ∈ message.fields, field.typeName ≠ "a" := by decide
    rintro a ⟨⟨message, hm, -, field, hf, -, hname⟩, -⟩
    exact hfields message hm field hf hname
  refine ⟨hn, hclosed _ "c" hroot "b" hrefers, ?_, hset _ _ (by simp; tauto)⟩
  rw [hfilter, List.mem_filter, decide_eq_true_eq]
  rintro ⟨-, -, root, hr, -, path⟩
  rcases ReflTransGen.cases_tail path with rfl | ⟨last, -, hlast⟩
  · exact absurd hr (by decide)
  · exact hnone last hlast

end ProtoSdl.Dependency

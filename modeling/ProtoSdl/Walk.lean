import ProtoSdl.Table

/-!
# Walks

Three walks over finitely many nodes. `reach` collects the nodes that can be reached from given ones.
`finishOrder` visits nodes depth first and lists each when all that follows from it is visited.
`Walk.run` visits nodes depth first, marks each, keeps what each visit gives in the order of the
visits, and stops at the first fault. A node is visited once; the number of nodes not yet visited is
what makes the walks end.
-/

namespace ProtoSdl

/-- A stricter test that refuses one more item of a list leaves fewer of them. -/
theorem Walk.length_filter_lt {α : Type} (strict lax : α → Bool) (items : List α) (witness : α)
    (mem : witness ∈ items) (passes : lax witness = true) (fails : strict witness = false)
    (h : ∀ item ∈ items, strict item = true → lax item = true) :
    (items.filter strict).length < (items.filter lax).length := by
  obtain ⟨before, after, rfl⟩ := List.append_of_mem mem
  have earlier : before.countP strict ≤ before.countP lax :=
    List.countP_mono_left fun item m => h item (by simp [m])
  have later : after.countP strict ≤ after.countP lax :=
    List.countP_mono_left fun item m => h item (by simp [m])
  simp only [← List.countP_eq_length_filter, List.countP_append, List.countP_cons, passes, fails]
  simp
  omega

/-- The nodes among `bound` reached from `todo` by `next`, added in front of those already seen. -/
def reach {α : Type} [DecidableEq α] (next : α → List α) (bound seen : List α) :
    List α → List α
  | [] => seen
  | node :: todo =>
    if _fresh : node ∈ bound ∧ node ∉ seen then reach next bound (node :: seen) (next node ++ todo)
    else reach next bound seen todo
termination_by todo => ((bound.filter (· ∉ seen)).length, todo.length)
decreasing_by
  · apply Prod.Lex.left
    exact Walk.length_filter_lt _ _ bound node _fresh.1 (by simp [_fresh.2]) (by simp)
      (by intro other _ passes; simp_all)
  · apply Prod.Lex.right
    simp

/-- A task of a depth first walk: to enter a node, or to leave one whose tasks are done. -/
inductive Walk.Task (α : Type)
  | enter (node : α)
  | leave (node : α)

/-- The nodes among `bound` in the order in which a depth first walk by `next` leaves them. -/
def finishOrder {α : Type} [DecidableEq α] (next : α → List α) (bound seen : List α) :
    List (Walk.Task α) → List α
  | [] => []
  | .leave node :: tasks => node :: finishOrder next bound seen tasks
  | .enter node :: tasks =>
    if _fresh : node ∈ bound ∧ node ∉ seen then
      finishOrder next bound (node :: seen) ((next node).map .enter ++ .leave node :: tasks)
    else finishOrder next bound seen tasks
termination_by tasks => ((bound.filter (· ∉ seen)).length, tasks.length)
decreasing_by
  · apply Prod.Lex.right
    simp
  · apply Prod.Lex.left
    exact Walk.length_filter_lt _ _ bound node _fresh.1 (by simp [_fresh.2]) (by simp)
      (by intro other _ passes; simp_all)
  · apply Prod.Lex.right
    simp

namespace Walk

/-- A step of a walk: a node to visit, nothing to do, or a fault. -/
abbrev Step (ε : Type) := Except ε (Option String)

/-- Visits the nodes of `todo` that are among `bound` and not yet marked, each followed by the nodes
that `next` gives. Each is marked, and what `visit` gives for it is kept. -/
def run {ε β : Type} (bound : List String) (visit : String → Except ε β)
    (next : String → List (Step ε)) (marks : List String) (done : Table β) :
    List (Step ε) → Except ε (List String × Table β)
  | [] => .ok (marks, done)
  | .error fault :: _ => .error fault
  | .ok none :: todo => run bound visit next marks done todo
  | .ok (some node) :: todo =>
    if _fresh : node ∈ bound ∧ node ∉ marks then
      match visit node with
      | .error fault => .error fault
      | .ok value =>
        run bound visit next (marks ++ [node]) (done.insert node value) (next node ++ todo)
    else run bound visit next marks done todo
termination_by todo => ((bound.filter (· ∉ marks)).length, todo.length)
decreasing_by
  · apply Prod.Lex.right
    simp
  · apply Prod.Lex.left
    exact length_filter_lt _ _ bound node _fresh.1 (by simp [_fresh.2]) (by simp)
      (by intro other _ passes; simp_all)
  · apply Prod.Lex.right
    simp

end Walk

end ProtoSdl

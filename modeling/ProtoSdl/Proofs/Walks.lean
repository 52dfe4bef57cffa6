import Mathlib.Logic.Relation
import ProtoSdl.Proofs.Tables
import ProtoSdl.Walk

/-! What the three walks compute. `reach` collects exactly the nodes at the end of a path from those
given, `finishOrder` leaves every node once, and a run that meets no fault has visited exactly the
nodes at the end of a path, with every step behind them in order. -/
namespace ProtoSdl

open Relation

section Reach

variable {α : Type} [DecidableEq α] {next : α → List α} {bound : List α}

/-- One step of a walk that stays inside its bound. -/
def StepsTo (next : α → List α) (bound : List α) (a b : α) : Prop :=
  b ∈ next a ∧ b ∈ bound

private theorem seen_subset_reach (seen todo : List α) : seen ⊆ reach next bound seen todo := by
  fun_induction reach next bound seen todo with
  | case1 seen => exact List.Subset.refl _
  | case2 seen node todo fresh ih => exact fun x hx => ih (List.mem_cons_of_mem _ hx)
  | case3 seen node todo stale ih => exact ih

theorem todo_subset_reach {seen todo : List α} {node : α} (hm : node ∈ todo) (hb : node ∈ bound) :
    node ∈ reach next bound seen todo := by
  fun_induction reach next bound seen todo with
  | case1 seen => simp at hm
  | case2 seen first todo fresh ih =>
    rcases List.mem_cons.mp hm with rfl | hm
    · exact seen_subset_reach _ _ List.mem_cons_self
    · exact ih (List.mem_append_right _ hm)
  | case3 seen first todo stale ih =>
    rcases List.mem_cons.mp hm with rfl | hm
    · have hs : node ∈ seen := by
        by_contra hs
        exact stale ⟨hb, hs⟩
      exact seen_subset_reach _ _ hs
    · exact ih hm

/-- A node that a walk adds has everything that follows from it added too. -/
theorem reach_closed {seen todo : List α} {a b : α} (ha : a ∈ reach next bound seen todo)
    (hs : a ∉ seen) (hb : StepsTo next bound a b) : b ∈ reach next bound seen todo := by
  fun_induction reach next bound seen todo with
  | case1 seen => exact absurd ha hs
  | case2 seen node todo fresh ih =>
    by_cases hn : a = node
    · subst hn
      exact todo_subset_reach (List.mem_append_left _ hb.1) hb.2
    · exact ih ha (by simp [hn, hs])
  | case3 seen node todo stale ih => exact ih ha hs

/-- A node that a walk adds stands at the end of a path from one of those given. -/
theorem path_of_mem_reach {seen todo : List α} {x : α} (hx : x ∈ reach next bound seen todo) :
    x ∈ seen ∨ ∃ start ∈ todo, start ∈ bound ∧ ReflTransGen (StepsTo next bound) start x := by
  fun_induction reach next bound seen todo with
  | case1 seen => exact Or.inl hx
  | case2 seen node todo fresh ih =>
    rcases ih hx with hs | ⟨start, hm, hb, path⟩
    · rcases List.mem_cons.mp hs with rfl | hs
      · exact Or.inr ⟨x, List.mem_cons_self, fresh.1, .refl⟩
      · exact Or.inl hs
    · rcases List.mem_append.mp hm with hm | hm
      · exact Or.inr ⟨node, List.mem_cons_self, fresh.1, .head ⟨hm, hb⟩ path⟩
      · exact Or.inr ⟨start, List.mem_cons_of_mem _ hm, hb, path⟩
  | case3 seen node todo stale ih =>
    rcases ih hx with hs | ⟨start, hm, hb, path⟩
    · exact Or.inl hs
    · exact Or.inr ⟨start, List.mem_cons_of_mem _ hm, hb, path⟩

theorem mem_reach_iff {todo : List α} {x : α} : x ∈ reach next bound [] todo ↔
    ∃ start ∈ todo, start ∈ bound ∧ ReflTransGen (StepsTo next bound) start x := by
  constructor
  · intro hx
    exact (path_of_mem_reach hx).resolve_left (by simp)
  · rintro ⟨start, hm, hb, path⟩
    induction path with
    | refl => exact todo_subset_reach hm hb
    | tail _ hstep ih => exact reach_closed ih (by simp) hstep

end Reach

section FinishOrder

variable {α : Type}

/-- The nodes that a list of tasks leaves without entering them first. -/
def Walk.leaving (tasks : List (Walk.Task α)) : List α :=
  tasks.filterMap fun
    | .enter _ => none
    | .leave node => some node

theorem Walk.leaving_enter_append (nodes : List α) (tasks : List (Walk.Task α)) :
    leaving (nodes.map .enter ++ tasks) = leaving tasks := by
  simp [leaving, List.filterMap_map]

variable [DecidableEq α] {next : α → List α} {bound : List α}

private theorem leave_mem_finishOrder {seen : List α} {tasks : List (Walk.Task α)} {x : α}
    (hx : .leave x ∈ tasks) : x ∈ finishOrder next bound seen tasks := by
  fun_induction finishOrder next bound seen tasks with
  | case1 seen => simp at hx
  | case2 seen node tasks ih =>
    rcases List.mem_cons.mp hx with he | hx
    · cases he
      exact List.mem_cons_self
    · exact List.mem_cons_of_mem _ (ih hx)
  | case3 seen node tasks fresh ih =>
    have hx : .leave x ∈ tasks := by simpa using hx
    exact ih (List.mem_append_right _ (List.mem_cons_of_mem _ hx))
  | case4 seen node tasks stale ih => exact ih (by simpa using hx)

private theorem enter_mem_finishOrder {seen : List α} {tasks : List (Walk.Task α)} {x : α}
    (hx : .enter x ∈ tasks) (hb : x ∈ bound) (hs : x ∉ seen) :
    x ∈ finishOrder next bound seen tasks := by
  fun_induction finishOrder next bound seen tasks with
  | case1 seen => simp at hx
  | case2 seen node tasks ih =>
    exact List.mem_cons_of_mem _ (ih (by simpa using hx) hs)
  | case3 seen node tasks fresh ih =>
    by_cases hn : x = node
    · subst hn
      exact leave_mem_finishOrder (by simp)
    · have hx : .enter x ∈ tasks := by simpa [hn] using hx
      exact ih (List.mem_append_right _ (List.mem_cons_of_mem _ hx)) (by simp [hn, hs])
  | case4 seen node tasks stale ih =>
    have hn : x ≠ node := by
      rintro rfl
      exact stale ⟨hb, hs⟩
    exact ih (by simpa [hn] using hx) hs

theorem mem_of_mem_finishOrder {seen : List α} {tasks : List (Walk.Task α)} {x : α}
    (hx : x ∈ finishOrder next bound seen tasks) :
    x ∈ Walk.leaving tasks ∨ x ∈ bound ∧ x ∉ seen := by
  fun_induction finishOrder next bound seen tasks with
  | case1 seen => simp at hx
  | case2 seen node tasks ih =>
    rcases List.mem_cons.mp hx with rfl | hx
    · exact Or.inl List.mem_cons_self
    · exact (ih hx).imp_left (List.mem_cons_of_mem _)
  | case3 seen node tasks fresh ih =>
    rcases ih hx with hl | ⟨hb, hs⟩
    · rw [Walk.leaving_enter_append] at hl
      rcases List.mem_cons.mp hl with rfl | hl
      · exact Or.inr fresh
      · exact Or.inl hl
    · exact Or.inr ⟨hb, fun h => hs (List.mem_cons_of_mem _ h)⟩
  | case4 seen node tasks stale ih => exact ih hx

private theorem nodup_finishOrder {seen : List α} {tasks : List (Walk.Task α)}
    (hn : (Walk.leaving tasks).Nodup) (hs : ∀ x ∈ Walk.leaving tasks, x ∈ seen) :
    (finishOrder next bound seen tasks).Nodup := by
  fun_induction finishOrder next bound seen tasks with
  | case1 seen => exact List.nodup_nil
  | case2 seen node tasks ih =>
    obtain ⟨hnode, hrest⟩ := List.nodup_cons.mp hn
    refine List.nodup_cons.mpr ⟨?_, ih hrest (fun x hx => hs x (List.mem_cons_of_mem _ hx))⟩
    intro hm
    rcases mem_of_mem_finishOrder hm with hl | ⟨-, hfresh⟩
    · exact hnode hl
    · exact hfresh (hs node List.mem_cons_self)
  | case3 seen node tasks fresh ih =>
    apply ih
    · rw [Walk.leaving_enter_append]
      exact List.nodup_cons.mpr ⟨fun hm => fresh.2 (hs node hm), hn⟩
    · intro x hx
      rw [Walk.leaving_enter_append] at hx
      rcases List.mem_cons.mp hx with rfl | hx
      · exact List.mem_cons_self
      · exact List.mem_cons_of_mem _ (hs x hx)
  | case4 seen node tasks stale ih => exact ih hn hs

/-- A walk that enters every node leaves every node once. -/
theorem finishOrder_perm (hn : bound.Nodup) :
    (finishOrder next bound [] (bound.map .enter)).Perm bound := by
  have hl : Walk.leaving (bound.map .enter) = [] := by
    simp [Walk.leaving, List.filterMap_map]
  have hnodup : (finishOrder next bound [] (bound.map .enter)).Nodup :=
    nodup_finishOrder (by simp [hl]) (by simp [hl])
  refine (List.perm_ext_iff_of_nodup hnodup hn).mpr fun x => ⟨fun hx => ?_, fun hx => ?_⟩
  · have h := mem_of_mem_finishOrder hx
    simp only [hl, List.not_mem_nil, false_or] at h
    exact h.1
  · exact enter_mem_finishOrder (List.mem_map_of_mem hx) hx (by simp)

end FinishOrder

namespace Walk

variable {ε β : Type} {bound : List String} {visit : String → Except ε β}
  {next : String → List (Step ε)}

/-- A step without a fault whose node, where it leads to one, is done. -/
def Settled (bound : List String) (done : Table β) (step : Step ε) : Prop :=
  ∃ target, step = .ok target ∧ ∀ node, target = some node → node ∈ bound → node ∈ done.keys

/-- What a run without a fault leaves: the values it started with, the values of its visits, and
nothing to do behind any of them. -/
structure Finished (bound : List String) (visit : String → Except ε β)
    (next : String → List (Step ε)) (before after : Table β) (todo : List (Step ε)) : Prop where
  kept : ∀ key value, before.get? key = some value → after.get? key = some value
  visited : ∀ key value, after.get? key = some value → before.get? key = some value ∨
    key ∈ bound ∧ visit key = .ok value ∧ ∀ step ∈ next key, Settled bound after step
  settled : ∀ step ∈ todo, Settled bound after step
  reached : ∀ key ∈ after.keys, key ∈ before.keys ∨
    ∃ start, .ok (some start) ∈ todo ∧ ReflTransGen (fun a b => .ok (some b) ∈ next a) start key

theorem Finished.visit_step {before after : Table β} {todo : List (Step ε)} {node : String}
    {value : β} (hb : node ∈ bound) (hnew : node ∉ before.keys) (hv : visit node = .ok value)
    (h : Finished bound visit next (before.insert node value) after (next node ++ todo)) :
    Finished bound visit next before after (.ok (some node) :: todo) := by
  have hnode : after.get? node = some value := h.kept node value (by simp)
  refine ⟨?_, ?_, ?_, ?_⟩
  · intro key old hk
    have hne : key ≠ node := by
      rintro rfl
      exact hnew (Table.mem_keys_iff.mpr ⟨old, hk⟩)
    exact h.kept key old (by simp [hne, hk])
  · intro key found hk
    rcases h.visited key found hk with hold | hvisited
    · by_cases hne : key = node
      · subst hne
        obtain rfl : value = found := by simpa using hold
        exact Or.inr ⟨hb, hv, fun step hs => h.settled step (List.mem_append_left _ hs)⟩
      · exact Or.inl (by simpa [hne] using hold)
    · exact Or.inr hvisited
  · intro step hs
    rcases List.mem_cons.mp hs with rfl | hs
    · refine ⟨some node, rfl, fun other he _ => ?_⟩
      obtain rfl : node = other := by simpa using he
      exact Table.mem_keys_iff.mpr ⟨value, hnode⟩
    · exact h.settled step (List.mem_append_right _ hs)
  · intro key hk
    rcases h.reached key hk with hold | ⟨start, hs, path⟩
    · rw [Table.keys_insert, if_neg hnew] at hold
      rcases List.mem_append.mp hold with hold | hold
      · exact Or.inl hold
      · obtain rfl : key = node := by simpa using hold
        exact Or.inr ⟨key, List.mem_cons_self, .refl⟩
    · rcases List.mem_append.mp hs with hs | hs
      · exact Or.inr ⟨node, List.mem_cons_self, .head hs path⟩
      · exact Or.inr ⟨start, List.mem_cons_of_mem _ hs, path⟩

theorem Finished.skip_step {before after : Table β} {todo : List (Step ε)}
    {target : Option String}
    (hdone : ∀ node, target = some node → node ∈ bound → node ∈ before.keys)
    (h : Finished bound visit next before after todo) :
    Finished bound visit next before after (.ok target :: todo) := by
  refine ⟨h.kept, h.visited, ?_, ?_⟩
  · intro step hs
    rcases List.mem_cons.mp hs with rfl | hs
    · refine ⟨target, rfl, fun node he hb => ?_⟩
      obtain ⟨value, hv⟩ := Table.mem_keys_iff.mp (hdone node he hb)
      exact Table.mem_keys_iff.mpr ⟨value, h.kept node value hv⟩
    · exact h.settled step hs
  · intro key hk
    exact (h.reached key hk).imp_right fun ⟨start, hs, path⟩ =>
      ⟨start, List.mem_cons_of_mem _ hs, path⟩

/-- A visit that is marked adds its node to the marks and to the keys alike. -/
theorem marks_visit {marks : List String} {before : Table β} {node : String}
    (hm : marks = before.keys) (hnew : node ∉ marks) (value : β) :
    marks ++ [node] = (before.insert node value).keys := by
  rw [Table.keys_insert, if_neg (hm ▸ hnew), hm]

theorem run_finished {marks marks' : List String} {before after : Table β} {todo : List (Step ε)}
    (hm : marks = before.keys)
    (h : run bound visit next marks before todo = .ok (marks', after)) :
    Finished bound visit next before after todo := by
  -- along the run, the cases a visit and nothing to do, each from what follows it
  fun_induction run bound visit next marks before todo with
  | case1 marks before =>
    cases h
    exact ⟨fun _ _ hk => hk, fun _ _ hk => Or.inl hk, by simp, fun _ hk => Or.inl hk⟩
  | case2 => simp at h
  | case3 marks before todo ih => exact (ih hm h).skip_step (by simp)
  | case4 => simp at h
  | case5 marks before node todo fresh value hv ih =>
    exact (ih (marks_visit hm fresh.2 value) h).visit_step fresh.1 (hm ▸ fresh.2) hv
  | case6 marks before node todo stale ih =>
    refine (ih hm h).skip_step fun other he hb => ?_
    obtain rfl : node = other := by simpa using he
    by_contra hn
    exact stale ⟨hb, hm ▸ hn⟩

/-- A run fails with the fault of a visit or of a step. -/
theorem fault_of_run {marks : List String} {before : Table β} {todo : List (Step ε)} {fault : ε}
    (h : run bound visit next marks before todo = .error fault) :
    .error fault ∈ todo ∨
      ∃ node ∈ bound, visit node = .error fault ∨ .error fault ∈ next node := by
  fun_induction run bound visit next marks before todo with
  | case1 => simp at h
  | case2 =>
    cases h
    exact Or.inl List.mem_cons_self
  | case3 marks before todo ih => exact (ih h).imp_left (List.mem_cons_of_mem _)
  | case4 marks before node todo fresh found hv =>
    cases h
    exact Or.inr ⟨node, fresh.1, Or.inl hv⟩
  | case5 marks before node todo fresh value hv ih =>
    rcases ih h with hm | hother
    · rcases List.mem_append.mp hm with hm | hm
      · exact Or.inr ⟨node, fresh.1, Or.inr hm⟩
      · exact Or.inl (List.mem_cons_of_mem _ hm)
    · exact Or.inr hother
  | case6 marks before node todo stale ih => exact (ih h).imp_left (List.mem_cons_of_mem _)

/-- A run that starts with nothing done visits exactly the nodes at the end of a path. -/
theorem Finished.mem_keys_iff {after : Table β} {todo : List (Step ε)} {key : String}
    (h : Finished bound visit next {} after todo)
    (hb : ∀ a b, .ok (some b) ∈ next a → b ∈ bound)
    (hstart : ∀ start, .ok (some start) ∈ todo → start ∈ bound) :
    key ∈ after.keys ↔ ∃ start, .ok (some start) ∈ todo ∧
      ReflTransGen (fun a b => .ok (some b) ∈ next a) start key := by
  constructor
  · intro hk
    exact (h.reached key hk).resolve_left (by simp [Table.keys])
  · rintro ⟨start, hs, path⟩
    induction path with
    | refl =>
      obtain ⟨target, he, hd⟩ := h.settled _ hs
      exact hd start (by cases he; rfl) (hstart start hs)
    | tail _ hstep ih =>
      obtain ⟨value, hv⟩ := Table.mem_keys_iff.mp ih
      rcases h.visited _ value hv with hold | ⟨-, -, hnext⟩
      · simp at hold
      · obtain ⟨target, he, hd⟩ := hnext _ hstep
        exact hd _ (by cases he; rfl) (hb _ _ hstep)

end Walk

end ProtoSdl

import ProtoSdl.Proofs.Walks

/-! Runs of a walk with the visits they make. Every visit adds one entry at the end of the table, so
no node is visited twice and no value is replaced; the marks, where they were the keys of the table,
are its keys again; runs one after the other are one run over all that they have to do. -/
namespace ProtoSdl.Walk

variable {ε β : Type} {bound : List String} {visit : String → Except ε β}
  {next : String → List (Step ε)}

/-- A run without a fault from one table to another, with what its visits gave, in order. -/
inductive Logged (bound : List String) (visit : String → Except ε β)
    (next : String → List (Step ε)) :
    Table β → List (Step ε) → List (String × β) → Table β → Prop
  | done (table : Table β) : Logged bound visit next table [] [] table
  | pass {before after : Table β} {todo : List (Step ε)} {log : List (String × β)}
      (rest : Logged bound visit next before todo log after) :
      Logged bound visit next before (.ok none :: todo) log after
  | skip {before after : Table β} {todo : List (Step ε)} {log : List (String × β)} {node : String}
      (stale : ¬ (node ∈ bound ∧ node ∉ before.keys))
      (rest : Logged bound visit next before todo log after) :
      Logged bound visit next before (.ok (some node) :: todo) log after
  | visit {before after : Table β} {todo : List (Step ε)} {log : List (String × β)}
      {node : String} {value : β} (fresh : node ∈ bound ∧ node ∉ before.keys)
      (hv : visit node = .ok value)
      (rest : Logged bound visit next (before.insert node value) (next node ++ todo) log after) :
      Logged bound visit next before (.ok (some node) :: todo) ((node, value) :: log) after

/-- A run from marks that are the keys of its table: it ends with marks that are keys again. -/
theorem run_eq_ok {marks marks' : List String} {before after : Table β} {todo : List (Step ε)}
    (hm : marks = before.keys) :
    run bound visit next marks before todo = .ok (marks', after) ↔
      marks' = after.keys ∧ ∃ log, Logged bound visit next before todo log after := by
  constructor
  · intro h
    fun_induction run bound visit next marks before todo with
    | case1 =>
      cases h
      exact ⟨hm, [], .done after⟩
    | case2 => simp at h
    | case3 marks before todo ih =>
      obtain ⟨hmarks, log, hlog⟩ := ih hm h
      exact ⟨hmarks, log, hlog.pass⟩
    | case4 => simp at h
    | case5 marks before node todo fresh value hv ih =>
      obtain ⟨hmarks, log, hlog⟩ := ih (marks_visit hm fresh.2 value) h
      exact ⟨hmarks, _, hlog.visit (hm ▸ fresh) hv⟩
    | case6 marks before node todo stale ih =>
      obtain ⟨hmarks, log, hlog⟩ := ih hm h
      exact ⟨hmarks, log, hlog.skip (hm ▸ stale)⟩
  · rintro ⟨rfl, log, h⟩
    induction h generalizing marks with
    | done table => rw [run, hm]
    | pass _ ih => rw [run, ih hm]
    | skip stale _ ih => rw [run, dif_neg (hm ▸ stale), ih hm]
    | visit fresh hv _ ih =>
      rw [run, dif_pos (hm ▸ fresh), hv]
      exact ih (marks_visit hm (hm ▸ fresh.2) _)

namespace Logged

variable {before after : Table β} {todo : List (Step ε)} {log : List (String × β)}

/-- The visits append what they give, and nothing else happens to the table. -/
theorem entries (h : Logged bound visit next before todo log after) :
    after.entries = before.entries ++ log := by
  induction h with
  | done table => simp
  | pass _ ih => exact ih
  | skip _ _ ih => exact ih
  | visit fresh _ _ ih => simp [ih, Table.entries_insert_of_not_mem fresh.2]

/-- No node is visited that was done before, or twice. -/
theorem nodup_keys (h : Logged bound visit next before todo log after)
    (hb : before.keys.Nodup) : after.keys.Nodup := by
  induction h with
  | done table => exact hb
  | pass _ ih => exact ih hb
  | skip _ _ ih => exact ih hb
  | visit _ _ _ ih => exact ih (Table.nodup_keys_insert hb _ _)

theorem finished (h : Logged bound visit next before todo log after) :
    Finished bound visit next before after todo :=
  run_finished rfl ((run_eq_ok rfl).mpr ⟨rfl, log, h⟩)

/-- Nothing is visited where everything is done. -/
theorem of_settled {table : Table β} (h : ∀ step ∈ todo, Settled bound table step) :
    Logged bound visit next table todo [] table := by
  induction todo with
  | nil => exact .done table
  | cons step todo ih =>
    obtain ⟨⟨target, rfl, hdone⟩, hrest⟩ := List.forall_mem_cons.mp h
    cases target with
    | none => exact (ih hrest).pass
    | some node => exact (ih hrest).skip fun ⟨hb, hnew⟩ => hnew (hdone node rfl hb)

/-- Runs one after the other are one run. -/
theorem append {middle : Table β} {rest : List (Step ε)} {more : List (String × β)}
    (h : Logged bound visit next before todo log middle)
    (hr : Logged bound visit next middle rest more after) :
    Logged bound visit next before (todo ++ rest) (log ++ more) after := by
  induction h with
  | done table => exact hr
  | pass _ ih => exact (ih hr).pass
  | skip stale _ ih => exact (ih hr).skip stale
  | visit fresh hv _ ih =>
    have hrest := ih hr
    rw [List.append_assoc] at hrest
    exact hrest.visit fresh hv

end Logged

end ProtoSdl.Walk

import ProtoSdl.Output
import ProtoSdl.Proofs.GraphNodes
import ProtoSdl.Proofs.Outcomes
import ProtoSdl.Proofs.Tables

/-! The declarations behind the schema files of a run. Each file has its own declarations, after the
custom scalars that no file before it declared, so that a run declares every scalar it refers to. -/
namespace ProtoSdl.Output

open Outcome
open Schema (Declaration)

variable {mapping : Mapping} {progress : Progress}

/-- The declarations of the named files, as they are printed one file after the other. -/
def emitted (mapping : Mapping) (progress : Progress) :
    List String → Except Fault (List (String × List Declaration))
  | [] => .ok []
  | name :: names => do
    let (declarations, after) ← printFile mapping progress name
    return (name, declarations) :: (← emitted mapping after names)

def addSchema (outputs : Table String) (schema : String × List Declaration) : Table String :=
  if schema.2.isEmpty then outputs
  else outputs.insert (fileName schema.1) (Schema.schemaText schema.2)

theorem write_eq (names : List String) (outputs : Table String) :
    write mapping progress outputs names =
      (emitted mapping progress names).map fun schemas => schemas.foldl addSchema outputs := by
  induction names generalizing progress outputs with
  | nil => rfl
  | cons name names ih =>
    rw [write, emitted]
    cases printFile mapping progress name with
    | error fault => rfl
    | ok printed =>
      obtain ⟨declarations, after⟩ := printed
      have h : write mapping after (addSchema outputs (name, declarations)) names = _ := ih _
      refine h.trans ?_
      change _ = (emitted mapping after names >>= fun rest =>
        pure ((name, declarations) :: rest)).map _
      cases emitted mapping after names <;> rfl

/-- Under distinct names, the outputs are the schemas that are not empty. -/
theorem entries_foldl_addSchema {schemas : List (String × List Declaration)}
    (hn : (schemas.map fun schema => fileName schema.1).Nodup) :
    (schemas.foldl addSchema {}).entries = (schemas.filter (!·.2.isEmpty)).map fun schema =>
      (fileName schema.1, Schema.schemaText schema.2) := by
  have hfold : schemas.foldl addSchema {} = (schemas.filter (!·.2.isEmpty)).foldl
      (fun table schema => table.insert (fileName schema.1) (Schema.schemaText schema.2)) {} := by
    rw [List.foldl_filter]
    congr 1
    funext outputs schema
    cases h : schema.2.isEmpty <;> simp [addSchema, h]
  have hentries := Table.entries_foldl_insert
    (fun schema : String × List Declaration => fileName schema.1)
    (fun schema => Schema.schemaText schema.2) (schemas.filter (!·.2.isEmpty)) {}
    (hn.sublist (List.filter_sublist.map _)) (by simp [Table.keys])
  rw [hfold]
  exact hentries.trans (List.nil_append _)

private theorem printEnums_names (naming : Mapping.Naming) (marked : List String)
    (enums : List Source.Enum) :
    (printEnums naming marked enums).1.map (·.name) = enums.map naming.enum := by
  induction enums generalizing marked with
  | nil => rfl
  | cons enum enums ih =>
    rw [printEnums, List.map_cons, List.map_cons, ih]
    rfl

structure Printed (mapping : Mapping) (declared : List String) (file : Source.File)
    (declarations : List Declaration) : Prop where
  texts : (references mapping file).any (·.isList) = false
  parts : ∃ enums : List Schema.Enum,
    enums.map (·.name) = (sourceEnums mapping file).map mapping.naming.enum ∧
    declarations = (newScalars mapping declared (references mapping file)).map
      (fun name => .scalar { name }) ++ enums.map .enum ++ bodyDeclarations mapping file

theorem printFile_eq_ok {name : String} {declarations : List Declaration} {after : Progress}
    (h : printFile mapping progress name = .ok (declarations, after)) :
    ∃ file, mapping.catalog.files.get? name = some file ∧
      (references mapping file).any (·.isList) = false ∧
      declarations = (newScalars mapping progress.declared (references mapping file)).map
        (fun name => .scalar { name }) ++
        (printEnums mapping.naming progress.marked (sourceEnums mapping file)).1.map .enum ++
        bodyDeclarations mapping file ∧
      after.declared = declaredAfter mapping progress.declared name := by
  obtain ⟨file, hfile, h⟩ := bind_eq_ok.mp h
  have hget : mapping.catalog.files.get? name = some file := by
    unfold findFile at hfile
    split at hfile
    · cases hfile
    · rename_i hsome
      cases hfile
      exact hsome
  obtain ⟨shown, hshown, h⟩ := bind_eq_ok.mp h
  split at h
  · cases h
  · cases h
    unfold declarationsWith at hshown
    simp only at hshown
    split at hshown
    · cases hshown
    · rename_i htexts
      cases hshown
      exact ⟨file, hget, by simpa using htexts, rfl, rfl⟩

theorem printFile_ok {name : String} {declarations : List Declaration} {after : Progress}
    (h : printFile mapping progress name = .ok (declarations, after)) :
    ∃ file, mapping.catalog.files.get? name = some file ∧
      Printed mapping progress.declared file declarations ∧
      after.declared =
        progress.declared ++ newScalars mapping progress.declared (references mapping file) := by
  obtain ⟨file, hget, htexts, hparts, hafter⟩ := printFile_eq_ok h
  refine ⟨file, hget, ⟨htexts, _, printEnums_names _ _ _, hparts⟩, ?_⟩
  simp [hafter, declaredAfter, hget]

theorem emitted_names {names : List String} {schemas : List (String × List Declaration)}
    (h : emitted mapping progress names = .ok schemas) : schemas.map (·.1) = names := by
  induction names generalizing progress schemas with
  | nil =>
    cases h
    rfl
  | cons name names ih =>
    obtain ⟨⟨declarations, after⟩, -, h⟩ := bind_eq_ok.mp h
    obtain ⟨rest, hrest, h⟩ := bind_eq_ok.mp h
    cases h
    rw [List.map_cons, ih hrest]

/-- Every file of a run is printed, each after some scalars were declared. -/
theorem emitted_printed {names : List String} {schemas : List (String × List Declaration)}
    (h : emitted mapping progress names = .ok schemas) :
    ∀ schema ∈ schemas, ∃ file declared, mapping.catalog.files.get? schema.1 = some file ∧
      Printed mapping declared file schema.2 := by
  induction names generalizing progress schemas with
  | nil =>
    cases h
    simp
  | cons name names ih =>
    obtain ⟨⟨declarations, after⟩, hprint, h⟩ := bind_eq_ok.mp h
    obtain ⟨rest, hrest, h⟩ := bind_eq_ok.mp h
    cases h
    intro schema hs
    rcases List.mem_cons.mp hs with rfl | hs
    · obtain ⟨file, hget, hprinted, -⟩ := printFile_ok hprint
      exact ⟨file, _, hget, hprinted⟩
    · exact ih hrest schema hs

private theorem mem_leadingTexts {names : List Schema.TypeName} (h : names.any (·.isList) = false)
    {text : String} : text ∈ Schema.TypeName.leadingTexts names ↔ .text text ∈ names := by
  induction names with
  | nil => simp [Schema.TypeName.leadingTexts]
  | cons name names ih =>
    cases name with
    | list items => simp [Schema.TypeName.isList] at h
    | text value =>
      rw [Schema.TypeName.leadingTexts, List.mem_cons, List.mem_cons,
        ih (by simpa [Schema.TypeName.isList] using h), Schema.TypeName.text.injEq]

theorem mem_newScalars {declared : List String} {names : List Schema.TypeName}
    (h : names.any (·.isList) = false) {scalar : String} :
    scalar ∈ newScalars mapping declared names ↔
      .text scalar ∈ names ∧ scalar ∈ mapping.scalars ∧ scalar ∉ declared := by
  simp [newScalars, Dependency.mem_firstOccurrences, mem_leadingTexts h]

/-- A run declares each custom scalar that a file of it refers to, unless it was declared before. -/
theorem scalar_emitted {names : List String} {schemas : List (String × List Declaration)}
    (h : emitted mapping progress names = .ok schemas) {name : String} (hn : name ∈ names)
    {file : Source.File} (hf : mapping.catalog.files.get? name = some file) {scalar : String}
    (hs : scalar ∈ mapping.scalars) (hr : .text scalar ∈ references mapping file) :
    scalar ∈ progress.declared ∨
      ∃ schema ∈ schemas, .scalar { name := scalar } ∈ schema.2 := by
  induction names generalizing progress schemas with
  | nil => simp at hn
  | cons first names ih =>
    obtain ⟨⟨declarations, after⟩, hprint, h⟩ := bind_eq_ok.mp h
    obtain ⟨rest, hrest, h⟩ := bind_eq_ok.mp h
    cases h
    obtain ⟨other, hget, ⟨htexts, enums, -, hparts⟩, hafter⟩ := printFile_ok hprint
    have hnew : scalar ∈ newScalars mapping progress.declared (references mapping other) →
        ∃ schema ∈ (first, declarations) :: rest, .scalar { name := scalar } ∈ schema.2 := by
      intro hm
      refine ⟨_, List.mem_cons_self, ?_⟩
      rw [hparts]
      exact List.mem_append_left _ (List.mem_append_left _ (List.mem_map_of_mem hm))
    -- the first file declares it, or leaves it declared to the files after it
    rcases List.mem_cons.mp hn with rfl | hn
    · cases hget.symm.trans hf
      by_cases hd : scalar ∈ progress.declared
      · exact Or.inl hd
      · exact Or.inr (hnew ((mem_newScalars htexts).mpr ⟨hr, hs, hd⟩))
    · rcases ih hrest hn with hd | ⟨schema, hm, hscalar⟩
      · rw [hafter, List.mem_append] at hd
        exact hd.imp_right hnew
      · exact Or.inr ⟨schema, List.mem_cons_of_mem _ hm, hscalar⟩

/-- A run succeeds if its files are known, their types are named by texts and the marks on their
enum values can be set. -/
theorem exists_emitted {names : List String} (h : ∀ name ∈ names, ∃ file,
    mapping.catalog.files.get? name = some file ∧
      (references mapping file).any (·.isList) = false ∧ hasUnmarkable mapping file = false)
    (progress : Progress) : ∃ schemas, emitted mapping progress names = .ok schemas := by
  induction names generalizing progress with
  | nil => exact ⟨[], rfl⟩
  | cons name names ih =>
    obtain ⟨file, hget, htexts, hmarks⟩ := h name List.mem_cons_self
    have hfile : findFile mapping name = .ok file := by simp only [findFile, hget]
    have hshown : ∀ enums, ∃ shown,
        declarationsWith mapping progress.declared file enums = .ok shown := by
      intro enums
      simp only [declarationsWith, htexts]
      exact ⟨_, rfl⟩
    obtain ⟨declarations, hshown⟩ := hshown _
    obtain ⟨after, hprint⟩ : ∃ after,
        printFile mapping progress name = .ok (declarations, after) :=
      ⟨_, bind_eq_ok.mpr ⟨file, hfile, bind_eq_ok.mpr ⟨_, hshown, by rw [hmarks]; rfl⟩⟩⟩
    obtain ⟨rest, hrest⟩ := ih (fun other ho => h other (List.mem_cons_of_mem _ ho)) after
    exact ⟨(name, declarations) :: rest, bind_eq_ok.mpr ⟨_, hprint, bind_eq_ok.mpr ⟨_, hrest, rfl⟩⟩⟩

end ProtoSdl.Output

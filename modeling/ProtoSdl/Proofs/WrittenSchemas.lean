import ProtoSdl.Proofs.FileOrder
import ProtoSdl.Proofs.SingleEmission

/-! What is left of the declarations of a run in its outputs. An output is the schema that was
written last under its name. The schema of a file that is requested again has all declarations of
the file but the scalars, which count as declared by then; these are lost. -/
namespace ProtoSdl.Output

open Outcome Mapping
open Schema (Declaration)

/-- The schema at a position is written, and none with its output name is written after it. -/
structure Stays (schemas : List (String × List Declaration)) (position : Nat)
    (schema : String × List Declaration) : Prop where
  written : schemas[position]? = some schema
  notEmpty : schema.2 ≠ []
  last : ∀ later other, position < later → schemas[later]? = some other → other.2 ≠ [] →
    fileName other.1 ≠ fileName schema.1

/-- A declaration and one that shows it: enums are shown with the marks on their values. -/
inductive Shown (naming : Naming) : Declaration → Declaration → Prop
  | same (declaration : Declaration) : Shown naming declaration declaration
  | enum (enum : Source.Enum) (marked : List String) :
    Shown naming (.enum (enumDeclaration naming enum)) (.enum (printedEnum naming marked enum))

structure ShownIn (naming : Naming) (result schema : String × List Declaration) : Prop where
  name : result.1 = schema.1
  declarations : List.Forall₂ (Shown naming) result.2 schema.2

/-- A declaration is shown by a schema that stays. -/
def Remains (naming : Naming) (schemas : List (String × List Declaration))
    (declaration : Declaration) : Prop :=
  ∃ position schema, Stays schemas position schema ∧ ∃ shown ∈ schema.2,
    Shown naming declaration shown

section Outputs

variable {first schema : String × List Declaration} {schemas : List (String × List Declaration)}

theorem stays_zero : Stays (first :: schemas) 0 schema ↔ first = schema ∧ schema.2 ≠ [] ∧
    ∀ other ∈ schemas, other.2 ≠ [] → fileName other.1 ≠ fileName schema.1 := by
  constructor
  · rintro ⟨hw, hn, hl⟩
    refine ⟨Option.some.inj hw, hn, fun other ho => ?_⟩
    obtain ⟨later, hlater⟩ := List.mem_iff_getElem?.mp ho
    exact hl (later + 1) other (Nat.zero_lt_succ later) hlater
  · rintro ⟨rfl, hn, hl⟩
    refine ⟨rfl, hn, fun later other hlt ho => ?_⟩
    cases later with
    | zero => cases hlt
    | succ later => exact hl other (List.mem_of_getElem? ho)

private theorem stays_succ {position : Nat} :
    Stays (first :: schemas) (position + 1) schema ↔ Stays schemas position schema := by
  constructor
  · rintro ⟨hw, hn, hl⟩
    exact ⟨hw, hn, fun later other hlt ho => hl (later + 1) other (Nat.succ_lt_succ hlt) ho⟩
  · rintro ⟨hw, hn, hl⟩
    refine ⟨hw, hn, fun later other hlt ho => ?_⟩
    cases later with
    | zero => cases hlt
    | succ later => exact hl later other (Nat.lt_of_succ_lt_succ hlt) ho

private theorem exists_stays_cons {P : String × List Declaration → Prop} :
    (∃ position schema, Stays (first :: schemas) position schema ∧ P schema) ↔
      (first.2 ≠ [] ∧ (∀ other ∈ schemas, other.2 ≠ [] → fileName other.1 ≠ fileName first.1) ∧
        P first) ∨ ∃ position schema, Stays schemas position schema ∧ P schema := by
  constructor
  · rintro ⟨position, schema, hs, hp⟩
    cases position with
    | zero =>
      obtain ⟨rfl, hn, hl⟩ := stays_zero.mp hs
      exact .inl ⟨hn, hl, hp⟩
    | succ position => exact .inr ⟨position, schema, stays_succ.mp hs, hp⟩
  · rintro (⟨hn, hl, hp⟩ | ⟨position, schema, hs, hp⟩)
    · exact ⟨0, first, stays_zero.mpr ⟨rfl, hn, hl⟩, hp⟩
    · exact ⟨position + 1, schema, stays_succ.mpr hs, hp⟩

private theorem get?_addSchema {outputs : Table String} {name text : String} :
    (addSchema outputs first).get? name = some text ↔
      (first.2 ≠ [] ∧ fileName first.1 = name ∧ Schema.schemaText first.2 = text) ∨
      (first.2 ≠ [] → fileName first.1 ≠ name) ∧ outputs.get? name = some text := by
  unfold addSchema
  by_cases hempty : first.2 = []
  · simp [hempty]
  · by_cases hname : fileName first.1 = name
    · simp [hempty, hname]
    · simp [hempty, hname, Ne.symm hname]

/-- The outputs are the schemas that stay, and those written before under other names. -/
theorem get?_foldl_addSchema {outputs : Table String} {name text : String} :
    (schemas.foldl addSchema outputs).get? name = some text ↔
      (∃ position schema, Stays schemas position schema ∧ fileName schema.1 = name ∧
        Schema.schemaText schema.2 = text) ∨
      (∀ schema ∈ schemas, schema.2 ≠ [] → fileName schema.1 ≠ name) ∧
        outputs.get? name = some text := by
  induction schemas generalizing outputs with
  | nil =>
    refine ⟨fun h => .inr ⟨by simp, h⟩, ?_⟩
    rintro (⟨position, schema, ⟨hw, -, -⟩, -⟩ | ⟨-, h⟩)
    · simp at hw
    · exact h
  | cons first schemas ih =>
    rw [List.foldl_cons, ih, get?_addSchema, exists_stays_cons, List.forall_mem_cons]
    constructor
    · rintro (h | ⟨hlater, ⟨hn, rfl, htext⟩ | ⟨hfirst, hold⟩⟩)
      · exact .inl (.inr h)
      · exact .inl (.inl ⟨hn, hlater, rfl, htext⟩)
      · exact .inr ⟨⟨hfirst, hlater⟩, hold⟩
    · rintro ((⟨hn, hlater, rfl, htext⟩ | h) | ⟨⟨hfirst, hlater⟩, hold⟩)
      · exact .inr ⟨hlater, .inl ⟨hn, rfl, htext⟩⟩
      · exact .inl h
      · exact .inr ⟨hlater, .inr ⟨hfirst, hold⟩⟩

end Outputs

section Shown

variable {mapping : Mapping} {naming : Naming} {progress : Progress}

private theorem shown_scalar {scalar : Schema.Scalar} {shown : Declaration}
    (h : Shown naming (.scalar scalar) shown) : shown = .scalar scalar := by
  cases h
  rfl

theorem of_shown_scalar {scalar : Schema.Scalar} {declaration : Declaration}
    (h : Shown naming declaration (.scalar scalar)) : declaration = .scalar scalar := by
  cases h
  rfl

private theorem shown_refl (declarations : List Declaration) :
    List.Forall₂ (Shown naming) declarations declarations :=
  List.forall₂_same.mpr fun declaration _ => .same declaration

private theorem printEnums_shown (marked : List String) (enums : List Source.Enum) :
    List.Forall₂ (Shown naming) ((enums.map (enumDeclaration naming)).map .enum)
      ((printEnums naming marked enums).1.map .enum) := by
  induction enums generalizing marked with
  | nil => exact .nil
  | cons enum enums ih => exact .cons (.enum enum _) (ih _)

/-- The schema of a file shows what is collected for it. -/
theorem printFile_shown {name : String} {declarations : List Declaration} {after : Progress}
    (h : printFile mapping progress name = .ok (declarations, after)) :
    ∃ plain, fileDeclarations mapping progress.declared name = .ok plain ∧
      List.Forall₂ (Shown mapping.naming) plain declarations ∧
      after.declared = declaredAfter mapping progress.declared name := by
  obtain ⟨file, hget, htexts, rfl, hafter⟩ := printFile_eq_ok h
  refine ⟨_, fileDeclarations_eq_ok.mpr ⟨file, hget, htexts, rfl⟩, ?_, hafter⟩
  exact List.rel_append (List.rel_append (shown_refl _) (printEnums_shown _ _)) (shown_refl _)

/-- The schemas of a run show what is collected in it. -/
theorem emitted_shown {names : List String} {schemas : List (String × List Declaration)}
    (h : emitted mapping progress names = .ok schemas) :
    ∃ results, collected mapping progress.declared names = .ok results ∧
      List.Forall₂ (ShownIn mapping.naming) results schemas := by
  induction names generalizing progress schemas with
  | nil =>
    cases h
    exact ⟨[], rfl, .nil⟩
  | cons name names ih =>
    obtain ⟨⟨declarations, after⟩, hprint, h⟩ := bind_eq_ok.mp h
    obtain ⟨rest, hrest, h⟩ := bind_eq_ok.mp h
    cases h
    obtain ⟨plain, hplain, hshown, hafter⟩ := printFile_shown hprint
    obtain ⟨results, hresults, hlater⟩ := ih hrest
    rw [hafter] at hresults
    exact ⟨(name, plain) :: results,
      bind_eq_ok.mpr ⟨plain, hplain, bind_eq_ok.mpr ⟨results, hresults, rfl⟩⟩,
      .cons ⟨rfl, hshown⟩ hlater⟩

variable {results schemas : List (String × List Declaration)}

theorem ShownIn.eq_nil_iff {result schema : String × List Declaration}
    (h : ShownIn naming result schema) : result.2 = [] ↔ schema.2 = [] := by
  rw [← List.length_eq_zero_iff, h.declarations.length_eq, List.length_eq_zero_iff]

/-- Whether a schema stays depends on the names and on which schemas are empty. -/
theorem stays_related {R : String × List Declaration → String × List Declaration → Prop}
    (hR : ∀ result schema, R result schema →
      result.1 = schema.1 ∧ (result.2 = [] ↔ schema.2 = []))
    (h : List.Forall₂ R results schemas) {position : Nat} {result : String × List Declaration}
    (hs : Stays results position result) :
    ∃ schema, Stays schemas position schema ∧ R result schema := by
  obtain ⟨schema, hschema, hrel⟩ := getElem?_related h hs.written
  obtain ⟨hname, hempty⟩ := hR result schema hrel
  refine ⟨schema, ⟨hschema, fun hn => hs.notEmpty (hempty.mpr hn), ?_⟩, hrel⟩
  intro later other hlt ho hn
  obtain ⟨found, hfound, hrel'⟩ := getElem?_related h.flip ho
  obtain ⟨hname', hempty'⟩ := hR found other hrel'
  have hlast := hs.last later found hlt hfound fun hnil => hn (hempty'.mp hnil)
  rwa [hname, hname'] at hlast

variable (h : List.Forall₂ (ShownIn naming) results schemas)

include h

private theorem remains_of_stays {position : Nat} {result : String × List Declaration}
    (hs : Stays results position result) {declaration : Declaration}
    (hd : declaration ∈ result.2) : Remains naming schemas declaration := by
  obtain ⟨schema, hschema, hshown⟩ :=
    stays_related (fun _ _ hshown => ⟨hshown.name, hshown.eq_nil_iff⟩) h hs
  exact ⟨position, schema, hschema, exists_related hshown.declarations hd⟩

private theorem exists_of_remains_scalar {scalar : Schema.Scalar}
    (hr : Remains naming schemas (.scalar scalar)) :
    ∃ position result, Stays results position result ∧ .scalar scalar ∈ result.2 := by
  obtain ⟨position, schema, hs, shown, hm, hshows⟩ := hr
  obtain rfl := shown_scalar hshows
  obtain ⟨result, hresult, hshown⟩ := stays_related
    (fun _ _ hshown => ⟨hshown.name.symm, hshown.eq_nil_iff.symm⟩) h.flip hs
  obtain ⟨declaration, hd, hshows⟩ := exists_related hshown.declarations.flip hm
  obtain rfl := of_shown_scalar hshows
  exact ⟨position, result, hresult, hd⟩

end Shown

section Runs

variable {mapping : Mapping} {declared : List String} {names : List String}
  {results : List (String × List Declaration)} {file : Source.File}

private theorem not_scalar_mem_bodyDeclarations (scalar : Schema.Scalar) :
    .scalar scalar ∉ bodyDeclarations mapping file := by
  simp [bodyDeclarations, objects, inputs, roots, extensions, Body.objectDeclarations,
    Body.inputDeclarations]

theorem scalar_mem_listing {scalar : Schema.Scalar} :
    .scalar scalar ∈ listing mapping declared file ↔
      ∃ name ∈ newScalars mapping declared (references mapping file), scalar = { name } := by
  simp [listing, not_scalar_mem_bodyDeclarations, eq_comm]

/-- Only the scalars of a file depend on what was declared before it. -/
theorem mem_listing_of_ne_scalar {before : List String} {declaration : Declaration}
    (hne : ∀ scalar, declaration ≠ .scalar scalar) :
    declaration ∈ listing mapping before file ↔ declaration ∈ listing mapping declared file := by
  simp [listing, Ne.symm (hne _)]

private theorem collected_listing (h : collected mapping declared names = .ok results) :
    ∀ result ∈ results, ∃ file before, mapping.catalog.files.get? result.1 = some file ∧
      result.2 = listing mapping before file := by
  induction names generalizing declared results with
  | nil =>
    cases h
    simp
  | cons name names ih =>
    obtain ⟨file, rest, hget, -, rfl, hrest⟩ := collected_cons h
    exact List.forall_mem_cons.mpr ⟨⟨file, declared, hget, rfl⟩, ih hrest⟩

/-- A scalar that is declared was not declared before. -/
theorem not_mem_of_scalar_mem (h : collected mapping declared names = .ok results)
    {result : String × List Declaration} (hr : result ∈ results) {scalar : Schema.Scalar}
    (hs : .scalar scalar ∈ result.2) : scalar.name ∉ declared := by
  induction names generalizing declared results with
  | nil =>
    cases h
    cases hr
  | cons name names ih =>
    obtain ⟨file, rest, -, htexts, rfl, hrest⟩ := collected_cons h
    rcases List.mem_cons.mp hr with rfl | hr
    · obtain ⟨name, hname, rfl⟩ := scalar_mem_listing.mp hs
      exact ((mem_newScalars htexts).mp hname).2.2
    · exact fun hm => ih hrest hr (List.mem_append_left _ hm)

/-- A run declares no scalar twice, not even for a file that it names twice. -/
theorem collected_scalars_once (h : collected mapping declared names = .ok results) :
    results.Pairwise fun result later =>
      ∀ scalar, .scalar scalar ∈ result.2 → .scalar scalar ∉ later.2 := by
  induction names generalizing declared results with
  | nil =>
    cases h
    exact .nil
  | cons name names ih =>
    obtain ⟨file, rest, -, -, rfl, hrest⟩ := collected_cons h
    refine .cons (fun later hlater scalar hs hagain => ?_) (ih hrest)
    obtain ⟨name, hname, rfl⟩ := scalar_mem_listing.mp hs
    exact not_mem_of_scalar_mem hrest hlater hagain (List.mem_append_right _ hname)

private theorem position_unique (h : collected mapping declared names = .ok results)
    {position other : Nat} {result later : String × List Declaration} {scalar : Schema.Scalar}
    (hr : results[position]? = some result) (hl : results[other]? = some later)
    (hs : .scalar scalar ∈ result.2) (hagain : .scalar scalar ∈ later.2) : position = other := by
  have honce := List.pairwise_iff_getElem.mp (collected_scalars_once h)
  obtain ⟨hp, rfl⟩ := List.getElem?_eq_some_iff.mp hr
  obtain ⟨ho, rfl⟩ := List.getElem?_eq_some_iff.mp hl
  rcases Nat.lt_trichotomy position other with hlt | heq | hlt
  · exact absurd hagain (honce position other hp ho hlt scalar hs)
  · exact heq
  · exact absurd hs (honce other position ho hp hlt scalar hagain)

/-- A name that stands in results has a last place there. -/
theorem exists_last {position : Nat} {result : String × List Declaration}
    (h : results[position]? = some result) :
    ∃ last found, position ≤ last ∧ results[last]? = some found ∧ found.1 = result.1 ∧
      ∀ later other, last < later → results[later]? = some other → other.1 ≠ result.1 := by
  by_cases hagain : ∃ later other, position < later ∧ results[later]? = some other ∧
      other.1 = result.1
  · obtain ⟨later, other, hlt, ho, hname⟩ := hagain
    have hbound := (List.getElem?_eq_some_iff.mp ho).1
    obtain ⟨last, found, hle, hfound, hfile, hlast⟩ := exists_last ho
    rw [hname] at hfile hlast
    exact ⟨last, found, Nat.le_trans (Nat.le_of_lt hlt) hle, hfound, hfile, hlast⟩
  · exact ⟨position, result, Nat.le_refl _, h, rfl, fun later other hlt ho hname =>
      hagain ⟨later, other, hlt, ho, hname⟩⟩
termination_by results.length - position

/-- A declaration other than a scalar is part of what is written for the last request of its file,
and stays unless another file has the same output. -/
theorem exists_stays (h : collected mapping declared names = .ok results) {position : Nat}
    {result : String × List Declaration} (hr : results[position]? = some result)
    {declaration : Declaration} (hd : declaration ∈ result.2)
    (hne : ∀ scalar, declaration ≠ .scalar scalar)
    (hown : ∀ later other, position < later → results[later]? = some other → other.2 ≠ [] →
      fileName other.1 = fileName result.1 → other.1 = result.1) :
    ∃ last found, Stays results last found ∧ declaration ∈ found.2 := by
  obtain ⟨last, found, hle, hfound, hname, hlast⟩ := exists_last hr
  obtain ⟨file, before, hget, hlisting⟩ := collected_listing h result (List.mem_of_getElem? hr)
  obtain ⟨file', before', hget', hlisting'⟩ :=
    collected_listing h found (List.mem_of_getElem? hfound)
  rw [hname, hget] at hget'
  cases hget'
  -- both requests list the same file, so the last one has the declaration too
  have hin : declaration ∈ found.2 := by
    rw [hlisting', mem_listing_of_ne_scalar hne, ← hlisting]
    exact hd
  refine ⟨last, found, ⟨hfound, List.ne_nil_of_mem hin, fun later other hlt ho hn heq => ?_⟩, hin⟩
  rw [hname] at heq
  exact hlast later other hlt ho (hown later other (Nat.lt_of_le_of_lt hle hlt) ho hn heq)

theorem collected_names (h : collected mapping declared names = .ok results) :
    results.map (·.1) = names := by
  induction names generalizing declared results with
  | nil =>
    cases h
    rfl
  | cons name names ih =>
    obtain ⟨file, rest, -, -, rfl, hrest⟩ := collected_cons h
    rw [List.map_cons, ih hrest]

/-- Where each output is written once, every result that is not empty stays. -/
theorem stays_of_nodup (h : collected mapping declared names = .ok results)
    (hn : (names.map fileName).Nodup) {result : String × List Declaration} (hr : result ∈ results)
    (hne : result.2 ≠ []) : ∃ position, Stays results position result := by
  obtain ⟨position, hposition⟩ := List.mem_iff_getElem?.mp hr
  rw [← collected_names h, List.map_map] at hn
  refine ⟨position, hposition, hne, fun later other hlt ho _ heq => Nat.ne_of_lt hlt ?_⟩
  have hbound := (List.getElem?_eq_some_iff.mp hposition).1
  refine (List.getElem?_inj (by rwa [List.length_map]) hn).mp ?_
  rw [List.getElem?_map, List.getElem?_map, hposition, ho]
  exact congrArg some heq.symm

/-- The custom scalars of the objects of a file are types that its declarations refer to. -/
theorem customScalar_mem_references {name : String} (hname : name ∈ mapping.orderIn file)
    {body : Body} (hbody : mapping.objects.get? name = some body) {scalar : String}
    (hs : scalar ∈ body.customScalars mapping.naming.settings) :
    .text scalar ∈ references mapping file := by
  obtain ⟨typed, htyped, hcustom⟩ := List.mem_filterMap.mp hs
  have htype : (typed.declare mapping.naming .object body.message).typeName = .text scalar := by
    simp [TypedField.declare, hcustom]
  have hdeclared : ∀ composite : Schema.Composite,
      .composite composite ∈ body.objectDeclarations mapping.naming →
      typed.declare mapping.naming .object body.message ∈ composite.fields →
      .text scalar ∈ references mapping file := by
    intro composite hc hf
    have hobjects : .composite composite ∈ objects mapping file :=
      List.mem_flatMap.mpr ⟨body, List.mem_filterMap.mpr ⟨name, hname, hbody⟩, hc⟩
    refine List.mem_flatMap.mpr ⟨.composite composite, by simp [bodyDeclarations, hobjects], ?_⟩
    exact List.mem_flatMap.mpr ⟨_, hf, htype ▸ List.mem_cons_self⟩
  -- a field stands in the object itself, a member of a oneof in its wrapper
  rcases Body.mem_typedFields.mp htyped with ⟨companion, hm⟩ | ⟨choice, hc, hm⟩
  · refine hdeclared (body.object mapping.naming) List.mem_cons_self ?_
    have hsome : body.members.isEmpty = false := by
      cases hmembers : body.members with
      | nil => simp [hmembers] at hm
      | cons => rfl
    simp only [Body.object, Body.fields, hsome]
    exact List.mem_flatMap.mpr ⟨_, hm, List.mem_cons_self⟩
  · refine hdeclared (body.wrapper mapping.naming choice typed) ?_ (by simp [Body.wrapper])
    refine List.mem_cons_of_mem _ (List.mem_flatMap.mpr ⟨choice, hc, List.mem_cons_of_mem _ ?_⟩)
    exact List.mem_map_of_mem (List.mem_map_of_mem hm)

end Runs

section Losses

variable {settings : Settings} {index : Options.Index} {described : List Descriptor.File}
  {mapping : Mapping}

theorem generate_eq (h : Mapping.ofDescriptors settings index described = .ok mapping)
    (names : List String) : generate settings index described names =
      (emitted mapping {} names).map fun schemas => schemas.foldl addSchema {} := by
  rw [generate, h]
  exact write_eq names {}

theorem get?_outputs {schemas : List (String × List Declaration)} {name text : String} :
    (schemas.foldl addSchema {}).get? name = some text ↔ ∃ position schema,
      Stays schemas position schema ∧ fileName schema.1 = name ∧
        Schema.schemaText schema.2 = text := by
  rw [get?_foldl_addSchema]
  simp

/-- A run collects a declaration of a kind that none of its outputs shows. -/
def Loses (settings : Settings) (index : Options.Index) (described : List Descriptor.File)
    (names : List String) (kind : Declaration → Prop) : Prop :=
  ∃ mapping results outputs, Mapping.ofDescriptors settings index described = .ok mapping ∧
    collected mapping [] names = .ok results ∧
    generate settings index described names = .ok outputs ∧
    (∃ result ∈ results, ∃ declaration ∈ result.2, kind declaration) ∧
    ∀ name text, outputs.get? name = some text → ∃ declarations,
      Schema.schemaText declarations = text ∧ ∀ declaration ∈ declarations, ¬kind declaration

private theorem stays_pair {first second schema : String × List Declaration} {position : Nat}
    (h : Stays [first, second] position schema) (hn : second.2 ≠ [])
    (hsame : fileName second.1 = fileName first.1) : schema = second := by
  match position with
  | 0 =>
    obtain ⟨rfl, -, hl⟩ := stays_zero.mp h
    exact absurd hsame (hl second (List.mem_singleton_self _) hn)
  | 1 => exact (Option.some.inj h.written).symm
  | position + 2 =>
    have hw := h.written
    simp at hw

private theorem collected_pair {first second : String} {results : List (String × List Declaration)}
    (h : collected mapping [] [first, second] = .ok results) {file other : Source.File}
    (hfirst : mapping.catalog.files.get? first = some file)
    (hsecond : mapping.catalog.files.get? second = some other) :
    results = [(first, listing mapping [] file),
      (second, listing mapping (newScalars mapping [] (references mapping file)) other)] := by
  obtain ⟨file', rest, hget, -, rfl, hrest⟩ := collected_cons h
  cases hfirst.symm.trans hget
  obtain ⟨other', more, hget', -, rfl, hmore⟩ := collected_cons hrest
  cases hsecond.symm.trans hget'
  cases hmore
  rfl

variable {files : List Source.File} {file : Source.File} {message : Source.Message}
  (hw : Source.Wrapped index described files) (hd : Source.Distinct files)
  (hm : Mapping.ofDescriptors settings index described = .ok mapping)

include hw hd hm

theorem object_mem_listing (hf : file ∈ files) (hin : message ∈ file.messages)
    (declared : List String) :
    ∃ composite, .composite composite ∈ listing mapping declared file := by
  have hb := ofDescriptors_built hw hm
  obtain ⟨body, hbody, -⟩ := hb.exists_object hd (List.mem_flatMap.mpr ⟨file, hf, hin⟩)
  have horder := (mem_orderIn hw hd hb hf).mpr (List.mem_map_of_mem hin)
  have hobjects : .composite (body.object mapping.naming) ∈ objects mapping file :=
    List.mem_flatMap.mpr ⟨body, List.mem_filterMap.mpr ⟨_, horder, hbody⟩, List.mem_cons_self⟩
  exact ⟨body.object mapping.naming, by simp [listing, bodyDeclarations, hobjects]⟩

/-- A file of enums has no other declarations. -/
theorem listing_of_enums (hf : file ∈ files) (hno : file.messages = [])
    (hnone : file.services = []) (declared : List String) :
    listing mapping declared file =
      (file.enums.map (enumDeclaration mapping.naming)).map .enum := by
  have hb := ofDescriptors_built hw hm
  have horder : mapping.orderIn file = [] := by
    refine List.eq_nil_iff_forall_not_mem.mpr fun name hn => ?_
    rw [mem_orderIn hw hd hb hf, hno] at hn
    cases hn
  have hbodies : bodyDeclarations mapping file = [] := by
    simp [bodyDeclarations, objects, inputs, roots, extensions, plans, horder, hnone]
  have hscalars : newScalars mapping declared (references mapping file) = [] := by
    simp [newScalars, references, hbodies, Schema.TypeName.leadingTexts,
      Dependency.firstOccurrences]
  rw [listing, hscalars, hbodies, enums, sourceEnums_eq hd hb hf]
  simp

variable (ht : index.WellTyped)

include ht

/-- Of two files with the same output, what only the first has is lost. -/
theorem loses_of_pair {other : Source.File} (hf : file ∈ files) (ho : other ∈ files)
    (hsame : fileName other.home.name = fileName file.home.name) {kind : Declaration → Prop}
    (hkind : ∀ declaration shown, Shown mapping.naming declaration shown → kind shown →
      kind declaration)
    (hlost : ∃ declaration ∈ listing mapping [] file, kind declaration)
    (hn : listing mapping (newScalars mapping [] (references mapping file)) other ≠ [])
    (hnone : ∀ declaration ∈
      listing mapping (newScalars mapping [] (references mapping file)) other, ¬kind declaration) :
    Loses settings index described [file.home.name, other.home.name] kind := by
  have hb := ofDescriptors_built hw hm
  have hget : ∀ found ∈ files, mapping.catalog.files.get? found.home.name = some found := by
    intro found hfound
    rw [hb.catalog_eq]
    exact (Catalog.get?_files hd).mpr ⟨hfound, rfl⟩
  have hknown : [file.home.name, other.home.name] ⊆ described.map (·.name) := by
    rw [← hw.names]
    exact List.map_subset (·.home.name)
      (List.cons_subset.mpr ⟨hf, List.cons_subset.mpr ⟨ho, List.nil_subset _⟩⟩)
  obtain ⟨schemas, hs⟩ := exists_schemas_of_subset hw hd hb ht hknown
  obtain ⟨results, hresults, hshown⟩ := emitted_shown hs
  refine ⟨mapping, results, _, hm, hresults, (generate_eq hm _).trans (congrArg _ hs), ?_, ?_⟩
  all_goals obtain rfl := collected_pair hresults (hget file hf) (hget other ho)
  · exact ⟨_, List.mem_cons_self, hlost⟩
  · intro name text htext
    obtain ⟨position, schema, hstays, -, rfl⟩ := get?_outputs.mp htext
    obtain ⟨result, hresult, hin⟩ := stays_related
      (fun _ _ hshown => ⟨hshown.name.symm, hshown.eq_nil_iff.symm⟩) hshown.flip hstays
    obtain rfl := stays_pair hresult hn hsame
    refine ⟨schema.2, rfl, fun shown hshown hk => ?_⟩
    obtain ⟨declaration, hd, hshows⟩ := exists_related hin.declarations.flip hshown
    exact hnone declaration hd (hkind declaration shown hshows hk)

/-- A file that is requested twice in a row loses the scalars that its objects use. -/
theorem loses_scalars_of_repeated (hf : file ∈ files) (hin : message ∈ file.messages) {body : Body}
    (hbody : Body.ofMessage settings (Catalog.ofFiles files) message = .ok body) {scalar : String}
    (hs : scalar ∈ body.customScalars settings) :
    Loses settings index described [file.home.name, file.home.name]
      (fun declaration => ∃ scalar, declaration = .scalar scalar) := by
  have hb := ofDescriptors_built hw hm
  have htexts := references_isList hw hd hb ht file
  have hnew : ∀ name, name ∈ newScalars mapping [] (references mapping file) ↔
      .text name ∈ references mapping file ∧ name ∈ mapping.scalars := by
    intro name
    rw [mem_newScalars htexts]
    simp
  have hscalar : scalar ∈ newScalars mapping [] (references mapping file) := by
    obtain ⟨found, hfound, hof⟩ := hb.exists_object hd (List.mem_flatMap.mpr ⟨file, hf, hin⟩)
    cases hbody.symm.trans hof
    rw [← hb.settings_eq] at hs
    refine (hnew scalar).mpr ⟨customScalar_mem_references
      ((mem_orderIn hw hd hb hf).mpr (List.mem_map_of_mem hin)) hfound hs, ?_⟩
    exact Dependency.mem_firstOccurrences.mpr
      (List.mem_flatMap.mpr ⟨body, Table.mem_values_of_get? hfound, hs⟩)
  obtain ⟨composite, hobject⟩ := object_mem_listing hw hd hm hf hin
    (newScalars mapping [] (references mapping file))
  refine loses_of_pair hw hd hm ht hf hf rfl ?_ ?_ (List.ne_nil_of_mem hobject) ?_
  · rintro declaration _ hshown ⟨scalar, rfl⟩
    exact ⟨scalar, of_shown_scalar hshown⟩
  · exact ⟨_, scalar_mem_listing.mpr ⟨scalar, hscalar, rfl⟩, _, rfl⟩
  · rintro _ hagain ⟨_, rfl⟩
    obtain ⟨name, hname, -⟩ := scalar_mem_listing.mp hagain
    obtain ⟨hr, hs, hn⟩ := (mem_newScalars htexts).mp hname
    exact hn ((hnew name).mpr ⟨hr, hs⟩)

/-- A file whose output is that of a file of enums loses its objects. -/
theorem loses_objects_of_shared {other : Source.File} (hf : file ∈ files) (ho : other ∈ files)
    (hsame : fileName other.home.name = fileName file.home.name) (hin : message ∈ file.messages)
    (henums : other.enums ≠ []) (hno : other.messages = []) (hnone : other.services = []) :
    Loses settings index described [file.home.name, other.home.name]
      (fun declaration => ∃ composite, declaration = .composite composite) := by
  obtain ⟨composite, hobject⟩ := object_mem_listing hw hd hm hf hin []
  have hlisting := listing_of_enums hw hd hm ho hno hnone
  refine loses_of_pair hw hd hm ht hf ho hsame ?_ ⟨_, hobject, composite, rfl⟩ ?_ ?_
  · rintro declaration _ hshown ⟨composite, rfl⟩
    cases hshown
    exact ⟨composite, rfl⟩
  · simp [hlisting, henums]
  · rintro _ hm ⟨composite, rfl⟩
    simp [hlisting] at hm

end Losses

/-- The outputs of a run hold what was written last under each name. A scalar is there exactly if
what was collected with it was not overwritten. Any other declaration is there unless another file
has the same output; that its own file is requested again does no harm. So nothing is lost where no
output is written twice. -/
theorem only_overwritten_declarations_are_lost (settings : Settings) (index : Options.Index)
    (described : List Descriptor.File) (names : List String) (outputs : Table String)
    (h : generate settings index described names = .ok outputs) :
    ∃ mapping results schemas, Mapping.ofDescriptors settings index described = .ok mapping ∧
      collected mapping [] names = .ok results ∧
      List.Forall₂ (ShownIn mapping.naming) results schemas ∧
      (∀ name text, outputs.get? name = some text ↔ ∃ position schema,
        Stays schemas position schema ∧ fileName schema.1 = name ∧
          Schema.schemaText schema.2 = text) ∧
      (∀ position result, results[position]? = some result → ∀ declaration ∈ result.2,
        (∀ scalar, declaration = .scalar scalar →
          (Remains mapping.naming schemas declaration ↔ Stays results position result)) ∧
        ((∀ scalar, declaration ≠ .scalar scalar) →
          (∀ later other, position < later → results[later]? = some other → other.2 ≠ [] →
            fileName other.1 = fileName result.1 → other.1 = result.1) →
          Remains mapping.naming schemas declaration)) ∧
      ((names.map fileName).Nodup → ∀ result ∈ results, ∀ declaration ∈ result.2,
        Remains mapping.naming schemas declaration) := by
  obtain ⟨mapping, hmapping, -⟩ := bind_eq_ok.mp h
  rw [generate_eq hmapping] at h
  obtain ⟨schemas, hemitted, rfl⟩ := map_eq_ok.mp h
  obtain ⟨results, hcollected, hshown⟩ := emitted_shown hemitted
  refine ⟨mapping, results, schemas, hmapping, hcollected, hshown, fun name text => ?_,
    fun position result hr declaration hd => ⟨?_, fun hne hown => ?_⟩,
    fun hn result hr declaration hd => ?_⟩
  · exact get?_outputs
  · rintro scalar rfl
    refine ⟨fun hremains => ?_, fun hs => remains_of_stays hshown hs hd⟩
    -- the run declares the scalar once, so it remains where it was collected
    obtain ⟨place, other, hs, hin⟩ := exists_of_remains_scalar hshown hremains
    obtain rfl := position_unique hcollected hr hs.written hd hin
    cases hr.symm.trans hs.written
    exact hs
  · obtain ⟨last, found, hs, hin⟩ := exists_stays hcollected hr hd hne hown
    exact remains_of_stays hshown hs hin
  · obtain ⟨position, hs⟩ := stays_of_nodup hcollected hn hr (List.ne_nil_of_mem hd)
    exact remains_of_stays hshown hs hd

/-- In the shop, a file that is requested twice loses nothing but scalars. -/
theorem shop_declarations_remain : ∃ mapping outputs results schemas,
    generate Source.shopSettings Source.shopIndex Source.shop
      ["shop.proto", "timestamp.proto", "shop.proto"] = .ok outputs ∧
    collected mapping [] ["shop.proto", "timestamp.proto", "shop.proto"] = .ok results ∧
    List.Forall₂ (ShownIn mapping.naming) results schemas ∧
    ∀ result ∈ results, ∀ declaration ∈ result.2, (∀ scalar, declaration ≠ .scalar scalar) →
      Remains mapping.naming schemas declaration := by
  obtain ⟨mapping, hmapping⟩ := exists_mapping Source.shop_wrapped Source.shop_distinct
    Source.shop_countsForward Source.shopIndex_wellTyped shop_resolvable
  obtain ⟨schemas, hs⟩ := exists_schemas_of_subset Source.shop_wrapped Source.shop_distinct
    (ofDescriptors_built Source.shop_wrapped hmapping) Source.shopIndex_wellTyped
    (show ["shop.proto", "timestamp.proto", "shop.proto"] ⊆ Source.shop.map (·.name) by decide)
  have hgenerate := (generate_eq hmapping _).trans (congrArg _ hs)
  obtain ⟨mapping, results, schemas, -, hresults, hshown, -, hremain, -⟩ :=
    only_overwritten_declarations_are_lost _ _ _ _ _ hgenerate
  refine ⟨mapping, _, results, schemas, hgenerate, hresults, hshown,
    fun result hr declaration hd hne => ?_⟩
  obtain ⟨position, hposition⟩ := List.mem_iff_getElem?.mp hr
  refine (hremain position result hposition declaration hd).2 hne
    fun later other _ ho _ hsame => ?_
  have hnames : ∀ found ∈ results, found.1 ∈ ["shop.proto", "timestamp.proto", "shop.proto"] :=
    fun found hf => collected_names hresults ▸ List.mem_map_of_mem hf
  have hown : ∀ a ∈ ["shop.proto", "timestamp.proto", "shop.proto"],
      ∀ b ∈ ["shop.proto", "timestamp.proto", "shop.proto"], fileName a = fileName b → a = b := by
    decide
  exact hown _ (hnames other (List.mem_of_getElem? ho)) _ (hnames result hr) hsame

/-- A file that uses timestamps, and one without a suffix that has the same output. -/
def diary : List Descriptor.File :=
  [{ name := "diary.proto"
     package := "google.protobuf"
     messages := [
       { name := "Timestamp" },
       { name := "Entry"
         fields := [
           { name := "day", kind := .message, typeName := ".google.protobuf.Timestamp" }] }] },
   { name := "diary"
     enums := [{ name := "Mood", values := [{ name := "FINE" }] }] }]

def diarySources : List Source.File :=
  ((diary.zipIdx.mapM fun (file, position) =>
    Source.File.ofDescriptor {} position file).toOption).getD []

def diarySettings : Settings := { timestamp := some "DateTime" }

/-- A scalar is lost if its file is requested twice, and all objects of a file if another has the
same output. -/
theorem overwritten_diary_is_lost :
    Loses diarySettings {} diary ["diary.proto", "diary.proto"]
      (fun declaration => ∃ scalar, declaration = .scalar scalar) ∧
    Loses diarySettings {} diary ["diary.proto", "diary"]
      (fun declaration => ∃ composite, declaration = .composite composite) := by
  have hw : Source.Wrapped {} diary diarySources := rfl
  have hd : Source.Distinct diarySources := by constructor <;> decide
  have ht := Source.noOptions_wellTyped
  have hmappable : Mappable diarySettings diarySources := by decide
  obtain ⟨mapping, hmapping⟩ := (exists_mapping_iff hd hw.placed).mpr hmappable
  have hm := (ofDescriptors_eq hw).trans hmapping
  have hfile : ∃ file ∈ diarySources, file.home.name = "diary.proto" ∧ ∃ message ∈ file.messages,
      (Body.ofMessage diarySettings (Catalog.ofFiles diarySources) message).toOption.map
        (·.customScalars diarySettings) = some ["DateTime"] := by decide
  have hother : ∃ other ∈ diarySources, other.home.name = "diary" ∧ other.enums.length = 1 ∧
      other.messages.length = 0 ∧ other.services.length = 0 := by decide
  obtain ⟨file, hf, hname, message, hin, hcustom⟩ := hfile
  obtain ⟨other, ho, hname', henums, hno, hnone⟩ := hother
  obtain ⟨body, -, hbody⟩ := (ofDescriptors_built hw hm).exists_object hd
    (List.mem_flatMap.mpr ⟨file, hf, hin⟩)
  rw [hbody] at hcustom
  have hscalars : body.customScalars diarySettings = ["DateTime"] := Option.some.inj hcustom
  have hrepeated := loses_scalars_of_repeated hw hd hm ht hf hin hbody
    (hscalars ▸ List.mem_singleton_self _)
  have hshared := loses_objects_of_shared hw hd hm ht hf ho (by rw [hname, hname']; decide)
    hin (List.ne_nil_of_length_pos (by omega))
    (List.eq_nil_of_length_eq_zero hno) (List.eq_nil_of_length_eq_zero hnone)
  rw [hname] at hrepeated hshared
  rw [hname'] at hshared
  exact ⟨hrepeated, hshared⟩

end ProtoSdl.Output

import ProtoSdl.Proofs.ClosedSchema
import ProtoSdl.Proofs.DeclarationOrigins

/-! Every declaration is emitted once, with the file that defines its source; a custom scalar is
declared by the first file of a run that refers to it. -/
namespace ProtoSdl.Output

open Outcome Mapping
open Schema (Declaration TypeName)

/-- The declarations of the named files, collected one file after the other. -/
def collected (mapping : Mapping) (declared : List String) :
    List String → Except Fault (List (String × List Declaration))
  | [] => .ok []
  | name :: names => do
    let declarations ← fileDeclarations mapping declared name
    return (name, declarations) :: (← collected mapping (declaredAfter mapping declared name) names)

/-- The origins of all that stands in results, in the same order. -/
def Traced (mapping : Mapping) (results : List (String × List Declaration))
    (sources : List (String × List Origin)) : Prop :=
  sources.map (fun source => (source.1, source.2.map (·.declaration? mapping))) =
    results.map fun result => (result.1, result.2.map some)

/-- A field or an argument of a declaration with one of the origins has the type. -/
def Mentions (mapping : Mapping) (origins : List Origin) (scalar : String) : Prop :=
  ∃ origin ∈ origins, ∃ declaration, origin.declaration? mapping = some declaration ∧
    .text scalar ∈ declaration.references

/-- The enums of a file and its messages, with the members of their oneofs, have declarations. -/
structure Represented (mapping : Mapping) (file : Source.File) : Prop where
  enums : ∀ enum ∈ file.enums, ((Origin.enum enum.fullName).declaration? mapping).isSome = true
  objects : ∀ message ∈ file.messages,
    ((Origin.object message.fullName).declaration? mapping).isSome = true
  unions : ∀ message ∈ file.messages, ∀ position < message.choices.length,
    ((Origin.union message.fullName position).declaration? mapping).isSome = true
  wrappers : ∀ message ∈ file.messages, ∀ position oneof, message.choices[position]? = some oneof →
    ∀ place < oneof.members.length,
      ((Origin.wrapper message.fullName position place).declaration? mapping).isSome = true

def fileSources (mapping : Mapping) (declared : List String) (file : Source.File) : List Origin :=
  (newScalars mapping declared (references mapping file)).map .scalar ++ fileOrigins mapping file

def sourcesFrom (mapping : Mapping) (declared : List String) :
    List Source.File → List (String × List Origin)
  | [] => []
  | file :: files => (file.home.name, fileSources mapping declared file) ::
    sourcesFrom mapping (declared ++ newScalars mapping declared (references mapping file)) files

variable {settings : Settings} {index : Options.Index} {described : List Descriptor.File}
  {files : List Source.File} {mapping : Mapping} {file : Source.File} {declared : List String}

private theorem sourcesFrom_names (requested : List Source.File) :
    (sourcesFrom mapping declared requested).map (·.1) = requested.map (·.home.name) := by
  induction requested generalizing declared with
  | nil => rfl
  | cons file requested ih => rw [sourcesFrom, List.map_cons, List.map_cons, ih]

private theorem exists_fileSources {requested : List Source.File} {source : String × List Origin}
    (h : source ∈ sourcesFrom mapping declared requested) : ∃ file ∈ requested,
      file.home.name = source.1 ∧ ∃ earlier, source.2 = fileSources mapping earlier file := by
  induction requested generalizing declared with
  | nil => cases h
  | cons file requested ih =>
    rcases List.mem_cons.mp h with rfl | h
    · exact ⟨file, List.mem_cons_self, rfl, declared, rfl⟩
    · obtain ⟨other, ho, hother⟩ := ih h
      exact ⟨other, List.mem_cons_of_mem _ ho, hother⟩

/-- The declarations of a file where its types are named by texts. -/
def listing (mapping : Mapping) (declared : List String) (file : Source.File) : List Declaration :=
  (newScalars mapping declared (references mapping file)).map (fun name => .scalar { name }) ++
    (enums mapping file).map .enum ++ bodyDeclarations mapping file

theorem fileDeclarations_eq_ok {name : String} {declarations : List Declaration} :
    fileDeclarations mapping declared name = .ok declarations ↔
      ∃ file, mapping.catalog.files.get? name = some file ∧
        (references mapping file).any (·.isList) = false ∧
        declarations = listing mapping declared file := by
  unfold fileDeclarations findFile
  cases mapping.catalog.files.get? name with
  | none =>
    constructor
    · intro h
      cases h
    · rintro ⟨file, h, -⟩
      cases h
  | some file =>
    change declarationsWith mapping declared file (enums mapping file) = .ok declarations ↔ _
    unfold declarationsWith
    constructor
    · intro h
      simp only at h
      split at h
      · cases h
      · rename_i ht
        cases h
        exact ⟨file, rfl, by simpa using ht, rfl⟩
    · rintro ⟨other, heq, ht, rfl⟩
      cases heq
      simp only [ht]
      rfl

/-- The first file of a run, and the run after it. -/
theorem collected_cons {name : String} {names : List String}
    {results : List (String × List Declaration)}
    (h : collected mapping declared (name :: names) = .ok results) :
    ∃ file rest, mapping.catalog.files.get? name = some file ∧
      (references mapping file).any (·.isList) = false ∧
      results = (name, listing mapping declared file) :: rest ∧
      collected mapping (declared ++ newScalars mapping declared (references mapping file)) names =
        .ok rest := by
  obtain ⟨declarations, hfile, h⟩ := bind_eq_ok.mp h
  obtain ⟨rest, hrest, h⟩ := bind_eq_ok.mp h
  cases h
  obtain ⟨file, hget, htexts, rfl⟩ := fileDeclarations_eq_ok.mp hfile
  have hnext : declaredAfter mapping declared name =
      declared ++ newScalars mapping declared (references mapping file) := by
    simp [declaredAfter, hget]
  exact ⟨file, rest, hget, htexts, rfl, hnext ▸ hrest⟩

section

variable (hw : Source.Wrapped index described files) (hd : Source.Distinct files)
  (h : Built settings (Catalog.ofFiles files) mapping)

include hw hd h

theorem not_scalar_mem_fileOrigins (hf : file ∈ files) (scalar : String) :
    Origin.scalar scalar ∉ fileOrigins mapping file :=
  fun hm => List.not_mem_nil ((mem_fileOrigins hw hd h hf).mp hm).1

theorem map_fileSources (hf : file ∈ files)
    (ht : (references mapping file).any (·.isList) = false) :
    (fileSources mapping declared file).map (·.declaration? mapping) =
      (listing mapping declared file).map some := by
  rw [fileSources, listing, List.append_assoc, List.map_append, List.map_append, List.map_map,
    List.map_map, map_fileOrigins hw hd h hf]
  congr 1
  refine List.map_congr_left fun scalar hs => ?_
  simp [Origin.declaration?, ((mem_newScalars ht).mp hs).2.1]

omit hw hd h in
private theorem mentions_iff {origins : List Origin} {declarations : List Declaration}
    (h : origins.map (·.declaration? mapping) = declarations.map some) {scalar : String} :
    Mentions mapping origins scalar ↔
      ∃ declaration ∈ declarations, .text scalar ∈ declaration.references := by
  have hmem : ∀ declaration, (∃ origin ∈ origins,
      origin.declaration? mapping = some declaration) ↔ declaration ∈ declarations := by
    intro declaration
    rw [← List.mem_map, h]
    simp
  simp only [← hmem, Mentions]
  constructor
  · rintro ⟨origin, ho, declaration, hdeclared, hr⟩
    exact ⟨declaration, ⟨origin, ho, hdeclared⟩, hr⟩
  · rintro ⟨declaration, ⟨origin, ho, hdeclared⟩, hr⟩
    exact ⟨origin, ho, declaration, hdeclared, hr⟩

/-- The scalars that are mentioned are those that the declarations of the file refer to. -/
theorem mentions_fileSources (hf : file ∈ files)
    (ht : (references mapping file).any (·.isList) = false) {scalar : String} :
    Mentions mapping (fileSources mapping declared file) scalar ↔
      .text scalar ∈ references mapping file := by
  rw [mentions_iff (map_fileSources hw hd h hf ht), references, List.mem_flatMap]
  constructor
  · rintro ⟨declaration, hm, hr⟩
    rcases List.mem_append.mp hm with hm | hm
    · rcases List.mem_append.mp hm with hm | hm
      · obtain ⟨name, -, rfl⟩ := List.mem_map.mp hm
        cases hr
      · obtain ⟨enum, -, rfl⟩ := List.mem_map.mp hm
        cases hr
    · exact ⟨declaration, hm, hr⟩
  · rintro ⟨declaration, hm, hr⟩
    exact ⟨declaration, List.mem_append_right _ hm, hr⟩

private theorem scalar_mem_fileSources (hf : file ∈ files)
    (ht : (references mapping file).any (·.isList) = false) {scalar : String} :
    .scalar scalar ∈ fileSources mapping declared file ↔
      scalar ∈ mapping.scalars ∧ scalar ∉ declared ∧
        Mentions mapping (fileSources mapping declared file) scalar := by
  have hnew : .scalar scalar ∈ fileSources mapping declared file ↔
      scalar ∈ newScalars mapping declared (references mapping file) := by
    simp [fileSources, not_scalar_mem_fileOrigins hw hd h hf]
  rw [hnew, mem_newScalars ht, mentions_fileSources hw hd h hf ht]
  exact ⟨fun ⟨hm, hs, hn⟩ => ⟨hs, hn, hm⟩, fun ⟨hs, hn, hm⟩ => ⟨hm, hs, hn⟩⟩

private theorem nodup_fileSources (hf : file ∈ files) :
    (fileSources mapping declared file).Nodup := by
  refine List.nodup_append.mpr ⟨?_, nodup_fileOrigins hw hd h hf, ?_⟩
  · exact (Dependency.nodup_firstOccurrences _).map fun _ _ heq => Origin.scalar.inj heq
  · intro origin hm other ho heq
    obtain ⟨scalar, -, rfl⟩ := List.mem_map.mp hm
    exact not_scalar_mem_fileOrigins hw hd h hf scalar (heq ▸ ho)

variable {requested : List Source.File}
  (hr : ∀ file ∈ requested, file ∈ files ∧ (references mapping file).any (·.isList) = false)

include hr

/-- A custom scalar is declared with the first file that mentions it, unless it was declared
before. -/
theorem scalar_mem_sourcesFrom {before after : List (String × List Origin)}
    {source : String × List Origin}
    (hs : sourcesFrom mapping declared requested = before ++ source :: after) {scalar : String} :
    .scalar scalar ∈ source.2 ↔ scalar ∈ mapping.scalars ∧ scalar ∉ declared ∧
      Mentions mapping source.2 scalar ∧
        ∀ earlier ∈ before, ¬Mentions mapping earlier.2 scalar := by
  induction requested generalizing declared before with
  | nil => simp [sourcesFrom] at hs
  | cons file requested ih =>
    obtain ⟨hf, ht⟩ := hr file List.mem_cons_self
    have hrest := fun other ho => hr other (List.mem_cons_of_mem file ho)
    rw [sourcesFrom] at hs
    cases before with
    | nil =>
      cases hs
      simp [scalar_mem_fileSources hw hd h hf ht]
    | cons first before =>
      obtain ⟨rfl, hlater⟩ := List.cons.inj hs
      rw [ih hrest hlater, List.mem_append, mem_newScalars ht, List.forall_mem_cons,
        mentions_fileSources hw hd h hf ht]
      constructor
      · rintro ⟨hs, hn, hm, hearlier⟩
        have hnew : scalar ∉ declared := fun hin => hn (.inl hin)
        exact ⟨hs, hnew, hm, fun hfirst => hn (.inr ⟨hfirst, hs, hnew⟩), hearlier⟩
      · rintro ⟨hs, hnew, hm, hfirst, hearlier⟩
        exact ⟨hs, fun hin => hin.elim hnew fun hin => hfirst hin.1, hm, hearlier⟩

/-- What is left to later files is not declared yet and not defined in the files before. -/
theorem of_mem_sourcesFrom {origin : Origin}
    (ho : origin ∈ (sourcesFrom mapping declared requested).flatMap (·.2)) :
    (∃ scalar, origin = .scalar scalar ∧ scalar ∉ declared) ∨
      ∃ file ∈ requested, origin.IsOf file := by
  induction requested generalizing declared with
  | nil => simp [sourcesFrom] at ho
  | cons file requested ih =>
    obtain ⟨hf, ht⟩ := hr file List.mem_cons_self
    have hrest := fun other ho => hr other (List.mem_cons_of_mem file ho)
    rw [sourcesFrom, List.flatMap_cons, List.mem_append] at ho
    rcases ho with ho | ho
    · rcases List.mem_append.mp ho with ho | ho
      · obtain ⟨scalar, hs, rfl⟩ := List.mem_map.mp ho
        exact .inl ⟨scalar, rfl, ((mem_newScalars ht).mp hs).2.2⟩
      · exact .inr ⟨file, List.mem_cons_self, ((mem_fileOrigins hw hd h hf).mp ho).1⟩
    · rcases ih hrest ho with ⟨scalar, rfl, hs⟩ | ⟨other, hother, hof⟩
      · exact .inl ⟨scalar, rfl, fun hm => hs (List.mem_append_left _ hm)⟩
      · exact .inr ⟨other, List.mem_cons_of_mem _ hother, hof⟩

/-- Over all files no origin stands twice. -/
theorem nodup_sourcesFrom (hn : requested.Nodup) :
    ((sourcesFrom mapping declared requested).flatMap (·.2)).Nodup := by
  induction requested generalizing declared with
  | nil => exact List.nodup_nil
  | cons file requested ih =>
    obtain ⟨hf, -⟩ := hr file List.mem_cons_self
    have hrest := fun other ho => hr other (List.mem_cons_of_mem file ho)
    obtain ⟨hnew, hn⟩ := List.nodup_cons.mp hn
    rw [sourcesFrom, List.flatMap_cons]
    refine List.nodup_append.mpr ⟨nodup_fileSources hw hd h hf, ih hrest hn, ?_⟩
    rintro origin hm _ hlater rfl
    -- a scalar of the file is declared for later files, and other sources have one file
    rcases of_mem_sourcesFrom hw hd h hrest hlater with ⟨scalar, rfl, hs⟩ | ⟨other, ho, hof⟩
    · rcases List.mem_append.mp hm with hm | hm
      · obtain ⟨name, hname, heq⟩ := List.mem_map.mp hm
        cases heq
        exact hs (List.mem_append_right _ hname)
      · exact not_scalar_mem_fileOrigins hw hd h hf scalar hm
    · rcases List.mem_append.mp hm with hm | hm
      · obtain ⟨name, -, rfl⟩ := List.mem_map.mp hm
        cases hof
      · have hown := ((mem_fileOrigins hw hd h hf).mp hm).1
        obtain rfl := hown.unique hd hf (hrest other ho).1 hof
        exact hnew ho

omit hr

/-- The origins that a file brings into a run, apart from scalars. -/
theorem mem_fileSources (hf : file ∈ files) {origin : Origin} (ho : origin.group ≠ .scalars) :
    origin ∈ fileSources mapping declared file ↔
      origin.IsOf file ∧ (origin.declaration? mapping).isSome = true := by
  rw [fileSources, List.mem_append, mem_fileOrigins hw hd h hf]
  refine or_iff_right fun hm => ?_
  obtain ⟨scalar, -, rfl⟩ := List.mem_map.mp hm
  exact ho rfl

theorem exists_body (hf : file ∈ files) {message : Source.Message}
    (hm : message ∈ file.messages) : ∃ body,
      mapping.objects.get? message.fullName = some body ∧ body.Sound files message := by
  have hin : message ∈ Source.allMessages files := List.mem_flatMap.mpr ⟨file, hf, hm⟩
  obtain ⟨body, hget, hof⟩ := h.exists_object hd hin
  exact ⟨body, hget, (Body.ofMessage_ok (hw.placed message hin) hof).1⟩

private theorem represented (hf : file ∈ files) : Represented mapping file := by
  refine ⟨fun enum he => ?_, fun message hm => ?_, fun message hm position hlt => ?_,
    fun message hm position oneof ho place hlt => ?_⟩
  · exact enum_isSome hd h hf he
  · obtain ⟨body, hget, -⟩ := exists_body hw hd h hf hm
    exact object_isSome.mpr ⟨body, hget⟩
  · obtain ⟨body, hget, hsound⟩ := exists_body hw hd h hf hm
    rw [← hsound.oneofs, List.length_map] at hlt
    exact union_isSome.mpr ⟨body, hget, _, List.getElem?_eq_getElem hlt⟩
  · obtain ⟨body, hget, hsound⟩ := exists_body hw hd h hf hm
    rw [← hsound.oneofs, List.getElem?_map] at ho
    obtain ⟨choice, hc, rfl⟩ := Option.map_eq_some_iff.mp ho
    rw [← hsound.members choice (List.mem_of_getElem? hc), List.length_map] at hlt
    exact wrapper_isSome.mpr ⟨body, hget, choice, hc, _, List.getElem?_eq_getElem hlt⟩

/-- The type of a field of an object is mentioned with the file of its message. -/
theorem mentions_of_mem_fields (hf : file ∈ files) {message : Source.Message}
    (hm : message ∈ file.messages) {origin : Origin} {composite : Schema.Composite}
    (hgroup : origin.group = .objects) (hsource : origin.source = message.fullName)
    (hdeclared : origin.declaration? mapping = some (.composite composite))
    {field : Schema.Field} (hfield : field ∈ composite.fields) {scalar : String}
    (htype : field.typeName = .text scalar) :
    Mentions mapping (fileSources mapping declared file) scalar := by
  have hof : origin.IsOf file := by
    rw [Origin.IsOf, hgroup, hsource]
    exact List.mem_map_of_mem hm
  refine ⟨origin, ?_, _, hdeclared, List.mem_flatMap.mpr ⟨field, hfield, ?_⟩⟩
  · exact (mem_fileSources hw hd h hf (by simp [hgroup])).mpr ⟨hof, by simp [hdeclared]⟩
  · exact htype ▸ List.mem_cons_self

/-- A scalar that stands for the type of a field is mentioned with the file of the field. -/
theorem mentions_customScalar (hf : file ∈ files) {message : Source.Message}
    (hm : message ∈ file.messages) {field : Source.Field} (hfield : field ∈ message.fields)
    {scalar : String} (hcustom : customScalar? settings field.typeName = some scalar) :
    Mentions mapping (fileSources mapping declared file) scalar := by
  obtain ⟨body, hget, hsound⟩ := exists_body hw hd h hf hm
  obtain ⟨typed, ht, rfl⟩ := hsound.covers field hfield
  have htype : (typed.declare mapping.naming .object body.message).typeName = .text scalar := by
    have hnaming : customScalar? mapping.naming.settings typed.field.typeName = some scalar := by
      rw [Mapping.naming, h.settings_eq, hcustom]
    simp [declare_typeName, hnaming]
  -- a plain field is shown in the object of its message, a member of a oneof in its wrapper
  rcases Body.mem_typedFields.mp ht with ⟨companion, hin⟩ | ⟨choice, hc, hin⟩
  · have hdeclared : (Origin.object message.fullName).declaration? mapping =
        some (.composite (body.object mapping.naming)) := by
      simp [Origin.declaration?, hget]
    refine mentions_of_mem_fields hw hd h hf hm rfl rfl hdeclared ?_ htype
    rw [Body.object, Body.fields, if_neg (by simpa using List.ne_nil_of_mem hin)]
    exact List.mem_flatMap.mpr ⟨_, hin, List.mem_cons_self⟩
  · obtain ⟨position, hposition⟩ := List.mem_iff_getElem?.mp hc
    obtain ⟨place, hplace⟩ := List.mem_iff_getElem?.mp hin
    have hdeclared : (Origin.wrapper message.fullName position place).declaration? mapping =
        some (.composite (body.wrapper mapping.naming choice typed)) := by
      simp [Origin.declaration?, hget, hposition, hplace]
    exact mentions_of_mem_fields hw hd h hf hm rfl rfl hdeclared (by simp [Body.wrapper]) htype

/-- A run over known files collects what their origins declare. -/
theorem collected_traced {names : List String} {results : List (String × List Declaration)}
    (hc : collected mapping declared names = .ok results) :
    ∃ requested : List Source.File, requested.map (·.home.name) = names ∧
      (∀ file ∈ requested, file ∈ files ∧ (references mapping file).any (·.isList) = false) ∧
      Traced mapping results (sourcesFrom mapping declared requested) := by
  induction names generalizing declared results with
  | nil =>
    cases hc
    exact ⟨[], rfl, by simp, rfl⟩
  | cons name names ih =>
    obtain ⟨file, rest, hget, ht, rfl, hrest⟩ := collected_cons hc
    rw [h.catalog_eq] at hget
    obtain ⟨hf, rfl⟩ := (Catalog.get?_files hd).mp hget
    obtain ⟨requested, hnames, hr, htraced⟩ := ih hrest
    refine ⟨file :: requested, by rw [List.map_cons, hnames], ?_, ?_⟩
    · exact List.forall_mem_cons.mpr ⟨⟨hf, ht⟩, hr⟩
    · rw [Traced, sourcesFrom, List.map_cons, List.map_cons, map_fileSources hw hd h hf ht]
      exact congrArg _ htraced

omit hw in
private theorem exists_collected {names : List String} (hn : ∀ name ∈ names, ∃ file ∈ files,
    file.home.name = name ∧ (references mapping file).any (·.isList) = false) :
    ∃ results, collected mapping declared names = .ok results := by
  induction names generalizing declared with
  | nil => exact ⟨[], rfl⟩
  | cons name names ih =>
    obtain ⟨file, hf, rfl, ht⟩ := hn name List.mem_cons_self
    have hget : mapping.catalog.files.get? file.home.name = some file := by
      rw [h.catalog_eq]
      exact (Catalog.get?_files hd).mpr ⟨hf, rfl⟩
    obtain ⟨rest, hrest⟩ := ih fun other ho => hn other (List.mem_cons_of_mem _ ho)
    exact ⟨_, bind_eq_ok.mpr ⟨_, fileDeclarations_eq_ok.mpr ⟨file, hget, ht, rfl⟩,
      bind_eq_ok.mpr ⟨rest, hrest, rfl⟩⟩⟩

end

/-- The results of a run that names no file twice have the declarations of all that the files
define, each once and with its own file, and the custom scalars that these mention, each with the
first file that does. A custom scalar stands for the type of a field, and the file of the field
mentions it. Files that are known can be collected where the options are well typed. -/
theorem declarations_are_emitted_once (settings : Settings) (index : Options.Index)
    (described : List Descriptor.File) (files : List Source.File) (mapping : Mapping)
    (names : List String) (hw : Source.Wrapped index described files)
    (hd : Source.Distinct files)
    (h : Mapping.ofDescriptors settings index described = .ok mapping) (hn : names.Nodup) :
    (∀ file ∈ files, Represented mapping file) ∧
    (∀ scalar, scalar ∈ mapping.scalars ↔ ∃ message ∈ Source.allMessages files,
      ∃ field ∈ message.fields, customScalar? settings field.typeName = some scalar) ∧
    (index.WellTyped → (∀ name ∈ names, name ∈ described.map (·.name)) →
      ∃ results, collected mapping [] names = .ok results) ∧
    ∀ results, collected mapping [] names = .ok results →
      ∃ sources, Traced mapping results sources ∧ sources.map (·.1) = names ∧
        (sources.flatMap (·.2)).Nodup ∧
        (∀ source ∈ sources, ∃ file ∈ files, file.home.name = source.1 ∧
          (∀ origin : Origin, origin.group ≠ .scalars → (origin ∈ source.2 ↔
            origin.IsOf file ∧ (origin.declaration? mapping).isSome = true)) ∧
          ∀ message ∈ file.messages, ∀ field ∈ message.fields, ∀ scalar,
            customScalar? settings field.typeName = some scalar →
              Mentions mapping source.2 scalar) ∧
        ∀ before source after, sources = before ++ source :: after →
          ∀ scalar, .scalar scalar ∈ source.2 ↔ scalar ∈ mapping.scalars ∧
            Mentions mapping source.2 scalar ∧
              ∀ earlier ∈ before, ¬Mentions mapping earlier.2 scalar := by
  have hb := ofDescriptors_built hw h
  refine ⟨fun file hf => represented hw hd hb hf, fun scalar => ?_, fun ht hknown => ?_,
    fun results hc => ?_⟩
  · rw [ofDescriptors_eq hw] at h
    exact mem_scalars_iff hw h hd
  · refine exists_collected hd hb fun name hname => ?_
    have hin := hknown name hname
    rw [← hw.names] at hin
    obtain ⟨file, hf, rfl⟩ := List.mem_map.mp hin
    exact ⟨file, hf, rfl, references_isList hw hd hb ht file⟩
  · obtain ⟨requested, hnames, hr, htraced⟩ := collected_traced hw hd hb hc
    have hrequested : requested.Nodup := List.Nodup.of_map _ (hnames ▸ hn)
    refine ⟨sourcesFrom mapping [] requested, htraced, (sourcesFrom_names requested).trans hnames,
      nodup_sourcesFrom hw hd hb hr hrequested, fun source hs => ?_,
      fun before source after hs scalar => ?_⟩
    · obtain ⟨file, hfile, hname, earlier, hsource⟩ := exists_fileSources hs
      have hf := (hr file hfile).1
      rw [hsource]
      exact ⟨file, hf, hname, fun origin ho => mem_fileSources hw hd hb hf ho,
        fun message hm field hfield scalar => mentions_customScalar hw hd hb hf hm hfield⟩
    · rw [scalar_mem_sourcesFrom hw hd hb hr hs]
      simp

section Clinic

/-- Two files with times, and the file that they have the type of times from. -/
def clinic : List Descriptor.File :=
  [{ name := "timestamp.proto"
     package := "google.protobuf"
     messages := [{ name := "Timestamp", fields := [{ name := "seconds", kind := .int64 }] }] },
   { name := "visit.proto"
     package := "clinic"
     messages := [
       { name := "Visit"
         fields := [
           { name := "start", kind := .message, typeName := ".google.protobuf.Timestamp" }] }] },
   { name := "invoice.proto"
     package := "clinic"
     messages := [
       { name := "Invoice"
         fields := [
           { name := "paid", kind := .message, typeName := ".google.protobuf.Timestamp"
             oneofIndex := some 0 },
           { name := "waived", kind := .bool, oneofIndex := some 0 }]
         oneofs := ["outcome"] }] }]

def clinicSources : List Source.File :=
  ((clinic.zipIdx.mapM fun (file, position) =>
    Source.File.ofDescriptor {} position file).toOption).getD []

theorem clinic_wrapped : Source.Wrapped {} clinic clinicSources := rfl

theorem clinic_distinct : Source.Distinct clinicSources := by
  constructor <;> decide

private theorem clinic_mapped : ∃ mapping,
    Mapping.ofDescriptors Source.shopSettings {} clinic = .ok mapping := by
  have hresolved : ¬ Unresolvable Source.shopSettings clinicSources := by
    rw [unresolvable_iff clinic_distinct]
    decide
  exact exists_mapping clinic_wrapped clinic_distinct (by decide) Source.noOptions_wellTyped
    hresolved

/-- Both files of the clinic have a field for which the scalar stands. -/
theorem clinic_dates : ∀ file ∈ clinicSources, file.home.name ∈ ["invoice.proto", "visit.proto"] →
    ∃ message ∈ file.messages, ∃ field ∈ message.fields,
      customScalar? Source.shopSettings field.typeName = some "DateTime" := by
  decide

/-- Invoices and visits both mention the scalar of times, which is declared with the invoices, as
they are collected first, and not again with the visits. -/
theorem clinic_declarations_are_emitted_once : ∃ mapping results invoices visits,
    Source.Wrapped {} clinic clinicSources ∧ Source.Distinct clinicSources ∧
    Mapping.ofDescriptors Source.shopSettings {} clinic = .ok mapping ∧
    ["invoice.proto", "visit.proto"].Nodup ∧
    collected mapping [] ["invoice.proto", "visit.proto"] = .ok results ∧
    Traced mapping results [("invoice.proto", invoices), ("visit.proto", visits)] ∧
    (invoices ++ visits).Nodup ∧
    Mentions mapping invoices "DateTime" ∧ Mentions mapping visits "DateTime" ∧
    .scalar "DateTime" ∈ invoices ∧ .scalar "DateTime" ∉ visits := by
  have hnames : ["invoice.proto", "visit.proto"].Nodup := by decide
  obtain ⟨mapping, hmapping⟩ := clinic_mapped
  obtain ⟨-, hscalars, hsuccess, honce⟩ := declarations_are_emitted_once _ _ _ _ mapping _
    clinic_wrapped clinic_distinct hmapping hnames
  obtain ⟨results, hresults⟩ := hsuccess Source.noOptions_wellTyped (by decide)
  obtain ⟨sources, htraced, hsources, hnodup, hfiles, hfirst⟩ := honce results hresults
  obtain ⟨⟨_, invoices⟩, ⟨_, visits⟩, rfl⟩ := List.length_eq_two.mp
    (by simpa using congrArg List.length hsources)
  cases hsources
  have hmentions : ∀ source ∈ [("invoice.proto", invoices), ("visit.proto", visits)],
      Mentions mapping source.2 "DateTime" := by
    intro source hs
    obtain ⟨file, hf, hname, -, hmentions⟩ := hfiles source hs
    have hin : file.home.name ∈ ["invoice.proto", "visit.proto"] :=
      hname ▸ List.mem_map_of_mem hs
    obtain ⟨message, hm, field, hfield, hcustom⟩ := clinic_dates file hf hin
    exact hmentions message hm field hfield _ hcustom
  obtain ⟨hinvoices, hvisits⟩ : Mentions mapping invoices "DateTime" ∧
      Mentions mapping visits "DateTime" := by simpa using hmentions
  have hscalar : "DateTime" ∈ mapping.scalars := (hscalars _).mpr (by decide)
  refine ⟨mapping, results, invoices, visits, clinic_wrapped, clinic_distinct, hmapping, hnames,
    hresults, htraced, by simpa using hnodup, hinvoices, hvisits, ?_, fun hagain => ?_⟩
  · exact (hfirst [] _ _ rfl _).mpr ⟨hscalar, hinvoices, by simp⟩
  · obtain ⟨-, -, hnone⟩ := (hfirst [_] _ [] rfl _).mp hagain
    exact hnone _ List.mem_cons_self hinvoices

end Clinic

end ProtoSdl.Output

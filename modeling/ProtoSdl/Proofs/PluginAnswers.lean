import ProtoSdl.Plugin
import ProtoSdl.Proofs.ClosedSchema
import ProtoSdl.Proofs.MappingDefects

/-! Which requests are answered. A request with well-formed files gets a response unless an option is
misused or a comment has a path that stops short; then a diagnostic may still come first, and without
one there is no response. A response is either the message of a diagnostic or the schema files. -/
namespace ProtoSdl

open Outcome

namespace Output

/-- A file that is named and cannot be written: a type it refers to has a list for its name, or an
enum value is deprecated and has a name that cannot be marked. -/
def Unwritable (mapping : Mapping) (name : String) : Prop :=
  ∃ file, mapping.catalog.files.get? name = some file ∧
    ((references mapping file).any (·.isList) = true ∨ hasUnmarkable mapping file = true)

private theorem printFile_blames (mapping : Mapping) (progress : Progress) (name : String) :
    Blames (printFile mapping progress name) (Unwritable mapping name) := by
  unfold printFile findFile Unwritable
  cases mapping.catalog.files.get? name with
  | none => exact (Blames.of_no_defect (by simp [Fault.mapping, bind, Except.bind])).congr (by simp)
  | some file =>
    simp only [Option.some.injEq, exists_eq_left']
    refine Blames.bind_right (Blames.ok not_false file) fun _ h => ?_
    cases h
    refine Blames.bind_or ?_ fun declarations _ => ?_
    · unfold declarationsWith
      simp only
      split
      · rename_i hlist
        exact Blames.error hlist _
      · rename_i hlist
        exact Blames.ok hlist _
    · split
      · rename_i hmark
        exact Blames.error hmark _
      · rename_i hmark
        exact Blames.ok hmark _

private theorem write_blames (mapping : Mapping) (progress : Progress) (outputs : Table String)
    (names : List String) : Blames (write mapping progress outputs names)
      (∃ name ∈ names, Unwritable mapping name) := by
  induction names generalizing progress outputs with
  | nil => exact Blames.ok (by simp) outputs
  | cons name names ih =>
    rw [List.exists_mem_cons_iff]
    exact (printFile_blames mapping progress name).bind_or fun printed _ => ih printed.2 _

private theorem generate_blames {settings : Settings} {index : Options.Index}
    {described : List Descriptor.File} (h : ∀ file ∈ described, Source.WellFormed file)
    (names : List String) : Blames (generate settings index described names)
      ((Mapping.Unreadable index described ∨
        ∃ catalog, Mapping.Catalog.ofDescriptors index described = .ok catalog ∧
          Mapping.MisusedDeclaration settings catalog) ∨
        ∃ mapping, Mapping.ofDescriptors settings index described = .ok mapping ∧
          ∃ name ∈ names, Unwritable mapping name) :=
  (Mapping.ofDescriptors_blames h).bind fun mapping _ => write_blames mapping {} {} names

end Output

section Messages

private theorem append_ne_empty {a b : String} (h : a ≠ "" ∨ b ≠ "") : a ++ b ≠ "" := by
  rw [Ne, String.append_eq_empty_iff]
  exact fun hboth => h.elim (fun ha => ha hboth.1) fun hb => hb hboth.2

theorem MappingError.message_ne_empty (error : MappingError) : error.message ≠ "" := by
  cases error with
  | unknownFile name => exact append_ne_empty (.inl (append_ne_empty (.inl (by decide))))
  | _ => exact append_ne_empty (.inl (append_ne_empty (.inr (by decide))))

theorem Settings.Error.message_ne_empty (error : Settings.Error) : error.message ≠ "" := by
  cases error with
  | missingType key => exact append_ne_empty (.inl (by decide))
  | missingPath => decide
  | badChoice key value allowed =>
    exact append_ne_empty (.inl (append_ne_empty (.inr (by decide))))
  | unknownKey key => exact append_ne_empty (.inl (by decide))

theorem Options.Error.message_ne_empty (error : Options.Error) : error.message ≠ "" := by
  cases error with
  | unknownSections names => exact append_ne_empty (.inr (by decide))
  | badEntry place identity fault =>
    exact append_ne_empty (.inl (append_ne_empty (.inr (by decide))))
  | badForeignKey value => exact append_ne_empty (.inl (by decide))
  | badLoader value => exact append_ne_empty (.inl (append_ne_empty (.inl (by decide))))
  | unreadable path cause => exact append_ne_empty (.inl (append_ne_empty (.inr (by decide))))
  | malformed path cause => exact append_ne_empty (.inl (append_ne_empty (.inr (by decide))))

/-- Every diagnostic says something. -/
theorem Diagnostic.message_ne_empty (diagnostic : Diagnostic) : diagnostic.message ≠ "" := by
  cases diagnostic with
  | settings error => exact error.message_ne_empty
  | options error => exact error.message_ne_empty
  | cycle error => exact append_ne_empty (.inl (by decide))
  | mapping error => exact error.message_ne_empty

end Messages

namespace Plugin

variable {read : String → Except ReadError String} {request : Request} {limit : Option Nat}

/-- What is to blame if a request with well-formed files has no response: its options file, a
foreign key, a loader or a comment, a namespace or an operation, or the names in a file to write. -/
inductive Misused (read : String → Except ReadError String) (request : Request)
    (limit : Option Nat) : Prop
  | options {settings : Settings} (hs : Settings.ofText request.parameter = .ok settings)
      (hpath : settings.optionsPath ≠ "")
      (h : Options.MisusedFile limit (read settings.optionsPath))
  | reading {settings : Settings} {index : Options.Index}
      (hs : Settings.ofText request.parameter = .ok settings)
      (hi : Options.Index.ofContent settings.optionsPath (read settings.optionsPath) limit =
        .ok index)
      (h : Mapping.Unreadable index request.files)
  | mapping {settings : Settings} {index : Options.Index} {catalog : Mapping.Catalog}
      (hs : Settings.ofText request.parameter = .ok settings)
      (hi : Options.Index.ofContent settings.optionsPath (read settings.optionsPath) limit =
        .ok index)
      (hc : Mapping.Catalog.ofDescriptors index request.files = .ok catalog)
      (h : Mapping.MisusedDeclaration settings catalog)
  | output {settings : Settings} {index : Options.Index} {mapping : Mapping} {name : String}
      (hs : Settings.ofText request.parameter = .ok settings)
      (hi : Options.Index.ofContent settings.optionsPath (read settings.optionsPath) limit =
        .ok index)
      (hm : Mapping.ofDescriptors settings index request.files = .ok mapping)
      (hn : name ∈ request.names) (h : Output.Unwritable mapping name)

theorem misused_iff {settings : Settings} (hs : Settings.ofText request.parameter = .ok settings) :
    Misused read request limit ↔
      (settings.optionsPath ≠ "" ∧ Options.MisusedFile limit (read settings.optionsPath)) ∨
      ∃ index, Options.Index.ofContent settings.optionsPath (read settings.optionsPath) limit =
          .ok index ∧
        ((Mapping.Unreadable index request.files ∨
          ∃ catalog, Mapping.Catalog.ofDescriptors index request.files = .ok catalog ∧
            Mapping.MisusedDeclaration settings catalog) ∨
          ∃ mapping, Mapping.ofDescriptors settings index request.files = .ok mapping ∧
            ∃ name ∈ request.names, Output.Unwritable mapping name) := by
  constructor
  · intro h
    cases h with
    | options hs' hpath h =>
      cases hs.symm.trans hs'
      exact .inl ⟨hpath, h⟩
    | reading hs' hi h =>
      cases hs.symm.trans hs'
      exact .inr ⟨_, hi, .inl (.inl h)⟩
    | mapping hs' hi hc h =>
      cases hs.symm.trans hs'
      exact .inr ⟨_, hi, .inl (.inr ⟨_, hc, h⟩)⟩
    | output hs' hi hm hn h =>
      cases hs.symm.trans hs'
      exact .inr ⟨_, hi, .inr ⟨_, hm, _, hn, h⟩⟩
  · rintro (⟨hpath, h⟩ | ⟨index, hi, (h | ⟨catalog, hc, h⟩) | ⟨mapping, hm, name, hn, h⟩⟩)
    · exact .options hs hpath h
    · exact .reading hs hi h
    · exact .mapping hs hi hc h
    · exact .output hs hi hm hn h

/-- The options file that a request names, if it does, has no half of a surrogate pair. -/
def WholeOptions (read : String → Except ReadError String) (request : Request)
    (limit : Option Nat) : Prop :=
  ∀ settings, Settings.ofText request.parameter = .ok settings → settings.optionsPath ≠ "" →
    Options.IsWhole limit (read settings.optionsPath)

private theorem compile_blames (h : ∀ file ∈ request.files, Source.WellFormed file)
    (hwhole : WholeOptions read request limit) :
    Blames (compile read request limit) (Misused read request limit) := by
  unfold compile
  cases hs : Settings.ofText request.parameter with
  | error error =>
    refine ⟨fun defect hfault => ?_, fun _ _ hok => ?_⟩
    · cases hfault
    · cases hok
  | ok settings =>
    rw [misused_iff hs]
    exact (Options.ofContent_blames _ (hwhole settings hs)).bind fun index _ =>
      Output.generate_blames h request.names

/-- Files and options that give no cause for a defect: the options that are used as texts are texts,
no comment stops short, and declarations have names of their own. -/
structure Proper (index : Options.Index) (described : List Descriptor.File) : Prop where
  names : index.WellTyped
  foreignKey : ∀ name, Options.isText (index.field name).foreignKey = true
  loadOne : ∀ name, Options.isText (index.method name).loadOne = true
  loadMany : ∀ name, Options.isText (index.method name).loadMany = true
  comments : ∀ file ∈ described, ¬ Source.CutComment file
  distinct : ∀ files, Source.Wrapped index described files → Source.Distinct files

namespace Proper

variable {settings : Settings} {index : Options.Index} {described : List Descriptor.File}
  {files : List Source.File}

private theorem not_unreadable (h : Proper index described) :
    ¬ Mapping.Unreadable index described := by
  rintro ⟨file, hf, hbad | hcut⟩
  · cases hbad with
    | foreignKey hs hf hbad => exact Options.not_untextual_of_isText (h.foreignKey _) hbad
    | loadOne hs hm hbad => exact Options.not_untextual_of_isText (h.loadOne _) hbad
    | loadMany hs hm hbad => exact Options.not_untextual_of_isText (h.loadMany _) hbad
  · exact h.comments file hf hcut

private theorem not_misusedDeclaration (h : Proper index described)
    (hw : Source.Wrapped index described files) :
    ¬ Mapping.MisusedDeclaration settings (Mapping.Catalog.ofFiles files) := by
  have hspace : ∀ name, ¬ Mapping.RefusedSpace settings (index.file name).nameSpace :=
    fun name => Mapping.not_refusedSpace_of_isText (h.names.nameSpace name)
  intro hbad
  cases hbad with
  | enum he hbad =>
    rw [Mapping.Catalog.enums_values (h.distinct files hw)] at he
    rw [(hw.enum_spec he).1] at hbad
    exact hspace _ hbad
  | message hm hbad =>
    rw [Mapping.Catalog.messages_values (h.distinct files hw)] at hm
    rw [hw.message_nameSpace hm] at hbad
    exact hspace _ hbad
  | service hs hbad =>
    obtain ⟨hin, -⟩ := Mapping.Catalog.of_mem_services hs
    obtain ⟨method, hm, -, hbad | hbad⟩ := hbad
    · rw [(hw.service_spec hin).2 method hm] at hbad
      exact Mapping.not_misusedOperation_of_isText (h.names.operation _) hbad
    · rw [(hw.service_spec hin).1] at hbad
      exact hspace _ hbad

private theorem not_unwritable (h : Proper index described)
    (hw : Source.Wrapped index described files)
    {mapping : Mapping} (hm : Mapping.ofDescriptors settings index described = .ok mapping)
    (name : String) : ¬ Output.Unwritable mapping name := by
  have hd := h.distinct files hw
  have hb := Mapping.ofDescriptors_built hw hm
  rintro ⟨file, -, hbad | hbad⟩
  · rw [Output.references_isList hw hd hb h.names file] at hbad
    cases hbad
  · rw [Output.hasUnmarkable_eq_false hw hd hb h.names file] at hbad
    cases hbad

end Proper

private theorem not_misused_of_proper {settings : Settings} {index : Options.Index}
    (hs : Settings.ofText request.parameter = .ok settings)
    (hi : Options.Index.ofContent settings.optionsPath (read settings.optionsPath) limit =
        .ok index)
    (hwhole : WholeOptions read request limit) (h : Proper index request.files) :
    ¬ Misused read request limit := by
  rw [misused_iff hs]
  rintro (hbad | ⟨other, ho, (hbad | ⟨catalog, hc, hbad⟩) | ⟨mapping, hm, name, -, hbad⟩⟩)
  · exact (Options.ofContent_blames _ (hwhole settings hs)).not_ok hbad index hi
  · cases hi.symm.trans ho
    exact h.not_unreadable hbad
  · cases hi.symm.trans ho
    obtain ⟨files, hw, rfl⟩ := Mapping.Catalog.exists_wrapped hc
    exact h.not_misusedDeclaration hw hbad
  · cases hi.symm.trans ho
    obtain ⟨files, hw, -⟩ := Mapping.exists_wrapped hm
    exact h.not_unwritable hw hm name hbad

theorem respond_eq_error {defect : Defect} :
    respond read request limit = .error defect ↔
      compile read request limit = .error (.defect defect) := by
  unfold respond
  split <;> rename_i hcompile <;> simp [hcompile]

private theorem respond_eq_ok {response : Response} : respond read request limit = .ok response ↔
    (∃ diagnostic, compile read request limit = .error (.diagnostic diagnostic) ∧
      response = { error := some diagnostic.message }) ∨
    ∃ outputs, compile read request limit = .ok outputs ∧
      response = { files := outputs.entries } := by
  unfold respond
  split <;> rename_i hcompile <;> simp [hcompile, eq_comm]

private theorem compile_eq {settings : Settings} {index : Options.Index}
    (hs : Settings.ofText request.parameter = .ok settings)
    (hi : Options.Index.ofContent settings.optionsPath (read settings.optionsPath) limit =
        .ok index) :
    compile read request limit = Output.generate settings index request.files request.names := by
  rw [compile, hs]
  simp only [Except.mapError, bind, Except.bind, hi]

private theorem compile_eq_ok {outputs : Table String} : compile read request limit = .ok outputs ↔
    ∃ settings index, Settings.ofText request.parameter = .ok settings ∧
      Options.Index.ofContent settings.optionsPath (read settings.optionsPath) limit = .ok index ∧
      Output.generate settings index request.files request.names = .ok outputs := by
  simp only [compile, bind_eq_ok, mapError_eq_ok, exists_and_left]

/-- Whatever limit is set to the levels of a document, a request with well-formed files, and with
no half of a surrogate pair in its options, has no response exactly if something is misused and no
diagnostic is found first, which proper files and options rule out. A response is the message of a
diagnostic, which is not empty, without files, or the schema files in their order without an
error. -/
theorem respond_fails_only_on_misuse (read : String → Except ReadError String) (request : Request)
    (limit : Option Nat) (h : ∀ file ∈ request.files, Source.WellFormed file)
    (hwhole : WholeOptions read request limit) :
    ((∃ defect, respond read request limit = .error defect) ↔ Misused read request limit ∧
      ∀ diagnostic, compile read request limit ≠ .error (.diagnostic diagnostic)) ∧
    (∀ settings index, Settings.ofText request.parameter = .ok settings →
      Options.Index.ofContent settings.optionsPath (read settings.optionsPath) limit = .ok index →
      Proper index request.files → ∃ response, respond read request limit = .ok response) ∧
    ∀ response, respond read request limit = .ok response →
      (∃ diagnostic, compile read request limit = .error (.diagnostic diagnostic) ∧
        diagnostic.message ≠ "" ∧ response = { error := some diagnostic.message, files := [] }) ∨
      ∃ settings index outputs, Settings.ofText request.parameter = .ok settings ∧
        Options.Index.ofContent settings.optionsPath (read settings.optionsPath) limit = .ok index ∧
        Output.generate settings index request.files request.names = .ok outputs ∧
        response = { error := none, files := outputs.entries } := by
  have hblames : Blames (compile read request limit) (Misused read request limit) :=
    compile_blames h hwhole
  refine ⟨⟨?_, ?_⟩, fun settings index hs hi hproper => ?_, fun response hr => ?_⟩
  · rintro ⟨defect, hr⟩
    rw [respond_eq_error] at hr
    refine ⟨hblames.of_defect defect hr, fun diagnostic hother => ?_⟩
    cases hr.symm.trans hother
  · rintro ⟨hbad, hnone⟩
    cases hcompile : compile read request limit with
    | ok outputs => exact absurd hcompile (hblames.not_ok hbad outputs)
    | error fault =>
      cases fault with
      | diagnostic diagnostic => exact absurd hcompile (hnone diagnostic)
      | defect defect => exact ⟨defect, respond_eq_error.mpr hcompile⟩
  · cases hr : respond read request limit with
    | ok response => exact ⟨response, rfl⟩
    | error defect =>
      exact absurd (hblames.of_defect defect (respond_eq_error.mp hr))
        (not_misused_of_proper hs hi hwhole hproper)
  · rcases respond_eq_ok.mp hr with ⟨diagnostic, hcompile, rfl⟩ | ⟨outputs, hcompile, rfl⟩
    · exact .inl ⟨diagnostic, hcompile, diagnostic.message_ne_empty, rfl⟩
    · obtain ⟨settings, index, hs, hi, hout⟩ := compile_eq_ok.mp hcompile
      exact .inr ⟨settings, index, outputs, hs, hi, hout, rfl⟩

/-- A message with a oneof and a comment on its first field. -/
def ticket : Descriptor.File :=
  { name := "ticket.proto"
    messages := [
      { name := "Ticket"
        fields := [
          { name := "holder", kind := .string },
          { name := "seat", kind := .int32, oneofIndex := some 0 },
          { name := "stand", kind := .string, oneofIndex := some 0 }]
        oneofs := ["place"] }]
    locations := [{ path := [4, 0, 2, 0], leading := " Who may enter." }] }

def ticketRequest (parameter : String) : Request :=
  { files := [ticket], names := ["ticket.proto"], parameter }

theorem ticket_wellFormed (parameter : String) :
    ∀ file ∈ (ticketRequest parameter).files, Source.WellFormed file := by
  intro file hf
  cases List.mem_singleton.mp hf
  exact ⟨by decide, by decide⟩

/-- An options document with a number for a foreign key. -/
def numberedKey : String :=
  "\x7b\"fields\": \x7b\".Ticket.holder\": \x7b\"foreign_key\": 5\x7d\x7d\x7d"

def numberedDocument : Json :=
  .object [("fields", .object [(".Ticket.holder", .object [("foreign_key", .int 5)])])]

theorem ofText_numberedKey : Json.ofText numberedKey = .ok numberedDocument :=
  eq_ok_of_toOption (by decide +kernel)

def numberedIndex : Options.Index :=
  { fields := Table.ofList [(".Ticket.holder", { foreignKey := .int 5 })] }

theorem unified_numberedKey : Options.unified numberedKey = numberedKey := by
  decide +kernel

private theorem ofContent_numberedKey :
    Options.Index.ofContent "o.json" (.ok numberedKey) = .ok numberedIndex := by
  rw [Options.ofContent_ok (by decide), unified_numberedKey, ofText_numberedKey]
  rfl

private theorem wholeOptions_numberedKey (parameter : String) :
    WholeOptions (fun _ => .ok numberedKey) (ticketRequest parameter) none := by
  intro settings _ _ text error htext herror
  cases htext
  rw [unified_numberedKey, ofText_numberedKey] at herror
  cases herror

private theorem compile_numberedKey :
    compile (fun _ => .ok numberedKey) (ticketRequest "options=o.json") =
      Output.generate { optionsPath := "o.json" } numberedIndex [ticket] ["ticket.proto"] :=
  compile_eq rfl ofContent_numberedKey

theorem respond_numberedKey : respond (fun _ => .ok numberedKey) (ticketRequest "options=o.json") =
    .error .noSuchOperation := by
  rw [respond_eq_error, compile_numberedKey]
  rfl

private theorem ticket_proper : Proper {} [ticket] := by
  refine ⟨⟨fun _ => rfl, fun _ => rfl, fun _ => rfl⟩, fun _ => rfl, fun _ => rfl, fun _ => rfl,
    fun file hf => ?_, fun files hw => ?_⟩
  · cases List.mem_singleton.mp hf
    unfold Source.CutComment
    decide
  · cases hw
    constructor <;> decide

/-- The number for a foreign key is to blame, and without options there is a response. -/
theorem ticket_is_answered_without_misuse :
    (∀ file ∈ (ticketRequest "options=o.json").files, Source.WellFormed file) ∧
    WholeOptions (fun _ => .ok numberedKey) (ticketRequest "options=o.json") none ∧
    Misused (fun _ => .ok numberedKey) (ticketRequest "options=o.json") none ∧
    (∀ file ∈ (ticketRequest "").files, Source.WellFormed file) ∧
    WholeOptions (fun _ => .ok numberedKey) (ticketRequest "") none ∧
    ∃ response, respond (fun _ => .ok numberedKey) (ticketRequest "") = .ok response := by
  refine ⟨ticket_wellFormed _, wholeOptions_numberedKey _, ?_, ticket_wellFormed _,
    wholeOptions_numberedKey _, ?_⟩
  · exact ((respond_fails_only_on_misuse _ _ none (ticket_wellFormed _)
      (wholeOptions_numberedKey _)).1.mp ⟨_, respond_numberedKey⟩).1
  · exact (respond_fails_only_on_misuse _ _ none (ticket_wellFormed "")
      (wholeOptions_numberedKey "")).2.1 {} {} rfl rfl ticket_proper

/-- The file is well formed and the options document can be read, and there is no response. -/
theorem numbered_key_is_not_answered :
    (∀ file ∈ (ticketRequest "options=o.json").files, Source.WellFormed file) ∧
    Json.ofText numberedKey = .ok numberedDocument ∧
    respond (fun _ => .ok numberedKey) (ticketRequest "options=o.json") =
      .error .noSuchOperation :=
  ⟨ticket_wellFormed _, ofText_numberedKey, respond_numberedKey⟩

end Plugin

end ProtoSdl

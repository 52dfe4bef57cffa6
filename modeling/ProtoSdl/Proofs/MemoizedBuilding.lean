import ProtoSdl.Proofs.Likeness
import ProtoSdl.Proofs.Resolution
import ProtoSdl.Proofs.VisitLogs

/-! Bodies built one request after the other. The requests for one side of the schema make up one
walk, so what is built is what can be reached from them, each body is formed once, and neither the
order nor the number of the requests matters. -/
namespace ProtoSdl.Mapping

open Outcome Relation Dependency
open Source (allMessages)

/-- A body to be built: that of a message, on one side of the schema. -/
structure Request where
  mode : Mode
  name : String
  deriving DecidableEq

def requested (objects inputs : List String) : List Request :=
  objects.map (⟨.object, ·⟩) ++ inputs.map (⟨.input, ·⟩)

/-- The body of one request refers to that of another: by the type of a field, or in an object by
the key in a slot. -/
inductive Request.LeadsTo (catalog : Catalog) : Request → Request → Prop
  | field {mode : Mode} {name : String} {message : Source.Message} {field : Source.Field}
      (hm : catalog.messages.get? name = some message) (hf : field ∈ message.fields)
      (hk : field.kind = .message) : LeadsTo catalog ⟨mode, name⟩ ⟨mode, field.typeName⟩
  | key {name : String} {message : Source.Message} {field : Source.Field}
      {key : Options.ForeignKey} (hm : catalog.messages.get? name = some message)
      (hf : .field field ∈ message.slots) (hk : field.foreignKey = some key) :
      LeadsTo catalog ⟨.object, name⟩ ⟨.object, key.target⟩

/-- The request was met: this is what a walk looks at before it forms a body. The bodies themselves
stand apart from it. -/
def IsBuilt (mapping : Mapping) (request : Request) : Prop :=
  request.name ∈ mapping.begun request.mode

theorem InStep.isBuilt_iff {mapping : Mapping} (h : mapping.InStep) {request : Request} :
    mapping.IsBuilt request ↔ request.name ∈ (mapping.bodies request.mode).keys := by
  rw [IsBuilt, h.begun_eq]

/-- What a message is declared as, once its object is built. -/
def messageTypes? (mapping : Mapping) (name : String) : Option MessageTypes :=
  (mapping.objects.get? name).map (·.types mapping.naming (mapping.inputs.contains name))

def declared? (mapping : Mapping) (request : Request) : Option Schema.Composite :=
  match request.mode with
  | .object => (mapping.messageTypes? request.name).map (·.object)
  | .input => (mapping.messageTypes? request.name).bind (·.input)

/-- Requests met one after the other, with all bodies that are formed on the way. -/
inductive Calls : Mapping → List Request → List (Request × Body) → Mapping → Prop
  | done (mapping : Mapping) : Calls mapping [] [] mapping
  | call {mapping next result : Mapping} {request : Request} {requests : List Request}
      {log : List (String × Body)} {built : List (Request × Body)}
      (hbuild : mapping.build request.mode [request.name] = .ok next)
      (hwalk : mapping.Walks request.mode [request.name] (mapping.bodies request.mode) log
        (next.bodies request.mode))
      (rest : Calls next requests built result) :
      Calls mapping (request :: requests)
        (log.map (fun entry => (⟨request.mode, entry.1⟩, entry.2)) ++ built) result

private theorem build_bodies_of_ne {mapping next : Mapping} {mode other : Mode}
    {names : List String}
    (h : mapping.build mode names = .ok next) (hother : other ≠ mode) :
    next.bodies other = mapping.bodies other := by
  obtain ⟨after, -, h⟩ := bind_eq_ok.mp h
  cases mode with
  | object =>
    cases h
    cases other with
    | object => exact absurd rfl hother
    | input => rfl
  | input =>
    cases h
    cases other with
    | object => rfl
    | input => exact absurd rfl hother

/-- What a request does: it forms bodies, and what was begun and what has a body stay in step. -/
theorem build_spec {mapping next : Mapping} {mode : Mode} {names : List String}
    (hs : mapping.InStep) (h : mapping.build mode names = .ok next) : next.InStep ∧
      ∃ log, mapping.Walks mode names (mapping.bodies mode) log (next.bodies mode) := by
  obtain ⟨after, log, hwalk, rfl⟩ := (build_eq_ok hs).mp h
  refine ⟨hs.withBodies .., log, ?_⟩
  cases mode <;> exact hwalk

namespace Calls

variable {mapping result : Mapping} {requests : List Request} {built : List (Request × Body)}

def side (mode : Mode) (built : List (Request × Body)) : List (String × Body) :=
  (built.filter (·.1.mode = mode)).map fun entry => (entry.1.name, entry.2)

def names (mode : Mode) (requests : List Request) : List String :=
  (requests.filter (·.mode = mode)).map (·.name)

private theorem settings_eq (h : Calls mapping requests built result) :
    result.settings = mapping.settings := by
  induction h with
  | done mapping => rfl
  | call hbuild _ _ ih => rw [ih, (build_kept hbuild).1]

theorem inStep (h : Calls mapping requests built result) (hs : mapping.InStep) :
    result.InStep := by
  induction h with
  | done mapping => exact hs
  | call hbuild _ _ ih => exact ih (build_spec hs hbuild).1

private theorem side_append (mode other : Mode) (log : List (String × Body))
    (built : List (Request × Body)) :
    side mode (log.map (fun entry => (⟨other, entry.1⟩, entry.2)) ++ built) =
      (if other = mode then log else []) ++ side mode built := by
  simp only [side, List.filter_append, List.map_append, List.filter_map, Function.comp_def]
  split
  · rename_i heq
    simp [heq, Function.comp_def]
  · rename_i hne
    simp [hne]

private theorem visits_append (first rest : List String) :
    visits (first ++ rest) = visits first ++ visits rest := by
  simp [visits]

/-- The requests for one side make up one walk. -/
theorem walks (h : Calls mapping requests built result) (mode : Mode) :
    mapping.Walks mode (names mode requests) (mapping.bodies mode) (side mode built)
      (result.bodies mode) := by
  induction h with
  | done mapping => exact .done _
  | @call mapping next result request requests log built hbuild hwalk _ ih =>
    obtain ⟨hsettings, hcatalog⟩ := build_kept hbuild
    unfold Walks at ih hwalk ⊢
    rw [hsettings, hcatalog] at ih
    rw [side_append]
    by_cases hmode : request.mode = mode
    · subst hmode
      have hnames : names request.mode (request :: requests) =
          [request.name] ++ names request.mode requests := by simp [names]
      rw [if_pos rfl, hnames, visits_append]
      exact hwalk.append ih
    · have hnames : names mode (request :: requests) = names mode requests := by
        simp [names, hmode]
      rw [if_neg hmode, hnames, List.nil_append, ← build_bodies_of_ne hbuild (Ne.symm hmode)]
      exact ih

/-- The tables hold what was formed, in order. -/
theorem entries_bodies (h : Calls mapping requests built result) {mode : Mode}
    (hnew : mapping.bodies mode = {}) : (result.bodies mode).entries = side mode built := by
  have hentries := (h.walks mode).entries
  rw [hnew] at hentries
  exact hentries

theorem nodup_keys (h : Calls mapping requests built result) {mode : Mode}
    (hnew : mapping.bodies mode = {}) : (result.bodies mode).keys.Nodup := by
  apply (h.walks mode).nodup_keys
  rw [hnew]
  exact List.nodup_nil

private theorem mem_built_iff (h : Calls mapping requests built result)
    (hnew : ∀ mode, mapping.bodies mode = {}) {request : Request} {body : Body} :
    (request, body) ∈ built ↔ (result.bodies request.mode).get? request.name = some body := by
  rw [Table.get?_eq_some_iff (h.nodup_keys (hnew _)), h.entries_bodies (hnew _), side, List.mem_map]
  constructor
  · intro hm
    exact ⟨_, List.mem_filter.mpr ⟨hm, by simp⟩, rfl⟩
  · rintro ⟨⟨other, found⟩, hm, heq⟩
    obtain ⟨hin, hmode⟩ := List.mem_filter.mp hm
    obtain ⟨hname, rfl⟩ := Prod.mk.inj heq
    obtain ⟨mode, name⟩ := other
    obtain ⟨mode', name'⟩ := request
    obtain rfl : mode = mode' := by simpa using hmode
    obtain rfl : name = name' := hname
    exact hin

/-- No body is formed twice. -/
theorem nodup_built (h : Calls mapping requests built result)
    (hnew : ∀ mode, mapping.bodies mode = {}) : (built.map (·.1)).Nodup := by
  have hsides : ∀ mode, ((side mode built).map (·.1)).Nodup := by
    intro mode
    rw [← h.entries_bodies (hnew mode)]
    exact h.nodup_keys (hnew mode)
  clear h
  induction built with
  | nil => exact List.nodup_nil
  | cons entry built ih =>
    refine List.nodup_cons.mpr ⟨fun hm => ?_, ih fun mode => ?_⟩
    · obtain ⟨other, ho, heq⟩ := List.mem_map.mp hm
      have hside := hsides entry.1.mode
      simp only [side, List.filter_cons, decide_true, if_true, List.map_cons] at hside
      refine (List.nodup_cons.mp hside).1
        (List.mem_map.mpr ⟨(other.1.name, other.2), ?_, by rw [heq]⟩)
      exact List.mem_map.mpr ⟨other, List.mem_filter.mpr ⟨ho, by simp [heq]⟩, rfl⟩
    · refine (hsides mode).sublist (List.Sublist.map _ (List.Sublist.map _ ?_))
      exact (List.sublist_cons_self entry built).filter _

end Calls

section Resolved

variable {files : List Source.File} {mapping result : Mapping} {requests : List Request}
  {built : List (Request × Body)}

theorem mem_following_iff {mode : Mode} {a b : String} :
    .ok (some b) ∈ following (Catalog.ofFiles files) (references (Catalog.ofFiles files) mode) a ↔
      Request.LeadsTo (Catalog.ofFiles files) ⟨mode, a⟩ ⟨mode, b⟩ ∧ KnownMessage files b := by
  constructor
  · intro h
    unfold following at h
    split at h
    · rename_i message hmessage
      cases mode with
      | object =>
        rcases List.mem_append.mp h with h | h
        · obtain ⟨⟨field, hf, hk, rfl⟩, hknown⟩ := mem_fieldReferences.mp h
          exact ⟨.field hmessage hf hk, hknown⟩
        · obtain ⟨⟨field, key, hslot, hkey, rfl⟩, hknown⟩ := mem_keyReferences.mp h
          exact ⟨.key hmessage hslot hkey, hknown⟩
      | input =>
        obtain ⟨⟨field, hf, hk, rfl⟩, hknown⟩ := mem_fieldReferences.mp h
        exact ⟨.field hmessage hf hk, hknown⟩
    · simp at h
  · rintro ⟨h, hknown⟩
    cases h with
    | field hm hf hk =>
      have hfield := mem_fieldReferences.mpr ⟨⟨_, hf, hk, rfl⟩, hknown⟩
      rw [following, hm]
      cases mode with
      | object => exact List.mem_append_left _ hfield
      | input => exact hfield
    | key hm hslot hk =>
      rw [following, hm]
      exact List.mem_append_right _ (mem_keyReferences.mpr ⟨⟨_, _, hslot, hk, rfl⟩, hknown⟩)

/-- Where all fields resolve, the messages that are referred to are known. -/
theorem Request.LeadsTo.known
    (hresolved : ∀ message ∈ (Catalog.ofFiles files).messages.values, ¬ Unresolved files message)
    {a b : Request} (h : LeadsTo (Catalog.ofFiles files) a b) : KnownMessage files b.name := by
  have hfield : ∀ {name message}, (Catalog.ofFiles files).messages.get? name = some message →
      ∀ field ∈ message.fields, Resolves files field ∧ KeyResolves files field := by
    intro name message hm field hf
    by_contra hbad
    exact hresolved message (Table.mem_values_of_get? hm) ⟨field, hf, hbad⟩
  cases h with
  | field hm hf hk => exact (hfield hm _ hf).1.message hk
  | key hm hslot hk =>
    obtain ⟨hf, hplain⟩ := Source.Message.field_mem_slots.mp hslot
    exact (hfield hm _ hf).2 hplain _ hk

/-- References stay on one side of the schema. -/
theorem Request.path_iff
    (hresolved : ∀ message ∈ (Catalog.ofFiles files).messages.values, ¬ Unresolved files message)
    {first last : Request} :
    ReflTransGen (LeadsTo (Catalog.ofFiles files)) first last ↔ last.mode = first.mode ∧
      ReflTransGen (fun a b => .ok (some b) ∈ following (Catalog.ofFiles files)
        (references (Catalog.ofFiles files) first.mode) a) first.name last.name := by
  constructor
  · intro path
    induction path with
    | refl => exact ⟨rfl, .refl⟩
    | @tail middle last _ hstep ih =>
      obtain ⟨hmode, path⟩ := ih
      have hknown := hstep.known hresolved
      have hsame : last.mode = middle.mode := by cases hstep <;> rfl
      refine ⟨hsame.trans hmode, path.tail (mem_following_iff.mpr ⟨?_, hknown⟩)⟩
      obtain ⟨mode, name⟩ := middle
      obtain ⟨mode', name'⟩ := last
      obtain rfl : mode' = mode := hsame
      obtain rfl : mode' = first.mode := hmode
      exact hstep
  · obtain ⟨mode, name⟩ := first
    obtain ⟨mode', name'⟩ := last
    rintro ⟨rfl, path⟩
    simp only at path
    induction path with
    | refl => exact .refl
    | tail _ hstep ih => exact ih.tail (mem_following_iff.mp hstep).1

/-- Every request can be met. -/
theorem exists_calls (hs : mapping.InStep) (hplaced : ∀ message ∈ allMessages files, message.Placed)
    (hforward : ∀ message ∈ (Catalog.ofFiles files).messages.values, message.CountsForward)
    (hresolved : ∀ message ∈ (Catalog.ofFiles files).messages.values, ¬ Unresolved files message)
    (hc : mapping.catalog = Catalog.ofFiles files) (requests : List Request) :
    ∃ built result, Calls mapping requests built result := by
  induction requests generalizing mapping with
  | nil => exact ⟨[], mapping, .done mapping⟩
  | cons request requests ih =>
    cases hbuild : mapping.build request.mode [request.name] with
    | error fault =>
      obtain ⟨-, message, hm, hbad⟩ := fault_of_build hplaced hforward hc hbuild
      exact absurd hbad (hresolved message hm)
    | ok next =>
      obtain ⟨hnext, log, hwalk⟩ := build_spec hs hbuild
      obtain ⟨built, result, hrest⟩ := ih hnext ((build_kept hbuild).2.trans hc)
      exact ⟨_, result, .call hbuild hwalk hrest⟩

theorem mem_names_requested {requests : List Request} {mode : Mode} {name : String} :
    name ∈ Calls.names mode requests ↔ ⟨mode, name⟩ ∈ requests := by
  rw [Calls.names, List.mem_map]
  constructor
  · rintro ⟨⟨other, name⟩, hm, rfl⟩
    obtain ⟨hin, hmode⟩ := List.mem_filter.mp hm
    obtain rfl : other = mode := by simpa using hmode
    exact hin
  · intro hm
    exact ⟨_, List.mem_filter.mpr ⟨hm, by simp⟩, rfl⟩

/-- What is built is what the requests lead to. -/
theorem Calls.isBuilt_iff (hs : mapping.InStep)
    (hresolved : ∀ message ∈ (Catalog.ofFiles files).messages.values, ¬ Unresolved files message)
    (hc : mapping.catalog = Catalog.ofFiles files) (hnew : ∀ mode, mapping.bodies mode = {})
    (hknown : ∀ request ∈ requests, KnownMessage files request.name)
    (h : Calls mapping requests built result) {request : Request} :
    result.IsBuilt request ↔ ∃ first ∈ requests,
      ReflTransGen (Request.LeadsTo (Catalog.ofFiles files)) first request := by
  have hfinished := (h.walks request.mode).finished
  rw [hnew, hc] at hfinished
  rw [(h.inStep hs).isBuilt_iff, hfinished.mem_keys_iff]
  · simp only [mem_visits, mem_names_requested]
    constructor
    · rintro ⟨start, hs, path⟩
      exact ⟨_, hs, (Request.path_iff hresolved).mpr ⟨rfl, path⟩⟩
    · rintro ⟨first, hf, path⟩
      obtain ⟨hmode, path⟩ := (Request.path_iff hresolved).mp path
      rw [hmode]
      exact ⟨first.name, hf, path⟩
  · intro a b hab
    exact Catalog.mem_keys_messages.mpr (mem_following_iff.mp hab).2
  · intro start hs
    exact Catalog.mem_keys_messages.mpr (hknown _ (mem_names_requested.mp (mem_visits.mp hs)))

/-- A body that is built is the body of its message. -/
theorem Calls.body_of_get? (hnew : ∀ mode, mapping.bodies mode = {})
    (h : Calls mapping requests built result) (mode : Mode) {name : String} {body : Body}
    (hb : (result.bodies mode).get? name = some body) :
    bodyOf mapping.settings mapping.catalog name = .ok body := by
  have hfinished := (h.walks mode).finished
  rw [hnew] at hfinished
  rcases hfinished.visited name body hb with hnone | ⟨-, hvisit, -⟩
  · simp at hnone
  · exact hvisit

/-- The same requests in any order and number build the same bodies. -/
theorem Calls.get?_eq (hs : mapping.InStep)
    (hresolved : ∀ message ∈ (Catalog.ofFiles files).messages.values, ¬ Unresolved files message)
    (hc : mapping.catalog = Catalog.ofFiles files) (hnew : ∀ mode, mapping.bodies mode = {})
    (hknown : ∀ request ∈ requests, KnownMessage files request.name)
    (h : Calls mapping requests built result) {requests' : List Request}
    {built' : List (Request × Body)} {result' : Mapping}
    (hsame : ∀ request, request ∈ requests' ↔ request ∈ requests)
    (h' : Calls mapping requests' built' result') (mode : Mode) (name : String) :
    (result'.bodies mode).get? name = (result.bodies mode).get? name := by
  have hkeys : name ∈ (result'.bodies mode).keys ↔ name ∈ (result.bodies mode).keys := by
    have hbuilt : result.IsBuilt ⟨mode, name⟩ ↔ name ∈ (result.bodies mode).keys :=
      (h.inStep hs).isBuilt_iff
    have hbuilt' : result'.IsBuilt ⟨mode, name⟩ ↔ name ∈ (result'.bodies mode).keys :=
      (h'.inStep hs).isBuilt_iff
    rw [← hbuilt, ← hbuilt', h.isBuilt_iff hs hresolved hc hnew hknown,
      h'.isBuilt_iff hs hresolved hc hnew
        fun request hr => hknown request ((hsame request).mp hr)]
    simp only [hsame]
  cases hb : (result.bodies mode).get? name with
  | some body =>
    obtain ⟨body', hb'⟩ := Table.mem_keys_iff.mp (hkeys.mpr (Table.mem_keys_iff.mpr ⟨body, hb⟩))
    have hof := h.body_of_get? hnew mode hb
    rw [h'.body_of_get? hnew mode hb'] at hof
    cases hof
    exact hb'
  | none =>
    have hno := Table.get?_eq_none_iff.mp hb
    exact Table.get?_eq_none_iff.mpr fun hm => hno (hkeys.mp hm)

/-- In files whose namespaces do not grow, a body is declared in the same way whatever names were
formed before. -/
theorem types_eq {index : Options.Index} {described : List Descriptor.File}
    (hw : Source.Wrapped index described files) (hsteady : Source.SteadyNames index described)
    {settings : Settings} {name : String} {body : Body}
    (hb : bodyOf settings (Catalog.ofFiles files) name = .ok body) {naming naming' : Naming}
    (hs : naming'.settings = naming.settings) (hasInput : Bool) :
    body.types naming' hasInput = body.types naming hasInput := by
  have hself : (Catalog.ofFiles files).Includes Source.Home.Steady (Catalog.ofFiles files) := by
    refine ⟨fun name message hm => ⟨message, hm, ?_, _, rfl⟩,
      fun name enum he => ⟨enum, he, ?_, _, rfl⟩⟩
    · exact hw.steady_message hsteady (Catalog.of_get?_messages hm).1
    · exact hw.steady_enum hsteady (Catalog.of_get?_enums he).1
  obtain ⟨message, hmessage, hof⟩ := bind_eq_ok.mp hb
  obtain ⟨other, hother, halike⟩ := hself.message hmessage
  cases hmessage.symm.trans hother
  obtain ⟨body', hof', hbodies⟩ := Body.ofMessage_alike hself halike hof
  cases hof.symm.trans hof'
  exact Body.types_alike hs hbodies hasInput

theorem mem_scalars {mapping : Mapping} (hn : mapping.objects.keys.Nodup) {scalar : String} :
    scalar ∈ mapping.scalars ↔ ∃ name body, mapping.objects.get? name = some body ∧
      scalar ∈ body.customScalars mapping.settings := by
  rw [scalars, mem_firstOccurrences, List.mem_flatMap]
  constructor
  · rintro ⟨body, hm, hs⟩
    obtain ⟨⟨name, _⟩, hentry, rfl⟩ := List.mem_map.mp hm
    exact ⟨name, _, (Table.get?_eq_some_iff hn).mpr hentry, hs⟩
  · rintro ⟨name, body, hb, hs⟩
    exact ⟨body, Table.mem_values_of_get? hb, hs⟩

/-- A request was met exactly if its declaration is there. -/
theorem isBuilt_iff_declared {mapping : Mapping} (hs : mapping.InStep)
    (hobjects : ∀ name ∈ mapping.inputs.keys, name ∈ mapping.objects.keys) {request : Request} :
    mapping.IsBuilt request ↔ (mapping.declared? request).isSome = true := by
  rw [hs.isBuilt_iff]
  obtain ⟨mode, name⟩ := request
  cases mode with
  | object =>
    change name ∈ mapping.objects.keys ↔ ((mapping.messageTypes? name).map (·.object)).isSome = true
    rw [Option.isSome_map, messageTypes?, Option.isSome_map, Table.mem_keys_iff,
      Option.isSome_iff_exists]
  | input =>
    change name ∈ mapping.inputs.keys ↔ ((mapping.messageTypes? name).bind (·.input)).isSome = true
    constructor
    · intro hm
      obtain ⟨body, hb⟩ := Table.mem_keys_iff.mp (hobjects name hm)
      have hcontains : mapping.inputs.contains name = true :=
        Table.contains_iff.mpr hm
      simp [messageTypes?, hb, hcontains, Body.types]
    · intro h
      rw [Table.mem_keys_iff, ← Option.isSome_iff_exists]
      change mapping.inputs.contains name = true
      by_contra hcontains
      rw [Bool.not_eq_true] at hcontains
      cases hb : mapping.objects.get? name with
      | none => simp [messageTypes?, hb] at h
      | some body => simp [messageTypes?, hb, hcontains, Body.types] at h

private theorem known_of_bodyOf {settings : Settings} {name : String} {body : Body}
    (h : bodyOf settings (Catalog.ofFiles files) name = .ok body) : KnownMessage files name := by
  obtain ⟨message, hm, hname, -⟩ := of_bodyOf h
  exact ⟨message, hm, hname⟩

/-- Where inputs follow once every message has its object, no input is without one. -/
theorem Calls.objects_of_inputs (hstep : mapping.InStep)
    (hplaced : ∀ message ∈ allMessages files, message.Placed)
    (hforward : ∀ message ∈ (Catalog.ofFiles files).messages.values, message.CountsForward)
    (hresolved : ∀ message ∈ (Catalog.ofFiles files).messages.values, ¬ Unresolved files message)
    (hc : mapping.catalog = Catalog.ofFiles files) (hnew : ∀ mode, mapping.bodies mode = {})
    {objects inputs : List String}
    (hknown : ∀ request ∈ requested objects inputs, KnownMessage files request.name)
    (hfirst : inputs ≠ [] → ∀ built middle, Calls mapping (requested objects []) built middle →
      ∀ name, KnownMessage files name → name ∈ middle.objects.keys)
    (h : Calls mapping (requested objects inputs) built result) {name : String}
    (hn : name ∈ result.inputs.keys) : name ∈ result.objects.keys := by
  have hbuilt : ∀ request, result.IsBuilt request ↔ ∃ first ∈ requested objects inputs,
      ReflTransGen (Request.LeadsTo (Catalog.ofFiles files)) first request :=
    fun request => h.isBuilt_iff hstep hresolved hc hnew hknown
  -- an input comes from a request for an input
  obtain ⟨first, hf, path⟩ := (hbuilt ⟨.input, name⟩).mp
    ((h.inStep hstep).isBuilt_iff.mpr hn)
  have hmode : .input = first.mode := ((Request.path_iff hresolved).mp path).1
  have hne : inputs ≠ [] := by
    rintro rfl
    obtain ⟨other, -, rfl⟩ : ∃ other ∈ objects, ⟨.object, other⟩ = first := by
      simpa [requested] using hf
    cases hmode
  have hmessage : KnownMessage files name := by
    obtain ⟨body, hb⟩ := Table.mem_keys_iff.mp hn
    have hof : bodyOf mapping.settings mapping.catalog name = .ok body :=
      h.body_of_get? hnew .input hb
    rw [hc] at hof
    exact known_of_bodyOf hof
  -- the objects of the requests before are among those of all requests
  have hsub : ∀ request ∈ requested objects [], request ∈ requested objects inputs := by
    intro request hr
    exact List.mem_append_left _ (by simpa [requested] using hr)
  obtain ⟨built', middle, hmiddle⟩ :=
    exists_calls hstep hplaced hforward hresolved hc (requested objects [])
  have hobject : middle.IsBuilt ⟨.object, name⟩ :=
    (hmiddle.inStep hstep).isBuilt_iff.mpr (hfirst hne built' middle hmiddle name hmessage)
  obtain ⟨start, hs, path⟩ := (hmiddle.isBuilt_iff hstep hresolved hc hnew
    fun request hr => hknown request (hsub request hr)).mp hobject
  exact (h.inStep hstep).isBuilt_iff.mp
    ((hbuilt ⟨.object, name⟩).mpr ⟨start, hsub start hs, path⟩)

end Resolved

def shopStart : Mapping :=
  { settings := Source.shopSettings
    catalog := Catalog.ofFiles Source.shopSources
    order := [".shop.Shelf", ".google.protobuf.Timestamp", ".shop.Order", ".shop.Line"] }

private theorem shopStart_inStep : shopStart.InStep :=
  ⟨fun mode => by cases mode <;> rfl⟩

private theorem shop_resolved : ∀ message ∈ (Catalog.ofFiles Source.shopSources).messages.values,
    message.CountsForward ∧ ¬ Unresolved Source.shopSources message := by
  decide

private theorem shop_known {name : String} (h : KnownMessage Source.shopSources name) :
    name ∈ shopStart.order := by
  obtain ⟨message, hm, rfl⟩ := h
  revert message
  decide

/-- Building on request, objects first and inputs once every message has its object: every request
can be met; no body is formed twice, and all that are formed stay; what is built is what the
requests lead to, and it is what is declared; and the declarations depend on the set of requests
alone as long as no namespace is a list. -/
theorem requests_build_their_closure_once (index : Options.Index)
    (described : List Descriptor.File) (files : List Source.File) (start : Mapping)
    (objects inputs : List String) (hw : Source.Wrapped index described files)
    (hcatalog : start.catalog = Catalog.ofFiles files)
    (hstart : ∀ mode, start.bodies mode = {} ∧ start.begun mode = [])
    (hforward : ∀ message ∈ start.catalog.messages.values, message.CountsForward)
    (hresolved : ∀ message ∈ start.catalog.messages.values, ¬ Unresolved files message)
    (hknown : ∀ name ∈ objects ++ inputs, KnownMessage files name)
    (hfirst : inputs ≠ [] → ∀ built middle, Calls start (requested objects []) built middle →
      ∀ name, KnownMessage files name → name ∈ middle.objects.keys) :
    ∃ built result, Calls start (requested objects inputs) built result ∧
      (built.map (·.1)).Nodup ∧
      (∀ request body, (request, body) ∈ built ↔
        (result.bodies request.mode).get? request.name = some body) ∧
      (∀ request, result.IsBuilt request ↔ ∃ first ∈ requested objects inputs,
        ReflTransGen (Request.LeadsTo start.catalog) first request) ∧
      (∀ request, result.IsBuilt request ↔ (result.declared? request).isSome = true) ∧
      (Source.SteadyNames index described → ∀ objects' inputs' built' result',
        (∀ request, request ∈ requested objects' inputs' ↔ request ∈ requested objects inputs) →
        Calls start (requested objects' inputs') built' result' →
        (∀ name, result'.messageTypes? name = result.messageTypes? name) ∧
        ∀ scalar, scalar ∈ result'.scalars ↔ scalar ∈ result.scalars) := by
  rw [hcatalog] at hforward hresolved ⊢
  have hnew : ∀ mode, start.bodies mode = {} := fun mode => (hstart mode).1
  have hstep : start.InStep := ⟨fun mode => by rw [(hstart mode).1, (hstart mode).2]; rfl⟩
  have hasked : ∀ request ∈ requested objects inputs, KnownMessage files request.name := by
    intro request hr
    rcases List.mem_append.mp hr with hr | hr
    · obtain ⟨name, hn, rfl⟩ := List.mem_map.mp hr
      exact hknown name (List.mem_append_left _ hn)
    · obtain ⟨name, hn, rfl⟩ := List.mem_map.mp hr
      exact hknown name (List.mem_append_right _ hn)
  obtain ⟨built, result, hcalls⟩ :=
    exists_calls hstep hw.placed hforward hresolved hcatalog (requested objects inputs)
  refine ⟨built, result, hcalls, hcalls.nodup_built hnew,
    fun request body => hcalls.mem_built_iff hnew,
    fun request => hcalls.isBuilt_iff hstep hresolved hcatalog hnew hasked, fun request => ?_,
    fun hsteady objects' inputs' built' result' hsame hcalls' => ?_⟩
  · apply isBuilt_iff_declared (hcalls.inStep hstep)
    intro name hn
    exact hcalls.objects_of_inputs hstep hw.placed hforward hresolved hcatalog hnew hasked hfirst hn
  · have hget := hcalls.get?_eq hstep hresolved hcatalog hnew hasked hsame hcalls'
    have hobjects : ∀ name, result'.objects.get? name = result.objects.get? name := hget .object
    have hinputs : ∀ name, result'.inputs.get? name = result.inputs.get? name := hget .input
    have hsettings : result'.settings = result.settings := by
      rw [hcalls.settings_eq, hcalls'.settings_eq]
    refine ⟨fun name => ?_, fun scalar => ?_⟩
    · rw [messageTypes?, messageTypes?, hobjects, Table.contains, hinputs]
      cases hb : result.objects.get? name with
      | none => rfl
      | some body =>
        have hof : bodyOf start.settings start.catalog name = .ok body :=
          hcalls.body_of_get? hnew .object hb
        rw [hcatalog] at hof
        exact congrArg some (types_eq hw hsteady hof hsettings _)
    · rw [mem_scalars (hcalls.nodup_keys (hnew .object)),
        mem_scalars (hcalls'.nodup_keys (hnew .object)), hsettings]
      simp only [hobjects]

/-- In the shop the input of one message is asked for twice, and its cycle does no harm. -/
theorem shop_requests_build_once :
    ∃ built result, Calls shopStart (requested shopStart.order [".shop.Line", ".shop.Line"])
        built result ∧
      (built.map (·.1)).Nodup ∧ result.IsBuilt ⟨.input, ".shop.Line"⟩ ∧
      (result.declared? ⟨.input, ".shop.Line"⟩).isSome = true := by
  have hstart : ∀ mode, shopStart.bodies mode = {} ∧ shopStart.begun mode = [] :=
    fun mode => by cases mode <;> exact ⟨rfl, rfl⟩
  have hall : ∀ request ∈ requested shopStart.order [],
      KnownMessage Source.shopSources request.name := by decide
  have hfirst : [".shop.Line", ".shop.Line"] ≠ [] → ∀ built middle,
      Calls shopStart (requested shopStart.order []) built middle →
      ∀ name, KnownMessage Source.shopSources name → name ∈ middle.objects.keys := by
    intro _ built middle hcalls name hname
    have hasked : ⟨.object, name⟩ ∈ requested shopStart.order [] := by
      simpa [requested] using shop_known hname
    have hbuilt : middle.IsBuilt ⟨.object, name⟩ := (hcalls.isBuilt_iff shopStart_inStep
      (fun message hm => (shop_resolved message hm).2) rfl (fun mode => (hstart mode).1) hall).mpr
      ⟨_, hasked, .refl⟩
    exact (hcalls.inStep shopStart_inStep).isBuilt_iff.mp hbuilt
  obtain ⟨built, result, hcalls, hnodup, -, hbuilt, hdeclared, -⟩ :=
    requests_build_their_closure_once Source.shopIndex Source.shop Source.shopSources shopStart
      shopStart.order [".shop.Line", ".shop.Line"] Source.shop_wrapped rfl hstart
      (fun message hm => (shop_resolved message hm).1)
      (fun message hm => (shop_resolved message hm).2) (by decide) hfirst
  have hline : result.IsBuilt ⟨.input, ".shop.Line"⟩ :=
    (hbuilt _).mpr ⟨⟨.input, ".shop.Line"⟩, by decide, .refl⟩
  exact ⟨built, result, hcalls, hnodup, hline, (hdeclared _).mp hline⟩

section Growing

/-- A file that is given a list as its namespace. -/
def growing : List Descriptor.File :=
  [{ name := "list.proto"
     messages := [
       { name := "A"
         fields := [{ name := "x", kind := .string, oneofIndex := some 0 }]
         oneofs := ["p"] },
       { name := "B"
         fields := [{ name := "y", kind := .string, oneofIndex := some 0 }]
         oneofs := ["q"] }] }]

def growingIndex : Options.Index :=
  { files := Table.ofList [("list.proto", { nameSpace := .list [.text "N"] })] }

def growingSources : List Source.File :=
  ((growing.zipIdx.mapM fun (file, position) =>
    Source.File.ofDescriptor growingIndex position file).toOption).getD []

def growingStart : Mapping :=
  { settings := {}
    catalog := Catalog.ofFiles growingSources
    order := [".A", ".B"]
    formed := [".A", ".B"].flatMap (messageFormed (Catalog.ofFiles growingSources)) }

private theorem growingStart_inStep : growingStart.InStep :=
  ⟨fun mode => by cases mode <;> rfl⟩

/-- A list with one text for each character. -/
def spelled (text : String) : Schema.TypeName :=
  .list (text.toList.map fun c => .text (String.singleton c))

/-- A mapping after a request for a message without references. -/
def afterLeaf (mapping : Mapping) (request : Request) : Mapping :=
  match bodyOf mapping.settings mapping.catalog request.name with
  | .error _ => mapping
  | .ok body => mapping.withBodies request.mode
      ((mapping.bodies request.mode).insert request.name body) [(request.name, body)]

/-- The requests are for messages without references, and none was met before. -/
def areLeaves (mapping : Mapping) : List Request → Bool
  | [] => true
  | request :: requests =>
    request.name ∈ mapping.catalog.messages.keys ∧
      request.name ∉ (mapping.bodies request.mode).keys ∧
      (bodyOf mapping.settings mapping.catalog request.name).isOk ∧
      (following mapping.catalog (references mapping.catalog request.mode) request.name).isEmpty ∧
      (mapping.afterLeaf request).areLeaves requests

private theorem calls_leaves {mapping : Mapping} {requests : List Request} (hs : mapping.InStep)
    (h : mapping.areLeaves requests = true) :
    ∃ built, Calls mapping requests built (requests.foldl afterLeaf mapping) := by
  induction requests generalizing mapping with
  | nil => exact ⟨[], .done mapping⟩
  | cons request requests ih =>
    simp only [areLeaves, decide_eq_true_eq] at h
    obtain ⟨hkey, hnew, hbody, hnext, hrest⟩ := h
    cases hof : bodyOf mapping.settings mapping.catalog request.name with
    | error fault => simp [hof, Except.isOk, Except.toBool] at hbody
    | ok body =>
      have hafter : mapping.afterLeaf request = mapping.withBodies request.mode
          ((mapping.bodies request.mode).insert request.name body) [(request.name, body)] := by
        rw [afterLeaf, hof]
      have hbodies : (mapping.afterLeaf request).bodies request.mode =
          (mapping.bodies request.mode).insert request.name body := by
        rw [hafter]
        cases request.mode <;> rfl
      have hwalk : mapping.Walks request.mode [request.name] (mapping.bodies request.mode)
          [(request.name, body)] ((mapping.afterLeaf request).bodies request.mode) := by
        rw [hbodies]
        refine .visit ⟨hkey, hnew⟩ hof ?_
        rw [List.isEmpty_iff.mp hnext]
        exact .done _
      have hbuild := (build_eq_ok hs).mpr ⟨_, _, hwalk, rfl⟩
      rw [hbodies, ← hafter] at hbuild
      obtain ⟨built, hcalls⟩ := ih (hafter ▸ hs.withBodies ..) hrest
      exact ⟨_, .call hbuild hwalk hcalls⟩

/-- Where a namespace is a list, the names depend on the order of the requests. -/
theorem growing_names_depend_on_the_order :
    Source.Wrapped growingIndex growing growingSources ∧
    (∀ message ∈ growingStart.catalog.messages.values,
      message.CountsForward ∧ ¬ Unresolved growingSources message) ∧
    (∃ built result, Calls growingStart (requested [".A", ".B"] [".A", ".B"]) built result ∧
      (result.messageTypes? ".A").map (·.object.name) = some (spelled
        "N_A_A_Input_B_B_Input_A_P_A_P_X_A_P_B_Q_B_Q_Y_B_Q_A_P_Input_A_P_Input_B_Q_Input_B_Q_Input")) ∧
    ∃ built result, Calls growingStart (requested [".A", ".B"] [".B", ".A"]) built result ∧
      (result.messageTypes? ".A").map (·.object.name) = some (spelled
        "N_A_A_Input_B_B_Input_A_P_A_P_X_A_P_B_Q_B_Q_Y_B_Q_B_Q_Input_B_Q_Input_A_P_Input_A_P_Input") := by
  refine ⟨rfl, by decide, ?_, ?_⟩
  · have hleaves : growingStart.areLeaves (requested [".A", ".B"] [".A", ".B"]) = true := by decide
    obtain ⟨built, hcalls⟩ := calls_leaves growingStart_inStep hleaves
    exact ⟨built, _, hcalls, by decide +kernel⟩
  · have hleaves : growingStart.areLeaves (requested [".A", ".B"] [".B", ".A"]) = true := by decide
    obtain ⟨built, hcalls⟩ := calls_leaves growingStart_inStep hleaves
    exact ⟨built, _, hcalls, by decide +kernel⟩

end Growing

end ProtoSdl.Mapping

import ProtoSdl.Proofs.CommentPaths

/-! Comments on statements that declare nothing, such as reserved numbers and options. Their paths
lead out of the tree of declarations, and they are passed over, except that a path with a single
number after that of a message ends the compilation. -/
namespace ProtoSdl.Source

namespace Notes

variable {file : Descriptor.File} {notes : Notes} {location : Descriptor.Location}
  {locations : List Descriptor.Location}

/-- The locations of a file, with indexes in range, of which no commented one stops short. -/
def Followable (file : Descriptor.File) (locations : List Descriptor.Location) : Prop :=
  ∀ location ∈ locations, (Tree.file file).inRange location.path = true ∧
    (location.isCommented = true → (Tree.file file).stopsShort location.path = false)

/-- A location that names no declaration is passed over. -/
theorem ofLocations_cons_of_stray (h : Followable file (location :: locations))
    (hd : declares file location.path = false) :
    ofLocations file notes (location :: locations) = ofLocations file notes locations := by
  obtain ⟨hr, hs⟩ := h location List.mem_cons_self
  cases hc : location.isCommented with
  | false => exact ofLocations_cons_of_not_commented notes hc locations
  | true => exact ofLocations_cons_of_ok notes hc (Address.inFile_of_stray hr (hs hc) hd) locations

private theorem ofLocations_filter (h : Followable file locations)
    {kept : Descriptor.Location → Bool}
    (hkept : ∀ location ∈ locations, kept location = false → declares file location.path = false) :
    ofLocations file notes (locations.filter kept) = ofLocations file notes locations := by
  induction locations generalizing notes with
  | nil => rfl
  | cons location locations ih =>
    have hrest : Followable file locations := fun other ho => h other (List.mem_cons_of_mem _ ho)
    have hnext : ∀ notes : Notes, ofLocations file notes (locations.filter kept) =
        ofLocations file notes locations :=
      fun _ => ih hrest fun other ho => hkept other (List.mem_cons_of_mem _ ho)
    cases hk : kept location with
    | false =>
      have hstray := hkept location List.mem_cons_self hk
      rw [List.filter_cons_of_neg (by simp [hk]), ofLocations_cons_of_stray h hstray, hnext]
    | true =>
      rw [List.filter_cons_of_pos hk, ofLocations, ofLocations]
      simp only [hnext]

theorem exists_ofLocations (h : Followable file locations) (notes : Notes) :
    ∃ result, ofLocations file notes locations = .ok result := by
  induction locations generalizing notes with
  | nil => exact ⟨notes, rfl⟩
  | cons location locations ih =>
    have hnext := ih fun other ho => h other (List.mem_cons_of_mem _ ho)
    obtain ⟨hr, hs⟩ := h location List.mem_cons_self
    cases hc : location.isCommented with
    | false =>
      rw [ofLocations_cons_of_not_commented notes hc]
      exact hnext notes
    | true =>
      obtain ⟨found, hfound⟩ := Address.exists_inFile hr (hs hc)
      rw [ofLocations_cons_of_ok notes hc hfound]
      exact hnext _

/-- The first commented location that stops short is fatal, whatever stands before it. -/
theorem ofLocations_of_stopsShort
    (hr : ∀ location ∈ locations, (Tree.file file).inRange location.path = true)
    (h : ∃ location ∈ locations, location.isCommented = true ∧
      (Tree.file file).stopsShort location.path = true) :
    ofLocations file notes locations = .error .indexOutOfRange := by
  induction locations generalizing notes with
  | nil =>
    obtain ⟨_, hm, -⟩ := h
    cases hm
  | cons first locations ih =>
    obtain ⟨location, hm, hbad⟩ := h
    have hfirst := hr first List.mem_cons_self
    have hrest := fun other ho => hr other (List.mem_cons_of_mem first ho)
    cases hc : first.isCommented with
    | false =>
      have hin : location ∈ locations :=
        (List.mem_cons.mp hm).resolve_left fun heq => by simp [← heq, hbad.1] at hc
      rw [ofLocations_cons_of_not_commented notes hc]
      exact ih hrest ⟨location, hin, hbad⟩
    | true =>
      cases hs : (Tree.file file).stopsShort first.path with
      | true => exact ofLocations_cons_of_error notes hc (Address.inFile_of_stopsShort hfirst hs) _
      | false =>
        have hin : location ∈ locations :=
          (List.mem_cons.mp hm).resolve_left fun heq => by simp [← heq, hbad.2] at hs
        obtain ⟨found, hfound⟩ := Address.exists_inFile hfirst hs
        rw [ofLocations_cons_of_ok notes hc hfound]
        exact ih hrest ⟨location, hin, hbad⟩

end Notes

/-- The comments of a file whose locations have indexes in range are read unless a commented
location has a path with a single number after that of a message. Then the locations whose paths are
not those of declarations can be left out without a change to the file as it is read. -/
theorem stray_comments_are_ignored (index : Options.Index) (position : Nat) (file : Descriptor.File)
    (hr : ∀ location ∈ file.locations, (Tree.file file).inRange location.path = true) :
    (Notes.ofFile file = .error .indexOutOfRange ↔ ∃ location ∈ file.locations,
      location.isCommented = true ∧ (Tree.file file).stopsShort location.path = true) ∧
    ((∀ location ∈ file.locations, location.isCommented = true →
        (Tree.file file).stopsShort location.path = false) →
      (∃ notes, Notes.ofFile file = .ok notes) ∧
      ∀ kept : Descriptor.Location → Bool,
        (∀ location ∈ file.locations, kept location = false →
          declares file location.path = false) →
        File.ofDescriptor index position { file with locations := file.locations.filter kept } =
          File.ofDescriptor index position file) := by
  have hfollowable : (∀ location ∈ file.locations, location.isCommented = true →
      (Tree.file file).stopsShort location.path = false) →
      Notes.Followable file file.locations :=
    fun hs location hm => ⟨hr location hm, hs location hm⟩
  refine ⟨⟨fun hfault => ?_, Notes.ofLocations_of_stopsShort hr⟩, fun hs => ?_⟩
  · refine Classical.byContradiction fun hnone => ?_
    have hs : ∀ location ∈ file.locations, location.isCommented = true →
        (Tree.file file).stopsShort location.path = false := fun location hm hc =>
      Bool.eq_false_iff.mpr fun hstops => hnone ⟨location, hm, hc, hstops⟩
    obtain ⟨notes, hnotes⟩ := Notes.exists_ofLocations (hfollowable hs) []
    cases hfault.symm.trans hnotes
  · refine ⟨Notes.exists_ofLocations (hfollowable hs) [], fun kept hkept => ?_⟩
    exact File.ofDescriptor_of_notes (Notes.ofLocations_filter (hfollowable hs) hkept)

/-- Comments on an option, a name and an extension range, between those of two declarations. -/
def straySample : Descriptor.File :=
  { kennel with
    locations := [
      { path := [4, 0], leading := " A pet." },
      { path := [4, 0, 7, 2, 1], leading := " An option." },
      { path := [4, 0, 3, 0, 2, 0, 1], trailing := " A name." },
      { path := [4, 0, 9], leading := "" },
      { path := [4, 0, 5, 0], leading := " A range." },
      { path := [3], leading := " An import." },
      { path := [5, 0, 2, 1], leading := " The keeper." }] }

theorem straySample_is_read : ∃ notes, Notes.ofFile straySample = .ok notes ∧
    File.ofDescriptor {} 0 { straySample with
      locations := straySample.locations.filter fun location =>
        declares straySample location.path } =
      File.ofDescriptor {} 0 straySample := by
  obtain ⟨-, h⟩ := stray_comments_are_ignored {} 0 straySample (by decide)
  obtain ⟨⟨notes, hnotes⟩, hkept⟩ := h (by decide)
  exact ⟨notes, hnotes, hkept _ fun _ _ hk => hk⟩

/-- A comment on the reserved numbers of a message. -/
def reservedSample : Descriptor.File :=
  { kennel with locations := [{ path := [4, 0, 9], leading := " Never used again." }] }

/-- The comment on the reserved numbers is in range and names no declaration, and the file cannot be
read because of it. -/
theorem reserved_comment_is_fatal :
    (∀ location ∈ reservedSample.locations,
      (Tree.file reservedSample).inRange location.path = true ∧
        declares reservedSample location.path = false) ∧
    Notes.ofFile reservedSample = .error .indexOutOfRange ∧
    File.ofDescriptor {} 0 reservedSample = .error (.defect .indexOutOfRange) ∧
    ∃ read, File.ofDescriptor {} 0 kennel = .ok read :=
  ⟨by decide, rfl, rfl, _, rfl⟩

end ProtoSdl.Source

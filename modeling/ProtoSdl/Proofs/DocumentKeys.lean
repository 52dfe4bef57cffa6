import ProtoSdl.Json.Reader
import ProtoSdl.Proofs.Outcomes
import ProtoSdl.Proofs.Tables

/-! The keys of objects in documents. A document that was read from a text has each key of an object
once, since a repeated key sets its entry anew. -/
namespace ProtoSdl.Json

open Outcome

/-- A value in which every object has each of its keys once. -/
inductive KeysApart : Json → Prop
  | null : KeysApart .null
  | bool (value : Bool) : KeysApart (.bool value)
  | int (value : Int) : KeysApart (.int value)
  | decimal (value : Decimal) : KeysApart (.decimal value)
  | text (value : String) : KeysApart (.text value)
  | list {items : List Json} (h : ∀ item ∈ items, KeysApart item) : KeysApart (.list items)
  | object {entries : List (String × Json)} (hkeys : (entries.map (·.1)).Nodup)
      (h : ∀ entry ∈ entries, KeysApart entry.2) : KeysApart (.object entries)

theorem KeysApart.list_nil : KeysApart (.list []) := .list (by simp)

theorem KeysApart.object_nil : KeysApart (.object []) := .object List.nodup_nil (by simp)

/-- The entries of an object are looked up as those of a table. -/
theorem entry?_eq_get? (key : String) (entries : List (String × Json)) :
    entry? key entries = (⟨entries⟩ : Table Json).get? key := by
  induction entries with
  | nil => rfl
  | cons entry entries ih => exact if_congr Iff.rfl rfl ih

theorem entry?_eq_some_iff {entries : List (String × Json)} (h : (entries.map (·.1)).Nodup)
    {key : String} {value : Json} : entry? key entries = some value ↔ (key, value) ∈ entries := by
  rw [entry?_eq_get?]
  exact Table.get?_eq_some_iff h

private theorem setEntry_eq_insert (key : String) (value : Json) (entries : List (String × Json)) :
    setEntry key value entries = ((⟨entries⟩ : Table Json).insert key value).entries := by
  induction entries with
  | nil => rfl
  | cons entry entries ih => exact if_congr Iff.rfl rfl (congrArg (entry :: ·) ih)

theorem KeysApart.setEntry {entries : List (String × Json)} (h : KeysApart (.object entries))
    {value : Json} (hvalue : KeysApart value) (key : String) :
    KeysApart (.object (setEntry key value entries)) := by
  cases h with
  | object hkeys hentries =>
    have hnodup : ((Json.setEntry key value entries).map (·.1)).Nodup := by
      rw [setEntry_eq_insert]
      exact Table.nodup_keys_insert hkeys key value
    refine .object hnodup fun entry hentry => ?_
    have hfound := (entry?_eq_some_iff hnodup).mpr hentry
    rw [entry?_eq_get?, setEntry_eq_insert] at hfound
    replace hfound := (Table.get?_insert _ _ _ _).symm.trans hfound
    split at hfound
    · cases hfound
      exact hvalue
    · exact hentries entry (Table.mem_entries_of_get? hfound)

/-! ### Reading -/

/-- What is read, if anything is, has its keys apart. -/
def ReadsApart (outcome : Except Stop (Option Json × List Char)) : Prop :=
  ∀ value rest, outcome = .ok (some value, rest) → KeysApart value

theorem ReadsApart.error (stop : Stop) : ReadsApart (.error stop) := by
  intro value rest h
  cases h

theorem ReadsApart.ok {value? : Option Json} (h : ∀ value ∈ value?, KeysApart value)
    (rest : List Char) : ReadsApart (.ok (value?, rest)) := by
  intro other after heq
  cases heq
  exact h other rfl

theorem ReadsApart.bind {α : Type} {first : Except Stop α}
    {next : α → Except Stop (Option Json × List Char)}
    (h : ∀ a, first = .ok a → ReadsApart (next a)) : ReadsApart (first >>= next) := by
  intro value rest heq
  obtain ⟨a, ha, heq⟩ := bind_eq_ok.mp heq
  exact h a ha value rest heq

private theorem keysApart_of_readNumber {cs rest : List Char} {value : Json}
    (h : readNumber cs = .ok (value, rest)) : KeysApart value := by
  unfold readNumber at h
  simp only at h
  split at h
  · cases h
  · split at h
    · cases h
      exact .decimal _
    · split at h
      · cases h
      · cases h
        exact .int _

private theorem keysApart_of_readScalar {cs rest : List Char} {value : Json}
    (h : readScalar cs = .ok (value, rest)) : KeysApart value := by
  unfold readScalar at h
  simp only at h
  split at h
  · rename_i found hfound
    obtain ⟨entry, hentry, hvalue⟩ := List.exists_of_findSome?_eq_some hfound
    obtain ⟨after, -, rfl⟩ := Option.map_eq_some_iff.mp hvalue
    cases h
    have hwords : ∀ entry ∈ wordValues, KeysApart entry.2 := by
      simp [wordValues, KeysApart.null, KeysApart.bool, KeysApart.decimal]
    exact hwords entry hentry
  · exact keysApart_of_readNumber h

section Step

variable {fuel : Nat} (hvalue : ∀ levels cs, ReadsApart (readValue levels fuel cs))
  (hitems : ∀ levels items? cs, (∀ items ∈ items?, KeysApart (.list items)) →
    ReadsApart (readItems levels fuel items? cs))
  (hentries : ∀ levels entries? cs, (∀ entries ∈ entries?, KeysApart (.object entries)) →
    ReadsApart (readEntries levels fuel entries? cs))

include hvalue hitems in
private theorem readsApart_readItems (levels : Nat) {items? : Option (List Json)} (cs : List Char)
    (h : ∀ items ∈ items?, KeysApart (.list items)) :
    ReadsApart (readItems levels (fuel + 1) items? cs) := by
  unfold readItems
  refine .bind fun ⟨item?, rest⟩ hfound => ?_
  have hmore : ∀ items ∈ (do return (← item?) :: (← items?)), KeysApart (.list items) := by
    intro items hm
    obtain ⟨item, hitem, hm⟩ := Option.bind_eq_some_iff.mp hm
    obtain ⟨others, hothers, hm⟩ := Option.bind_eq_some_iff.mp hm
    cases hm
    subst hitem
    cases h others hothers with
    | list h => exact .list (List.forall_mem_cons.mpr ⟨hvalue _ _ _ _ hfound, h⟩)
  simp only
  split
  · refine .ok (fun value hm => ?_) _
    obtain ⟨items, hitems, rfl⟩ := Option.map_eq_some_iff.mp hm
    cases hmore items hitems with
    | list h => exact .list fun item hitem => h item (List.mem_reverse.mp hitem)
  · exact hitems _ _ _ hmore
  · exact .error _

include hvalue hentries in
private theorem readsApart_readEntries (levels : Nat) {entries? : Option (List (String × Json))}
    (cs : List Char) (h : ∀ entries ∈ entries?, KeysApart (.object entries)) :
    ReadsApart (readEntries levels (fuel + 1) entries? cs) := by
  unfold readEntries
  split
  · refine .bind fun ⟨key?, rest⟩ _ => ?_
    simp only
    split
    · refine .bind fun ⟨value?, rest⟩ hfound => ?_
      have hmore : ∀ entries ∈ (do return setEntry (← key?) (← value?) (← entries?)),
          KeysApart (.object entries) := by
        intro entries hm
        obtain ⟨key, -, hm⟩ := Option.bind_eq_some_iff.mp hm
        obtain ⟨value, hread, hm⟩ := Option.bind_eq_some_iff.mp hm
        obtain ⟨others, hothers, hm⟩ := Option.bind_eq_some_iff.mp hm
        cases hm
        subst hread
        exact (h others hothers).setEntry (hvalue _ _ _ _ hfound) key
      simp only
      split
      · refine .ok (fun value hm => ?_) _
        obtain ⟨entries, hentries, rfl⟩ := Option.map_eq_some_iff.mp hm
        exact hmore entries hentries
      · exact hentries _ _ _ hmore
      · exact .error _
    · exact .error _
  · exact .error _

include hitems hentries in
private theorem readsApart_readValue (levels : Nat) (cs : List Char) :
    ReadsApart (readValue levels (fuel + 1) cs) := by
  unfold readValue
  split
  · refine .bind fun ⟨text?, rest⟩ _ => .ok (fun value hm => ?_) _
    obtain ⟨text, -, rfl⟩ := Option.map_eq_some_iff.mp hm
    exact .text text
  · split
    · exact .error _
    · split
      · exact .ok (by simp [KeysApart.object_nil]) _
      · exact hentries _ _ _ (by simp [KeysApart.object_nil])
  · split
    · exact .error _
    · split
      · exact .ok (by simp [KeysApart.list_nil]) _
      · exact hitems _ _ _ (by simp [KeysApart.list_nil])
  · intro value rest h
    obtain ⟨⟨found, after⟩, hfound, heq⟩ := map_eq_ok.mp h
    cases heq
    exact keysApart_of_readScalar hfound

end Step

private theorem readsApart (fuel : Nat) :
    (∀ levels cs, ReadsApart (readValue levels fuel cs)) ∧
    (∀ levels items? cs, (∀ items ∈ items?, KeysApart (.list items)) →
      ReadsApart (readItems levels fuel items? cs)) ∧
    (∀ levels entries? cs, (∀ entries ∈ entries?, KeysApart (.object entries)) →
      ReadsApart (readEntries levels fuel entries? cs)) := by
  induction fuel with
  | zero =>
    refine ⟨fun levels cs => ?_, fun levels items cs _ => ?_, fun levels entries cs _ => ?_⟩
    · rw [readValue]
      exact .error _
    · rw [readItems]
      exact .error _
    · rw [readEntries]
      exact .error _
  | succ fuel ih =>
    obtain ⟨hvalue, hitems, hentries⟩ := ih
    exact ⟨readsApart_readValue hitems hentries,
      fun levels _ cs h => readsApart_readItems hvalue hitems levels cs h,
      fun levels _ cs h => readsApart_readEntries hvalue hentries levels cs h⟩

/-- A document that was read from a text has the keys of its objects apart. -/
theorem keysApart_of_ofText {source : String} {limit : Option Nat} {document : Json}
    (h : ofText source limit = .ok document) : KeysApart document := by
  have hread := mapError_eq_ok.mp h
  unfold readDocument at hread
  split at hread
  · cases hread
  · obtain ⟨⟨value?, rest⟩, hfound, hread⟩ := bind_eq_ok.mp hread
    simp only at hread
    split at hread
    · cases hread
      exact (readsApart _).1 _ _ _ _ hfound
    · cases hread
    · cases hread

end ProtoSdl.Json

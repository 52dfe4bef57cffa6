import Mathlib.Data.List.Basic
import ProtoSdl.Options.Reference

/-! Texts of foreign keys and loaders. A text is read if it has the right number of colons, and what
was read joins again to the text, with a dot in front if it had none. So a text is known from its
reading up to that dot. -/
namespace ProtoSdl.Options

def ForeignKey.parts (key : ForeignKey) : List String :=
  [key.target, key.fieldName]

/-- The parts of a loader between the colons of its text, with its paths joined by dots. -/
def Loader.parts (loader : Loader) : List String :=
  [loader.target, ".".intercalate loader.requestPath, ".".intercalate loader.responsePath,
    ".".intercalate loader.keyPath]

structure ForeignKey.IsPlain (key : ForeignKey) : Prop where
  target : ':' ∉ key.target.toList
  fieldName : ':' ∉ key.fieldName.toList

/-- A path as it is read: it has elements, and no separator in them. -/
structure IsPath (path : List String) : Prop where
  ne_nil : path ≠ []
  colon_not_mem : ∀ element ∈ path, ':' ∉ element.toList
  dot_not_mem : ∀ element ∈ path, '.' ∉ element.toList

structure Loader.IsPlain (loader : Loader) : Prop where
  target : ':' ∉ loader.target.toList
  requestPath : IsPath loader.requestPath
  responsePath : IsPath loader.responsePath
  keyPath : IsPath loader.keyPath

/-- The texts are the same, or one is the other with a dot in front that it had not. -/
def SameUpToDot (text other : String) : Prop :=
  text = other ∨ (text.toList.head? ≠ some '.' ∧ other = "." ++ text) ∨
    (other.toList.head? ≠ some '.' ∧ text = "." ++ other)

/-- Texts with the given number of colons are read and others refused. What is read is plain, its
parts join to the text with a dot in front, and no other text is read so but up to that dot. -/
structure ReadsExactly {α : Type} (read : String → Except Error (Option α)) (colons : Nat)
    (refusal : String → Error) (IsPlain : α → Prop) (parts : α → List String) : Prop where
  succeeds_iff : ∀ text, text ≠ "" →
    ((∃ value, read text = .ok (some value)) ↔ text.toList.count ':' = colons)
  refuses : ∀ text, text ≠ "" → text.toList.count ':' ≠ colons → read text = .error (refusal text)
  plain : ∀ text value, read text = .ok (some value) → IsPlain value
  joins : ∀ text value, read text = .ok (some value) →
    ":".intercalate (parts value) = if text.toList.head? = some '.' then text else "." ++ text
  same_iff : ∀ text other value, read text = .ok (some value) →
    (read other = .ok (some value) ↔ SameUpToDot text other)

theorem split_colon_iff {text : String} {parts : List String} : Text.split ':' text = parts ↔
    parts ≠ [] ∧ (∀ part ∈ parts, ':' ∉ part.toList) ∧ ":".intercalate parts = text :=
  Text.split_eq_iff rfl

theorem split_dot_iff {text : String} {path : List String} : Text.split '.' text = path ↔
    path ≠ [] ∧ (∀ element ∈ path, '.' ∉ element.toList) ∧ ".".intercalate path = text :=
  Text.split_eq_iff rfl

/-! ### Qualified names -/

theorem toList_qualify (name : String) : (qualify name).toList =
    if name.toList.head? = some '.' then name.toList else '.' :: name.toList := by
  unfold qualify
  split <;> simp

private theorem colon_mem_qualify {name : String} :
    ':' ∈ (qualify name).toList ↔ ':' ∈ name.toList := by
  rw [toList_qualify]
  split <;> simp

private theorem qualify_eq_qualify_iff {text other : String} :
    qualify text = qualify other ↔ SameUpToDot text other := by
  have hdot : ∀ name : String, ("." ++ name).toList.head? = some '.' := by simp
  have hcancel : "." ++ text = "." ++ other ↔ text = other := by
    simp [← String.toList_inj]
  unfold qualify SameUpToDot
  split <;> split <;> grind

/-- A text is qualified at its first part: behind an empty part no dot follows, but a colon. -/
theorem qualify_intercalate (name : String) (parts : List String) :
    qualify (":".intercalate (name :: parts)) = ":".intercalate (qualify name :: parts) := by
  have hcolon : ":".toList = [':'] := rfl
  rw [← String.toList_inj, toList_qualify, String.toList_intercalate, String.toList_intercalate,
    hcolon, List.map_cons, List.map_cons, Text.intercalate_cons_eq, Text.intercalate_cons_eq,
    toList_qualify]
  cases hname : name.toList with
  | nil => cases parts <;> simp
  | cons c cs => split <;> simp_all

theorem split_qualify {text name : String} {parts : List String}
    (h : Text.split ':' text = name :: parts) :
    Text.split ':' (qualify text) = qualify name :: parts := by
  obtain ⟨-, hplain, hjoined⟩ := split_colon_iff.mp h
  obtain ⟨hname, hparts⟩ := List.forall_mem_cons.mp hplain
  refine split_colon_iff.mpr ⟨List.cons_ne_nil _ _, ?_, ?_⟩
  · exact List.forall_mem_cons.mpr ⟨mt colon_mem_qualify.mp hname, hparts⟩
  · rw [← qualify_intercalate, hjoined]

/-- The parts of a qualified text are those of the text, with the first of them qualified. -/
theorem exists_split_of_qualify {text target : String} {parts : List String}
    (h : Text.split ':' (qualify text) = target :: parts) :
    ∃ name, Text.split ':' text = name :: parts ∧ qualify name = target := by
  cases hsplit : Text.split ':' text with
  | nil => exact absurd rfl (split_colon_iff.mp hsplit).1
  | cons name rest =>
    obtain ⟨htarget, hparts⟩ := List.cons.inj ((split_qualify hsplit).symm.trans h)
    exact ⟨name, by rw [hparts], htarget⟩

/-- What an exact reading comes from: it fails on a wrong number of colons alone, and it gives the
plain value whose parts the qualified text has. -/
theorem readsExactly_of {α : Type} {read : String → Except Error (Option α)} {colons : Nat}
    {refusal : String → Error} {IsPlain : α → Prop} {parts : α → List String}
    (hcases : ∀ text, text ≠ "" →
      (∃ value, read text = .ok (some value)) ∧ text.toList.count ':' = colons ∨
        read text = .error (refusal text) ∧ text.toList.count ':' ≠ colons)
    (hok : ∀ text value, read text = .ok (some value) ↔
      IsPlain value ∧ Text.split ':' (qualify text) = parts value) :
    ReadsExactly read colons refusal IsPlain parts := by
  have hjoins : ∀ text value, read text = .ok (some value) →
      ":".intercalate (parts value) = qualify text := fun text value h =>
    (split_colon_iff.mp ((hok text value).mp h).2).2.2
  refine ⟨fun text hne => ?_, fun text hne hcount => ?_, fun text value h => ((hok _ _).mp h).1,
    hjoins, fun text other value h => ?_⟩
  · rcases hcases text hne with ⟨hread, hcount⟩ | ⟨herror, hcount⟩
    · exact iff_of_true hread hcount
    · refine iff_of_false ?_ hcount
      rintro ⟨value, hread⟩
      rw [herror] at hread
      cases hread
  · rcases hcases text hne with ⟨-, hcolons⟩ | ⟨herror, -⟩
    · exact absurd hcolons hcount
    · exact herror
  · rw [← qualify_eq_qualify_iff]
    constructor
    · intro hother
      rw [← hjoins text value h, ← hjoins other value hother]
    · intro hsame
      rw [hok] at h ⊢
      rwa [← hsame]

/-! ### Foreign keys -/

theorem ForeignKey.ofText_cases {text : String} (h : text ≠ "") :
    (∃ key, ForeignKey.ofText text = .ok (some key)) ∧ text.toList.count ':' = 1 ∨
      ForeignKey.ofText text = .error (.badForeignKey text) ∧ text.toList.count ':' ≠ 1 := by
  have hlength := Text.length_split ':' text
  rw [ForeignKey.ofText, if_neg h]
  split
  · rename_i hsplit
    rw [hsplit] at hlength
    exact .inl ⟨⟨_, rfl⟩, by simpa using hlength.symm⟩
  · rename_i hsplit
    refine .inr ⟨rfl, fun hcount => ?_⟩
    rw [hcount] at hlength
    obtain ⟨target, fieldName, heq⟩ := List.length_eq_two.mp hlength
    exact hsplit target fieldName heq

theorem ForeignKey.ofText_eq_ok_iff (text : String) (key : ForeignKey) :
    ForeignKey.ofText text = .ok (some key) ↔
      key.IsPlain ∧ Text.split ':' (qualify text) = key.parts := by
  constructor
  · intro h
    unfold ForeignKey.ofText at h
    split at h
    · cases h
    · split at h
      · rename_i target fieldName hsplit
        cases h
        have hparts := split_qualify hsplit
        obtain ⟨-, hplain, -⟩ := split_colon_iff.mp hparts
        exact ⟨⟨hplain _ (by simp), hplain _ (by simp)⟩, hparts⟩
      · cases h
  · rintro ⟨-, h⟩
    obtain ⟨name, hsplit, htarget⟩ := exists_split_of_qualify h
    have hne : text ≠ "" := by
      rintro rfl
      cases hsplit
    rw [ForeignKey.ofText, if_neg hne, hsplit]
    simp only [htarget]

/-! ### Loaders -/

private theorem isPath_split {part : String} (h : ':' ∉ part.toList) :
    IsPath (Text.split '.' part) := by
  obtain ⟨hne, hdot, -⟩ := split_dot_iff.mp (Eq.refl (Text.split '.' part))
  refine ⟨hne, fun element helement hcolon => h ?_, hdot⟩
  obtain ⟨piece, hpiece, rfl⟩ := List.mem_map.mp helement
  rw [String.toList_ofList] at hcolon
  exact Text.mem_of_mem_splitChars hpiece hcolon

private theorem intercalate_split (part : String) : ".".intercalate (Text.split '.' part) = part :=
  (split_dot_iff.mp rfl).2.2

theorem IsPath.split_intercalate {path : List String} (h : IsPath path) :
    Text.split '.' (".".intercalate path) = path :=
  Text.split_intercalate rfl h.ne_nil h.dot_not_mem

theorem Loader.ofText_cases (many : Bool) {text : String} (h : text ≠ "") :
    (∃ loader, Loader.ofText many text = .ok (some loader)) ∧ text.toList.count ':' = 3 ∨
      Loader.ofText many text = .error (.badLoader text) ∧ text.toList.count ':' ≠ 3 := by
  have hlength := Text.length_split ':' text
  rw [Loader.ofText, if_neg h]
  split
  · rename_i hsplit
    rw [hsplit] at hlength
    exact .inl ⟨⟨_, rfl⟩, by simpa using hlength.symm⟩
  · rename_i hsplit
    refine .inr ⟨rfl, fun hcount => ?_⟩
    rw [hcount] at hlength
    obtain ⟨target, request, response, key, heq⟩ := List.length_eq_four.mp hlength
    exact hsplit target request response key heq

theorem Loader.ofText_eq_ok_iff (many : Bool) (text : String) (loader : Loader) :
    Loader.ofText many text = .ok (some loader) ↔
      (loader.many = many ∧ loader.IsPlain) ∧ Text.split ':' (qualify text) = loader.parts := by
  constructor
  · intro h
    unfold Loader.ofText at h
    split at h
    · cases h
    · split at h
      · rename_i target request response key hsplit
        cases h
        have hparts := split_qualify hsplit
        obtain ⟨-, hplain, -⟩ := split_colon_iff.mp hparts
        refine ⟨⟨rfl, hplain _ (by simp), isPath_split (hplain _ (by simp)),
          isPath_split (hplain _ (by simp)), isPath_split (hplain _ (by simp))⟩, ?_⟩
        simp only [Loader.parts, intercalate_split]
        exact hparts
      · cases h
  · rintro ⟨⟨rfl, hplain⟩, h⟩
    obtain ⟨name, hsplit, htarget⟩ := exists_split_of_qualify h
    have hne : text ≠ "" := by
      rintro rfl
      cases hsplit
    rw [Loader.ofText, if_neg hne, hsplit]
    simp only [htarget, hplain.requestPath.split_intercalate,
      hplain.responsePath.split_intercalate, hplain.keyPath.split_intercalate]

/-- The texts of foreign keys and of loaders are read exactly. -/
theorem reference_texts_are_read_exactly :
    ReadsExactly ForeignKey.ofText 1 .badForeignKey ForeignKey.IsPlain ForeignKey.parts ∧
      ∀ many, ReadsExactly (Loader.ofText many) 3 .badLoader
        (fun loader => loader.many = many ∧ loader.IsPlain) Loader.parts :=
  ⟨readsExactly_of (fun _ h => ForeignKey.ofText_cases h) ForeignKey.ofText_eq_ok_iff,
    fun many => readsExactly_of (fun _ h => Loader.ofText_cases many h)
      (Loader.ofText_eq_ok_iff many)⟩

/-- A loader with empty elements, read with and without the dot in front, and a text of none. -/
theorem user_loader_is_read_exactly :
    (∃ loader, Loader.ofText true "acme.User:a..b::id." = .ok (some loader) ∧
      loader.requestPath = ["a", "", "b"] ∧ loader.responsePath = [""] ∧ loader.IsPlain ∧
      ":".intercalate loader.parts = ".acme.User:a..b::id." ∧
      Loader.ofText true ".acme.User:a..b::id." = .ok (some loader)) ∧
    Loader.ofText true "acme.User:a" = .error (.badLoader "acme.User:a") := by
  have hexact := reference_texts_are_read_exactly.2 true
  have hread : Loader.ofText true "acme.User:a..b::id." = .ok (some
      { target := ".acme.User", many := true, requestPath := ["a", "", "b"], responsePath := [""]
        keyPath := ["id", ""] }) := rfl
  refine ⟨⟨_, hread, rfl, rfl, (hexact.plain _ _ hread).2, hexact.joins _ _ hread, ?_⟩, ?_⟩
  · exact (hexact.same_iff _ _ _ hread).mpr (.inr (.inl ⟨by decide, rfl⟩))
  · exact hexact.refuses _ (by decide) (by decide)

end ProtoSdl.Options

import Mathlib.Data.Set.Operations
import ProtoSdl.Proofs.PathNames

/-! Camel case as a normal form: which texts are the camel case of a text. A lower-case letter is
kept only inside a word, and no word goes on over an underscore or a digit. -/
namespace ProtoSdl.Name

/-- A text in camel case: it does not begin with an underscore, and a lower-case letter stands
neither at its start nor right after an underscore or a digit. -/
structure IsCamelCase (cs : List Char) : Prop where
  first : ∀ c ∈ cs.head?, c ≠ '_' ∧ c.isLower = false
  follows : cs.IsChain Follows

instance : DecidableRel Follows := fun _ _ => inferInstanceAs (Decidable (_ → _))

theorem Follows.of_not_isLower {before c : Char} (h : c.isLower = false) : Follows before c := by
  intro hlower
  simp [h] at hlower

private theorem isDigit_toUpper {c : Char} (h : c.isDigit = false) : c.toUpper.isDigit = false := by
  rcases toUpper_cases c with ⟨-, hupper, -⟩ | ⟨-, hsame⟩
  · exact isDigit_of_isAlpha (isAlpha_of_isUpper hupper)
  · rwa [hsame]

theorem eq_underscore_of_toUpper {c : Char} (h : c.toUpper = '_') : c = '_' := by
  rcases toUpper_cases c with ⟨-, hupper, -⟩ | ⟨-, hsame⟩
  · rw [h] at hupper
    contradiction
  · rwa [hsame] at h

/-- What follows a character goes on with its word only where one may go on: not after a digit, and
not after an underscore, which was kept because no lower-case letter stands behind it. -/
theorem isChain_camelTail {before : Char} {inWord : Bool} {cs : List Char}
    (h : inWord = true → before.isDigit = false ∧
      (before = '_' → cs.head?.any Char.isLower = false)) :
    (before :: camelTail inWord cs).IsChain Follows := by
  induction cs generalizing before inWord with
  | nil => exact .singleton before
  | cons c cs ih =>
    rw [camelTail]
    split
    · -- The letter goes on with a word.
      rename_i hword
      obtain ⟨hin, hlower⟩ := Bool.and_eq_true_iff.mp hword
      obtain ⟨hdigit, hunderscore⟩ := h hin
      refine List.isChain_cons_cons.mpr ⟨fun _ => ⟨fun heq => ?_, hdigit⟩, ih fun _ => ⟨?_, ?_⟩⟩
      · simpa [hlower] using hunderscore heq
      · exact isDigit_of_isAlpha (isAlpha_of_isLower hlower)
      · rintro rfl
        contradiction
    · split
      · -- The underscore is dropped, and the letter behind it begins a word.
        exact ih fun hin => by contradiction
      · rename_i hkept
        split
        · rename_i hdigit
          have hlower : c.isLower = false := by grind [isLower_eq, Char.isDigit]
          exact List.isChain_cons_cons.mpr
            ⟨.of_not_isLower hlower, ih fun hin => by contradiction⟩
        · rename_i hdigit
          refine List.isChain_cons_cons.mpr
            ⟨.of_not_isLower (isLower_toUpper c), ih fun _ => ⟨?_, fun heq => ?_⟩⟩
          · exact isDigit_toUpper (by simpa using hdigit)
          · simpa [eq_underscore_of_toUpper heq] using hkept

/-- Where no underscore stands in front, the first character is kept or raised. -/
theorem head?_camelTail {c : Char} (cs : List Char) (h : c ≠ '_') :
    (camelTail false (c :: cs)).head? = some (if c.isDigit then c else c.toUpper) := by
  cases hdigit : c.isDigit <;> simp [camelTail, h, hdigit]

private theorem isCamelCase_camelCase (cs : List Char) : IsCamelCase (camelCase cs) := by
  unfold camelCase
  split
  · exact ⟨by simp, isChain_camelTail fun hin => by contradiction⟩
  · rename_i hstart
    -- No lower-case letter may follow an underscore, so none is at the start of what may.
    have hchain : ('_' :: camelTail false cs).IsChain Follows :=
      isChain_camelTail fun hin => by contradiction
    refine ⟨fun first hfirst => ⟨?_, ?_⟩, hchain.tail⟩
    · cases cs with
      | nil => cases hfirst
      | cons c cs =>
        have hc : c ≠ '_' := fun heq => hstart cs (by rw [heq])
        rw [head?_camelTail cs hc] at hfirst
        cases hfirst
        split
        · exact hc
        · exact fun heq => hc (eq_underscore_of_toUpper heq)
    · obtain ⟨rest, hrest⟩ := List.head?_eq_some_iff.mp hfirst
      rw [hrest] at hchain
      have hfollows := (List.isChain_cons_cons.mp hchain).1
      exact Bool.eq_false_iff.mpr fun hlower => (hfollows hlower).1 rfl

/-- Camel case is a normal form: every camel case has it, and a text that has it is its own. So the
camel cases are exactly the texts of this form. -/
theorem camelCase_is_normal_form :
    (∀ cs, IsCamelCase (camelCase cs)) ∧ (∀ cs, IsCamelCase cs → camelCase cs = cs) ∧
      (∀ cs, camelCase (camelCase cs) = camelCase cs) ∧
      Set.range camelCase = { cs | IsCamelCase cs } := by
  have hfixed : ∀ cs, IsCamelCase cs → camelCase cs = cs := fun cs h =>
    camelCase_eq_self h.first h.follows
  refine ⟨isCamelCase_camelCase, hfixed, fun cs => hfixed _ (isCamelCase_camelCase cs), ?_⟩
  ext cs
  constructor
  · rintro ⟨source, rfl⟩
    exact isCamelCase_camelCase source
  · intro h
    exact ⟨cs, hfixed cs h⟩

theorem field_name_is_in_camel_case :
    IsCamelCase "XMyFieldName_2".toList ∧
      camelCase "XMyFieldName_2".toList = "XMyFieldName_2".toList :=
  have h : IsCamelCase "XMyFieldName_2".toList := ⟨by simp, by decide⟩
  ⟨h, camelCase_is_normal_form.2.1 _ h⟩

end ProtoSdl.Name

import ProtoSdl.Fault
import ProtoSdl.Proofs.Outcomes

/-! Outcomes and the causes of their defects. A cause is stated for each step of a chain, and the
causes of the whole chain are those of its steps. -/
namespace ProtoSdl.Outcome

/-- A defect comes from nothing but the cause, and where the cause is there is no result. Whether
there is a defect is left open by the cause: a diagnostic may come before it. -/
structure Blames {α : Type} (outcome : Except Fault α) (cause : Prop) : Prop where
  of_defect : ∀ defect, outcome = .error (.defect defect) → cause
  not_ok : cause → ∀ result, outcome ≠ .ok result

namespace Blames

variable {ε α β : Type} {p q : Prop} {x : Except Fault α}

theorem congr (h : Blames x p) (hpq : p ↔ q) : Blames x q :=
  ⟨fun defect hx => hpq.mp (h.of_defect defect hx), fun hq => h.not_ok (hpq.mpr hq)⟩

theorem ok (hp : ¬ p) (result : α) : Blames (.ok result) p :=
  ⟨fun _ h => (by cases h), fun hcause => absurd hcause hp⟩

theorem error (hp : p) (fault : Fault) : Blames (.error fault : Except Fault α) p :=
  ⟨fun _ _ => hp, fun _ _ h => (by cases h)⟩

/-- Without defects there is nothing to blame. -/
theorem of_no_defect (h : ∀ defect, x ≠ .error (.defect defect)) : Blames x False :=
  ⟨fun defect hx => h defect hx, False.elim⟩

/-- The causes of two steps, where the second does not look at what the first gives. -/
theorem bind_or {f : α → Except Fault β} (h : Blames x p)
    (hf : ∀ a, x = .ok a → Blames (f a) q) : Blames (x >>= f) (p ∨ q) := by
  constructor
  · intro defect hfault
    rcases bind_eq_error.mp hfault with hx | ⟨a, hx, ha⟩
    · exact .inl (h.of_defect defect hx)
    · exact .inr ((hf a hx).of_defect defect ha)
  · rintro hcause result hok
    obtain ⟨a, hx, ha⟩ := bind_eq_ok.mp hok
    exact hcause.elim (fun hp => h.not_ok hp a hx) fun hq => (hf a hx).not_ok hq result ha

/-- The causes of two steps, of which the second takes what the first gives. -/
theorem bind {f : α → Except Fault β} {q : α → Prop} (h : Blames x p)
    (hf : ∀ a, x = .ok a → Blames (f a) (q a)) :
    Blames (x >>= f) (p ∨ ∃ a, x = .ok a ∧ q a) := by
  refine h.bind_or fun a hx => (hf a hx).congr ⟨fun hq => ⟨a, hx, hq⟩, ?_⟩
  rintro ⟨b, hb, hq⟩
  cases hx.symm.trans hb
  exact hq

theorem bind_left {f : α → Except Fault β} (h : Blames x p)
    (hf : ∀ a, x = .ok a → Blames (f a) False) : Blames (x >>= f) p :=
  (h.bind_or hf).congr (or_iff_left id)

theorem bind_right {f : α → Except Fault β} (h : Blames x False)
    (hf : ∀ a, x = .ok a → Blames (f a) q) : Blames (x >>= f) q :=
  (h.bind_or hf).congr (or_iff_right id)

theorem mapM {f : α → Except Fault β} {cause : α → Prop} {items : List α}
    (h : ∀ item ∈ items, Blames (f item) (cause item)) :
    Blames (items.mapM f) (∃ item ∈ items, cause item) := by
  constructor
  · intro defect hfault
    obtain ⟨item, hi, hf⟩ := fault_of_mapM hfault
    exact ⟨item, hi, (h item hi).of_defect defect hf⟩
  · rintro ⟨item, hi, hcause⟩ results hok
    obtain ⟨result, -, hf⟩ := exists_of_mem_mapM hok hi
    exact (h item hi).not_ok hcause result hf

theorem mapError {fault : ε → Fault} (h : ∀ error defect, fault error ≠ .defect defect)
    (y : Except ε α) : Blames (y.mapError fault) False := by
  refine of_no_defect fun defect hy => ?_
  cases y with
  | ok result => cases hy
  | error error => exact h error defect (Except.error.inj hy)

end Blames

end ProtoSdl.Outcome

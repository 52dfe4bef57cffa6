import Mathlib.Data.List.Forall2

/-! Chains of steps that may fail, opened into what each step gave. A chain fails with the fault of
one of its steps. -/
namespace ProtoSdl.Outcome

variable {ε α β γ : Type}

theorem bind_eq_ok {x : Except ε α} {f : α → Except ε β} {b : β} :
    x >>= f = .ok b ↔ ∃ a, x = .ok a ∧ f a = .ok b := by
  cases x with
  | error fault => simp [bind, Except.bind]
  | ok a => simp [bind, Except.bind]

theorem bind_eq_error {x : Except ε α} {f : α → Except ε β} {fault : ε} :
    x >>= f = .error fault ↔ x = .error fault ∨ ∃ a, x = .ok a ∧ f a = .error fault := by
  cases x with
  | error other => simp [bind, Except.bind]
  | ok a => simp [bind, Except.bind]

/-- Chains are the same whose second steps agree on what the first step gives. -/
theorem bind_congr_ok {x : Except ε α} {f g : α → Except ε β} (h : ∀ a, x = .ok a → f a = g a) :
    x >>= f = x >>= g := by
  cases x with
  | error fault => rfl
  | ok a => exact h a rfl

theorem map_eq_ok {x : Except ε α} {f : α → β} {b : β} :
    x.map f = .ok b ↔ ∃ a, x = .ok a ∧ f a = b := by
  cases x <;> simp [Except.map]

theorem map_eq_error {x : Except ε α} {f : α → β} {fault : ε} :
    x.map f = .error fault ↔ x = .error fault := by
  cases x <;> simp [Except.map]

theorem mapError_eq_ok {ε' : Type} {x : Except ε α} {f : ε → ε'} {a : α} :
    x.mapError f = .ok a ↔ x = .ok a := by
  cases x <;> simp [Except.mapError]

theorem eq_ok_of_toOption {x : Except ε α} {a : α} (h : x.toOption = some a) : x = .ok a := by
  cases x with
  | error fault => cases h
  | ok found => exact congrArg Except.ok (Option.some.inj h)

theorem mapM_eq_ok {f : α → Except ε β} {items : List α} {results : List β} :
    items.mapM f = .ok results ↔
      List.Forall₂ (fun item result => f item = .ok result) items results := by
  induction items generalizing results with
  | nil =>
    rw [List.mapM_nil, List.forall₂_nil_left_iff]
    exact ⟨fun h => (Except.ok.inj h).symm, fun h => congrArg Except.ok h.symm⟩
  | cons item items ih =>
    rw [List.mapM_cons, bind_eq_ok]
    constructor
    · rintro ⟨first, hf, h⟩
      obtain ⟨rest, hr, h⟩ := bind_eq_ok.mp h
      cases h
      exact .cons hf (ih.mp hr)
    · intro h
      cases h with
      | cons hf hr => exact ⟨_, hf, bind_eq_ok.mpr ⟨_, ih.mpr hr, rfl⟩⟩

/-- Related lists have related items at each place. -/
theorem getElem?_related {R : α → β → Prop} {items : List α} {others : List β}
    (h : List.Forall₂ R items others) {position : Nat} {item : α}
    (hi : items[position]? = some item) :
    ∃ other, others[position]? = some other ∧ R item other := by
  induction h generalizing position with
  | nil => simp at hi
  | cons hrel _ ih =>
    cases position with
    | zero =>
      cases hi
      exact ⟨_, rfl, hrel⟩
    | succ position => exact ih hi

/-- Related lists are both empty, or their last items are related. -/
theorem getLast?_related {R : α → β → Prop} {items : List α} {others : List β}
    (h : List.Forall₂ R items others) : Option.Rel R items.getLast? others.getLast? := by
  rw [List.getLast?_eq_head?_reverse, List.getLast?_eq_head?_reverse]
  have hhead : ∀ {as bs}, List.Forall₂ R as bs → Option.Rel R as.head? bs.head? := by
    rintro _ _ (_ | ⟨hrel, -⟩)
    · exact .none
    · exact .some hrel
  exact hhead (List.forall₂_reverse_iff.mpr h)

theorem exists_related {R : α → β → Prop} {items : List α} {others : List β}
    (h : List.Forall₂ R items others) {item : α} (hi : item ∈ items) :
    ∃ other ∈ others, R item other := by
  obtain ⟨position, hposition⟩ := List.mem_iff_getElem?.mp hi
  obtain ⟨other, hother, hrel⟩ := getElem?_related h hposition
  exact ⟨other, List.mem_of_getElem? hother, hrel⟩

theorem related_trans {R : α → β → Prop} {S : β → γ → Prop} {items : List α} {others : List β}
    {results : List γ} (h : List.Forall₂ R items others) (h' : List.Forall₂ S others results) :
    List.Forall₂ (fun item result => ∃ other, R item other ∧ S other result) items results := by
  induction h generalizing results with
  | nil =>
    cases h'
    exact .nil
  | cons hrel _ ih =>
    cases h' with
    | cons hrel' hrest => exact .cons ⟨_, hrel, hrel'⟩ (ih hrest)

theorem exists_of_mem_mapM {f : α → Except ε β} {items : List α} {results : List β}
    (h : items.mapM f = .ok results) {item : α} (hm : item ∈ items) :
    ∃ result ∈ results, f item = .ok result :=
  exists_related (mapM_eq_ok.mp h) hm

theorem exists_of_mem_results {f : α → Except ε β} {items : List α} {results : List β}
    (h : items.mapM f = .ok results) {result : β} (hm : result ∈ results) :
    ∃ item ∈ items, f item = .ok result :=
  exists_related (List.Forall₂.flip (mapM_eq_ok.mp h)) hm

/-- Related lists look the same in views that agree on related items. -/
theorem map_related {R : α → β → Prop} {items : List α} {others : List β}
    (h : List.Forall₂ R items others) (g : β → γ) (k : α → γ)
    (hg : ∀ item other, R item other → g other = k item) : others.map g = items.map k := by
  induction h with
  | nil => rfl
  | cons hrel _ ih => rw [List.map_cons, List.map_cons, hg _ _ hrel, ih]

theorem map_results {f : α → Except ε β} {items : List α} {results : List β}
    (h : items.mapM f = .ok results) (g : β → γ) (k : α → γ)
    (hg : ∀ item result, f item = .ok result → g result = k item) :
    results.map g = items.map k :=
  map_related (mapM_eq_ok.mp h) g k hg

/-- The results stand at the places of their items. -/
theorem getElem?_results {f : α → Except ε β} {items : List α} {results : List β}
    (h : items.mapM f = .ok results) {position : Nat} {result : β} :
    results[position]? = some result ↔
      ∃ item, items[position]? = some item ∧ f item = .ok result := by
  have hrelated := mapM_eq_ok.mp h
  constructor
  · exact getElem?_related (List.Forall₂.flip hrelated)
  · rintro ⟨item, hitem, hf⟩
    obtain ⟨other, hother, hf'⟩ := getElem?_related hrelated hitem
    cases hf.symm.trans hf'
    exact hother

/-- Functions with related results give related lists of them. -/
theorem mapM_related {f : α → Except ε β} {g : α → Except ε γ} {R : β → γ → Prop} {items : List α}
    (h : ∀ item result, f item = .ok result → ∃ other, g item = .ok other ∧ R result other)
    {results : List β} (hf : items.mapM f = .ok results) :
    ∃ others, items.mapM g = .ok others ∧ List.Forall₂ R results others := by
  rw [mapM_eq_ok] at hf
  induction hf with
  | nil => exact ⟨[], rfl, .nil⟩
  | cons hfirst _ ih =>
    obtain ⟨other, hother, hrel⟩ := h _ _ hfirst
    obtain ⟨others, hothers, hrels⟩ := ih
    exact ⟨other :: others, mapM_eq_ok.mpr (.cons hother (mapM_eq_ok.mp hothers)),
      .cons hrel hrels⟩

theorem mapM_map {f : α → Except ε β} {g : α → Except ε γ} {k : β → γ} {items : List α}
    (h : ∀ item result, f item = .ok result → g item = .ok (k result)) {results : List β}
    (hf : items.mapM f = .ok results) : items.mapM g = .ok (results.map k) := by
  rw [mapM_eq_ok] at hf ⊢
  induction hf with
  | nil => exact .nil
  | cons hfirst _ ih => exact .cons (h _ _ hfirst) ih

theorem fault_of_mapM {f : α → Except ε β} {items : List α} {fault : ε}
    (h : items.mapM f = .error fault) : ∃ item ∈ items, f item = .error fault := by
  induction items with
  | nil => cases h
  | cons item items ih =>
    rw [List.mapM_cons, bind_eq_error] at h
    rcases h with h | ⟨first, -, h⟩
    · exact ⟨item, List.mem_cons_self, h⟩
    · rcases bind_eq_error.mp h with h | ⟨rest, -, h⟩
      · obtain ⟨other, ho, hf⟩ := ih h
        exact ⟨other, List.mem_cons_of_mem _ ho, hf⟩
      · cases h

theorem exists_mapM_ok {f : α → Except ε β} {items : List α}
    (h : ∀ item ∈ items, ∃ result, f item = .ok result) :
    ∃ results, items.mapM f = .ok results := by
  cases hm : items.mapM f with
  | ok results => exact ⟨results, rfl⟩
  | error fault =>
    obtain ⟨item, hi, hfault⟩ := fault_of_mapM hm
    obtain ⟨result, hresult⟩ := h item hi
    rw [hresult] at hfault
    cases hfault

end ProtoSdl.Outcome

import PhraseGrammar.Engine.Validation

set_option autoImplicit false

/-! # What validation lists

Validation expands the alternatives of all categories, one after the other, each from the source
that the one before it left. A failure that is listed is that of an alternative from some source
(`Expander.expand_of_mem_checkCategories`), and an alternative that fails from every source is
listed wherever it stands (`Expander.sublist_checkCategories`).
-/

namespace PhraseGrammar

/-- The category and the alternative that a finding says cannot be expanded. -/
def Finding.failed? : Finding → Option (Text × Text)
  | .failure category fragment _ => some (category, fragment)
  | .slashInName _ => none

theorem Finding.filterMap_failed?_ofName (category : Text) :
    (Finding.ofName category).filterMap Finding.failed? = [] := by
  unfold Finding.ofName
  split <;> rfl

/-- The alternatives of all categories, each with its category, in the order of validation. -/
def Mapping.entries (m : Mapping) : List (Text × Text) :=
  m.flatMap fun c => c.2.map fun fragment => (c.1, fragment)

namespace Expander

variable {σ : Type} [WordSource σ] {x : Expander}

/-- A failure that is listed for a category is that of one of its alternatives. -/
theorem expand_of_mem_checkAlternatives {category category' fragment : Text}
    {error : ExpansionError} {alternatives : List Text} {source : σ}
    (h : .failure category' fragment error
      ∈ (x.checkAlternatives category alternatives source).1) :
    fragment ∈ alternatives ∧ ∃ s : σ, (x.expand fragment s).1 = .error error := by
  induction alternatives generalizing source with
  | nil => cases h
  | cons a rest ih =>
      unfold checkAlternatives at h
      dsimp only at h
      split at h
      · obtain ⟨hmem, hfail⟩ := ih h
        exact ⟨List.mem_cons_of_mem a hmem, hfail⟩
      · next e he =>
          rcases List.mem_cons.mp h with heq | h
          · cases heq
            exact ⟨List.mem_cons_self, source, he⟩
          · obtain ⟨hmem, hfail⟩ := ih h
            exact ⟨List.mem_cons_of_mem a hmem, hfail⟩

/-- A failure that is listed is that of an alternative of some category. -/
theorem expand_of_mem_checkCategories {category fragment : Text} {error : ExpansionError}
    {m : Mapping} {source : σ}
    (h : .failure category fragment error ∈ (x.checkCategories m source).1) :
    (∃ entry ∈ m, fragment ∈ entry.2) ∧ ∃ s : σ, (x.expand fragment s).1 = .error error := by
  induction m generalizing source with
  | nil => cases h
  | cons c rest ih =>
      unfold checkCategories at h
      dsimp only at h
      rw [List.mem_append, List.mem_append] at h
      rcases h with (hname | hhere) | hrest
      · -- a name brings up no failure
        unfold Finding.ofName at hname
        split at hname
        · cases List.mem_singleton.mp hname
        · cases hname
      · obtain ⟨hmem, hfail⟩ := expand_of_mem_checkAlternatives hhere
        exact ⟨⟨c, List.mem_cons_self, hmem⟩, hfail⟩
      · obtain ⟨⟨entry, hentry, hmem⟩, hfail⟩ := ih hrest
        exact ⟨⟨entry, List.mem_cons_of_mem c hentry, hmem⟩, hfail⟩

variable {p : Text → Bool}
  (hp : ∀ fragment, p fragment = true → ∀ source : σ,
    ∃ e, (x.expand fragment source).1 = .error e)

include hp

/-- The alternatives of a category that fail from every source are listed. -/
theorem sublist_checkAlternatives (category : Text) (alternatives : List Text) (source : σ) :
    ((alternatives.filter p).map fun fragment => (category, fragment)).Sublist
      ((x.checkAlternatives category alternatives source).1.filterMap Finding.failed?) := by
  induction alternatives generalizing source with
  | nil => simp [checkAlternatives]
  | cons fragment rest ih =>
      have hrest := ih (x.expand fragment source).2.source
      unfold checkAlternatives
      dsimp only
      split
      · next phrase hok =>
          have hf : ¬ p fragment = true := by
            intro hc
            obtain ⟨e, he⟩ := hp fragment hc source
            rw [he] at hok
            cases hok
          rw [List.filter_cons_of_neg hf]
          exact hrest
      · next e he =>
          simp only [List.filterMap_cons, Finding.failed?]
          by_cases hf : p fragment = true
          · rw [List.filter_cons_of_pos hf, List.map_cons]
            exact hrest.cons_cons _
          · rw [List.filter_cons_of_neg hf]
            exact hrest.cons _

/-- The alternatives of all categories that fail from every source are listed. -/
theorem sublist_checkCategories (m : Mapping) (source : σ) :
    (m.entries.filter fun entry => p entry.2).Sublist
      ((x.checkCategories m source).1.filterMap Finding.failed?) := by
  induction m generalizing source with
  | nil => simp [Mapping.entries]
  | cons c rest ih =>
      obtain ⟨category, alternatives⟩ := c
      have hhere := sublist_checkAlternatives hp category alternatives source
      have hrest := ih (x.checkAlternatives category alternatives source).2
      have hfilter : (Mapping.entries ((category, alternatives) :: rest)).filter
            (fun entry => p entry.2)
          = ((alternatives.filter p).map fun fragment => (category, fragment))
            ++ (Mapping.entries rest).filter fun entry => p entry.2 := by
        simp only [Mapping.entries, List.flatMap_cons, List.filter_append, List.filter_map]
        rfl
      rw [hfilter]
      unfold checkCategories
      dsimp only
      rw [List.filterMap_append, List.filterMap_append, Finding.filterMap_failed?_ofName,
        List.nil_append]
      exact hhere.append hrest

end Expander

end PhraseGrammar

import PhraseGrammar.Grammar.Basic
import Mathlib.Data.Char
import Mathlib.Data.List.Induction
import Mathlib.Data.List.Lex
import Mathlib.Data.List.Nodup

set_option autoImplicit false

/-! # The categories of a grammar

A mapping is *fresh* to a grammar if all of its names can be added (`Grammar.Fresh`): no name is
empty, no name stands twice, and the grammar has none of them. Adding a fresh mapping joins it to
the grammar (`Grammar.Joins`), which says all there is to say of the outcome: since a grammar keeps
its categories in order, it is determined by it (`Grammar.Joins.unique`). In a mapping that is not
fresh there is a first entry that is refused (`Grammar.exists_refused`).

Entries are added in order until one of them is refused, and each is attributed to a source of its
own (`Grammar.addEach`). So the fresh entries before the first refused one are joined to the
grammar, and the fault has the cause for which that entry is refused, and its source
(`Grammar.addEach_of_fresh`, `Grammar.addEach_of_refuses`). Names are taken to be trimmed.
-/

namespace PhraseGrammar.Grammar

/-! ## Inserting an entry -/

variable {name : Text} {alternatives : List Text}

theorem lookup_insertSorted {m : Mapping} (h : name ∉ m.map Prod.fst) (key : Text) :
    (insertSorted name alternatives m).lookup key
      = (m.lookup key).or ([(name, alternatives)].lookup key) := by
  induction m with
  | nil => rfl
  | cons entry rest ih =>
      obtain ⟨hentry, hrest⟩ : name ≠ entry.1 ∧ name ∉ rest.map Prod.fst := by
        simpa using h
      rw [insertSorted]
      split
      · -- the new name is looked up first, but no other entry has it
        by_cases hkey : key = name
        · subst hkey
          have hnone : (entry :: rest).lookup key = none := by
            rw [List.lookup_eq_none_iff]
            intro p hp
            rw [bne_iff_ne]
            rintro rfl
            exact h (List.mem_map_of_mem hp)
          rw [hnone, List.lookup_cons_self, List.lookup_cons_self]
          rfl
        · have hne : (key == name) = false := beq_eq_false_iff_ne.mpr hkey
          have hlast : [(name, alternatives)].lookup key = none := by
            rw [List.lookup_cons, hne]
            rfl
          rw [List.lookup_cons, hne, hlast, Option.or_none]
      · rw [List.lookup_cons, List.lookup_cons, ih hrest]
        cases key == entry.1 <;> rfl

/-! ## Mappings that can be added -/

/-- All names of the mapping can be added to the grammar. -/
structure Fresh (g : Grammar) (m : Mapping) : Prop where
  named : ∀ entry ∈ m, entry.1 ≠ []
  distinct : (m.map Prod.fst).Nodup
  new : ∀ entry ∈ m, entry.1 ∉ g.names

/-- Why a name cannot be added to a grammar and a mapping: it is empty, or one of them has it. -/
inductive Refuses (g : Grammar) (m : Mapping) : Text → GrammarError.Cause → Prop
  | noName : Refuses g m [] .noName
  | nameTaken {name : Text} :
      name ≠ [] → name ∈ g.names ∨ name ∈ m.map Prod.fst → Refuses g m name (.nameTaken name)

theorem fresh_nil (g : Grammar) : Fresh g [] :=
  ⟨by simp, List.nodup_nil, by simp⟩

theorem Fresh.of_append {g : Grammar} {m m' : Mapping} (h : Fresh g (m ++ m')) : Fresh g m where
  named entry hentry := h.named entry (List.mem_append_left m' hentry)
  distinct := by
    have hboth := h.distinct
    rw [List.map_append] at hboth
    exact (List.nodup_append.mp hboth).1
  new entry hentry := h.new entry (List.mem_append_left m' hentry)

theorem Fresh.not_mem_before {g : Grammar} {m m' : Mapping}
    (h : Fresh g (m ++ (name, alternatives) :: m')) : name ∉ m.map Prod.fst := by
  intro hbefore
  have hdistinct := h.distinct
  rw [List.map_append, List.nodup_append] at hdistinct
  exact hdistinct.2.2 name hbefore name (by simp) rfl

/-- A name is either refused, or it is fresh like the names before it. -/
theorem refuses_or_fresh {g : Grammar} {m : Mapping} (h : Fresh g m) (name : Text)
    (alternatives : List Text) :
    (∃ cause, Refuses g m name cause) ∨ Fresh g (m ++ [(name, alternatives)]) := by
  by_cases hname : name = []
  · subst hname
    exact Or.inl ⟨_, .noName⟩
  by_cases htaken : name ∈ g.names ∨ name ∈ m.map Prod.fst
  · exact Or.inl ⟨_, .nameTaken hname htaken⟩
  rw [not_or] at htaken
  right
  constructor
  · intro entry hentry
    rcases List.mem_append.mp hentry with hentry | hentry
    · exact h.named entry hentry
    · obtain rfl := List.mem_singleton.mp hentry
      exact hname
  · rw [List.map_append, List.nodup_append]
    refine ⟨h.distinct, List.nodup_singleton _, ?_⟩
    rintro other hother _ hself rfl
    obtain rfl : other = name := by simpa using hself
    exact htaken.2 hother
  · intro entry hentry
    rcases List.mem_append.mp hentry with hentry | hentry
    · exact h.new entry hentry
    · obtain rfl := List.mem_singleton.mp hentry
      exact htaken.1

/-- **The first entry that is refused**, in a mapping that is not fresh. -/
theorem exists_refused {g : Grammar} {m : Mapping} (h : ¬ Fresh g m) :
    ∃ before name alternatives after cause, m = before ++ (name, alternatives) :: after ∧
      Fresh g before ∧ Refuses g before name cause := by
  -- the induction is on the entries from the last to the first
  induction m using List.reverseRecOn with
  | nil => exact absurd (fresh_nil g) h
  | append_singleton m entry ih =>
      obtain ⟨name, alternatives⟩ := entry
      by_cases hm : Fresh g m
      · obtain ⟨cause, hcause⟩ := (refuses_or_fresh hm name alternatives).resolve_right h
        exact ⟨m, name, alternatives, [], cause, rfl, hm, hcause⟩
      · obtain ⟨before, name', alternatives', after, cause, rfl, hfresh, hcause⟩ := ih hm
        exact ⟨before, name', alternatives', after ++ [(name, alternatives)], cause, by simp,
          hfresh, hcause⟩

/-! ## A grammar with the entries of a mapping -/

/-- The second grammar has the categories of the first one and the entries of the mapping, and
no others, and each is looked up. -/
structure Joins (g : Grammar) (m : Mapping) (g' : Grammar) : Prop where
  perm : g'.categories.Perm (g.categories ++ m)
  get? : ∀ name, g'.get? name = (g.get? name).or (m.lookup name)

theorem joins_nil (g : Grammar) : Joins g [] g :=
  ⟨by simp, by simp⟩

theorem Joins.mem_names {g g' : Grammar} {m : Mapping} (h : Joins g m g') :
    name ∈ g'.names ↔ name ∈ g.names ∨ name ∈ m.map Prod.fst := by
  unfold names
  rw [(h.perm.map Prod.fst).mem_iff, List.map_append, List.mem_append]

/-- A grammar joined with a mapping leaves nothing open. -/
theorem Joins.unique {g g₁ g₂ : Grammar} {m m' : Mapping} (hm : m.Perm m') (h₁ : Joins g m g₁)
    (h₂ : Joins g m' g₂) : g₁ = g₂ := by
  have hperm : g₁.categories.Perm g₂.categories :=
    (h₁.perm.trans (hm.append_left g.categories)).trans h₂.perm.symm
  exact Grammar.ext (hperm.eq_of_pairwise (fun a b _ _ hab hba => absurd hab (lt_asymm hba))
    g₁.orderly.sorted g₂.orderly.sorted)

/-! ## Adding an entry -/

/-- **What an insertion does**: a name that is neither empty nor taken is put in its place. -/
theorem insert_eq_ok {g g' : Grammar} {origin : Option Text} :
    g.insert name alternatives origin = .ok g' ↔
      name.trim ≠ [] ∧ name.trim ∉ g.names ∧
        g'.categories = insertSorted name.trim alternatives g.categories := by
  unfold insert
  rw [← contains_iff]
  split_ifs with hname htaken
  · simp [hname]
  · simp [htaken]
  · simp [hname, htaken, Grammar.ext_iff, eq_comm]

theorem exists_insert_eq_ok {g : Grammar} (hname : name.trim ≠ []) (hnew : name.trim ∉ g.names)
    (alternatives : List Text) (origin : Option Text) :
    ∃ g', g.insert name alternatives origin = .ok g' ∧
      g'.categories = insertSorted name.trim alternatives g.categories :=
  let categories := insertSorted name.trim alternatives g.categories
  ⟨⟨categories, orderly_insertSorted g.orderly hname name.trim_trim hnew alternatives⟩,
    insert_eq_ok.mpr ⟨hname, hnew, rfl⟩, rfl⟩

theorem insert_of_empty {g : Grammar} (hname : name.trim = []) (alternatives : List Text)
    (origin : Option Text) : g.insert name alternatives origin = .error ⟨.noName, origin⟩ :=
  dif_pos hname

theorem insert_of_taken {g : Grammar} (hname : name.trim ≠ []) (htaken : name.trim ∈ g.names)
    (alternatives : List Text) (origin : Option Text) :
    g.insert name alternatives origin = .error ⟨.nameTaken name.trim, origin⟩ := by
  unfold insert
  rw [dif_neg hname, dif_pos (contains_iff.mpr htaken)]

/-- A name that is neither empty nor taken is added. -/
theorem Joins.add {g g' : Grammar} {m : Mapping} (h : Joins g m g')
    (hfresh : Fresh g (m ++ [(name, alternatives)])) (htrim : name.trim = name)
    (origin : Option Text) :
    ∃ g'', g'.add name alternatives origin = ⟨g'', none⟩ ∧
      Joins g (m ++ [(name, alternatives)]) g'' := by
  have hmem : (name, alternatives) ∈ m ++ [(name, alternatives)] := by simp
  have hname : name ≠ [] := hfresh.named _ hmem
  have hnew : name ∉ g'.names := by
    rw [h.mem_names, not_or]
    exact ⟨hfresh.new _ hmem, hfresh.not_mem_before⟩
  obtain ⟨g'', hinsert, hcategories⟩ :=
    exists_insert_eq_ok (by rwa [htrim]) (by rwa [htrim]) alternatives origin
  rw [htrim] at hcategories
  refine ⟨g'', ?_, ?_, ?_⟩
  · unfold Grammar.add
    rw [hinsert]
  · rw [hcategories, ← List.append_assoc]
    have hold : List.Perm ((name, alternatives) :: g'.categories)
        ((name, alternatives) :: (g.categories ++ m)) := h.perm.cons _
    exact (perm_insertSorted name alternatives g'.categories).trans
      (hold.trans (List.perm_append_singleton _ _).symm)
  · intro key
    rw [List.lookup_append, ← Option.or_assoc, ← h.get? key]
    show g''.categories.lookup key = _
    rw [hcategories]
    exact lookup_insertSorted hnew key

/-- A name that is refused is not added. -/
theorem Joins.add_of_refuses {g g' : Grammar} {m : Mapping} {cause : GrammarError.Cause}
    (h : Joins g m g') (hcause : Refuses g m name cause) (htrim : name.trim = name)
    (alternatives : List Text) (origin : Option Text) :
    g'.add name alternatives origin = ⟨g', some ⟨cause, origin⟩⟩ := by
  unfold Grammar.add
  cases hcause with
  | noName => rw [insert_of_empty htrim]
  | nameTaken hname htaken =>
      have hmem : name.trim ∈ g'.names := by
        rw [htrim]
        exact h.mem_names.mpr htaken
      rw [insert_of_taken (by rwa [htrim]) hmem, htrim]

/-! ## Adding entries, each attributed to a source -/

/-- Entries, each with the source that it is attributed to. -/
abbrev Attributed := List (Option Text × Text × List Text)

/-- The entries of a mapping, all of them attributed to one source. -/
def attributedTo (origin : Option Text) (m : Mapping) : Attributed := m.map (origin, ·)

theorem map_snd_attributedTo (origin : Option Text) (m : Mapping) :
    (attributedTo origin m).map Prod.snd = m := by
  rw [attributedTo, List.map_map]
  exact List.map_id m

theorem trim_attributedTo {m : Mapping} (h : ∀ entry ∈ m, entry.1.trim = entry.1)
    (origin : Option Text) : ∀ entry ∈ attributedTo origin m, entry.2.1.trim = entry.2.1 := by
  intro entry hentry
  obtain ⟨named, hnamed, rfl⟩ := List.mem_map.mp hentry
  exact h named hnamed

/-- Adds entries in order. -/
def addEach : Grammar → Attributed → Extended
  | g, [] => ⟨g, none⟩
  | g, (origin, name, alternatives) :: rest =>
    (g.add name alternatives origin).andThen (·.addEach rest)

theorem addEach_append (g : Grammar) (entries entries' : Attributed) :
    g.addEach (entries ++ entries') = (g.addEach entries).andThen (·.addEach entries') := by
  induction entries generalizing g with
  | nil => rfl
  | cons entry rest ih =>
      obtain ⟨origin, name, alternatives⟩ := entry
      rw [List.cons_append, addEach, addEach]
      cases hadd : g.add name alternatives origin with
      | mk g' fault =>
          cases fault with
          | none => exact ih g'
          | some e => rfl

theorem add_reattributed (g : Grammar) (name : Text) (alternatives : List Text)
    (origin origin' : Option Text) :
    g.add name alternatives origin'
      = ⟨(g.add name alternatives origin).grammar,
          (g.add name alternatives origin).fault.map fun fault => { fault with origin := origin' }⟩ := by
  unfold add insert
  split_ifs <;> rfl

/-- **The sources make no difference**, but for the one that a fault is attributed to. -/
theorem addEach_reattributed (g : Grammar) (entries : Attributed) (origin : Option Text) :
    g.addEach (attributedTo origin (entries.map Prod.snd))
      = ⟨(g.addEach entries).grammar,
          (g.addEach entries).fault.map fun fault => { fault with origin }⟩ := by
  induction entries generalizing g with
  | nil => rfl
  | cons entry rest ih =>
      obtain ⟨source, name, alternatives⟩ := entry
      show (g.add name alternatives origin).andThen
          (·.addEach (attributedTo origin (rest.map Prod.snd))) = _
      rw [add_reattributed g name alternatives source origin, addEach]
      cases g.add name alternatives source with
      | mk g' fault =>
          cases fault with
          | none => exact ih g'
          | some fault => rfl

/-- **Fresh entries are all added.** -/
theorem addEach_of_fresh {g : Grammar} {entries : Attributed}
    (h : Fresh g (entries.map Prod.snd)) (htrim : ∀ entry ∈ entries, entry.2.1.trim = entry.2.1) :
    ∃ g', g.addEach entries = ⟨g', none⟩ ∧ Joins g (entries.map Prod.snd) g' := by
  induction entries using List.reverseRecOn with
  | nil => exact ⟨g, rfl, joins_nil g⟩
  | append_singleton entries entry ih =>
      obtain ⟨origin, name, alternatives⟩ := entry
      rw [List.map_append] at h
      obtain ⟨g', hg', hjoins⟩ := ih h.of_append fun e he => htrim e (List.mem_append_left _ he)
      obtain ⟨g'', hg'', hjoins'⟩ :=
        hjoins.add h (htrim (origin, name, alternatives) (by simp)) origin
      refine ⟨g'', ?_, by rw [List.map_append]; exact hjoins'⟩
      rw [addEach_append, hg']
      show (g'.add name alternatives origin).andThen (·.addEach []) = _
      rw [hg'']
      rfl

/-- **At the first entry that is refused the addition ends**, and what was added stays. -/
theorem addEach_of_refuses {g : Grammar} {before after : Attributed} {origin : Option Text}
    {cause : GrammarError.Cause} (h : Fresh g (before.map Prod.snd))
    (hcause : Refuses g (before.map Prod.snd) name cause)
    (htrim : ∀ entry ∈ before, entry.2.1.trim = entry.2.1) (hname : name.trim = name) :
    g.addEach (before ++ (origin, name, alternatives) :: after)
      = ⟨(g.addEach before).grammar, some ⟨cause, origin⟩⟩ := by
  obtain ⟨g', hg', hjoins⟩ := addEach_of_fresh h htrim
  rw [addEach_append, hg']
  show (g'.add name alternatives origin).andThen (·.addEach after) = _
  rw [hjoins.add_of_refuses hcause hname]
  rfl

/-- Entries that are not fresh end in a fault, at the first one that is refused. -/
theorem exists_fault_of_not_fresh {g : Grammar} {entries : Attributed}
    (htrim : ∀ entry ∈ entries, entry.2.1.trim = entry.2.1)
    (h : ¬ Fresh g (entries.map Prod.snd)) :
    ∃ before origin name alternatives after cause,
      entries = before ++ (origin, name, alternatives) :: after ∧
        Fresh g (before.map Prod.snd) ∧ Refuses g (before.map Prod.snd) name cause ∧
        (g.addEach entries).fault = some ⟨cause, origin⟩ := by
  obtain ⟨_, name, alternatives, _, cause, heq, hfresh, hcause⟩ := exists_refused h
  obtain ⟨before, rest, rfl, rfl, hrest⟩ := List.map_eq_append_iff.mp heq
  obtain ⟨⟨origin, entry⟩, after, rfl, rfl, -⟩ := List.map_eq_cons_iff.mp hrest
  have hadd : g.addEach (before ++ (origin, name, alternatives) :: after)
      = ⟨(g.addEach before).grammar, some ⟨cause, origin⟩⟩ :=
    addEach_of_refuses hfresh hcause (fun e he => htrim e (List.mem_append_left _ he))
      (htrim (origin, name, alternatives) (by simp))
  exact ⟨before, origin, name, alternatives, after, cause, rfl, hfresh, hcause, by rw [hadd]⟩

/-- **Entries are added without a fault** exactly if they are fresh. -/
theorem addEach_fault_eq_none_iff {g : Grammar} {entries : Attributed}
    (htrim : ∀ entry ∈ entries, entry.2.1.trim = entry.2.1) :
    (g.addEach entries).fault = none ↔ Fresh g (entries.map Prod.snd) := by
  constructor
  · intro hnone
    by_contra hnot
    obtain ⟨_, _, _, _, _, _, -, -, -, hfault⟩ := exists_fault_of_not_fresh htrim hnot
    rw [hnone] at hfault
    cases hfault
  · intro hfresh
    obtain ⟨g', hg', -⟩ := addEach_of_fresh hfresh htrim
    rw [hg']

/-- Where a fault ends the addition of entries: at the first entry that is refused, and the fault
has its source. -/
theorem exists_refused_of_fault {g : Grammar} {entries : Attributed} {fault : GrammarError}
    (htrim : ∀ entry ∈ entries, entry.2.1.trim = entry.2.1)
    (h : (g.addEach entries).fault = some fault) :
    ∃ before name alternatives after,
      entries = before ++ (fault.origin, name, alternatives) :: after ∧
        Fresh g (before.map Prod.snd) ∧ Refuses g (before.map Prod.snd) name fault.cause := by
  have hnot : ¬ Fresh g (entries.map Prod.snd) := by
    rw [← addEach_fault_eq_none_iff htrim, h]
    exact Option.some_ne_none fault
  obtain ⟨before, origin, name, alternatives, after, cause, rfl, hfresh, hcause, hfault⟩ :=
    exists_fault_of_not_fresh htrim hnot
  rw [h] at hfault
  cases hfault
  exact ⟨before, name, alternatives, after, rfl, hfresh, hcause⟩

end PhraseGrammar.Grammar

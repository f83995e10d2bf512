import PhraseGrammar.Text.Blank

set_option autoImplicit false

/-! # Grammars

A grammar gives each category its alternatives, in the order in which they were loaded. No two
categories share a name, names are not empty and carry no blanks at their ends, and categories
are kept in the order of their names, by code points (`Mapping.Orderly`). Every grammar carries
the proof of this. `Grammar.insert` is the only way to add a category, and nothing removes one.
-/

namespace PhraseGrammar

/-- Named lists of alternatives, in the order given. -/
abbrev Mapping := List (Text × List Text)

/-- The form in which a grammar keeps its categories: no name is empty or has blanks at its ends,
and the names stand in strict order, so that no two of them are the same. -/
structure Mapping.Orderly (m : Mapping) : Prop where
  named : ∀ entry ∈ m, entry.1 ≠ []
  trimmed : ∀ entry ∈ m, entry.1.trim = entry.1
  sorted : m.Pairwise (·.1 < ·.1)

instance (m : Mapping) : Decidable m.Orderly :=
  decidable_of_decidable_of_iff
    (p := (∀ entry ∈ m, entry.1 ≠ []) ∧ (∀ entry ∈ m, entry.1.trim = entry.1) ∧
      m.Pairwise (·.1 < ·.1))
    ⟨fun h => ⟨h.1, h.2.1, h.2.2⟩, fun h => ⟨h.named, h.trimmed, h.sorted⟩⟩

theorem Mapping.orderly_nil : Mapping.Orderly [] := ⟨nofun, nofun, .nil⟩

/-- The categories of a grammar. -/
@[ext]
structure Grammar where
  categories : Mapping
  orderly : categories.Orderly := by decide
  deriving DecidableEq, Repr

/-- The grammar without categories. -/
instance : EmptyCollection Grammar := ⟨⟨[], Mapping.orderly_nil⟩⟩

/-- Why a category, or the file of a category, could not be added to a grammar. -/
inductive GrammarError.Cause where
  /-- A category whose name is blank. -/
  | noName
  /-- A category that the grammar already has. -/
  | nameTaken (name : Text)
  /-- No index file at its path. -/
  | noIndex (path : Text)
  /-- A file that the index lists is not there. -/
  | noFile (path : Text)
  /-- A file that cannot be read, and why. -/
  | unreadable (path reason : Text)
  deriving DecidableEq, Repr

/-- A fault of a grammar, with the source that it is attributed to. -/
structure GrammarError where
  cause : GrammarError.Cause
  origin : Option Text
  deriving DecidableEq, Repr

/-- The name of the file that lists the files of a grammar. -/
def Grammar.indexName : Text := "index.grammar".toList

namespace GrammarError

/-- The wording of a cause. -/
def Cause.message : Cause → String
  | noName => "category declared without a name"
  | nameTaken name => "category '" ++ String.ofList name ++ "' is already defined"
  | noIndex path =>
    "grammar manifest " ++ String.ofList Grammar.indexName ++ " not found at "
      ++ String.ofList path
  | noFile path => "can't find linked grammar file " ++ String.ofList path
  | unreadable path reason =>
    "failed to read " ++ String.ofList path ++ ": " ++ String.ofList reason

/-- The wording of a fault whose source is known or not. -/
def frame (origin : Option Text) (message : String) : String :=
  match origin with
  | none => "grammar loading error: " ++ message
  | some origin => "grammar loading error [in " ++ String.ofList origin ++ "]: " ++ message

/-- The wording of a fault. -/
def message (e : GrammarError) : String := frame e.origin e.cause.message

end GrammarError

namespace Grammar

/-- The number of categories. -/
def size (g : Grammar) : Nat := g.categories.length

/-- The names of the categories, in order. -/
def names (g : Grammar) : List Text := g.categories.map Prod.fst

/-- The alternatives of a category. -/
def get? (g : Grammar) (name : Text) : Option (List Text) := g.categories.lookup name

/-- Whether there is a category of that name. -/
def contains (g : Grammar) (name : Text) : Bool := (g.get? name).isSome

/-- The grammar has a category exactly if its name is one of the names. -/
theorem contains_iff {g : Grammar} {name : Text} : g.contains name = true ↔ name ∈ g.names := by
  unfold contains get? names
  rw [List.lookup_isSome_iff, List.mem_map]
  constructor
  · rintro ⟨entry, hentry, heq⟩
    exact ⟨entry, hentry, (beq_iff_eq.mp heq).symm⟩
  · rintro ⟨entry, hentry, rfl⟩
    exact ⟨entry, hentry, beq_self_eq_true _⟩

/-! ## Adding a category -/

/-- Puts an entry before the first one with a larger name. -/
def insertSorted (name : Text) (alternatives : List Text) : Mapping → Mapping
  | [] => [(name, alternatives)]
  | entry :: rest =>
    if name < entry.1 then (name, alternatives) :: entry :: rest
    else entry :: insertSorted name alternatives rest

theorem perm_insertSorted (name : Text) (alternatives : List Text) (m : Mapping) :
    (insertSorted name alternatives m).Perm ((name, alternatives) :: m) := by
  induction m with
  | nil => exact List.Perm.refl _
  | cons entry rest ih =>
      rw [insertSorted]
      split
      · exact List.Perm.refl _
      · exact (ih.cons entry).trans (List.Perm.swap _ _ _)

theorem eq_or_mem_of_mem_insertSorted {name : Text} {alternatives : List Text} {m : Mapping}
    {entry : Text × List Text} (h : entry ∈ insertSorted name alternatives m) :
    entry = (name, alternatives) ∨ entry ∈ m :=
  List.mem_cons.mp ((perm_insertSorted name alternatives m).mem_iff.mp h)

theorem sorted_insertSorted {name : Text} {m : Mapping} (hm : m.Pairwise (·.1 < ·.1))
    (hnew : name ∉ m.map Prod.fst) (alternatives : List Text) :
    (insertSorted name alternatives m).Pairwise (·.1 < ·.1) := by
  induction m with
  | nil => exact List.pairwise_singleton _ _
  | cons first rest ih =>
      obtain ⟨hbefore, hrest⟩ := List.pairwise_cons.mp hm
      obtain ⟨hfirst, hlater⟩ : name ≠ first.1 ∧ name ∉ rest.map Prod.fst := by
        simpa using hnew
      rw [insertSorted]
      split
      · next hlt =>
          refine List.pairwise_cons.mpr ⟨fun other hother => ?_, hm⟩
          rcases List.mem_cons.mp hother with rfl | hother
          · exact hlt
          · exact List.lt_trans hlt (hbefore other hother)
      · next hle =>
          refine List.pairwise_cons.mpr ⟨fun other hother => ?_, ih hrest hlater⟩
          rcases eq_or_mem_of_mem_insertSorted hother with rfl | hother
          · exact Decidable.byContradiction fun hnot => hfirst (List.le_antisymm hnot hle)
          · exact hbefore other hother

/-- A category with a new name keeps the form. -/
theorem orderly_insertSorted {name : Text} {m : Mapping} (hm : m.Orderly) (hne : name ≠ [])
    (htrim : name.trim = name) (hnew : name ∉ m.map Prod.fst) (alternatives : List Text) :
    Mapping.Orderly (insertSorted name alternatives m) where
  named entry hentry := by
    rcases eq_or_mem_of_mem_insertSorted hentry with rfl | hold
    · exact hne
    · exact hm.named entry hold
  trimmed entry hentry := by
    rcases eq_or_mem_of_mem_insertSorted hentry with rfl | hold
    · exact htrim
    · exact hm.trimmed entry hold
  sorted := sorted_insertSorted hm.sorted hnew alternatives

/-- Adds a category. Its name is trimmed, and must be neither empty nor taken. -/
def insert (g : Grammar) (name : Text) (alternatives : List Text) (origin : Option Text) :
    Except GrammarError Grammar :=
  if hname : name.trim = [] then .error ⟨.noName, origin⟩
  else if htaken : g.contains name.trim then .error ⟨.nameTaken name.trim, origin⟩
  else .ok
    { categories := insertSorted name.trim alternatives g.categories
      orderly := orderly_insertSorted g.orderly hname (Text.trim_trim name)
        (mt contains_iff.mpr htaken) alternatives }

/-! ## Adding several categories

Categories are added one by one until one of them is refused. What was added before that stays.
-/

/-- What is left when categories have been added: the grammar, and the fault that ended the
addition early, if there was one. -/
@[ext]
structure Extended where
  grammar : Grammar
  fault : Option GrammarError := none
  deriving DecidableEq, Repr

/-- Goes on with an addition that was not ended by a fault. -/
def Extended.andThen (e : Extended) (next : Grammar → Extended) : Extended :=
  match e.fault with
  | none => next e.grammar
  | some _ => e

/-- Adds one category, or leaves the grammar as it is. -/
def add (g : Grammar) (name : Text) (alternatives : List Text) (origin : Option Text) :
    Extended :=
  match g.insert name alternatives origin with
  | .ok g => ⟨g, none⟩
  | .error e => ⟨g, some e⟩

/-- The source that the categories of a mapping are attributed to. -/
def mappingOrigin : Text := "direct grammar".toList

/-- Adds the entries of a mapping in order. -/
def addMapping (g : Grammar) : Mapping → Extended
  | [] => ⟨g, none⟩
  | (name, alternatives) :: rest =>
    (g.add name alternatives (some mappingOrigin)).andThen (·.addMapping rest)

end Grammar

end PhraseGrammar

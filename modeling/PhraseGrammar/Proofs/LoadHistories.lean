import PhraseGrammar.Proofs.ByteOrder
import PhraseGrammar.Proofs.EntryOrder
import Mathlib.Logic.Relation

set_option autoImplicit false

/-! # Histories of a grammar

A grammar comes into being by additions: of one category, of the categories of a text, of lines, of
a mapping or of a folder (`Grammar.Addition`). Each of them may end in a fault, and then what it
added before stays.

Whatever is added, and whether it ends in a fault or not, the grammar only grows by insertions
(`Grammar.grows_extend`), and an insertion loses and changes no category. Since every grammar keeps
its categories in order, it is determined by the set of them, and it is built again from them in any
order (`Grammar.addMapping_of_perm`).
-/

namespace PhraseGrammar.Grammar

/-! ## Additions -/

/-- An addition of categories to a grammar. -/
inductive Addition where
  | category (name : Text) (alternatives : List Text) (origin : Option Text)
  | text (text : Text) (origin : Option Text)
  | lines (lines : List Text) (origin : Option Text)
  | mapping (m : Mapping)
  | folder (read : Reader) (root : Text)

/-- Carries out an addition. -/
def extend (g : Grammar) : Addition → Extended
  | .category name alternatives origin => g.add name alternatives origin
  | .text text origin => g.addText text origin
  | .lines lines origin => g.addLines lines origin
  | .mapping m => g.addMapping m
  | .folder read root => g.addFolder read root

/-- What several additions leave of an empty grammar, faults or not. -/
def history (additions : List Addition) : Grammar :=
  additions.foldl (fun g addition => (g.extend addition).grammar) {}

theorem history_append_singleton (additions : List Addition) (addition : Addition) :
    history (additions ++ [addition]) = ((history additions).extend addition).grammar := by
  unfold history
  rw [List.foldl_append]
  rfl

/-! ## Growth by insertions -/

/-- The second grammar is the first one with a category inserted. -/
def Inserts (g g' : Grammar) : Prop :=
  ∃ name alternatives origin, g.insert name alternatives origin = .ok g'

/-- The second grammar is the first one with any number of categories inserted. -/
def Grows : Grammar → Grammar → Prop := Relation.ReflTransGen Inserts

/-- A property that an insertion preserves stays while a grammar grows. -/
theorem Grows.preserves {P : Grammar → Prop} {g g' : Grammar} (h : Grows g g')
    (hstep : ∀ g g', Inserts g g' → P g → P g') (hg : P g) : P g' := by
  induction h with
  | refl => exact hg
  | tail _ hlast ih => exact hstep _ _ hlast ih

/-- A property of the grammar stays while additions go on that keep it. -/
theorem Extended.andThen_preserves {P : Grammar → Prop} {e : Extended}
    {next : Grammar → Extended} (h : P e.grammar) (hnext : ∀ g, P g → P (next g).grammar) :
    P (e.andThen next).grammar := by
  unfold Extended.andThen
  split
  · exact hnext e.grammar h
  · exact h

theorem grows_add (g : Grammar) (name : Text) (alternatives : List Text)
    (origin : Option Text) : Grows g (g.add name alternatives origin).grammar := by
  unfold add
  cases hinsert : g.insert name alternatives origin with
  | ok g' => exact Relation.ReflTransGen.single ⟨name, alternatives, origin, hinsert⟩
  | error e => exact Relation.ReflTransGen.refl

theorem grows_addEach (g : Grammar) (entries : Attributed) :
    Grows g (g.addEach entries).grammar := by
  induction entries generalizing g with
  | nil => exact Relation.ReflTransGen.refl
  | cons entry rest ih =>
      obtain ⟨origin, name, alternatives⟩ := entry
      exact Extended.andThen_preserves (grows_add g name alternatives origin)
        fun g' hg' => Relation.ReflTransGen.trans hg' (ih g')

theorem grows_addLines (g : Grammar) (lines : List Text) (origin : Option Text) :
    Grows g (g.addLines lines origin).grammar := by
  rw [addLines_eq_addEach]
  exact grows_addEach g _

theorem grows_addMapping (g : Grammar) (m : Mapping) : Grows g (g.addMapping m).grammar := by
  rw [addMapping_eq_addEach]
  exact grows_addEach g _

/-- **Reading a folder** keeps what reading the texts of its files keeps. -/
theorem addFolder_preserves {P : Grammar → Prop}
    (htext : ∀ g text origin, P g → P (g.addText text origin).grammar) {g : Grammar} (hg : P g)
    (read : Reader) (root : Text) : P (g.addFolder read root).grammar := by
  have hfile : ∀ (g : Grammar) (entry : Text), P g → P (g.addFile read root entry).grammar := by
    intro g entry hg
    unfold addFile
    dsimp only
    split
    · exact hg
    · exact hg
    · exact htext g _ _ hg
  have hfiles : ∀ (entries : List Text) (g : Grammar), P g →
      P (g.addFiles read root entries).grammar := by
    intro entries
    induction entries with
    | nil => exact fun _ hg => hg
    | cons entry rest ih => exact fun g hg => Extended.andThen_preserves (hfile g entry hg) ih
  unfold addFolder
  dsimp only
  split
  · exact hg
  · exact hg
  · exact hfiles _ g hg

/-- **An addition is a number of insertions**, whether it ends in a fault or not. -/
theorem grows_extend (g : Grammar) (addition : Addition) :
    Grows g (g.extend addition).grammar := by
  cases addition with
  | category name alternatives origin => exact grows_add g name alternatives origin
  | text text origin => exact grows_addLines g text.lines origin
  | lines lines origin => exact grows_addLines g lines origin
  | mapping m => exact grows_addMapping g m
  | folder read root =>
      have htext : ∀ g' text origin, Grows g g' → Grows g (g'.addText text origin).grammar :=
        fun g' text origin hg' => Relation.ReflTransGen.trans hg' (grows_addLines g' text.lines origin)
      exact addFolder_preserves htext Relation.ReflTransGen.refl read root

/-! ## What an insertion keeps -/

theorem mem_names_of_insert {g g' : Grammar} {name : Text} {alternatives : List Text}
    {origin : Option Text} (h : g.insert name alternatives origin = .ok g') {other : Text}
    (hother : other ∈ g'.names) : other ∈ g.names ∨ other = name.trim := by
  obtain ⟨-, -, hcategories⟩ := insert_eq_ok.mp h
  obtain ⟨entry, hentry, rfl⟩ := List.mem_map.mp hother
  rw [hcategories] at hentry
  rcases eq_or_mem_of_mem_insertSorted hentry with rfl | hold
  · exact Or.inr rfl
  · exact Or.inl (List.mem_map_of_mem hold)

/-- A category keeps its alternatives. -/
theorem Inserts.get? {g g' : Grammar} (h : Inserts g g') {name : Text} {alternatives : List Text}
    (hget : g.get? name = some alternatives) : g'.get? name = some alternatives := by
  obtain ⟨_, _, _, hinsert⟩ := h
  obtain ⟨-, hnew, hcategories⟩ := insert_eq_ok.mp hinsert
  show g'.categories.lookup name = _
  rw [hcategories, lookup_insertSorted hnew]
  show (g.get? name).or _ = _
  rw [hget, Option.some_or]

theorem get?_extend {g : Grammar} {name : Text} {alternatives : List Text}
    (h : g.get? name = some alternatives) (addition : Addition) :
    (g.extend addition).grammar.get? name = some alternatives :=
  (grows_extend g addition).preserves (fun _ _ hstep => hstep.get?) h

/-! ## A grammar and its categories -/

/-- The names of a grammar are not empty and have no blanks at their ends. -/
theorem named_of_mem_names (g : Grammar) : ∀ name ∈ g.names, name ≠ [] ∧ name.trim = name := by
  intro name hname
  obtain ⟨entry, hentry, rfl⟩ := List.mem_map.mp hname
  exact ⟨g.orderly.named entry hentry, g.orderly.trimmed entry hentry⟩

/-- The names of a grammar are in the order of the bytes of their UTF-8 forms. -/
theorem sorted_utf8_names (g : Grammar) : (g.names.map Text.utf8).Pairwise (· < ·) := by
  rw [names, List.map_map, List.pairwise_map]
  exact g.orderly.sorted.imp Text.utf8_lt

theorem trimmed_categories (g : Grammar) : trimmed g.categories = g.categories := by
  refine Eq.trans (List.map_congr_left fun entry hentry => ?_) (List.map_id g.categories)
  rw [g.orderly.trimmed entry hentry]
  rfl

/-- The categories of a grammar can be added to an empty one. -/
theorem fresh_categories (g : Grammar) : Fresh {} g.categories where
  named := g.orderly.named
  distinct := by
    rw [List.Nodup, List.pairwise_map]
    exact g.orderly.sorted.imp ne_of_lt
  new _ _ := List.not_mem_nil

/-- A grammar is the empty one joined with its categories. -/
theorem joins_categories (g : Grammar) : Joins {} g.categories g :=
  ⟨List.Perm.refl g.categories, fun _ => rfl⟩

/-- **A grammar is built again** from its categories, in any order. -/
theorem addMapping_of_perm (g : Grammar) {m : Mapping} (hm : m.Perm g.categories) :
    addMapping {} m = ⟨g, none⟩ := by
  have hperm : (trimmed m).Perm (trimmed g.categories) := hm.map _
  rw [trimmed_categories] at hperm
  have hnone : (addMapping {} m).fault = none :=
    addMapping_fault_eq_none_iff.mpr (g.fresh_categories.perm hperm.symm)
  exact Extended.ext (Joins.unique hperm (joins_addMapping hnone) g.joins_categories) hnone

/-- **A grammar after any history.** Its names are not empty and are trimmed, and they stand in the
strict order of the bytes of their UTF-8 forms. No addition that follows changes or removes a
category, whether it ends in a fault or not. And the categories, in any order, can be added to an
empty grammar, and make the same grammar again. -/
theorem history_spec (additions : List Addition) :
    (∀ name ∈ (history additions).names, name ≠ [] ∧ name.trim = name) ∧
    ((history additions).names.map Text.utf8).Pairwise (· < ·) ∧
    (∀ addition name alternatives, (history additions).get? name = some alternatives →
      ((history additions).extend addition).grammar.get? name = some alternatives) ∧
    ∀ m : Mapping, m.Perm (history additions).categories →
      addMapping {} m = ⟨history additions, none⟩ := by
  let g := history additions
  exact ⟨named_of_mem_names g, sorted_utf8_names g,
    fun addition _ _ hget => get?_extend hget addition, fun _ hm => addMapping_of_perm g hm⟩

/-! ### A history with a fault -/

/-- A category, and then lines of which the second declaration is refused. -/
def faultyHistory : List Addition :=
  [.category [' ', 'é'] [['x']] none,
   .lines [['*', 'z', ' '], ['y'], ['*', 'é'], ['w'], ['*', 'a']] none]

/-- A mapping whose second entry is refused. -/
def faultyMapping : Addition := .mapping [(['a', ' '], []), ([], [])]

theorem faultyHistory_history_spec :
    ((history faultyHistory).categories = [(['z'], [['y']]), (['é'], [['x']])] ∧
      ((history faultyHistory).extend faultyMapping).fault.isSome ∧
      ((history faultyHistory).extend faultyMapping).grammar.names = [['a'], ['z'], ['é']]) ∧
    ((history faultyHistory).extend faultyMapping).grammar.get? ['é'] = some [['x']] ∧
    addMapping {} [(['é'], [['x']]), (['z'], [['y']])] = ⟨history faultyHistory, none⟩ := by
  have hcategories : (history faultyHistory).categories = [(['z'], [['y']]), (['é'], [['x']])] := by
    decide
  obtain ⟨-, -, hkeeps, hbuilds⟩ := history_spec faultyHistory
  refine ⟨⟨hcategories, by decide, by decide⟩, hkeeps faultyMapping ['é'] [['x']] (by decide),
    hbuilds _ ?_⟩
  rw [hcategories]
  exact List.Perm.swap _ _ _

end PhraseGrammar.Grammar

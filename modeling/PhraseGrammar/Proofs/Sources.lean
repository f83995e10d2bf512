import PhraseGrammar.Grammar.Source
import Mathlib.Data.List.Basic

set_option autoImplicit false

/-! # What the lines of a source declare

Reading a source is two things in one pass: the lines are gathered to blocks, each of them a
declaration with the alternatives up to the next one (`Grammar.blocks`), and the blocks are added
in order until one is refused (`Grammar.addAll`). That a block is added only when the next one
begins makes no difference (`Grammar.addLines_eq_addAll`).

A mapping is written as a source with `*` before each name and a backslash before each
alternative (`Mapping.toSource`). Its blocks are the entries of the mapping, so that reading the
source does what adding the mapping does.
-/

namespace PhraseGrammar

/-! ## Trimming and lines -/

namespace Text

theorem trimEnd_concat {c : Char} (hc : isBlank c = true) (t : Text) :
    trimEnd (t ++ [c]) = trimEnd t := by
  unfold trimEnd
  rw [List.reverse_concat, List.dropWhile_cons_of_pos hc]

theorem trimEnd_eq_self {t : Text} (h : ∀ c ∈ t.getLast?, isBlank c = false) :
    trimEnd t = t := by
  have hrev : t.reverse.dropWhile isBlank = t.reverse := by
    cases hr : t.reverse with
    | nil => rfl
    | cons c rest =>
        have hc := h c (by rw [List.getLast?_eq_head?_reverse, hr]; rfl)
        exact List.dropWhile_cons_of_neg (by simp [hc])
  rw [trimEnd, hrev, List.reverse_reverse]

theorem trim_concat {c : Char} (hc : isBlank c = true) (t : Text) : trim (t ++ [c]) = trim t := by
  have hblank : [c].dropWhile isBlank = [] := List.dropWhile_cons_of_pos hc
  unfold trim trimStart
  rw [List.dropWhile_append, hblank]
  cases ht : t.dropWhile isBlank with
  | nil => rfl
  | cons d rest => exact trimEnd_concat hc (d :: rest)

/-- The carriage return that ends a line is one of the blanks that trimming removes. -/
theorem trim_dropReturn (t : Text) : trim (dropReturn t) = trim t := by
  unfold dropReturn
  split
  · next h =>
      obtain ⟨s, rfl⟩ := List.getLast?_eq_some_iff.mp h
      rw [List.dropLast_concat, trim_concat (by decide)]
  · rfl

theorem dropReturn_cons {c : Char} (hc : c ≠ '\r') (t : Text) :
    dropReturn (c :: t) = c :: dropReturn t := by
  cases t with
  | nil => simp [dropReturn, hc]
  | cons d t =>
      unfold dropReturn
      rw [List.getLast?_cons_cons]
      split <;> rfl

theorem dropReturn_eq_self {t : Text} (h : ∀ c ∈ t.getLast?, isBlank c = false) :
    dropReturn t = t := by
  unfold dropReturn
  rw [if_neg]
  intro hr
  exact absurd (h '\r' hr) (by decide)

/-- What stands before the first line feed is the first line, but for a carriage return. -/
theorem lines_append_cons_of_not_mem {t : Text} (h : '\n' ∉ t) (rest : Text) :
    (t ++ '\n' :: rest).lines = dropReturn t :: rest.lines := by
  unfold lines
  rw [List.splitOn_append_cons_self_of_not_mem h]
  obtain ⟨part, parts, hparts⟩ := List.exists_cons_of_ne_nil (List.splitOn_ne_nil '\n' rest)
  rw [hparts, closeLines]

/-- Lines, each with a line feed behind it. -/
def unlines (ls : List Text) : Text := ls.flatMap (· ++ ['\n'])

/-- Lines are read as they were written, but for a carriage return at the end of one. -/
theorem lines_unlines {ls : List Text} (h : ∀ l ∈ ls, '\n' ∉ l) :
    (unlines ls).lines = ls.map dropReturn := by
  induction ls with
  | nil => rfl
  | cons l ls ih =>
      have ih := ih fun m hm => h m (List.mem_cons_of_mem l hm)
      have hcons : unlines (l :: ls) = l ++ '\n' :: unlines ls := by
        simp [unlines, List.flatMap_cons]
      rw [hcons, lines_append_cons_of_not_mem (h l List.mem_cons_self), ih, List.map_cons]

end Text

open Text

namespace Grammar

/-! ## Adding several categories -/

/-- An addition that goes on with nothing. -/
theorem Extended.andThen_done (e : Extended) : (e.andThen fun g => ⟨g, none⟩) = e := by
  obtain ⟨g, fault⟩ := e
  cases fault <;> rfl

theorem Extended.andThen_assoc (e : Extended) (f f' : Grammar → Extended) :
    (e.andThen f).andThen f' = e.andThen fun g => (f g).andThen f' := by
  obtain ⟨g, fault⟩ := e
  cases fault <;> rfl

/-- Adds the entries of a mapping in order, attributed to a source. -/
def addAll (origin : Option Text) : Grammar → Mapping → Extended
  | g, [] => ⟨g, none⟩
  | g, (name, alternatives) :: rest =>
    (g.add name alternatives origin).andThen fun g => addAll origin g rest

theorem addMapping_eq_addAll (g : Grammar) (m : Mapping) :
    g.addMapping m = g.addAll (some mappingOrigin) m := by
  induction m generalizing g with
  | nil => rfl
  | cons entry rest ih =>
      obtain ⟨name, alternatives⟩ := entry
      rw [addMapping, addAll]
      exact congrArg _ (funext fun g' => ih g')

theorem addAll_append (origin : Option Text) (g : Grammar) (m m' : Mapping) :
    g.addAll origin (m ++ m') = (g.addAll origin m).andThen fun g => g.addAll origin m' := by
  induction m generalizing g with
  | nil => rfl
  | cons entry rest ih =>
      obtain ⟨name, alternatives⟩ := entry
      rw [List.cons_append, addAll, addAll, Extended.andThen_assoc]
      exact congrArg _ (funext fun g' => ih g')

/-- Names count only as far as they are trimmed. -/
theorem add_congr {name name' : Text} (h : name.trim = name'.trim) (g : Grammar)
    (alternatives : List Text) (origin : Option Text) :
    g.add name alternatives origin = g.add name' alternatives origin := by
  simp only [add, insert, h]

theorem addAll_map_congr {f : Text → Text} (hf : ∀ name, (f name).trim = name.trim)
    (origin : Option Text) (g : Grammar) (m : Mapping) :
    g.addAll origin (m.map fun entry => (f entry.1, entry.2)) = g.addAll origin m := by
  induction m generalizing g with
  | nil => rfl
  | cons entry rest ih =>
      obtain ⟨name, alternatives⟩ := entry
      rw [List.map_cons, addAll, addAll, add_congr (hf name)]
      exact congrArg _ (funext fun g' => ih g')

/-! ## Blocks -/

/-- The alternatives before the first declaration, and behind them each declaration with the
alternatives up to the next one. -/
def leadAndBlocks : List Text → List Text × Mapping
  | [] => ([], [])
  | line :: rest =>
    let (lead, blocks) := leadAndBlocks rest
    match Line.ofText line with
    | .ignored => (lead, blocks)
    | .declaration name => ([], (name, lead) :: blocks)
    | .alternative fragment => (fragment :: lead, blocks)

/-- The categories that lines declare. -/
def blocks (lines : List Text) : Mapping := (leadAndBlocks lines).2

/-- The block of a draft, with the alternatives that are still to come. -/
def Draft.block (draft : Option Draft) (lead : List Text) : Mapping :=
  (draft.map fun d => (d.name, d.newestFirst.reverse ++ lead)).toList

theorem addDraft_eq_addAll (g : Grammar) (draft : Option Draft) (origin : Option Text) :
    g.addDraft draft origin = g.addAll origin (Draft.block draft []) := by
  cases draft with
  | none => rfl
  | some d =>
      show g.add d.name d.newestFirst.reverse origin
        = (g.add d.name (d.newestFirst.reverse ++ []) origin).andThen fun g => ⟨g, none⟩
      rw [List.append_nil, Extended.andThen_done]

/-- **What is left to read** adds the drafted block, longer by the alternatives that follow, and
the blocks behind it. -/
theorem addFrom_eq_addAll (origin : Option Text) (g : Grammar) (draft : Option Draft)
    (lines : List Text) :
    addFrom origin g draft lines
      = g.addAll origin (Draft.block draft (leadAndBlocks lines).1 ++ blocks lines) := by
  induction lines generalizing g draft with
  | nil =>
      rw [addFrom, addDraft_eq_addAll]
      simp [leadAndBlocks, blocks]
  | cons line rest ih =>
      rw [addFrom]
      cases hline : Line.ofText line with
      | ignored =>
          dsimp only
          rw [ih]
          simp [leadAndBlocks, blocks, hline]
      | declaration name =>
          -- the draft is complete, and the new one has the alternatives that follow
          have hblocks : blocks (line :: rest)
              = Draft.block (some { name }) (leadAndBlocks rest).1 ++ blocks rest := by
            simp [blocks, leadAndBlocks, hline, Draft.block]
          have hlead : (leadAndBlocks (line :: rest)).1 = [] := by
            simp [leadAndBlocks, hline]
          rw [hblocks, hlead, addAll_append, ← addDraft_eq_addAll]
          dsimp only
          exact congrArg _ (funext fun g' => ih g' _)
      | alternative fragment =>
          dsimp only
          rw [ih]
          cases draft <;> simp [leadAndBlocks, blocks, hline, Draft.block]

/-- **Reading lines adds their blocks in order**, until one of them is refused. -/
theorem addLines_eq_addAll (g : Grammar) (lines : List Text) (origin : Option Text) :
    g.addLines lines origin = g.addAll origin (blocks lines) :=
  addFrom_eq_addAll origin g none lines

/-! ## Lines of a declaration and of an alternative -/

namespace Line

theorem ofText_declaration (name : Text) : ofText ('*' :: name) = .declaration name := by
  unfold ofText
  rw [trim_cons (by decide)]
  rfl

/-- Behind a backslash an alternative stands for itself, whatever it begins with. -/
theorem ofText_escaped {a : Text} (h : ∀ c ∈ a.getLast?, isBlank c = false) :
    ofText ('\\' :: a) = .alternative a := by
  unfold ofText
  rw [trim_cons (by decide), trimEnd_eq_self h]
  rfl

end Line

end Grammar

/-! ## Mappings as sources -/

namespace Mapping

open Grammar

/-- The lines that declare the entries of a mapping. -/
def sourceLines (m : Mapping) : List Text :=
  m.flatMap fun entry => ('*' :: entry.1) :: entry.2.map ('\\' :: ·)

/-- A mapping written as a source. -/
def toSource (m : Mapping) : Text := unlines m.sourceLines

theorem leadAndBlocks_escaped {alternatives : List Text}
    (h : ∀ a ∈ alternatives, ∀ c ∈ a.getLast?, isBlank c = false) (rest : List Text) :
    leadAndBlocks (alternatives.map ('\\' :: ·) ++ rest)
      = (alternatives ++ (leadAndBlocks rest).1, (leadAndBlocks rest).2) := by
  induction alternatives with
  | nil => rfl
  | cons a alternatives ih =>
      have ih := ih fun b hb => h b (List.mem_cons_of_mem a hb)
      rw [List.map_cons, List.cons_append, leadAndBlocks,
        Line.ofText_escaped (h a List.mem_cons_self), ih]
      rfl

/-- The blocks of the lines of a mapping are its entries. The lines are as they are read, so a
name has lost a carriage return at its end. -/
theorem leadAndBlocks_sourceLines {m : Mapping}
    (h : ∀ entry ∈ m, ∀ a ∈ entry.2, ∀ c ∈ a.getLast?, isBlank c = false) :
    leadAndBlocks (m.sourceLines.map dropReturn)
      = ([], m.map fun entry => (dropReturn entry.1, entry.2)) := by
  induction m with
  | nil => rfl
  | cons entry m ih =>
      obtain ⟨name, alternatives⟩ := entry
      have ih := ih fun e he => h e (List.mem_cons_of_mem _ he)
      have hhere := h (name, alternatives) List.mem_cons_self
      have hreturn : (alternatives.map ('\\' :: ·)).map dropReturn
          = alternatives.map ('\\' :: ·) := by
        rw [List.map_map]
        refine List.map_congr_left fun a ha => ?_
        show dropReturn ('\\' :: a) = _
        rw [dropReturn_cons (by decide), dropReturn_eq_self (hhere a ha)]
      have hlines : (sourceLines ((name, alternatives) :: m)).map dropReturn
          = ('*' :: dropReturn name)
            :: (alternatives.map ('\\' :: ·) ++ (sourceLines m).map dropReturn) := by
        rw [sourceLines, List.flatMap_cons, List.map_append, List.map_cons, hreturn,
          dropReturn_cons (by decide)]
        rfl
      rw [hlines, leadAndBlocks, Line.ofText_declaration, leadAndBlocks_escaped hhere, ih]
      simp

theorem not_mem_sourceLines {m : Mapping} {c : Char} (hc : c ≠ '*' ∧ c ≠ '\\')
    (h : ∀ entry ∈ m, c ∉ entry.1 ∧ ∀ a ∈ entry.2, c ∉ a) : ∀ l ∈ m.sourceLines, c ∉ l := by
  intro l hl
  obtain ⟨entry, hentry, hl⟩ := List.mem_flatMap.mp hl
  obtain ⟨hname, halternatives⟩ := h entry hentry
  rcases List.mem_cons.mp hl with rfl | hl
  · exact List.not_mem_cons_of_ne_of_not_mem hc.1 hname
  · obtain ⟨a, ha, rfl⟩ := List.mem_map.mp hl
    exact List.not_mem_cons_of_ne_of_not_mem hc.2 (halternatives a ha)

end Mapping

namespace Grammar

/-- **A mapping and its source are the same to a grammar.** Let no name and no alternative of a
mapping hold a line feed, and no alternative end in a blank. Then reading the source of the
mapping leaves what adding the mapping leaves: the same fault or none, and the same grammar, also
where a fault ends the addition half-way. -/
theorem addText_toSource (g : Grammar) {m : Mapping}
    (hfeed : ∀ entry ∈ m, '\n' ∉ entry.1 ∧ ∀ a ∈ entry.2, '\n' ∉ a)
    (hblank : ∀ entry ∈ m, ∀ a ∈ entry.2, ∀ c ∈ a.getLast?, isBlank c = false) :
    g.addText m.toSource (some mappingOrigin) = g.addMapping m := by
  have hlines : m.toSource.lines = m.sourceLines.map dropReturn :=
    lines_unlines (Mapping.not_mem_sourceLines (by decide) hfeed)
  have hblocks : blocks (m.sourceLines.map dropReturn)
      = m.map fun entry => (dropReturn entry.1, entry.2) :=
    congrArg Prod.snd (Mapping.leadAndBlocks_sourceLines hblank)
  calc g.addText m.toSource (some mappingOrigin)
      = g.addAll (some mappingOrigin) (blocks m.toSource.lines) := addLines_eq_addAll g _ _
    _ = g.addAll (some mappingOrigin) (m.map fun entry => (dropReturn entry.1, entry.2)) := by
        rw [hlines, hblocks]
    _ = g.addAll (some mappingOrigin) m := addAll_map_congr trim_dropReturn _ g m
    _ = g.addMapping m := (addMapping_eq_addAll g m).symm

/-! ### Odd alternatives, and a name that is taken -/

/-- The category `b` with alternatives that look like something else, a category without a single
one, and `b` again. -/
def oddities : Mapping :=
  [([' ', 'b', '\r'], [[], ['#', 'x'], ['*', 'y'], ['\\', 'z'], [' ', ' ', 'w']]),
   (['c'], []), (['b', '\t'], [['q']]), (['d'], [])]

theorem oddities_addText_toSource :
    ((∀ entry ∈ oddities, '\n' ∉ entry.1 ∧ ∀ a ∈ entry.2, '\n' ∉ a) ∧
      ∀ entry ∈ oddities, ∀ a ∈ entry.2, ∀ c ∈ a.getLast?, isBlank c = false) ∧
    Grammar.addText {} oddities.toSource (some mappingOrigin) = Grammar.addMapping {} oddities ∧
    Grammar.addMapping {} oddities
      = ⟨{ categories :=
            [(['b'], [[], ['#', 'x'], ['*', 'y'], ['\\', 'z'], [' ', ' ', 'w']]), (['c'], [])] },
          some ⟨.nameTaken ['b'], some mappingOrigin⟩⟩ := by
  have hfeed : ∀ entry ∈ oddities, '\n' ∉ entry.1 ∧ ∀ a ∈ entry.2, '\n' ∉ a := by decide
  have hblank : ∀ entry ∈ oddities, ∀ a ∈ entry.2, ∀ c ∈ a.getLast?, isBlank c = false := by
    simp [oddities, isBlank, blankRanges]
  exact ⟨⟨hfeed, hblank⟩, addText_toSource {} hfeed hblank, by decide⟩

end Grammar

end PhraseGrammar

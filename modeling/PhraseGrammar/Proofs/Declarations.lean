import PhraseGrammar.Proofs.Categories
import PhraseGrammar.Proofs.Sources

set_option autoImplicit false

/-! # The categories that lines declare

What a source declares can be read off its lines, without any reading in between: each line that
begins with `*` declares a category, and the lines from there to the next such line are its
alternatives, but for those that are ignored (`Grammar.declared`). Reading the lines adds what
they declare, up to the first category whose name cannot be added
(`Grammar.addLines_eq_addEach`). The fault is settled by the line that declares that category, so
the lines behind it make no difference (`Grammar.addLines_spec`).
-/

namespace PhraseGrammar.Grammar

open Text

/-! ## Lines and what they declare -/

/-- A line that says nothing: it is blank, or its first character other than a blank is `#`. -/
def Ignored (line : Text) : Prop := line.trim = [] ∨ line.trim.head? = some '#'

/-- A line that declares a category. -/
def Declares (line : Text) : Prop := line.head? = some '*'

instance : DecidablePred Ignored := fun line =>
  inferInstanceAs (Decidable (line.trim = [] ∨ line.trim.head? = some '#'))

instance : DecidablePred Declares := fun line =>
  inferInstanceAs (Decidable (line.head? = some '*'))

/-- What a line says as an alternative. -/
def fragment (line : Text) : Text := Line.unescape line.trim

/-- The alternatives before the first declaration. -/
def lead (lines : List Text) : List Text :=
  ((lines.takeWhile (¬ Declares ·)).filter (¬ Ignored ·)).map fragment

/-- **The categories that lines declare**, each with the alternatives up to the next one. -/
def declared : List Text → Mapping
  | [] => []
  | line :: rest =>
    if Declares line then (trim line.tail, lead rest) :: declared rest else declared rest

theorem lead_cons_of_declares {line : Text} (h : Declares line) (rest : List Text) :
    lead (line :: rest) = [] := by
  simp [lead, h]

theorem lead_cons_of_ignored {line : Text} (hd : ¬ Declares line) (hi : Ignored line)
    (rest : List Text) : lead (line :: rest) = lead rest := by
  simp [lead, hd, hi]

theorem lead_cons {line : Text} (hd : ¬ Declares line) (hi : ¬ Ignored line)
    (rest : List Text) : lead (line :: rest) = fragment line :: lead rest := by
  simp [lead, hd, hi]

theorem declared_cons_of_declares {line : Text} (h : Declares line) (rest : List Text) :
    declared (line :: rest) = (trim line.tail, lead rest) :: declared rest := by
  rw [declared, if_pos h]

theorem declared_cons {line : Text} (h : ¬ Declares line) (rest : List Text) :
    declared (line :: rest) = declared rest := by
  rw [declared, if_neg h]

/-- The names of categories are trimmed. -/
theorem trim_of_mem_declared {lines : List Text} {entry : Text × List Text}
    (h : entry ∈ declared lines) : entry.1.trim = entry.1 := by
  induction lines with
  | nil => cases h
  | cons line rest ih =>
      by_cases hd : Declares line
      · rw [declared_cons_of_declares hd] at h
        rcases List.mem_cons.mp h with rfl | h
        · exact trim_trim _
        · exact ih h
      · rw [declared_cons hd] at h
        exact ih h

theorem trim_of_mem_attributedTo {lines : List Text} {origin : Option Text}
    {entry : Option Text × Text × List Text}
    (h : entry ∈ attributedTo origin (declared lines)) : entry.2.1.trim = entry.2.1 :=
  trim_attributedTo (fun _ => trim_of_mem_declared) origin entry h

/-! ## Lines before and behind others -/

theorem lead_append {lines : List Text} (h : lead lines = []) (before : List Text) :
    lead (before ++ lines) = lead before := by
  induction before with
  | nil => exact h
  | cons line before ih =>
      rw [List.cons_append]
      by_cases hd : Declares line
      · rw [lead_cons_of_declares hd, lead_cons_of_declares hd]
      by_cases hi : Ignored line
      · rw [lead_cons_of_ignored hd hi, lead_cons_of_ignored hd hi, ih]
      · rw [lead_cons hd hi, lead_cons hd hi, ih]

/-- Lines without alternatives before their first declaration leave those before them alone. -/
theorem declared_append {lines : List Text} (h : lead lines = []) (before : List Text) :
    declared (before ++ lines) = declared before ++ declared lines := by
  induction before with
  | nil => rfl
  | cons line before ih =>
      rw [List.cons_append]
      by_cases hd : Declares line
      · rw [declared_cons_of_declares hd, declared_cons_of_declares hd, lead_append h, ih]
        rfl
      · rw [declared_cons hd, declared_cons hd, ih]

theorem declared_append_cons (above : List Text) {line : Text} (h : Declares line)
    (below : List Text) :
    declared (above ++ line :: below)
      = declared above ++ (trim line.tail, lead below) :: declared below := by
  rw [declared_append (lead_cons_of_declares h below), declared_cons_of_declares h]

/-- Every category is declared by a line, and those before it by the lines above. -/
theorem exists_declaration {lines : List Text} {before after : Mapping}
    {entry : Text × List Text} (h : declared lines = before ++ entry :: after) :
    ∃ above line below, lines = above ++ line :: below ∧ Declares line ∧
      trim line.tail = entry.1 ∧ declared above = before := by
  induction lines generalizing before with
  | nil => simp [declared] at h
  | cons line rest ih =>
      by_cases hd : Declares line
      · rw [declared_cons_of_declares hd] at h
        cases before with
        | nil =>
            obtain ⟨rfl, -⟩ := List.cons.inj h
            exact ⟨[], line, rest, rfl, hd, rfl, rfl⟩
        | cons first before =>
            obtain ⟨rfl, hrest⟩ := List.cons.inj h
            obtain ⟨above, line', below, rfl, hd', hname, rfl⟩ := ih hrest
            -- the alternatives of the first category all stand above that line
            have hlead := lead_append (lead_cons_of_declares hd' below) above
            refine ⟨line :: above, line', below, rfl, hd', hname, ?_⟩
            rw [declared_cons_of_declares hd, hlead]
      · rw [declared_cons hd] at h
        obtain ⟨above, line', below, rfl, hd', hname, rfl⟩ := ih h
        exact ⟨line :: above, line', below, rfl, hd', hname, declared_cons hd above⟩

/-! ## Reading lines -/

theorem Line.ofText_of_declares {line : Text} (h : Declares line) :
    Line.ofText line = .declaration line.tail := by
  cases line with
  | nil => cases h
  | cons c rest =>
      obtain rfl : c = '*' := Option.some.inj h
      exact Line.ofText_declaration rest

theorem Line.ofText_of_ignored {line : Text} (h : Ignored line) :
    Line.ofText line = .ignored := by
  unfold Line.ofText
  dsimp only
  rw [if_pos]
  rcases h with h | h
  · simp [h]
  · simp [h]

theorem Line.ofText_of_alternative {line : Text} (hd : ¬ Declares line) (hi : ¬ Ignored line) :
    Line.ofText line = .alternative (fragment line) := by
  obtain ⟨hblank, hcomment⟩ := not_or.mp hi
  unfold Line.ofText
  dsimp only
  rw [if_neg (by simp [hblank, hcomment])]
  split
  · exact absurd rfl hd
  · rfl

/-- A declaration is not ignored. -/
theorem Declares.not_ignored {line : Text} (h : Declares line) : ¬ Ignored line := by
  intro hi
  have hline := Line.ofText_of_declares h
  rw [Line.ofText_of_ignored hi] at hline
  cases hline

/-- The blocks that are gathered from lines are what the lines declare. -/
theorem leadAndBlocks_eq (lines : List Text) :
    (leadAndBlocks lines).1 = lead lines ∧
      (blocks lines).map (fun entry => (entry.1.trim, entry.2)) = declared lines := by
  induction lines with
  | nil => exact ⟨rfl, rfl⟩
  | cons line rest ih =>
      obtain ⟨hlead, hblocks⟩ := ih
      rw [blocks] at hblocks ⊢
      rw [leadAndBlocks]
      by_cases hd : Declares line
      · rw [Line.ofText_of_declares hd, lead_cons_of_declares hd, declared_cons_of_declares hd,
          ← hlead, ← hblocks]
        exact ⟨rfl, rfl⟩
      rw [declared_cons hd]
      by_cases hi : Ignored line
      · rw [Line.ofText_of_ignored hi, lead_cons_of_ignored hd hi]
        exact ⟨hlead, hblocks⟩
      · rw [Line.ofText_of_alternative hd hi, lead_cons hd hi, ← hlead]
        exact ⟨rfl, hblocks⟩

theorem addAll_eq_addEach (origin : Option Text) (g : Grammar) (m : Mapping) :
    g.addAll origin m = g.addEach (attributedTo origin m) := by
  induction m generalizing g with
  | nil => rfl
  | cons entry rest ih =>
      obtain ⟨name, alternatives⟩ := entry
      rw [attributedTo, List.map_cons, addAll, addEach]
      exact congrArg _ (funext fun g' => ih g')

/-- **Reading lines adds what they declare.** -/
theorem addLines_eq_addEach (g : Grammar) (lines : List Text) (origin : Option Text) :
    g.addLines lines origin = g.addEach (attributedTo origin (declared lines)) := by
  calc g.addLines lines origin
      = g.addAll origin (blocks lines) := addLines_eq_addAll g lines origin
    _ = g.addAll origin ((blocks lines).map fun entry => (entry.1.trim, entry.2)) :=
        (addAll_map_congr trim_trim origin g _).symm
    _ = g.addAll origin (declared lines) := by rw [(leadAndBlocks_eq lines).2]
    _ = g.addEach (attributedTo origin (declared lines)) := addAll_eq_addEach origin g _

/-- Lines that declare a fresh mapping are read without a fault. -/
theorem addLines_of_fresh {g : Grammar} {lines : List Text} (h : Fresh g (declared lines))
    (origin : Option Text) :
    (g.addLines lines origin).fault = none ∧
      Joins g (declared lines) (g.addLines lines origin).grammar := by
  rw [← map_snd_attributedTo origin (declared lines)] at h
  obtain ⟨g', hg', hjoins⟩ := addEach_of_fresh h fun _ => trim_of_mem_attributedTo
  rw [map_snd_attributedTo] at hjoins
  rw [addLines_eq_addEach, hg']
  exact ⟨rfl, hjoins⟩

/-- The first line that declares a category whose name cannot be added, with the lines above it
and below it. -/
structure FirstRefused (g : Grammar) (lines above : List Text) (line : Text) (below : List Text)
    (cause : GrammarError.Cause) : Prop where
  eq : lines = above ++ line :: below
  declares : Declares line
  fresh : Fresh g (declared above)
  refuses : Refuses g (declared above) (trim line.tail) cause

/-- There is such a line if what the lines declare is not fresh. -/
theorem exists_firstRefused {g : Grammar} {lines : List Text} (h : ¬ Fresh g (declared lines)) :
    ∃ above line below cause, FirstRefused g lines above line below cause := by
  obtain ⟨before, name, alternatives, after, cause, heq, hfresh, hcause⟩ := exists_refused h
  obtain ⟨above, line, below, hlines, hd, hname, rfl⟩ := exists_declaration heq
  exact ⟨above, line, below, cause, hlines, hd, hfresh, by rwa [hname]⟩

/-- **A line whose category is refused ends the reading**, whatever stands below it. -/
theorem FirstRefused.addLines_eq {g : Grammar} {lines above below : List Text} {line : Text}
    {cause : GrammarError.Cause} (h : FirstRefused g lines above line below cause)
    (origin : Option Text) (below' : List Text) :
    g.addLines (above ++ line :: below') origin
      = ⟨(g.addLines above origin).grammar, some ⟨cause, origin⟩⟩ := by
  have hfresh := h.fresh
  have hrefuses := h.refuses
  rw [← map_snd_attributedTo origin (declared above)] at hfresh hrefuses
  rw [addLines_eq_addEach, addLines_eq_addEach, declared_append_cons above h.declares,
    attributedTo, List.map_append, List.map_cons]
  exact addEach_of_refuses hfresh hrefuses (fun _ => trim_of_mem_attributedTo) (trim_trim _)

/-- **What reading lines does.** It succeeds exactly if the names of the categories that the lines
declare are fresh, and then joins these categories to the grammar. Otherwise it fails at the first
line whose category is refused, for the reason why it is refused and with the source given: the
categories declared above that line are joined to the grammar, and the lines below it make no
difference. -/
theorem addLines_spec (g : Grammar) (lines : List Text) (origin : Option Text) :
    ((g.addLines lines origin).fault = none ↔ Fresh g (declared lines)) ∧
    (Fresh g (declared lines) → Joins g (declared lines) (g.addLines lines origin).grammar) ∧
    (¬ Fresh g (declared lines) →
      ∃ above line below cause g', FirstRefused g lines above line below cause ∧
        declared lines = declared above ++ (trim line.tail, lead below) :: declared below ∧
        Joins g (declared above) g' ∧
        ∀ below', g.addLines (above ++ line :: below') origin = ⟨g', some ⟨cause, origin⟩⟩) := by
  refine ⟨⟨fun hnone => ?_, fun h => (addLines_of_fresh h origin).1⟩,
    fun h => (addLines_of_fresh h origin).2, fun h => ?_⟩
  · by_contra h
    obtain ⟨above, line, below, cause, hfirst⟩ := exists_firstRefused h
    rw [hfirst.eq, hfirst.addLines_eq origin below] at hnone
    cases hnone
  · obtain ⟨above, line, below, cause, hfirst⟩ := exists_firstRefused h
    refine ⟨above, line, below, cause, (g.addLines above origin).grammar, hfirst, ?_,
      (addLines_of_fresh hfirst.fresh origin).2, fun below' => hfirst.addLines_eq origin below'⟩
    rw [hfirst.eq, declared_append_cons above hfirst.declares]

/-! ### A source with all kinds of lines -/

/-- A line before the first declaration, comments, blank lines, a category without alternatives,
and the category `b` for the second time. -/
def mixedLines : List Text :=
  [['x'], ['*', ' ', 'b', ' '], [' ', 'y', '\t'], [' ', '#', 'z'], ['\\', '#', 'z'], [' '],
    ['*', 'c'], ['*', 'b', '\t'], ['w'], ['*']]

example : declared mixedLines
    = [(['b'], [['y'], ['#', 'z']]), (['c'], []), (['b'], [['w']]), ([], [])] := by decide

theorem mixedLines_addLines_spec :
    (Fresh {} (declared (mixedLines.take 7)) ∧ ¬ Fresh {} (declared mixedLines)) ∧
    Joins {} (declared (mixedLines.take 7))
      (Grammar.addLines {} (mixedLines.take 7) none).grammar ∧
    ∃ above line below cause g', FirstRefused {} mixedLines above line below cause ∧
      declared mixedLines = declared above ++ (trim line.tail, lead below) :: declared below ∧
      Joins {} (declared above) g' ∧
      ∀ below', Grammar.addLines {} (above ++ line :: below') none = ⟨g', some ⟨cause, none⟩⟩ := by
  have hfresh : Fresh {} (declared (mixedLines.take 7)) :=
    ⟨by decide, by decide, by decide⟩
  have hnot : ¬ Fresh {} (declared mixedLines) := fun h => absurd h.distinct (by decide)
  exact ⟨⟨hfresh, hnot⟩, (addLines_spec {} (mixedLines.take 7) none).2.1 hfresh,
    (addLines_spec {} mixedLines none).2.2 hnot⟩

end PhraseGrammar.Grammar

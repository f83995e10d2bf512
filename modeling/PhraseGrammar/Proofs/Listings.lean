import PhraseGrammar.Proofs.LoadHistories
import PhraseGrammar.Proofs.Spaces

set_option autoImplicit false

/-! # The listing of the categories

A server lists the names of its categories one below the other. The names are trimmed and not
empty, so each of them gives its own lines back, in order, and nothing else
(`Text.lines_joinLines`): a name is never lost and never merged with another one. It can only be
split, and it is split exactly if it holds a line feed (`Text.lines_joinLines_eq_iff`).

A name that is read from a text holds no line feed, since it comes from one line. A name of a
mapping can hold one: trimming removes blanks at its ends only. So a listing can be read again
exactly as long as the mapping that was put in place last, if there was one, has no such name
(`Server.listing_spec`).
-/

namespace PhraseGrammar

/-! ## Lines of names that are listed -/

namespace Text

/-- Induction on the lines of a text: the property holds of a text without a line feed, and of a
text with a line before another one that has it. -/
@[elab_as_elim]
theorem lines_induction {P : Text → Prop} (line : ∀ t, '\n' ∉ t → P t)
    (above : ∀ t rest, '\n' ∉ t → P rest → P (t ++ '\n' :: rest)) (t : Text) : P t := by
  induction h : t.length using Nat.strong_induction_on generalizing t with
  | _ n ih =>
      subst h
      by_cases hfeed : '\n' ∈ t
      · obtain ⟨first, rest, rfl, hfirst⟩ := List.eq_append_cons_of_mem hfeed
        have hlt : rest.length < (first ++ '\n' :: rest).length := by
          rw [List.length_append, List.length_cons]
          omega
        exact above first rest hfirst (ih rest.length hlt rest rfl)
      · exact line t hfeed

theorem lines_of_not_mem {t : Text} (h : '\n' ∉ t) (hne : t ≠ []) : t.lines = [t] := by
  rw [lines, List.splitOn_eq_singleton h, closeLines, if_neg (by simpa using hne)]

theorem dropReturn_subset (t : Text) : dropReturn t ⊆ t := by
  unfold dropReturn
  split
  · exact List.dropLast_subset t
  · exact List.Subset.refl t

/-- No line holds a line feed. -/
theorem not_mem_of_mem_lines {t : Text} : ∀ l ∈ t.lines, '\n' ∉ l := by
  induction t using lines_induction with
  | line t ht =>
      intro l hl
      by_cases hne : t = []
      · subst hne
        cases hl
      · rw [lines_of_not_mem ht hne, List.mem_singleton] at hl
        exact hl ▸ ht
  | above t rest ht ih =>
      intro l hl
      rw [lines_append_cons_of_not_mem ht] at hl
      rcases List.mem_cons.mp hl with rfl | hl
      · exact fun hfeed => ht (dropReturn_subset t hfeed)
      · exact ih l hl

/-- A text that ends in a character other than a blank keeps its lines before another text. -/
theorem lines_append_cons {t : Text} (hne : t ≠ []) (h : ∀ c ∈ t.getLast?, isBlank c = false)
    (rest : Text) : (t ++ '\n' :: rest).lines = t.lines ++ rest.lines := by
  induction t using lines_induction with
  | line t ht =>
      rw [lines_append_cons_of_not_mem ht, lines_of_not_mem ht hne, dropReturn_eq_self h]
      rfl
  | above t behind ht ih =>
      -- the text goes on behind the line feed, which is a blank
      have hbehind : behind ≠ [] := by
        rintro rfl
        exact absurd (h '\n' (by simp)) (by decide)
      have hlast : ∀ c ∈ behind.getLast?, isBlank c = false := by
        intro c hc
        refine h c ?_
        rw [List.getLast?_append_cons, List.getLast?_cons_of_ne_nil hbehind]
        exact hc
      rw [List.append_assoc, List.cons_append, lines_append_cons_of_not_mem ht, ih hbehind hlast,
        lines_append_cons_of_not_mem ht, List.cons_append]

theorem not_isBlank_of_mem_getLast?_trim {t : Text} :
    ∀ c ∈ t.trim.getLast?, isBlank c = false := by
  intro c hc
  have hhead := List.head?_dropWhile_not isBlank t.trimStart.reverse
  rw [trim, trimEnd, List.getLast?_reverse] at hc
  rw [Option.mem_def.mp hc] at hhead
  simpa using hhead

variable {names : List Text}

/-- **Names one below the other** give the lines of the names, in order. -/
theorem lines_joinLines (h : ∀ name ∈ names, name ≠ [] ∧ name.trim = name) :
    (joinLines names).lines = names.flatMap lines := by
  induction names with
  | nil => rfl
  | cons name names ih =>
      have ih := ih fun other hother => h other (List.mem_cons_of_mem name hother)
      obtain ⟨hne, htrim⟩ := h name List.mem_cons_self
      cases names with
      | nil => simp [joinLines]
      | cons next names =>
          have hlast : ∀ c ∈ name.getLast?, isBlank c = false := by
            rw [← htrim]
            exact not_isBlank_of_mem_getLast?_trim
          have hjoin : joinLines (name :: next :: names)
              = name ++ '\n' :: joinLines (next :: names) := by
            simp [joinLines, List.intercalate_cons_cons]
          rw [hjoin, lines_append_cons hne hlast, ih]
          rfl

/-- **Names are read again** exactly if none of them holds a line feed. -/
theorem lines_joinLines_eq_iff (h : ∀ name ∈ names, name ≠ [] ∧ name.trim = name) :
    (joinLines names).lines = names ↔ ∀ name ∈ names, '\n' ∉ name := by
  constructor
  · intro heq name hname
    rw [← heq] at hname
    exact not_mem_of_mem_lines name hname
  · intro hfeed
    calc (joinLines names).lines
        = names.flatMap lines := lines_joinLines h
      _ = names.flatMap fun name => [name] :=
          List.flatMap_congr fun name hname => lines_of_not_mem (hfeed name hname) (h name hname).1
      _ = names := List.flatMap_singleton' names

end Text

/-! ## Names on one line -/

/-- No name of the mapping holds a line feed behind trimming. -/
def Mapping.OneLine (m : Mapping) : Prop := ∀ entry ∈ m, '\n' ∉ entry.1.trim

namespace Grammar

/-- Every name stands on one line. -/
def OneLine (g : Grammar) : Prop := ∀ name ∈ g.names, '\n' ∉ name

/-- An addition by which no name comes in that holds a line feed behind trimming. A text and the
files of a folder are read by lines, and bring in no such name anyway. -/
def Addition.OneLine : Addition → Prop
  | .category name _ _ => '\n' ∉ name.trim
  | .lines ls _ => ∀ line ∈ ls, '\n' ∉ line
  | .mapping m => m.OneLine
  | .text _ _ | .folder _ _ => True

variable {g : Grammar}

theorem oneLine_empty : OneLine {} := by
  intro name hname
  cases hname

theorem OneLine.add (hg : g.OneLine) {name : Text} (hname : '\n' ∉ name.trim)
    (alternatives : List Text) (origin : Option Text) :
    (g.add name alternatives origin).grammar.OneLine := by
  unfold Grammar.add
  cases hinsert : g.insert name alternatives origin with
  | error e => exact hg
  | ok g' =>
      intro other hother
      rcases mem_names_of_insert hinsert hother with hold | rfl
      · exact hg other hold
      · exact hname

theorem OneLine.addEach (hg : g.OneLine) {entries : Attributed}
    (h : ∀ entry ∈ entries, '\n' ∉ entry.2.1.trim) : (g.addEach entries).grammar.OneLine := by
  induction entries generalizing g with
  | nil => exact hg
  | cons entry rest ih =>
      obtain ⟨origin, name, alternatives⟩ := entry
      have hname : '\n' ∉ name.trim := h (origin, name, alternatives) List.mem_cons_self
      have hrest := fun other hother => h other (List.mem_cons_of_mem _ hother)
      exact Extended.andThen_preserves (hg.add hname alternatives origin) fun _ hg' => ih hg' hrest

/-- A name that lines declare is a part of one of them. -/
theorem exists_line_of_mem_declared {lines : List Text} {entry : Text × List Text}
    (h : entry ∈ declared lines) : ∃ line ∈ lines, entry.1 ⊆ line := by
  induction lines with
  | nil => cases h
  | cons line rest ih =>
      have hbehind : entry ∈ declared rest → ∃ other ∈ line :: rest, entry.1 ⊆ other := by
        intro hentry
        obtain ⟨other, hother, hsubset⟩ := ih hentry
        exact ⟨other, List.mem_cons_of_mem line hother, hsubset⟩
      by_cases hd : Declares line
      · rw [declared_cons_of_declares hd] at h
        rcases List.mem_cons.mp h with rfl | h
        · exact ⟨line, List.mem_cons_self, fun c hc =>
            List.mem_of_mem_tail ((Text.trim_sublist_self line.tail).subset hc)⟩
        · exact hbehind h
      · rw [declared_cons hd] at h
        exact hbehind h

theorem OneLine.addLines (hg : g.OneLine) {lines : List Text} (h : ∀ line ∈ lines, '\n' ∉ line)
    (origin : Option Text) : (g.addLines lines origin).grammar.OneLine := by
  rw [addLines_eq_addEach]
  refine hg.addEach fun entry hentry => ?_
  obtain ⟨block, hblock, rfl⟩ := List.mem_map.mp hentry
  obtain ⟨line, hline, hsubset⟩ := exists_line_of_mem_declared hblock
  rw [trim_of_mem_declared hblock]
  exact fun hfeed => h line hline (hsubset hfeed)

theorem OneLine.addText (hg : g.OneLine) (text : Text) (origin : Option Text) :
    (g.addText text origin).grammar.OneLine :=
  hg.addLines Text.not_mem_of_mem_lines origin

theorem OneLine.addMapping (hg : g.OneLine) {m : Mapping} (h : m.OneLine) :
    (g.addMapping m).grammar.OneLine := by
  rw [addMapping_eq_addEach]
  refine hg.addEach fun entry hentry => ?_
  obtain ⟨block, hblock, rfl⟩ := List.mem_map.mp hentry
  obtain ⟨given, hgiven, rfl⟩ := List.mem_map.mp hblock
  rw [Text.trim_trim]
  exact h given hgiven

/-- **Names stay on one line** in an addition that brings in no other ones. -/
theorem OneLine.extend (hg : g.OneLine) {addition : Addition} (h : addition.OneLine) :
    (g.extend addition).grammar.OneLine := by
  cases addition with
  | category name alternatives origin => exact hg.add h alternatives origin
  | text text origin => exact hg.addText text origin
  | lines lines origin => exact hg.addLines h origin
  | mapping m => exact hg.addMapping h
  | folder read root =>
      exact addFolder_preserves (fun _ text origin hg' => hg'.addText text origin) hg read root

theorem oneLine_history {additions : List Addition}
    (h : ∀ addition ∈ additions, addition.OneLine) : (history additions).OneLine := by
  induction additions using List.reverseRecOn with
  | nil => exact oneLine_empty
  | append_singleton additions addition ih =>
      have hbefore := ih fun other hother => h other (List.mem_append_left _ hother)
      rw [history_append_singleton]
      exact hbefore.extend (h addition (by simp))

/-- A mapping without a fault brings in all of its names. -/
theorem oneLine_addMapping_iff {m : Mapping} (h : (addMapping {} m).fault = none) :
    (addMapping {} m).grammar.OneLine ↔ m.OneLine := by
  refine ⟨fun hone entry hentry => ?_, oneLine_empty.addMapping⟩
  have hname : entry.1.trim ∈ (trimmed m).map Prod.fst :=
    List.mem_map.mpr ⟨_, List.mem_map_of_mem hentry, rfl⟩
  exact hone entry.1.trim ((joins_addMapping h).mem_names.mpr (.inr hname))

end Grammar

/-! ## The listing of a server -/

/-- A call that asks for no name that holds a line feed behind trimming. -/
def Call.OneLine (c : Call) : Prop := ∀ m, c.request = .replace m → m.OneLine

namespace Server

open Grammar

variable {s : Server} {c : Call} {calls : List Call}

theorem handle_categories (s : Server) (around : Surroundings) :
    s.handle around .categories = (.ok (Text.joinLines s.engine.grammar.names), s) := rfl

/-- The lines of the listing are the names of the categories. -/
def ListsNames (s : Server) : Prop :=
  ∀ around, (s.handle around .categories).1.body.toText.lines = s.engine.grammar.names

/-- The call puts a grammar in place, and no call of the list behind it does. -/
def PutsLast (s : Server) (calls : List Call) (c : Call) : Prop :=
  ∃ before after, calls = before ++ c :: after ∧ (s.run before).2.Succeeds c ∧
    ((s.run before).2.serve c).2.Quiet after

theorem quiet_or_exists_putsLast (s : Server) (calls : List Call) :
    s.Quiet calls ∨ ∃ c ∈ calls, s.PutsLast calls c := by
  rcases servesLast s calls with ⟨hquiet, -⟩ | ⟨before, c, after, rfl, hok, hquiet, -⟩
  · exact .inl hquiet
  · exact .inr ⟨c, by simp, before, after, rfl, hok, hquiet⟩

theorem fault_of_succeeds {m : Mapping} (hreq : c.request = .replace m) (hok : s.Succeeds c) :
    (addMapping {} m).fault = none := by
  obtain ⟨engine, root, hb⟩ := succeeds_iff.mp hok
  rw [building_of_replace hreq, Option.some.injEq, Prod.mk.injEq] at hb
  cases hfault : (addMapping {} m).fault with
  | none => rfl
  | some fault =>
      rw [Engine.ofMapping_of_fault hfault] at hb
      cases hb.1

/-- A grammar that is put in place has its names on one line exactly if it comes from a folder, or
from a mapping that has. -/
theorem oneLine_placed_iff (hok : s.Succeeds c) : (s.placed c).OneLine ↔ c.OneLine := by
  cases hreq : c.request with
  | reload root =>
      have hfolder : (s.placed c).OneLine := by
        simp only [placed, hreq]
        exact addFolder_preserves (fun _ text origin hg => hg.addText text origin) oneLine_empty
          c.around.read _
      exact ⟨fun _ m hm => by simp [hreq] at hm, fun _ => hfolder⟩
  | replace m =>
      have hcall : c.OneLine ↔ m.OneLine := by
        simp [Call.OneLine, hreq]
      rw [hcall, ← oneLine_addMapping_iff (fault_of_succeeds hreq hok)]
      simp only [placed, hreq]
  | _ => simp [Succeeds, Request.puts, hreq] at hok

theorem PutsLast.grammar (h : s.PutsLast calls c) :
    ∃ before, (s.run before).2.Succeeds c ∧
      (s.run calls).2.engine.grammar = (s.run before).2.placed c := by
  obtain ⟨before, after, rfl, hok, hquiet⟩ := h
  refine ⟨before, hok, ?_⟩
  rw [run_append, run_cons]
  exact (run_grammar_of_quiet hquiet).1.trans (placed_of_succeeds hok)

/-- **A listing gives the names** exactly if they stand on one line. -/
theorem listsNames_iff : s.ListsNames ↔ s.engine.grammar.OneLine := by
  rw [OneLine, ← Text.lines_joinLines_eq_iff s.engine.grammar.named_of_mem_names]
  exact ⟨fun hlists => hlists ⟨fun _ => none, [], .replicate 8 0⟩, fun heq _ => heq⟩

/-- **The listing of the categories.** Every server answers the names of its categories one below
the other, in the strict order of the bytes of their UTF-8 forms. The lines of the answer are the
lines of the names, in order, so they are the names exactly if no name holds a line feed. This is so
where the grammar was made of texts, folders and lines, and of categories and mappings without such
a name. After more calls it is so exactly if the call that put a grammar in place last did not ask
for such a name, and if no call did, exactly if it was so before. -/
theorem listing_spec (s : Server) :
    (∀ around, s.handle around .categories
      = (.ok (Text.joinLines s.engine.grammar.names), s)) ∧
    (s.engine.grammar.names.map Text.utf8).Pairwise (· < ·) ∧
    (Text.joinLines s.engine.grammar.names).lines = s.engine.grammar.names.flatMap Text.lines ∧
    (s.ListsNames ↔ ∀ name ∈ s.engine.grammar.names, '\n' ∉ name) ∧
    (∀ additions, s.engine.grammar = history additions →
      (∀ addition ∈ additions, addition.OneLine) → s.ListsNames) ∧
    ∀ calls,
      (s.Quiet calls → ((s.run calls).2.ListsNames ↔ s.ListsNames)) ∧
      (∀ c, s.PutsLast calls c → ((s.run calls).2.ListsNames ↔ c.OneLine)) ∧
      (s.ListsNames → (∀ c ∈ calls, c.OneLine) → (s.run calls).2.ListsNames) := by
  let g := s.engine.grammar
  refine ⟨handle_categories s, g.sorted_utf8_names, Text.lines_joinLines g.named_of_mem_names,
    listsNames_iff, ?_, fun calls => ?_⟩
  · intro additions hgrammar hadditions
    rw [listsNames_iff, hgrammar]
    exact oneLine_history hadditions
  · have hquiet : s.Quiet calls → ((s.run calls).2.ListsNames ↔ s.ListsNames) := by
      intro hquiet
      rw [listsNames_iff, listsNames_iff, (run_grammar_of_quiet hquiet).1]
    have hputs : ∀ c, s.PutsLast calls c → ((s.run calls).2.ListsNames ↔ c.OneLine) := by
      intro c hlast
      obtain ⟨before, hok, hgrammar⟩ := hlast.grammar
      rw [listsNames_iff, hgrammar, oneLine_placed_iff hok]
    refine ⟨hquiet, hputs, fun hlists hcalls => ?_⟩
    rcases quiet_or_exists_putsLast s calls with hnone | ⟨c, hc, hlast⟩
    · exact (hquiet hnone).mpr hlists
    · exact (hputs c hlast).mpr (hcalls c hc)

/-! ### A name with a line feed -/

/-- A mapping with a name that holds a line feed, and another name. -/
def brokenName : Mapping := [(['a', '\n', 'b'], []), (['c', '\n'], [])]

/-- A name of a mapping is listed as two. -/
theorem brokenName_listed_as_two :
    texts (ofFolderA.run [amongTwo (.replace [(['a', '\n', 'b'], [])]), amongTwo .categories]).1
      = [(200, "Loaded 1 categories"), (200, "a\nb")] ∧
    Text.lines ['a', '\n', 'b'] = [['a'], ['b']] ∧
    ¬ ∀ (s : Server) (calls : List Call), s.engine.grammar = {} →
      (s.run calls).2.ListsNames := by
  have htexts : texts (ofFolderA.run
        [amongTwo (.replace [(['a', '\n', 'b'], [])]), amongTwo .categories]).1
      = [(200, "Loaded 1 categories"), (200, "a\nb")] := by
    decide +kernel
  refine ⟨htexts, by decide +kernel, fun h => ?_⟩
  have hlists := h ofFolderA [amongTwo (.replace [(['a', '\n', 'b'], [])])] rfl
    (amongTwo .categories).around
  revert hlists
  decide +kernel

/-- The mapping is put in place and its listing has a line too many, until a folder takes its
place. -/
theorem brokenName_listing_spec :
    (ofFolderA.PutsLast [amongTwo (.replace brokenName), amongTwo .categories]
        (amongTwo (.replace brokenName)) ∧
      ofFolderA.PutsLast [amongTwo (.replace brokenName), amongTwo (.reload (some ['B']))]
        (amongTwo (.reload (some ['B'])))) ∧
    ¬ (ofFolderA.run [amongTwo (.replace brokenName), amongTwo .categories]).2.ListsNames ∧
    (ofFolderA.run
      [amongTwo (.replace brokenName), amongTwo (.reload (some ['B']))]).2.ListsNames := by
  have hbroken : ofFolderA.PutsLast [amongTwo (.replace brokenName), amongTwo .categories]
      (amongTwo (.replace brokenName)) :=
    ⟨[], [amongTwo .categories], rfl, ⟨rfl, by decide +kernel⟩, nofun, trivial⟩
  have hfolder : ofFolderA.PutsLast
      [amongTwo (.replace brokenName), amongTwo (.reload (some ['B']))]
      (amongTwo (.reload (some ['B']))) :=
    ⟨[amongTwo (.replace brokenName)], [], rfl, ⟨rfl, by decide +kernel⟩, trivial⟩
  obtain ⟨-, -, -, -, -, hsessions⟩ := listing_spec ofFolderA
  refine ⟨⟨hbroken, hfolder⟩, fun hlists => ?_, ?_⟩
  · have hone := (hsessions _).2.1 _ hbroken |>.mp hlists brokenName rfl
      (['a', '\n', 'b'], []) (by decide)
    exact hone (by decide)
  · exact (hsessions _).2.1 _ hfolder |>.mpr nofun

end Server

end PhraseGrammar

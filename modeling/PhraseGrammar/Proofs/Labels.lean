import PhraseGrammar.Proofs.EarlyCalls
import PhraseGrammar.Proofs.TagsInOrder
import PhraseGrammar.Proofs.Unproductive
import PhraseGrammar.Proofs.WordStreams
import Mathlib.Data.List.Nodup

set_option autoImplicit false

/-! # Labels

Equal tags agree, and a label makes a tag differ from the others with its key. So tags with one key
and distinct labels are replaced one by one, each by an alternative of its own: a replacement takes a
whole tag, brackets included, and one label may well be the beginning of another, or hold what is
read as a mark of a tag elsewhere.

Each of these tags draws once, from left to right, and each draw can be any of the alternatives
(`Expander.exists_words_drawValues`). So all combinations of alternatives are phrases of the query
(`Engine.exists_words_phrase`).
-/

namespace PhraseGrammar

open Expander Letter Tag Text

/-! ## Labelled tags -/

/-- The tag with a key, a label and no marker. -/
def Tag.labelled (key label : Text) : Tag := ⟨.named, key, some label⟩

theorem Tag.PlainKey.labelled {key label : Text} (h : PlainKey key) (hfree : BracketFree label)
    (hsingle : ¬ Doubled label) : (labelled key label).Plain where
  named := rfl
  bracketFree := bracketFree_append.mpr
    ⟨h.bracketFree, bracketFree_cons.mpr ⟨by decide, hfree⟩⟩
  single := by
    show ¬ Doubled (key ++ '#' :: label)
    rw [doubled_append_cons (by decide), not_or]
    exact ⟨h.not_doubled, hsingle⟩
  no_marker := by
    intro c hc
    have hc : c ∈ (key ++ '#' :: label).head? := hc
    cases key with
    | nil =>
        obtain rfl := Option.some.inj hc
        decide
    | cons a key => exact h.no_marker c hc
  no_terms := h.no_slash
  no_label_mark := h.no_label

theorem Tag.body_labelled_injective (key : Text) :
    Function.Injective fun label => (labelled key label).body := by
  intro label label' h
  have h : key ++ '#' :: label = key ++ '#' :: label' := h
  simpa using h

/-! ## The query -/

section Separated

variable {α β : Type}

theorem flatMap_intersperse (f : α → List β) (sep : α) (l : List α) :
    (l.intersperse sep).flatMap f = (f sep).intercalate (l.map f) := by
  induction l with
  | nil => rfl
  | cons a l ih =>
      cases l with
      | nil => simp [List.intercalate]
      | cons b l =>
          rw [List.intersperse_cons_cons, List.flatMap_cons, List.flatMap_cons, ih, List.map_cons,
            List.map_cons, List.map_cons, List.intercalate_cons_cons, List.append_assoc]

theorem mem_of_mem_intersperse {sep a : α} {l : List α} (h : a ∈ l.intersperse sep) :
    a = sep ∨ a ∈ l := by
  induction l with
  | nil => exact Or.inr h
  | cons b l ih =>
      cases l with
      | nil => exact Or.inr h
      | cons c l =>
          rw [List.intersperse_cons_cons] at h
          rcases List.mem_cons.mp h with rfl | h
          · exact Or.inr List.mem_cons_self
          · rcases List.mem_cons.mp h with rfl | h
            · exact Or.inl rfl
            · exact (ih h).imp_right (List.mem_cons_of_mem b)

theorem insides_intersperse (c : Char) (ls : List Letter) :
    insides (ls.intersperse (char c)) = insides ls := by
  induction ls with
  | nil => rfl
  | cons l ls ih =>
      cases ls with
      | nil => rfl
      | cons m ls =>
          rw [List.intersperse_cons_cons]
          cases l with
          | char a => rw [insides_char_cons, insides_char_cons, ih, insides_char_cons]
          | tag b => rw [insides_tag_cons, insides_char_cons, ih, insides_tag_cons]

end Separated

/-- The query `[key#l₁]|[key#l₂]|…`, as letters. -/
def labelLetters (key : Text) (labels : List Text) : List Letter :=
  (labels.map fun label => tag (labelled key label).body).intersperse (char '|')

/-- **The query** `[key#l₁]|[key#l₂]|…`. -/
def labelQuery (key : Text) (labels : List Text) : Text :=
  ['|'].intercalate (labels.map fun label => (labelled key label).unmarked)

theorem text_labelLetters (key : Text) (labels : List Text) :
    text (labelLetters key labels) = labelQuery key labels := by
  rw [text, labelLetters, flatMap_intersperse, List.map_map]
  rfl

theorem insides_labelLetters (key : Text) (labels : List Text) :
    insides (labelLetters key labels) = labels.map fun label => (labelled key label).body := by
  rw [labelLetters, insides_intersperse, insides, List.filterMap_map, ← List.filterMap_eq_map]
  rfl

theorem substituted_labelLetters (value : Text → Text) (key : Text) (labels : List Text) :
    substituted value (labelLetters key labels)
      = ['|'].intercalate (labels.map fun label => value (labelled key label).body) := by
  rw [substituted, labelLetters, flatMap_intersperse, List.map_map]
  rfl

theorem mem_labelLetters {key : Text} {labels : List Text} {l : Letter}
    (h : l ∈ labelLetters key labels) :
    l = char '|' ∨ ∃ label ∈ labels, l = tag (labelled key label).body := by
  refine (mem_of_mem_intersperse h).imp_right fun hl => ?_
  obtain ⟨label, hlabel, rfl⟩ := List.mem_map.mp hl
  exact ⟨label, hlabel, rfl⟩

/-! ## Picking an alternative for each label -/

/-- Labels that tell tags apart, each with the alternative that its tag is to show. -/
structure Picks (alternatives : List Text) (picks : List (Text × Text)) : Prop where
  distinct : (picks.map Prod.fst).Nodup
  bracketFree : ∀ p ∈ picks, BracketFree p.1
  single : ∀ p ∈ picks, ¬ Doubled p.1
  among : ∀ p ∈ picks, p.2 ∈ alternatives

/-- The tags of the labels, with what they are to draw. -/
def pickOutcomes (key : Text) (picks : List (Text × Text)) : Outcomes :=
  picks.map fun p => ((labelled key p.1).body, p.2)

/-- What a tag is to show. -/
def pickValue (key : Text) (picks : List (Text × Text)) (inside : Text) : Text :=
  ((pickOutcomes key picks).lookup inside).getD []

variable {key : Text} {alternatives : List Text} {picks : List (Text × Text)}

theorem Picks.plain (h : Picks alternatives picks) (hkey : PlainKey key) {label : Text}
    (hlabel : label ∈ picks.map Prod.fst) : (labelled key label).Plain := by
  obtain ⟨p, hp, rfl⟩ := List.mem_map.mp hlabel
  exact hkey.labelled (h.bracketFree p hp) (h.single p hp)

theorem Picks.nodup_outcomes (h : Picks alternatives picks) (key : Text) :
    ((pickOutcomes key picks).map Prod.fst).Nodup := by
  have hmap : (pickOutcomes key picks).map Prod.fst
      = (picks.map Prod.fst).map fun label => (labelled key label).body := by
    simp [pickOutcomes, Function.comp_def]
  rw [hmap]
  exact List.Nodup.map (body_labelled_injective key) h.distinct

/-- A tag is to show what stands with its label. -/
theorem Picks.value_eq (h : Picks alternatives picks) (key : Text) {p : Text × Text}
    (hp : p ∈ picks) : pickValue key picks (labelled key p.1).body = p.2 := by
  have hmem : ((labelled key p.1).body, p.2) ∈ pickOutcomes key picks :=
    List.mem_map.mpr ⟨p, hp, rfl⟩
  rw [pickValue, lookup_of_mem (h.nodup_outcomes key) hmem]
  rfl

namespace Expander

variable {x : Expander}

/-- A labelled tag draws an alternative of its key. -/
theorem drawValue_labelled {σ : Type} [WordSource σ] {label : Text} {s : σ}
    (hplain : (labelled key label).Plain) (ho : x.overrides.lookup key = none)
    (hg : x.grammar.get? key = some alternatives) :
    x.drawValue (ofInside (labelled key label).body) s = pick alternatives s := by
  have hs : '/' ∉ (labelled key label).key := hplain.no_terms
  rw [hplain.ofInside_body, drawValue, if_neg (by simp [labelled]), resolve, if_neg hs]
  simp only [labelled, ho, hg, Option.getD_some]

/-- **Every combination is drawn** by some words, which are all that is taken from the source. -/
theorem exists_words_drawValues (ho : x.overrides.lookup key = none)
    (hg : x.grammar.get? key = some alternatives) (hcount : alternatives.length < UInt32.size)
    (hplain : ∀ p ∈ picks, (labelled key p.1).Plain) (hamong : ∀ p ∈ picks, p.2 ∈ alternatives) :
    ∃ words : List UInt32, ∀ rest : Stream' UInt32,
      x.drawValues (picks.map fun p => (labelled key p.1).body) (words ++ₛ rest)
        = (pickOutcomes key picks, rest) := by
  induction picks with
  | nil => exact ⟨[], fun rest => rfl⟩
  | cons p picks ih =>
      obtain ⟨first, hfirst⟩ := exists_words_pick (hamong p List.mem_cons_self) hcount
      obtain ⟨words, hwords⟩ := ih (fun q hq => hplain q (List.mem_cons_of_mem p hq))
        fun q hq => hamong q (List.mem_cons_of_mem p hq)
      refine ⟨first ++ words, fun rest => ?_⟩
      rw [List.map_cons, drawValues, Stream'.append_append_stream,
        drawValue_labelled (hplain p List.mem_cons_self) ho hg, hfirst]
      dsimp only
      rw [hwords]
      rfl

end Expander

/-! ## The phrase -/

/-- The texts of the picks, with strokes between them. -/
def pickTexts (picks : List (Text × Text)) : Text := ['|'].intercalate (picks.map Prod.snd)

/-- The query with its tags replaced one by one. -/
def pickPhrase (key : Text) (picks : List (Text × Text)) : Text :=
  let ls := labelLetters key (picks.map Prod.fst)
  (text (replaceInOrder (pickValue key picks) (insides ls).eraseDups ls)).trim

/-- The tags of the query are those of the picks. -/
theorem insides_picks (key : Text) (picks : List (Text × Text)) :
    insides (labelLetters key (picks.map Prod.fst))
      = picks.map fun p => (labelled key p.1).body := by
  rw [insides_labelLetters, List.map_map]
  rfl

theorem exists_pick {inside : Text} (h : inside ∈ insides (labelLetters key (picks.map Prod.fst))) :
    ∃ p ∈ picks, inside = (labelled key p.1).body := by
  rw [insides_picks] at h
  obtain ⟨p, hp, rfl⟩ := List.mem_map.mp h
  exact ⟨p, hp, rfl⟩

/-- All of them have the same key. -/
theorem Picks.ofInside_eq (h : Picks alternatives picks) (hkey : PlainKey key) {inside : Text}
    (hinside : inside ∈ insides (labelLetters key (picks.map Prod.fst))) :
    ∃ label, ofInside inside = labelled key label := by
  obtain ⟨p, hp, rfl⟩ := exists_pick hinside
  exact ⟨p.1, (h.plain hkey (List.mem_map_of_mem hp)).ofInside_body⟩

theorem Picks.eraseDups_insides (h : Picks alternatives picks) (key : Text) :
    (insides (labelLetters key (picks.map Prod.fst))).eraseDups
      = picks.map fun p => (labelled key p.1).body := by
  have hnodup := List.Nodup.map (body_labelled_injective key) h.distinct
  rw [← insides_labelLetters] at hnodup
  rw [eraseDups_eq_self hnodup, insides_picks]

theorem Picks.substituted_eq (h : Picks alternatives picks) (key : Text) :
    substituted (pickValue key picks) (labelLetters key (picks.map Prod.fst))
      = pickTexts picks := by
  rw [substituted_labelLetters, pickTexts, List.map_map]
  exact congrArg _ (List.map_congr_left fun p hp => h.value_eq key hp)

theorem Picks.squeeze_phrase (h : Picks alternatives picks) (key : Text) :
    squeeze ' ' (pickPhrase key picks) = squeeze ' ' (pickTexts picks).trim := by
  refine squeeze_trim_congr ?_
  rw [squeeze_text_replaceInOrder, h.substituted_eq]

theorem Picks.room_eq (h : Picks alternatives picks) (key : Text) :
    room (pickValue key picks) (labelLetters key (picks.map Prod.fst))
      = (labelQuery key (picks.map Prod.fst)).byteSize + (picks.map (·.2.byteSize)).sum := by
  have hvalues : (picks.map fun p => (labelled key p.1).body).map
      (fun inside => (pickValue key picks inside).byteSize) = picks.map (·.2.byteSize) := by
    rw [List.map_map]
    exact List.map_congr_left fun p hp => congrArg byteSize (h.value_eq key hp)
  rw [room, text_labelLetters, insides_picks, hvalues]

/-- An alternative brings in neither a tag nor a mark. -/
theorem Picks.value_free (h : Picks alternatives picks)
    (htexts : ∀ v ∈ alternatives, BracketFree v ∧ '$' ∉ v) (key : Text) {inside : Text}
    (hinside : inside ∈ insides (labelLetters key (picks.map Prod.fst))) :
    BracketFree (pickValue key picks inside) := by
  obtain ⟨p, hp, rfl⟩ := exists_pick hinside
  rw [h.value_eq key hp]
  exact (htexts _ (h.among p hp)).1

theorem Picks.no_mark (h : Picks alternatives picks)
    (htexts : ∀ v ∈ alternatives, BracketFree v ∧ '$' ∉ v) :
    ¬ Article.opening <:+: pickTexts picks := by
  intro hi
  have hmem : '$' ∈ substituted (pickValue [] picks) (labelLetters [] (picks.map Prod.fst)) := by
    rw [h.substituted_eq]
    exact hi.mem (by decide)
  obtain ⟨l, hl, hdollar⟩ := List.mem_flatMap.mp hmem
  rcases mem_labelLetters hl with rfl | ⟨label, hlabel, rfl⟩
  · cases List.mem_singleton.mp hdollar
  · obtain ⟨p, hp, rfl⟩ := List.mem_map.mp hlabel
    have hdollar : '$' ∈ pickValue [] picks (labelled [] p.1).body := hdollar
    rw [h.value_eq [] hp] at hdollar
    exact (htexts _ (h.among p hp)).2 hdollar

/-- The expansion of the query, with the draws that were picked. -/
theorem Expander.expand_labels {x : Expander} (hkey : PlainKey key)
    (hg : x.grammar.get? key = some alternatives) (hcounting : x.counting = false)
    (htexts : ∀ v ∈ alternatives, BracketFree v ∧ '$' ∉ v) (hpicks : Picks alternatives picks)
    (hcycles : picks.length < x.cycleLimit)
    (hsize : (labelQuery key (picks.map Prod.fst)).byteSize + (picks.map (·.2.byteSize)).sum
      ≤ x.sizeLimit)
    {σ : Type} [WordSource σ] {source source' : σ}
    (hdrawn : x.drawValues (picks.map fun p => (labelled key p.1).body) source
      = (pickOutcomes key picks, source')) :
    ∃ d, x.expand (labelQuery key (picks.map Prod.fst)) source = (.ok (pickPhrase key picks), d) ∧
      d.source = source' := by
  -- the draws of the tags, in order
  have hresolvable : ∀ inside ∈ picks.map fun p => (labelled key p.1).body,
      x.Resolvable (ofInside inside).key := by
    intro inside hin
    rw [← insides_picks] at hin
    obtain ⟨label, hlabel⟩ := hpicks.ofInside_eq hkey hin
    rw [hlabel]
    exact Or.inr (Or.inr (Option.isSome_iff_exists.mpr ⟨alternatives, hg⟩))
  obtain ⟨hvalues, hsource⟩ := drawAll_eq_drawValues hcounting hresolvable ⟨source, {}⟩
  rw [hdrawn] at hvalues hsource
  have houtcomes : (picks.map fun p => (labelled key p.1).body).map
      (fun b => (b, pickValue key picks b)) = pickOutcomes key picks := by
    rw [List.map_map]
    exact List.map_congr_left fun p hp => Prod.ext rfl (hpicks.value_eq key hp)
  refine ⟨_, ?_, hsource⟩
  rw [← text_labelLetters, pickPhrase]
  refine expand_eq_replaceInOrder ?_ ?_ ?_ ?_ ?_ ?_ ?_ ?_
  · intro l hl
    rcases mem_labelLetters hl with rfl | ⟨label, hlabel, rfl⟩
    · decide
    · have hlabel := hpicks.plain hkey hlabel
      exact ⟨hlabel.bracketFree, hlabel.single⟩
  · intro inside hin
    obtain ⟨label, hlabel⟩ := hpicks.ofInside_eq hkey hin
    simp [hlabel, labelled]
  · exact fun inside hin => (hpicks.value_free htexts key hin).1
  · intro inside hin
    have hmem := List.mem_eraseDups.mp (List.mem_of_mem_dropLast hin)
    exact (hpicks.value_free htexts key hmem).2
  · rw [hpicks.substituted_eq]
    exact hpicks.no_mark htexts
  · rwa [hpicks.eraseDups_insides, List.length_map]
  · rwa [hpicks.room_eq]
  · rw [hpicks.eraseDups_insides, houtcomes]
    exact Prod.ext hvalues rfl

namespace Engine

/-- **Labelled tags are independent.** The tags of a query have one plain key, of a category with
fewer than `2 ^ 32` alternatives that hold no bracket and no dollar sign, and distinct labels. For
every choice of an alternative for each of them there are words from which the phrase of the query
is what was chosen, trimmed, but for runs of spaces; the words are used up, and no other is taken. -/
theorem exists_words_phrase {g : Grammar} (settings : EngineSettings) (hkey : PlainKey key)
    (hg : g.get? key = some alternatives) (hcount : alternatives.length < UInt32.size)
    (htexts : ∀ v ∈ alternatives, BracketFree v ∧ '$' ∉ v) (hpicks : Picks alternatives picks)
    (hcycles : picks.length < settings.cycleLimit.toNat)
    (hsize : (labelQuery key (picks.map Prod.fst)).byteSize + (picks.map (·.2.byteSize)).sum
      ≤ settings.sizeLimit.toNat) :
    ∃ (words : List UInt32) (phrase : Text),
      squeeze ' ' phrase = squeeze ' ' (pickTexts picks).trim ∧
      ∀ rest : Stream' UInt32,
        Engine.phrase ⟨g, settings, words ++ₛ rest⟩ (labelQuery key (picks.map Prod.fst))
          = (.ok phrase, ⟨g, settings, rest⟩) := by
  have hplain : ∀ p ∈ picks, (labelled key p.1).Plain :=
    fun p hp => hpicks.plain hkey (List.mem_map_of_mem hp)
  -- the expander of the engine, whatever its source
  let x : Expander :=
    { grammar := g
      cycleLimit := settings.cycleLimit.toNat
      sizeLimit := settings.sizeLimit.toNat }
  obtain ⟨words, hwords⟩ := exists_words_drawValues (x := x) rfl hg hcount hplain hpicks.among
  refine ⟨words, pickPhrase key picks, hpicks.squeeze_phrase key, fun rest => ?_⟩
  obtain ⟨d, hexpand, hsource⟩ :=
    expand_labels (x := x) hkey hg rfl htexts hpicks hcycles hsize (hwords rest)
  have hexpand : (Engine.expander ⟨g, settings, words ++ₛ rest⟩ []).expand
      (labelQuery key (picks.map Prod.fst)) (words ++ₛ rest) = (.ok (pickPhrase key picks), d) :=
    hexpand
  rw [phrase_eq, hexpand, hsource]
  rfl

/-! ### Labels that look alike -/

/-- A category with three animals. -/
def pets : Grammar where
  categories := [(['k'], [['c', 'a', 't'], ['d', 'o', 'g'], ['o', 'w', 'l']])]

/-- The query `[k#]|[k#1]|[k#1#/]` is to show an owl, a cat and an owl. -/
def petPicks : List (Text × Text) :=
  [([], ['o', 'w', 'l']), (['1'], ['c', 'a', 't']), (['1', '#', '/'], ['o', 'w', 'l'])]

theorem petPicks_exists_words_phrase :
    labelQuery ['k'] (petPicks.map Prod.fst) = "[k#]|[k#1]|[k#1#/]".toList ∧
    ∃ (words : List UInt32) (phrase : Text),
      squeeze ' ' phrase = "owl|cat|owl".toList ∧
      ∀ rest : Stream' UInt32,
        Engine.phrase ⟨pets, .default, words ++ₛ rest⟩ (labelQuery ['k'] (petPicks.map Prod.fst))
          = (.ok phrase, ⟨pets, .default, rest⟩) := by
  have hpicks : Picks [['c', 'a', 't'], ['d', 'o', 'g'], ['o', 'w', 'l']] petPicks :=
    ⟨by decide, by decide, by decide, by decide⟩
  obtain ⟨words, phrase, hsqueeze, hphrase⟩ := exists_words_phrase .default
    (by decide) (rfl : pets.get? ['k'] = _) (by decide) (by decide) hpicks (by decide +kernel)
    (by decide +kernel)
  have htexts : squeeze ' ' (pickTexts petPicks).trim = "owl|cat|owl".toList := by decide +kernel
  exact ⟨by decide +kernel, words, phrase, hsqueeze.trans htexts, hphrase⟩

end Engine

end PhraseGrammar

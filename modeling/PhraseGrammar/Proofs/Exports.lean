import PhraseGrammar.Proofs.LoadHistories
import PhraseGrammar.Proofs.WrittenValues

set_option autoImplicit false

/-! # Exported grammars

A server answers its grammar as an object with one field, and the value of that field is the
mapping of its categories. The object itself is no mapping (`Grammar.ofJson?_toJson`), so it cannot
be put in place as it is answered. The value inside can be, by the same server or by another one:

* it is read as the categories of the grammar, and no other value has its written form
  (`Mapping.ofJson?_eq_some_iff`, `Json.render_injective`);
* these categories make the same grammar again, in any order (`Grammar.addMapping_of_perm`);
* a server that does not validate what it loads puts them in place (`Server.handle_replace_perm`).
-/

namespace PhraseGrammar

/-! ## Mappings as values -/

namespace Json

variable {v : Json}

/-- A list is read item by item as `l` exactly if it is written item by item from `l`. -/
theorem mapM_eq_some_iff {α β : Type} {read : α → Option β} {write : β → α}
    (h : ∀ a b, read a = some b ↔ a = write b) {items : List α} {l : List β} :
    items.mapM read = some l ↔ items = l.map write := by
  induction items generalizing l with
  | nil => cases l <;> simp
  | cons a items ih =>
      simp only [List.mapM_cons, Option.bind_eq_bind, Option.bind_eq_some_iff, h, ih]
      cases l <;> simp

theorem text?_eq_some_iff {t : Text} : v.text? = some t ↔ v = .string t := by
  cases v <;> simp [text?]

theorem texts?_eq_some_iff {ts : List Text} :
    v.texts? = some ts ↔ v = .array (ts.map .string) := by
  cases v with
  | array items => simp [texts?, mapM_eq_some_iff fun _ _ => text?_eq_some_iff]
  | _ => simp [texts?]

end Json

/-- **A value holds a mapping** exactly if it is the mapping as an object. -/
theorem Mapping.ofJson?_eq_some_iff {v : Json} {m : Mapping} :
    Mapping.ofJson? v = some m ↔ v = m.toJson := by
  cases v with
  | object fields =>
      simp only [Mapping.ofJson?, Mapping.toJson, Json.object.injEq]
      refine Json.mapM_eq_some_iff fun field entry => ?_
      obtain ⟨name, value⟩ := field
      obtain ⟨name', alternatives⟩ := entry
      simp [Json.texts?_eq_some_iff, and_comm]
  | _ => simp [Mapping.ofJson?, Mapping.toJson]

/-- A whole grammar is an object, but the value of its only field is no list. -/
theorem Grammar.ofJson?_toJson (g : Grammar) : Mapping.ofJson? g.toJson = none := rfl

/-! ## Putting an exported grammar in place -/

/-- A new engine that does not validate takes every mapping that can be added. -/
theorem Engine.ofMapping_of_no_fault {settings : EngineSettings} {fresh : Vector UInt32 8}
    {m : Mapping} {g : Grammar} (hsettings : settings.validateOnLoad = false)
    (h : Grammar.addMapping {} m = ⟨g, none⟩) :
    ofMapping settings fresh m = .ok { create settings fresh with grammar := g } := by
  have hload : (create settings fresh).loadMapping m
      = (.ok (), { create settings fresh with grammar := g }) := by
    show (create settings fresh).load (Grammar.addMapping {} m) = _
    rw [h]
    exact if_neg (by simp [create, hsettings])
  exact ofMapping_eq_ok.mpr hload

namespace Server

theorem handle_grammar (s : Server) (around : Surroundings) :
    s.handle around .grammar = (.okJson s.engine.grammar.toJson, s) := rfl

/-- **The categories of a grammar are put in place** in any order, by a server that does not
validate what it loads. -/
theorem handle_replace_perm {t : Server} (ht : t.settings.validateOnLoad = false) (g : Grammar)
    {m : Mapping} (hm : m.Perm g.categories) (around : Surroundings) :
    let engine := { Engine.create t.settings around.freshKey with grammar := g }
    t.handle around (.replace m) = (.loaded engine, { t with engine }) := by
  have hbuilt : Engine.ofMapping t.settings around.freshKey m
      = .ok { Engine.create t.settings around.freshKey with grammar := g } :=
    Engine.ofMapping_of_no_fault ht (g.addMapping_of_perm hm)
  rw [handle_replace, hbuilt]
  rfl

/-- **An exported grammar can be imported**, but not as it is answered. Every server answers its
grammar as an object with the single field `categories`, and nothing that is written like this
object is a mapping. Whatever is written like the value of the field is read as the categories of
the grammar. And these, sent in any order to a server that does not validate what it loads, to the
same one or to another one, are put in place: the answer is a success, and the server after it has a
new engine with the same grammar, and its folder and its settings as before. -/
theorem export_imports (s : Server) {t : Server} (ht : t.settings.validateOnLoad = false)
    (around around' : Surroundings) :
    ∃ inner : Json,
      s.handle around .grammar = (.okJson (.object [("categories".toList, inner)]), s) ∧
      (∀ read : Json, read.render = (s.handle around .grammar).1.body.toText →
        Mapping.ofJson? read = none) ∧
      (∀ read : Json, read.render = inner.render →
        Mapping.ofJson? read = some s.engine.grammar.categories) ∧
      ∀ m : Mapping, m.Perm s.engine.grammar.categories →
        (t.handle around' (.replace m)).1
            = .ok ("Loaded " ++ toString s.engine.grammar.size ++ " categories").toList ∧
          (t.handle around' (.replace m)).1.status = 200 ∧
          (t.handle around' (.replace m)).2.engine.grammar = s.engine.grammar ∧
          (t.handle around' (.replace m)).2
            = { t with engine :=
                { Engine.create t.settings around'.freshKey with grammar := s.engine.grammar } } := by
  refine ⟨s.engine.grammar.categories.toJson, rfl, ?_, ?_, ?_⟩
  · intro read hread
    have hwhole : read = s.engine.grammar.toJson := Json.render_injective hread
    rw [hwhole, Grammar.ofJson?_toJson]
  · intro read hread
    exact Mapping.ofJson?_eq_some_iff.mpr (Json.render_injective hread)
  · intro m hm
    rw [handle_replace_perm ht s.engine.grammar hm]
    exact ⟨rfl, rfl, rfl, rfl⟩

/-! ### One category, and two that are written with escapes -/

/-- A server that was sent one category. -/
def owlServer : Server :=
  (ofFolderA.serve (amongTwo (.replace [("animal".toList, ["owl".toList])]))).2

/-- What a server answers is not what it accepts. -/
theorem owlServer_export_not_mapping :
    texts [(owlServer.serve (amongTwo .grammar)).1]
      = [(200, "\x7b\"categories\":\x7b\"animal\":[\"owl\"]\x7d\x7d")] ∧
    ¬ ∀ (s : Server) (calls : List Call) (around : Surroundings), s.engine.grammar = {} →
      s.settings.validateOnLoad = false →
      ∃ value m, ((s.run calls).2.handle around .grammar).1 = .okJson value ∧
        Mapping.ofJson? value = some m ∧
        ((s.run calls).2.handle around (.replace m)).1.status = 200 ∧
        ((s.run calls).2.handle around (.replace m)).2.engine.grammar
          = (s.run calls).2.engine.grammar := by
  have htexts : texts [(owlServer.serve (amongTwo .grammar)).1]
      = [(200, "\x7b\"categories\":\x7b\"animal\":[\"owl\"]\x7d\x7d")] := by
    decide +kernel
  refine ⟨htexts, fun h => ?_⟩
  obtain ⟨value, m, hanswer, hread, -⟩ :=
    h ofFolderA [amongTwo (.replace [("animal".toList, ["owl".toList])])] (noFiles 0) rfl rfl
  rw [handle_grammar] at hanswer
  cases hanswer
  rw [Grammar.ofJson?_toJson] at hread
  cases hread

/-- A server that was sent two categories, and then one without a name. -/
def quotedServer : Server :=
  (ofFolderA.run [amongTwo (.replace [([' ', 'é'], [['"'], []]), (['z'], [['\n']])]),
    amongTwo (.replace [([], [])])]).2

theorem quotedServer_export_imports :
    ofFolderA.settings.validateOnLoad = false ∧
    ∃ inner : Json,
      quotedServer.handle (noFiles 0) .grammar
        = (.okJson (.object [("categories".toList, inner)]), quotedServer) ∧
      texts [.okJson inner] = [(200, "\x7b\"z\":[\"\\n\"],\"é\":[\"\\\"\",\"\"]\x7d")] ∧
      Mapping.ofJson? inner = some [(['z'], [['\n']]), (['é'], [['"'], []])] ∧
      texts [(ofFolderA.handle (noFiles 1)
          (.replace [(['é'], [['"'], []]), (['z'], [['\n']])])).1]
        = [(200, "Loaded 2 categories")] ∧
      (ofFolderA.handle (noFiles 1)
          (.replace [(['é'], [['"'], []]), (['z'], [['\n']])])).2.engine.grammar
        = quotedServer.engine.grammar := by
  have hsettings : ofFolderA.settings.validateOnLoad = false := by decide
  have hcategories : quotedServer.engine.grammar.categories
      = [(['z'], [['\n']]), (['é'], [['"'], []])] := by
    decide +kernel
  have hperm : List.Perm [(['é'], [['"'], []]), (['z'], [['\n']])]
      quotedServer.engine.grammar.categories := by
    rw [hcategories]
    exact List.Perm.swap _ _ _
  obtain ⟨inner, hanswer, -, hinner, hput⟩ :=
    export_imports quotedServer hsettings (noFiles 0) (noFiles 1)
  obtain ⟨hloaded, -, hgrammar, -⟩ := hput _ hperm
  have hread := hinner inner rfl
  rw [hcategories] at hread
  refine ⟨hsettings, inner, hanswer, ?_, hread, ?_, hgrammar⟩
  · rw [Mapping.ofJson?_eq_some_iff.mp hread]
    decide +kernel
  · rw [hloaded]
    decide +kernel

end Server

end PhraseGrammar

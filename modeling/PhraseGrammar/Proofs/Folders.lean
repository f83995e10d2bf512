import PhraseGrammar.Grammar.Folder
import PhraseGrammar.Proofs.Declarations

set_option autoImplicit false

/-! # Sources one behind the other

Reading lines twice, one source behind the other, is reading them once if the second source opens
with a declaration (`Grammar.Opens`), since it then leaves the last category of the first source
alone (`Grammar.addLines_append`). So a folder whose files all open with one is read like the lines
of its files in the order of the index. What remains of the division into files is the source that
a fault is attributed to: it is the entry of the file that declares the category of the fault
(`Grammar.concatenation_spec`).
-/

namespace PhraseGrammar.Grammar

open Text

/-! ## Two sources -/

/-- The first line that is not ignored, if there is one, declares a category. -/
def Opens (lines : List Text) : Prop := ∀ line, lines.find? (¬ Ignored ·) = some line → Declares line

/-- Lines open with a declaration exactly if they have no alternatives before it. -/
theorem opens_iff {lines : List Text} : Opens lines ↔ lead lines = [] := by
  induction lines with
  | nil => simp [Opens, lead]
  | cons line rest ih =>
      unfold Opens at ih ⊢
      by_cases hd : Declares line
      · rw [lead_cons_of_declares hd, List.find?_cons_of_pos (by simpa using hd.not_ignored)]
        simp [hd]
      by_cases hi : Ignored line
      · rw [lead_cons_of_ignored hd hi, List.find?_cons_of_neg (by simpa using hi), ih]
      · rw [lead_cons hd hi, List.find?_cons_of_pos (by simpa using hi)]
        simp [hd]

/-- **Two sources, one behind the other**, are read like the lines of both. -/
theorem addLines_append (g : Grammar) {lines : List Text} (h : Opens lines) (before : List Text)
    (origin : Option Text) :
    g.addLines (before ++ lines) origin
      = (g.addLines before origin).andThen (·.addLines lines origin) := by
  have hsecond : (fun g' : Grammar => g'.addLines lines origin)
      = fun g' => g'.addEach (attributedTo origin (declared lines)) :=
    funext fun g' => addLines_eq_addEach g' lines origin
  rw [hsecond, addLines_eq_addEach, addLines_eq_addEach, declared_append (opens_iff.mp h),
    attributedTo, List.map_append, addEach_append]
  rfl

/-! ## The files of a folder -/

/-- The index of the folder lists files with the given entries and texts, in this order. -/
structure HasFiles (read : Reader) (root : Text) (files : List (Text × Text)) : Prop where
  index : ∃ index, read.text? (Path.join root indexName) = some (.ok index) ∧
    indexEntries index = files.map Prod.fst
  file : ∀ file ∈ files, read.text? (Path.join root file.1) = some (.ok file.2)

/-- The lines of all files, one file behind the other. -/
def allLines (files : List (Text × Text)) : List Text := files.flatMap (·.2.lines)

/-- The categories that files declare, each attributed to the entry of its file. -/
def declaredIn (files : List (Text × Text)) : Attributed :=
  files.flatMap fun file => attributedTo (some file.1) (declared file.2.lines)

theorem trim_of_mem_declaredIn {files : List (Text × Text)}
    {entry : Option Text × Text × List Text} (h : entry ∈ declaredIn files) :
    entry.2.1.trim = entry.2.1 := by
  obtain ⟨file, -, hentry⟩ := List.mem_flatMap.mp h
  exact trim_of_mem_attributedTo hentry

/-- The categories are attributed to entries. -/
theorem exists_origin_of_mem_declaredIn {files : List (Text × Text)}
    {entry : Option Text × Text × List Text} (h : entry ∈ declaredIn files) :
    ∃ origin, entry.1 = some origin := by
  obtain ⟨file, -, hentry⟩ := List.mem_flatMap.mp h
  obtain ⟨block, -, rfl⟩ := List.mem_map.mp hentry
  exact ⟨file.1, rfl⟩

theorem addFiles_eq_addEach {read : Reader} {root : Text} {files : List (Text × Text)}
    (h : ∀ file ∈ files, read.text? (Path.join root file.1) = some (.ok file.2)) (g : Grammar) :
    g.addFiles read root (files.map Prod.fst) = g.addEach (declaredIn files) := by
  induction files generalizing g with
  | nil => rfl
  | cons file rest ih =>
      have hread := h file List.mem_cons_self
      have hfile : g.addFile read root file.1
          = g.addEach (attributedTo (some file.1) (declared file.2.lines)) := by
        unfold addFile
        simp only [hread]
        exact addLines_eq_addEach g file.2.lines (some file.1)
      have ih := ih fun other hother => h other (List.mem_cons_of_mem file hother)
      rw [List.map_cons, addFiles, hfile, declaredIn, List.flatMap_cons, addEach_append]
      exact congrArg _ (funext ih)

/-- Reading a folder adds what its files declare. -/
theorem HasFiles.addFolder_eq {read : Reader} {root : Text} {files : List (Text × Text)}
    (h : HasFiles read root files) (g : Grammar) :
    g.addFolder read root = g.addEach (declaredIn files) := by
  obtain ⟨index, hread, hentries⟩ := h.index
  unfold addFolder
  simp only [hread, hentries]
  exact addFiles_eq_addEach h.file g

/-- Files that open with a declaration declare what their lines declare together. -/
theorem declared_allLines {files : List (Text × Text)} (h : ∀ file ∈ files, Opens file.2.lines) :
    lead (allLines files) = [] ∧
      declared (allLines files) = (declaredIn files).map Prod.snd := by
  induction files with
  | nil => exact ⟨rfl, rfl⟩
  | cons file rest ih =>
      obtain ⟨hlead, hdeclared⟩ := ih fun other hother => h other (List.mem_cons_of_mem file hother)
      have hfile := opens_iff.mp (h file List.mem_cons_self)
      have hlines : allLines (file :: rest) = file.2.lines ++ allLines rest := rfl
      have hentries : declaredIn (file :: rest)
          = attributedTo (some file.1) (declared file.2.lines) ++ declaredIn rest := rfl
      rw [hlines, lead_append hlead, declared_append hlead, hentries, List.map_append,
        map_snd_attributedTo, hdeclared]
      exact ⟨hfile, rfl⟩

/-! ## Folders and concatenation -/

/-- The lines of all files are read like the folder, but for the source of a fault. -/
theorem HasFiles.addLines_allLines {read : Reader} {root : Text} {files : List (Text × Text)}
    (h : HasFiles read root files) (hopens : ∀ file ∈ files, Opens file.2.lines) (g : Grammar)
    (origin : Option Text) :
    g.addLines (allLines files) origin
      = ⟨(g.addFolder read root).grammar,
          (g.addFolder read root).fault.map fun fault => { fault with origin }⟩ := by
  rw [addLines_eq_addEach, (declared_allLines hopens).2, addEach_reattributed, h.addFolder_eq]

/-- **Sources compose by concatenation.** Lines that open with a declaration can be read behind
others or together with them. A folder whose files all open with one leaves the grammar that the
lines of its files leave, one file behind the other. There is a fault in both cases or in none,
and the cause is the same. The fault of the folder is attributed to the entry of the file that
declares the category of the fault, which is the first one that is refused. -/
theorem concatenation_spec :
    (∀ (g : Grammar) (before lines : List Text) (origin : Option Text), Opens lines →
      g.addLines (before ++ lines) origin
        = (g.addLines before origin).andThen (·.addLines lines origin)) ∧
    ∀ (g : Grammar) (read : Reader) (root : Text) (files : List (Text × Text))
      (origin : Option Text), HasFiles read root files → (∀ file ∈ files, Opens file.2.lines) →
      (g.addFolder read root).grammar = (g.addLines (allLines files) origin).grammar ∧
      (g.addLines (allLines files) origin).fault
        = (g.addFolder read root).fault.map (fun fault => { fault with origin }) ∧
      ∀ fault, (g.addFolder read root).fault = some fault →
        ∃ before entry name alternatives after,
          declaredIn files = before ++ (some entry, name, alternatives) :: after ∧
          fault.origin = some entry ∧ Fresh g (before.map Prod.snd) ∧
          Refuses g (before.map Prod.snd) name fault.cause := by
  refine ⟨fun g before _ origin h => addLines_append g h before origin, ?_⟩
  intro g read root files origin h hopens
  rw [h.addLines_allLines hopens g origin]
  refine ⟨rfl, rfl, fun fault hfault => ?_⟩
  rw [h.addFolder_eq] at hfault
  obtain ⟨before, name, alternatives, after, heq, hfresh, hcause⟩ :=
    exists_refused_of_fault (fun _ => trim_of_mem_declaredIn) hfault
  have hmem : (fault.origin, name, alternatives) ∈ declaredIn files := by simp [heq]
  obtain ⟨entry, hentry⟩ := exists_origin_of_mem_declaredIn hmem
  have hentry : fault.origin = some entry := hentry
  rw [hentry] at heq
  exact ⟨before, entry, name, alternatives, after, heq, hentry, hfresh, hcause⟩

/-! ### Two files with one category in common -/

/-- The files of a folder, in the order of its index. -/
def twoFiles : List (Text × Text) :=
  [("f".toList, "\n*a\nx".toList), ("g".toList, "# g\n*b\n*a".toList)]

/-- A folder with these files. -/
def folderOfTwo : Reader := fun path =>
  if path = "A/index.grammar".toList then some (.ok "f\n\n g\n".toUTF8)
  else if path = "A/f".toList then some (.ok "\n*a\nx".toUTF8)
  else if path = "A/g".toList then some (.ok "# g\n*b\n*a".toUTF8)
  else none

theorem hasFiles_folderOfTwo : HasFiles folderOfTwo ['A'] twoFiles where
  index := ⟨"f\n\n g\n".toList, by decide +kernel⟩
  file := by decide +kernel

theorem twoFiles_concatenation_spec :
    (∀ file ∈ twoFiles, Opens file.2.lines) ∧ HasFiles folderOfTwo ['A'] twoFiles ∧
    (Grammar.addFolder {} folderOfTwo ['A']).fault = some ⟨.nameTaken ['a'], some ['g']⟩ ∧
    (Grammar.addLines {} (allLines twoFiles) none).fault = some ⟨.nameTaken ['a'], none⟩ ∧
    Grammar.addLines {} ([['*', 'a']] ++ [['*', 'b']]) none
      = (Grammar.addLines {} [['*', 'a']] none).andThen (·.addLines [['*', 'b']] none) := by
  obtain ⟨happend, hfolder⟩ := concatenation_spec
  have hopens : ∀ file ∈ twoFiles, Opens file.2.lines := by
    intro file hfile
    rw [opens_iff]
    revert file
    decide +kernel
  have hfault : (Grammar.addFolder {} folderOfTwo ['A']).fault
      = some ⟨.nameTaken ['a'], some ['g']⟩ := by decide +kernel
  obtain ⟨-, hsame, -⟩ := hfolder {} folderOfTwo ['A'] twoFiles none hasFiles_folderOfTwo hopens
  refine ⟨hopens, hasFiles_folderOfTwo, hfault, ?_, happend {} _ _ none (opens_iff.mpr (by decide))⟩
  rw [hsame, hfault]
  rfl

end PhraseGrammar.Grammar

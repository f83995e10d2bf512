set_option autoImplicit false

/-! # Texts

A text is a list of Unicode characters. Queries, tags, category names and alternatives are
texts, so that every operation on them is an operation on lists and can be reasoned about by
recursion.

Positions and sizes are counted in **bytes** of the UTF-8 form: `Text.byteSize` is the size of
a text, and the column of a character is the size of what stands before it (`Text.columnOf?`).
`Text.breakOn` cuts a text at the first occurrence of a mark.
-/

namespace PhraseGrammar

/-- A text, as the list of its characters. -/
abbrev Text := List Char

namespace Text

/-! ## Size -/

/-- The number of bytes of the UTF-8 form. -/
def byteSize (t : Text) : Nat := t.foldl (fun n c => n + c.utf8Size) 0

private theorem foldl_utf8Size (t : Text) (n : Nat) :
    t.foldl (fun n c => n + c.utf8Size) n = n + byteSize t := by
  induction t generalizing n with
  | nil => simp [byteSize]
  | cons c t ih =>
    have h : byteSize (c :: t) = c.utf8Size + byteSize t := by
      simp only [byteSize, List.foldl_cons]
      rw [ih (0 + c.utf8Size), Nat.zero_add]
      rfl
    rw [List.foldl_cons, ih, h, Nat.add_assoc]

@[simp] theorem byteSize_nil : byteSize [] = 0 := rfl

@[simp] theorem byteSize_cons (c : Char) (t : Text) :
    byteSize (c :: t) = c.utf8Size + byteSize t := by
  rw [byteSize, List.foldl_cons, foldl_utf8Size, Nat.zero_add]

@[simp] theorem byteSize_append (s t : Text) :
    byteSize (s ++ t) = byteSize s + byteSize t := by
  induction s with
  | nil => simp
  | cons c s ih => simp [ih, Nat.add_assoc]

/-! ## Columns -/

/-- The search of `columnOf?`, from a place with `n` bytes before it. -/
def columnFrom (p : Char → Bool) : (n : Nat) → Text → Option Nat
  | _, [] => none
  | n, c :: t => if p c then some n else columnFrom p (n + c.utf8Size) t

/-- The column of the first character that satisfies `p`: the number of bytes before it. -/
def columnOf? (p : Char → Bool) (t : Text) : Option Nat := columnFrom p 0 t

private theorem columnFrom_eq (p : Char → Bool) (t : Text) (n : Nat) :
    columnFrom p n t
      = if t.any p then some (n + byteSize (t.takeWhile (fun c => !p c))) else none := by
  induction t generalizing n with
  | nil => simp [columnFrom]
  | cons c t ih => by_cases h : p c <;> simp [columnFrom, h, ih, Nat.add_assoc]

theorem columnOf?_eq (p : Char → Bool) (t : Text) :
    columnOf? p t
      = if t.any p then some (byteSize (t.takeWhile (fun c => !p c))) else none := by
  simp [columnOf?, columnFrom_eq]

/-- There is no column exactly if no character satisfies `p`. -/
theorem columnOf?_eq_none {p : Char → Bool} {t : Text} :
    columnOf? p t = none ↔ ∀ c ∈ t, p c = false := by
  simp [columnOf?_eq]

/-! ## Cutting at a mark -/

/-- The search of `breakOn`, holding what stands before the current place in reverse. -/
def breakFrom (mark : Text) : Text → Text → Option (Text × Text)
  | before, [] => if mark.isEmpty then some (before.reverse, []) else none
  | before, c :: t =>
    if mark.isPrefixOf (c :: t) then some (before.reverse, (c :: t).drop mark.length)
    else breakFrom mark (c :: before) t

/-- What stands before and what stands after the first occurrence of `mark`, if there is one. -/
def breakOn (mark t : Text) : Option (Text × Text) := breakFrom mark [] t

private theorem eq_of_breakFrom {mark : Text} (t : Text) {before upTo after : Text}
    (h : breakFrom mark before t = some (upTo, after)) :
    before.reverse ++ t = upTo ++ mark ++ after := by
  induction t generalizing before with
  | nil =>
    simp only [breakFrom] at h
    split at h
    · next hm =>
      rw [List.isEmpty_iff] at hm
      cases h
      simp [hm]
    · cases h
  | cons c t ih =>
    simp only [breakFrom] at h
    split at h
    · next hm =>
      obtain ⟨r, hr⟩ := List.isPrefixOf_iff_prefix.1 hm
      cases h
      rw [← hr]
      simp
    · have := ih h
      simpa using this

/-- Cutting loses nothing but the mark. -/
theorem eq_of_breakOn {mark t upTo after : Text} (h : breakOn mark t = some (upTo, after)) :
    t = upTo ++ mark ++ after := by
  simpa using eq_of_breakFrom t h

end Text

end PhraseGrammar

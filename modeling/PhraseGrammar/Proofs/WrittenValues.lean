import PhraseGrammar.Json
import Mathlib.Data.List.Basic

set_option autoImplicit false

/-! # Written values

A JSON value can be told from its written form, and a text can begin with the written forms of two
values only if these are the same, provided that no digit follows: a number has no end of its own
(`Json.Separate`). Everything is built from the same two facts. The escape of a character is no
beginning of the escape of another one, so that a string is over at the first quote that is not
escaped. And no written form begins with the bracket that ends a list, so that a list is over where
that bracket stands in the place of an item (`Json.Separate.listed`).

It follows that different values have different written forms (`Json.render_injective`).
-/

namespace PhraseGrammar.Json

/-! ## Strings -/

/-- The characters that are written with a backslash. -/
def escaped : List Char := '"' :: '\\' :: (List.range 32).map Char.ofNat

theorem escape_of_not_mem {c : Char} (h : c ∉ escaped) : escape c = [c] := by
  have hquote : c ≠ '"' := by
    rintro rfl
    exact h (by decide)
  have hbackslash : c ≠ '\\' := by
    rintro rfl
    exact h (by decide)
  have hcontrol : ∀ n < 32, c.toNat ≠ n := by
    rintro n hn rfl
    refine h (List.mem_cons_of_mem _ (List.mem_cons_of_mem _ ?_))
    exact List.mem_map.mpr ⟨c.toNat, List.mem_range.mpr hn, Char.ofNat_toNat c⟩
  have hn : c ≠ '\n' := fun hc => hcontrol 10 (by decide) (by rw [hc]; rfl)
  have hr : c ≠ '\r' := fun hc => hcontrol 13 (by decide) (by rw [hc]; rfl)
  have ht : c ≠ '\t' := fun hc => hcontrol 9 (by decide) (by rw [hc]; rfl)
  have hle : ¬ c.toNat < 32 := fun hlt => hcontrol c.toNat hlt rfl
  simp [escape, hquote, hbackslash, hn, hr, ht, hle, hcontrol 8 (by decide),
    hcontrol 12 (by decide)]

theorem head?_escape_of_mem {c : Char} (h : c ∈ escaped) : (escape c).head? = some '\\' := by
  have hall : escaped.all (fun c => (escape c).head? = some '\\') = true := by decide +kernel
  exact of_decide_eq_true (List.all_eq_true.mp hall c h)

/-- No escape is the beginning of another one. -/
theorem eq_of_isPrefix_escape {c d : Char} (hc : c ∈ escaped) (hd : d ∈ escaped)
    (h : escape c <+: escape d) : c = d := by
  have hall : escaped.all (fun c => escaped.all fun d => escape c <+: escape d → c = d) = true := by
    decide +kernel
  exact of_decide_eq_true (List.all_eq_true.mp (List.all_eq_true.mp hall c hc) d hd) h

theorem escape_append_inj {c d : Char} {r s : Text} (h : escape c ++ r = escape d ++ s) :
    c = d ∧ r = s := by
  -- one backslash tells an escape from a character that stands for itself
  have hplain : ∀ {c d : Char} {r s : Text}, c ∉ escaped → d ∈ escaped →
      escape c ++ r ≠ escape d ++ s := by
    intro c d r s hc hd heq
    obtain ⟨t, ht⟩ := List.head?_eq_some_iff.mp (head?_escape_of_mem hd)
    rw [escape_of_not_mem hc, ht] at heq
    obtain ⟨rfl, -⟩ := List.cons.inj heq
    exact hc (by decide)
  by_cases hc : c ∈ escaped
  · by_cases hd : d ∈ escaped
    · have hcd : c = d := by
        have hcs : escape c <+: escape d ++ s := ⟨r, h⟩
        rcases List.prefix_or_prefix_of_prefix hcs (List.prefix_append _ _) with hp | hp
        · exact eq_of_isPrefix_escape hc hd hp
        · exact (eq_of_isPrefix_escape hd hc hp).symm
      subst hcd
      exact ⟨rfl, List.append_cancel_left h⟩
    · exact absurd h.symm (hplain hd hc)
  · by_cases hd : d ∈ escaped
    · exact absurd h (hplain hc hd)
    · rw [escape_of_not_mem hc, escape_of_not_mem hd] at h
      exact List.cons.inj h

/-- No escape begins with the quote that ends a string. -/
theorem escape_append_ne_quote (c : Char) (r s : Text) : escape c ++ r ≠ '"' :: s := by
  intro h
  by_cases hc : c ∈ escaped
  · obtain ⟨t, ht⟩ := List.head?_eq_some_iff.mp (head?_escape_of_mem hc)
    rw [ht] at h
    cases h
  · rw [escape_of_not_mem hc] at h
    obtain ⟨rfl, -⟩ := List.cons.inj h
    exact hc (by decide)

theorem escapes_append_inj {t u r s : Text}
    (h : t.flatMap escape ++ '"' :: r = u.flatMap escape ++ '"' :: s) : t = u ∧ r = s := by
  induction t generalizing u with
  | nil =>
      cases u with
      | nil => exact ⟨rfl, (List.cons.inj h).2⟩
      | cons d u =>
          rw [List.flatMap_cons, List.append_assoc] at h
          exact absurd h.symm (escape_append_ne_quote d _ _)
  | cons c t ih =>
      cases u with
      | nil =>
          rw [List.flatMap_cons, List.append_assoc] at h
          exact absurd h (escape_append_ne_quote c _ _)
      | cons d u =>
          rw [List.flatMap_cons, List.flatMap_cons, List.append_assoc, List.append_assoc] at h
          obtain ⟨rfl, hrest⟩ := escape_append_inj h
          obtain ⟨rfl, hrs⟩ := ih hrest
          exact ⟨rfl, hrs⟩

/-- **A string in quotes has an end of its own.** -/
theorem quote_append_inj {t u r s : Text} (h : quote t ++ r = quote u ++ s) : t = u ∧ r = s := by
  rw [quote, quote, List.cons_append, List.cons_append, List.append_assoc,
    List.append_assoc] at h
  obtain ⟨-, hinside⟩ := List.cons.inj h
  exact escapes_append_inj hinside

/-! ## What follows a value -/

/-- No digit comes first. -/
def NoDigit (t : Text) : Prop := ∀ c ∈ t.head?, c.isDigit = false

theorem noDigit_cons {c : Char} (h : c.isDigit = false) (t : Text) : NoDigit (c :: t) := by
  rintro d ⟨⟩
  exact h

/-- **A written form that is told from all others** at the beginning of a text, if no digit
follows. -/
def Separate {α : Type} (write : α → Text) (a : α) : Prop :=
  ∀ (b : α) (r s : Text), NoDigit r → NoDigit s → write a ++ r = write b ++ s → a = b ∧ r = s

/-! ## Numbers -/

theorem toList_toString (n : Nat) : (toString n).toList = Nat.toDigits 10 n := by
  rw [Nat.toString_eq_ofList_toDigits, String.toList_ofList]

theorem isDigit_of_mem_toDigits {n : Nat} {c : Char} (h : c ∈ Nat.toDigits 10 n) :
    c.isDigit = true := Nat.isDigit_of_mem_toDigits (by decide) (by decide) h

/-- A number is the digits that a text begins with. -/
theorem takeWhile_toDigits_append (n : Nat) {r : Text} (hr : NoDigit r) :
    (Nat.toDigits 10 n ++ r).takeWhile Char.isDigit = Nat.toDigits 10 n := by
  rw [List.takeWhile_append_of_pos fun c => isDigit_of_mem_toDigits]
  cases r with
  | nil => rw [List.takeWhile_nil, List.append_nil]
  | cons c r => rw [List.takeWhile_cons_of_neg (by simp [hr c rfl]), List.append_nil]

theorem toDigits_append_inj {n m : Nat} {r s : Text} (hr : NoDigit r) (hs : NoDigit s)
    (h : Nat.toDigits 10 n ++ r = Nat.toDigits 10 m ++ s) : n = m ∧ r = s := by
  have hdigits : Nat.toDigits 10 n = Nat.toDigits 10 m := by
    rw [← takeWhile_toDigits_append n hr, h, takeWhile_toDigits_append m hs]
  have hvalue := congrArg (Nat.ofDigitChars 10 · 0) hdigits
  simp only [Nat.ofDigitChars_toDigits (b := 10) (by decide) (by decide)] at hvalue
  subst hvalue
  exact ⟨rfl, List.append_cancel_left h⟩

/-! ## Lists -/

/-- Texts with commas between them: the first one, and the others behind a comma each. -/
theorem intercalate_comma_cons (t : Text) (ts : List Text) :
    List.intercalate [','] (t :: ts) = t ++ ts.flatMap (',' :: ·) := by
  induction ts generalizing t with
  | nil => simp [List.intercalate]
  | cons u ts ih =>
      rw [List.intercalate_cons_cons, ih, List.flatMap_cons]
      simp

section Listed

variable {α : Type} {write : α → Text} {last : Char}

/-- What follows an item of a list: the other items behind a comma each, and the last bracket. -/
theorem noDigit_behind (hlast : last.isDigit = false) (ts : List Text) (r : Text) :
    NoDigit (ts.flatMap (',' :: ·) ++ last :: r) := by
  cases ts with
  | nil => exact noDigit_cons hlast r
  | cons t ts => exact noDigit_cons (by decide) _

/-- The items behind the first one. -/
theorem Separate.behind (hdigit : last.isDigit = false) (hcomma : last ≠ ',') {as bs : List α}
    {r s : Text} (h : ∀ a ∈ as, Separate write a)
    (heq : (as.map write).flatMap (',' :: ·) ++ last :: r
      = (bs.map write).flatMap (',' :: ·) ++ last :: s) : as = bs ∧ r = s := by
  induction as generalizing bs with
  | nil =>
      cases bs with
      | nil => exact ⟨rfl, (List.cons.inj heq).2⟩
      | cons b bs => exact absurd (List.cons.inj heq).1 hcomma
  | cons a as ih =>
      cases bs with
      | nil => exact absurd (List.cons.inj heq).1.symm hcomma
      | cons b bs =>
          simp only [List.map_cons, List.flatMap_cons, List.append_assoc, List.cons_append,
            List.cons.injEq, true_and] at heq
          obtain ⟨rfl, hrest⟩ := h a List.mem_cons_self b _ _ (noDigit_behind hdigit _ r)
            (noDigit_behind hdigit _ s) heq
          obtain ⟨rfl, hrs⟩ := ih (fun a' ha' => h a' (List.mem_cons_of_mem a ha')) hrest
          exact ⟨rfl, hrs⟩

/-- **A list has an end of its own**, if its items have and none of them begins with the bracket
that ends the list. -/
theorem Separate.listed (hdigit : last.isDigit = false) (hcomma : last ≠ ',')
    (hlast : ∀ (a : α) (r s : Text), write a ++ r ≠ last :: s) {as bs : List α} {r s : Text}
    (h : ∀ a ∈ as, Separate write a)
    (heq : List.intercalate [','] (as.map write) ++ last :: r
      = List.intercalate [','] (bs.map write) ++ last :: s) : as = bs ∧ r = s := by
  cases as with
  | nil =>
      cases bs with
      | nil => exact ⟨rfl, (List.cons.inj heq).2⟩
      | cons b bs =>
          rw [List.map_cons, intercalate_comma_cons, List.append_assoc] at heq
          exact absurd heq.symm (hlast b _ _)
  | cons a as =>
      cases bs with
      | nil =>
          rw [List.map_cons, intercalate_comma_cons, List.append_assoc] at heq
          exact absurd heq (hlast a _ _)
      | cons b bs =>
          rw [List.map_cons, List.map_cons, intercalate_comma_cons, intercalate_comma_cons,
            List.append_assoc, List.append_assoc] at heq
          obtain ⟨rfl, hrest⟩ := h a List.mem_cons_self b _ _ (noDigit_behind hdigit _ r)
            (noDigit_behind hdigit _ s) heq
          obtain ⟨rfl, hrs⟩ := Separate.behind hdigit hcomma
            (fun a' ha' => h a' (List.mem_cons_of_mem a ha')) hrest
          exact ⟨rfl, hrs⟩

end Listed

/-! ## Values -/

/-- A field of an object. -/
def renderField (field : Text × Json) : Text := quote field.1 ++ ':' :: render field.2

theorem renderItems_eq_map (items : List Json) : renderItems items = items.map render := by
  induction items with
  | nil => rw [renderItems, List.map_nil]
  | cons item rest ih => rw [renderItems, ih, List.map_cons]

theorem renderFields_eq_map (fields : List (Text × Json)) :
    renderFields fields = fields.map renderField := by
  induction fields with
  | nil => rw [renderFields, List.map_nil]
  | cons field rest ih =>
      obtain ⟨name, value⟩ := field
      rw [renderFields, ih, List.map_cons, renderField]

theorem render_number (n : Nat) : render (.number n) = Nat.toDigits 10 n := by
  rw [render, toList_toString]

theorem render_string (t : Text) : render (.string t) = quote t := by rw [render]

theorem render_array (items : List Json) :
    render (.array items) = '[' :: (List.intercalate [','] (items.map render) ++ [']']) := by
  rw [render, renderItems_eq_map]

theorem render_object (fields : List (Text × Json)) :
    render (.object fields)
      = '\x7b' :: (List.intercalate [','] (fields.map renderField) ++ ['\x7d']) := by
  rw [render, renderFields_eq_map]

/-- The character that a value begins with, unless it is a number. -/
def opener : Json → Option Char
  | .number _ => none
  | .string _ => some '"'
  | .array _ => some '['
  | .object _ => some '\x7b'

theorem exists_render_eq_cons (v : Json) :
    ∃ c t, render v = c :: t ∧ v.opener = if c.isDigit then none else some c := by
  cases v with
  | number n =>
      rw [render_number]
      cases hn : Nat.toDigits 10 n with
      | nil => exact absurd hn Nat.toDigits_ne_nil
      | cons d ds =>
          have hd := isDigit_of_mem_toDigits (hn ▸ List.mem_cons_self)
          exact ⟨d, ds, rfl, by rw [hd]; rfl⟩
  | string t => exact ⟨_, _, render_string t, rfl⟩
  | array items => exact ⟨_, _, render_array items, rfl⟩
  | object fields => exact ⟨_, _, render_object fields, rfl⟩

theorem opener_eq_of_append {v w : Json} {r s : Text} (h : render v ++ r = render w ++ s) :
    v.opener = w.opener := by
  obtain ⟨c, t, hv, hc⟩ := exists_render_eq_cons v
  obtain ⟨d, u, hw, hd⟩ := exists_render_eq_cons w
  rw [hv, hw] at h
  rw [hc, hd, (List.cons.inj h).1]

/-- No value begins with the bracket that ends an array. -/
theorem render_append_ne_bracket (v : Json) (r s : Text) : render v ++ r ≠ ']' :: s := by
  intro h
  obtain ⟨c, t, hv, hc⟩ := exists_render_eq_cons v
  rw [hv] at h
  rw [(List.cons.inj h).1] at hc
  cases v <;> cases hc

/-- No field begins with the bracket that ends an object. -/
theorem renderField_append_ne_bracket (field : Text × Json) (r s : Text) :
    renderField field ++ r ≠ '\x7d' :: s := by
  intro h
  exact absurd (List.cons.inj h).1 (by decide)

theorem Separate.renderField {field : Text × Json} (h : Separate render field.2) :
    Separate Json.renderField field := by
  rintro ⟨name, value⟩ r s hr hs heq
  simp only [Json.renderField, List.append_assoc] at heq
  obtain ⟨hname, hrest⟩ := quote_append_inj heq
  obtain ⟨-, hvalue⟩ := List.cons.inj hrest
  obtain ⟨hv, hrs⟩ := h value r s hr hs hvalue
  exact ⟨Prod.ext hname hv, hrs⟩

/-- Induction on values: an array has the property if its items have, and an object if its values
have. -/
@[elab_as_elim, induction_eliminator]
theorem induction {P : Json → Prop} (number : ∀ n, P (.number n)) (string : ∀ t, P (.string t))
    (array : ∀ items, (∀ item ∈ items, P item) → P (.array items))
    (object : ∀ fields, (∀ field ∈ fields, P field.2) → P (.object fields)) : ∀ v, P v
  | .number n => number n
  | .string t => string t
  | .array items => array items fun item _ => induction number string array object item
  | .object fields =>
      object fields fun field _ => induction number string array object field.2
termination_by v => sizeOf v
decreasing_by
  · have hitem : item ∈ items := ‹_›
    have hsize := List.sizeOf_lt_of_mem hitem
    simp only [Json.array.sizeOf_spec]
    omega
  · have hfield : field ∈ fields := ‹_›
    have hsize := List.sizeOf_lt_of_mem hfield
    obtain ⟨name, value⟩ := field
    simp only [Json.object.sizeOf_spec, Prod.mk.sizeOf_spec] at hsize ⊢
    omega

/-- **A value can be told from its written form** at the beginning of a text. -/
theorem separate_render (v : Json) : Separate render v := by
  induction v with
  | number n =>
      intro w r s hr hs heq
      cases w <;> cases opener_eq_of_append heq
      next m =>
        rw [render_number, render_number] at heq
        obtain ⟨rfl, hrs⟩ := toDigits_append_inj hr hs heq
        exact ⟨rfl, hrs⟩
  | string t =>
      intro w r s _ _ heq
      cases w <;> cases opener_eq_of_append heq
      next u =>
        rw [render_string, render_string] at heq
        obtain ⟨rfl, hrs⟩ := quote_append_inj heq
        exact ⟨rfl, hrs⟩
  | array items ih =>
      intro w r s _ _ heq
      cases w <;> cases opener_eq_of_append heq
      next items' =>
        rw [render_array, render_array] at heq
        have hinside := (List.cons.inj heq).2
        simp only [List.append_eq, List.append_assoc, List.singleton_append] at hinside
        obtain ⟨rfl, hrs⟩ := Separate.listed (by decide) (by decide) render_append_ne_bracket ih
          hinside
        exact ⟨rfl, hrs⟩
  | object fields ih =>
      intro w r s _ _ heq
      cases w <;> cases opener_eq_of_append heq
      next fields' =>
        rw [render_object, render_object] at heq
        have hinside := (List.cons.inj heq).2
        simp only [List.append_eq, List.append_assoc, List.singleton_append] at hinside
        obtain ⟨rfl, hrs⟩ := Separate.listed (by decide) (by decide) renderField_append_ne_bracket
          (fun field hfield => (ih field hfield).renderField) hinside
        exact ⟨rfl, hrs⟩

/-- **Different values have different written forms.** -/
theorem render_injective {v w : Json} (h : render v = render w) : v = w := by
  have hnil : NoDigit [] := nofun
  exact (separate_render v w [] [] hnil hnil (by rw [h])).1

end PhraseGrammar.Json

/-!
# Texts

Statements are handled as lists of characters.  Positions are counted in bytes of the UTF-8 form, case
is compared inside ASCII only, and blanks are the characters with the property White_Space of the
Unicode standard.
-/

namespace JetAdapter

/-- A stretch of SQL, character by character. -/
abbrev SqlText := List Char

namespace Text

/-! ### Bytes -/

/-- The number of bytes of a text in UTF-8. -/
def byteSize : SqlText → Nat
  | [] => 0
  | c :: t => c.utf8Size + byteSize t

@[simp] theorem byteSize_nil : byteSize [] = 0 := rfl

@[simp] theorem byteSize_cons (c : Char) (t : SqlText) :
    byteSize (c :: t) = c.utf8Size + byteSize t := rfl

@[simp] theorem byteSize_append (s t : SqlText) : byteSize (s ++ t) = byteSize s + byteSize t := by
  induction s with
  | nil => simp
  | cons c s ih =>
    rw [List.cons_append, byteSize_cons, byteSize_cons, ih, Nat.add_assoc]

theorem eq_nil_of_byteSize_eq_zero {t : SqlText} (h : byteSize t = 0) : t = [] := by
  cases t with
  | nil => rfl
  | cons c t =>
    have := c.utf8Size_pos
    rw [byteSize_cons] at h
    omega

/-- Of two first parts of a text the shorter one is a first part of the other. -/
theorem exists_append_of_byteSize_le {before after before' after' : SqlText}
    (h : before ++ after = before' ++ after') (hle : byteSize before ≤ byteSize before') :
    ∃ u, before' = before ++ u ∧ after = u ++ after' := by
  rcases List.append_eq_append_iff.1 h with ⟨u, rfl, rfl⟩ | ⟨u, rfl, rfl⟩
  · exact ⟨u, rfl, rfl⟩
  · rw [byteSize_append] at hle
    have hu : byteSize u = 0 := by omega
    obtain rfl := eq_nil_of_byteSize_eq_zero hu
    exact ⟨[], by simp, rfl⟩

/-- Cuts a text after so many bytes; there is no cut inside a character or past the end. -/
def cutAt : Nat → SqlText → Option (SqlText × SqlText)
  | 0, t => some ([], t)
  | _ + 1, [] => none
  | n + 1, c :: t =>
    if c.utf8Size ≤ n + 1 then
      (cutAt (n + 1 - c.utf8Size) t).map fun (before, after) => (c :: before, after)
    else none

/-- A cut can be made after any first part, and gives the two parts back. -/
theorem cutAt_append (s t : SqlText) : cutAt (byteSize s) (s ++ t) = some (s, t) := by
  induction s with
  | nil => simp [cutAt]
  | cons c s ih =>
    have hc := c.utf8Size_pos
    obtain ⟨n, hn⟩ : ∃ n, byteSize (c :: s) = n + 1 := ⟨byteSize (c :: s) - 1, by simp; omega⟩
    rw [hn, List.cons_append, cutAt, ← hn]
    simp [ih]

/-- A cut loses nothing and is made where it was asked for. -/
theorem eq_append_of_cutAt {n : Nat} {t before after : SqlText}
    (h : cutAt n t = some (before, after)) : t = before ++ after ∧ byteSize before = n := by
  fun_induction cutAt n t generalizing before after with
  | case1 t =>
    obtain ⟨rfl, rfl⟩ : [] = before ∧ t = after := by simpa using h
    simp
  | case2 => simp at h
  | case3 n c t hc ih =>
    obtain ⟨⟨b, a⟩, hr, he⟩ := Option.map_eq_some_iff.1 h
    obtain ⟨rfl, rfl⟩ : c :: b = before ∧ a = after := by simpa using he
    obtain ⟨rfl, hb⟩ := ih hr
    exact ⟨rfl, by simp [hb]; omega⟩
  | case4 => simp at h

/-! ### Case -/

/-- The text with the capital letters of ASCII made small. -/
def lower (t : SqlText) : SqlText :=
  t.map Char.toLower

/-- The text with the small letters of ASCII made capital. -/
def upper (t : SqlText) : SqlText :=
  t.map Char.toUpper

/-- Whether two texts are the same up to the case of the letters of ASCII. -/
def sameWord (s t : SqlText) : Bool :=
  lower s == lower t

/-! ### Blanks -/

/-- The characters that only separate: those with the property White_Space. -/
def isBlank (c : Char) : Bool :=
  let n := c.toNat
  (9 ≤ n && n ≤ 13) || n == 0x20 || n == 0x85 || n == 0xA0 || n == 0x1680
    || (0x2000 ≤ n && n ≤ 0x200A) || n == 0x2028 || n == 0x2029 || n == 0x202F || n == 0x205F
    || n == 0x3000

/-- The text without the blanks at its end. -/
def trimEnd (t : SqlText) : SqlText :=
  (t.reverse.dropWhile isBlank).reverse

/-- The text without the blanks at its two ends. -/
def trim (t : SqlText) : SqlText :=
  trimEnd (t.dropWhile isBlank)

/-! ### Pieces -/

/-- The texts one after the other, with a separator between each two. -/
def joinWith (separator : SqlText) (ts : List SqlText) : SqlText :=
  List.intercalate separator ts

/-- Removes every occurrence of a non-empty pattern, from the left and without overlap; `skip`
characters of an occurrence are still to be dropped. -/
def eraseAllFrom (pattern : SqlText) : Nat → SqlText → SqlText
  | _, [] => []
  | skip + 1, _ :: t => eraseAllFrom pattern skip t
  | 0, c :: t =>
    if pattern.isPrefixOf (c :: t) then eraseAllFrom pattern (pattern.length - 1) t
    else c :: eraseAllFrom pattern 0 t

/-- Removes every occurrence of a non-empty pattern, from the left and without overlap. -/
def eraseAll (pattern t : SqlText) : SqlText :=
  eraseAllFrom pattern 0 t

end Text

end JetAdapter

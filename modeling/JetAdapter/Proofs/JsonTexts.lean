import JetAdapter.Json.Printer
import JetAdapter.Json.Reader
import JetAdapter.Proofs.Naming

/-!
# Texts of JSON

A value of JSON has many texts: blanks may stand around every value and every name, and a character of a string may be
written by itself or by an escape.  `Json.Spells` says which texts these are, without regard to the reader, and the
reader takes each of them, with blanks around it, for its value (`Json.read?_of_isText`).

What the printers write, without blanks or on a line for each item and member, is among these texts (`Json.Prints`).
-/

namespace JetAdapter

open Text (startsFraction startsPower)

/-! ### Numerals -/

/-- Whether a numeral may be written in JSON: no zero stands before other digits, and a power of ten has digits. -/
structure Numeral.IsJson (n : Numeral) : Prop where
  ne_nil : n.whole ≠ []
  whole : ∀ c ∈ n.whole, c.isDigit = true
  zero : n.whole.head? = some '0' → n.whole = ['0']
  fraction : ∀ c ∈ n.fraction, c.isDigit = true
  power : ∀ p ∈ n.power, (p.mark = 'e' ∨ p.mark = 'E') ∧ (p.sign = [] ∨ p.sign = ['+'] ∨ p.sign = ['-']) ∧
    p.digits ≠ [] ∧ ∀ c ∈ p.digits, c.isDigit = true

namespace Json

/-- Whether a text does not go on with a value that stands before it. -/
def EndsValue (rest : SqlText) : Prop :=
  ∀ c ∈ rest.head?, isBlank c = true ∨ c = ',' ∨ c = ']' ∨ c = '\x7d'

/-- Whether a text is nothing but blanks. -/
def IsGap (t : SqlText) : Prop :=
  ∀ c ∈ t, isBlank c = true

/-- Whether a text is of some sort with blanks around it. -/
def Padded (P : SqlText → Prop) (t : SqlText) : Prop :=
  ∃ before inner after, IsGap before ∧ P inner ∧ IsGap after ∧ t = before ++ (inner ++ after)

/-- Whether a part of a string is written so: a character by itself or by an escape, or a unit by its digits. -/
inductive SpellsPart : StringPart → SqlText → Prop
  | char {c : Char} (quote : c ≠ '"') (backslash : c ≠ '\\') (control : 0x20 ≤ c.toNat) : SpellsPart (.char c) [c]
  | escaped {e c : Char} (names : escaped? e = some c) : SpellsPart (.char c) ['\\', e]
  | unit {a b c d : Char} {n : Nat} (digits : unit? a b c d = some n) : SpellsPart (.unit n) ['\\', 'u', a, b, c, d]

/-- Whether a text is a string with this content, between its quotes. -/
def SpellsString (content : Option SqlText) (t : SqlText) : Prop :=
  ∃ spelled : List (StringPart × SqlText), (∀ p ∈ spelled, SpellsPart p.1 p.2) ∧
    join? (spelled.map Prod.fst) = content ∧ t = '"' :: (spelled.flatMap Prod.snd ++ ['"'])

mutual

/-- Whether a text is one of a value. -/
def Spells : Json → SqlText → Prop
  | .null, t => t = "null".toList
  | .bool b, t => t = if b then "true".toList else "false".toList
  | .number negative n, t => n.IsJson ∧ t = n.signedText negative
  | .string content, t => SpellsString content t
  | .array items, t => ∃ inner, SpellsItems items inner ∧ t = '[' :: (inner ++ [']'])
  | .object members, t => ∃ inner, SpellsMembers members inner ∧ t = '\x7b' :: (inner ++ ['\x7d'])

/-- Whether a text is one of the items of an array, with commas between them. -/
def SpellsItems : List Json → SqlText → Prop
  | [], t => IsGap t
  | [item], t => Padded (Spells item) t
  | item :: items, t => ∃ first more, Padded (Spells item) first ∧ SpellsItems items more ∧ t = first ++ ',' :: more

/-- Whether a text is one of the members of an object, with commas between them. -/
def SpellsMembers : List (Option SqlText × Json) → SqlText → Prop
  | [], t => IsGap t
  | [(name, value)], t =>
    ∃ first second, Padded (SpellsString name) first ∧ Padded (Spells value) second ∧ t = first ++ ':' :: second
  | (name, value) :: members, t => ∃ first second more, Padded (SpellsString name) first ∧ Padded (Spells value) second ∧
      SpellsMembers members more ∧ t = first ++ ':' :: (second ++ ',' :: more)

end

/-- Whether a whole text is one of a value. -/
def IsText (j : Json) (t : SqlText) : Prop :=
  Padded (Spells j) t

variable {t rest : SqlText} {c : Char} {j : Json} {content : Option SqlText} {n : Numeral}

/-! ### Blanks -/

theorem skipBlanks_append (ht : IsGap t) (hrest : ∀ c ∈ rest.head?, isBlank c = false) : skipBlanks (t ++ rest) = rest := by
  have hhead : rest.head?.any isBlank = false := by
    cases rest with
    | nil => rfl
    | cons c rest => exact hrest c rfl
  exact (takeWhile_append_of_head? ht hhead).2

theorem skipBlanks_of_isGap (ht : IsGap t) : skipBlanks t = [] := by
  have h : skipBlanks (t ++ []) = [] := skipBlanks_append ht nofun
  rwa [List.append_nil] at h

theorem skipBlanks_skipBlanks (t : SqlText) : skipBlanks (skipBlanks t) = skipBlanks t := by
  refine skipBlanks_append (t := []) nofun fun c hc => ?_
  have h := any_head?_dropWhile isBlank t
  have hhead : (t.dropWhile isBlank).head? = some c := hc
  rw [hhead] at h
  exact h

theorem EndsValue.of_isGap (ht : IsGap t) (hrest : EndsValue rest) : EndsValue (t ++ rest) := by
  intro c hc
  cases t with
  | nil => exact hrest c hc
  | cons b t =>
    obtain rfl : b = c := by simpa using hc
    exact .inl (ht b List.mem_cons_self)

/-! ### Numbers -/

/-- What a number is not gone on with. -/
theorem EndsValue.endsNumber (h : EndsValue rest) :
    rest.head?.any Char.isDigit = false ∧ startsFraction rest = false ∧ startsPower rest = false := by
  cases rest with
  | nil => exact ⟨rfl, rfl, rfl⟩
  | cons c rest =>
    have hc := h c rfl
    have hcases : c = ' ' ∨ c = '\n' ∨ c = '\t' ∨ c = '\r' ∨ c = ',' ∨ c = ']' ∨ c = '\x7d' := by
      simpa [isBlank, or_assoc] using hc
    rcases hcases with rfl | rfl | rfl | rfl | rfl | rfl | rfl <;> exact ⟨rfl, rfl, rfl⟩

/-- A power of ten is read up to a rest that does not go on with it. -/
theorem scanPower_append {power : Option PowerOfTen} (hp : ∀ p ∈ power, (p.mark = 'e' ∨ p.mark = 'E') ∧
      (p.sign = [] ∨ p.sign = ['+'] ∨ p.sign = ['-']) ∧ p.digits ≠ [] ∧ ∀ c ∈ p.digits, c.isDigit = true)
    (hrest : EndsValue rest) :
    Numeral.scanPower ((power.map Numeral.powerText).getD [] ++ rest) = (power, rest) ∧
      ((power.map Numeral.powerText).getD [] ++ rest).head?.any Char.isDigit = false ∧
      startsFraction ((power.map Numeral.powerText).getD [] ++ rest) = false := by
  obtain ⟨hdigit, hfraction, hpower⟩ := hrest.endsNumber
  cases power with
  | none => exact ⟨Numeral.scanPower_of_not hpower, hdigit, hfraction⟩
  | some p =>
    obtain ⟨mark, sign, digits⟩ := p
    obtain ⟨hmark, hsign, hne, hdigits⟩ := hp _ rfl
    have hall : ((some (⟨mark, sign, digits⟩ : PowerOfTen)).map Numeral.powerText).getD [] ++ rest
        = mark :: (sign ++ (digits ++ rest)) := by simp [Numeral.powerText]
    obtain ⟨htake, hdrop⟩ := takeWhile_append_of_head? hdigits hdigit
    have hscan : Numeral.scanSign (sign ++ (digits ++ rest)) = (sign, digits ++ rest) := by
      rcases hsign with rfl | rfl | rfl
      · obtain ⟨d, ds, rfl⟩ := List.exists_cons_of_ne_nil hne
        have hd := hdigits d List.mem_cons_self
        refine Numeral.scanSign_of_not ?_ ?_
        · rintro ⟨⟩
          cases hd
        · rintro ⟨⟩
          cases hd
      · rfl
      · rfl
    have hstarts : startsPower (mark :: (sign ++ (digits ++ rest))) = true := by
      rw [Numeral.startsPower_iff, hscan, htake]
      exact ⟨hmark, .inr hne⟩
    rw [hall, Numeral.scanPower_of_starts hstarts, hscan, htake, hdrop]
    refine ⟨rfl, ?_⟩
    rcases hmark with rfl | rfl
    · exact ⟨rfl, rfl⟩
    · exact ⟨rfl, rfl⟩

theorem scan_append (hn : n.IsJson) (hrest : EndsValue rest) : Numeral.scan (n.text ++ rest) = (n, rest) := by
  obtain ⟨whole, fraction, power⟩ := n
  have hbehindPower := scanPower_append hn.power hrest
  dsimp only at hbehindPower
  obtain ⟨hpower, hdigit, hfraction⟩ := hbehindPower
  have hscan : Numeral.scanFraction (Numeral.fractionText fraction ++ ((power.map Numeral.powerText).getD [] ++ rest))
      = (fraction, (power.map Numeral.powerText).getD [] ++ rest) := by
    by_cases hnil : fraction = []
    · subst hnil
      exact Numeral.scanFraction_of_not hfraction
    · obtain ⟨htake, hdrop⟩ := takeWhile_append_of_head? hn.fraction hdigit
      rw [Numeral.fractionText_of_ne_nil hnil, List.cons_append, Numeral.scanFraction, htake, if_neg hnil, hdrop]
  have hbehind : (Numeral.fractionText fraction ++ ((power.map Numeral.powerText).getD [] ++ rest)).head?.any Char.isDigit
      = false := by
    cases fraction with
    | nil => exact hdigit
    | cons d ds => rfl
  obtain ⟨htake, hdrop⟩ := takeWhile_append_of_head? hn.whole hbehind
  rw [Numeral.text, List.append_assoc, List.append_assoc, Numeral.scan, htake, hdrop, hscan]
  simp only [hpower]

theorem readNumber_append (hn : n.IsJson) (negative : Bool) (hrest : EndsValue rest) :
    readNumber negative (n.text ++ rest) = some (.number negative n, rest) := by
  obtain ⟨c, w, hw⟩ := List.exists_cons_of_ne_nil hn.ne_nil
  have hc : c.isDigit = true := hn.whole c (by rw [hw]; exact List.mem_cons_self)
  have htext : ∃ u, n.text ++ rest = c :: u := by
    rw [Numeral.text, hw]
    exact ⟨_, rfl⟩
  obtain ⟨u, hu⟩ := htext
  have hscan := scan_append hn hrest
  rw [hu] at hscan ⊢
  rw [readNumber, if_pos hc, hscan]
  have hpower : n.lacksPowerDigits = false := by
    rw [Numeral.lacksPowerDigits]
    cases hp : n.power with
    | none => rfl
    | some p => simpa using (hn.power p hp).2.2.1
  have hzero : ¬ (c = '0' ∧ n.whole.length > 1) := by
    rintro ⟨rfl, hlong⟩
    rw [hn.zero (by rw [hw]; rfl)] at hlong
    exact absurd hlong (by decide)
  simp [hpower, hzero]

/-! ### Strings -/

/-- Each part of a string is read by itself. -/
theorem readParts_append {p : StringPart} {w : SqlText} (h : SpellsPart p w) {parts : List StringPart}
    (ht : readParts t = some (parts, rest)) : readParts (w ++ t) = some (p :: parts, rest) := by
  cases h with
  | @char c quote backslash control =>
    have hc : ¬ (c = '\\' ∨ c.toNat < 0x20) := not_or.2 ⟨backslash, by omega⟩
    rw [List.singleton_append, readParts.eq_def]
    split
    · next h => cases h
    · next h => exact absurd (List.cons.inj h).1 quote
    · next h => exact absurd (List.cons.inj h).1 backslash
    · next h => exact absurd (List.cons.inj h).1 backslash
    · next h =>
      obtain ⟨rfl, rfl⟩ := List.cons.inj h
      rw [if_neg hc, ht]
      rfl
  | @escaped e c names =>
    have hu : e ≠ 'u' := by
      rintro rfl
      cases names
    show readParts ('\\' :: e :: t) = _
    rw [readParts.eq_def]
    split
    · next h => cases h
    · next h => cases (List.cons.inj h).1
    · next h => exact absurd (List.cons.inj (List.cons.inj h).2).1 hu
    · next h =>
      obtain ⟨rfl, rfl⟩ := List.cons.inj (List.cons.inj h).2
      rw [names, ht]
      rfl
    · next hnot h =>
      obtain ⟨hc, ht⟩ := List.cons.inj h
      exact absurd ht.symm (hnot e t hc.symm)
  | @unit a b c d n digits =>
    show readParts ('\\' :: 'u' :: a :: b :: c :: d :: t) = _
    rw [readParts, digits, ht]
    rfl

theorem readString_append (h : SpellsString content t) (rest : SqlText) :
    ∃ u, t ++ rest = '"' :: u ∧ readString u = some (content, rest) := by
  obtain ⟨spelled, hparts, rfl, rfl⟩ := h
  refine ⟨spelled.flatMap Prod.snd ++ '"' :: rest, by simp, ?_⟩
  have hread : readParts (spelled.flatMap Prod.snd ++ '"' :: rest) = some (spelled.map Prod.fst, rest) := by
    induction spelled with
    | nil => rfl
    | cons p spelled ih =>
      obtain ⟨hp, hspelled⟩ := List.forall_mem_cons.1 hparts
      rw [List.flatMap_cons, List.append_assoc, List.map_cons]
      exact readParts_append hp (ih hspelled)
  rw [readString, hread]
  rfl

/-! ### Values -/

/-- A text of a value starts with neither a blank nor the end of an array. -/
theorem Spells.exists_cons (h : Spells j t) : ∃ c u, t = c :: u ∧ isBlank c = false ∧ c ≠ ']' := by
  cases j with
  | null =>
    rw [Spells] at h
    exact ⟨'n', _, h, rfl, by decide⟩
  | bool b =>
    rw [Spells] at h
    cases b with
    | true => exact ⟨'t', _, h, rfl, by decide⟩
    | false => exact ⟨'f', _, h, rfl, by decide⟩
  | number negative n =>
    rw [Spells] at h
    obtain ⟨hn, rfl⟩ := h
    cases negative with
    | true => exact ⟨'-', _, rfl, rfl, by decide⟩
    | false =>
      obtain ⟨c, w, hw⟩ := List.exists_cons_of_ne_nil hn.ne_nil
      have hc : c.isDigit = true := hn.whole c (by rw [hw]; exact List.mem_cons_self)
      refine ⟨c, w ++ _, by rw [Numeral.signedText, if_neg Bool.false_ne_true, Numeral.text, hw]; rfl, ?_, ?_⟩
      · refine Bool.eq_false_iff.2 fun hblank => ?_
        have hcases : c = ' ' ∨ c = '\n' ∨ c = '\t' ∨ c = '\r' := by simpa [isBlank, or_assoc] using hblank
        rcases hcases with rfl | rfl | rfl | rfl <;> cases hc
      · rintro rfl
        cases hc
  | string content =>
    rw [Spells] at h
    obtain ⟨spelled, -, -, rfl⟩ := h
    exact ⟨'"', _, rfl, rfl, by decide⟩
  | array items =>
    rw [Spells] at h
    obtain ⟨inner, -, rfl⟩ := h
    exact ⟨'[', _, rfl, rfl, by decide⟩
  | object members =>
    rw [Spells] at h
    obtain ⟨inner, -, rfl⟩ := h
    exact ⟨'\x7b', _, rfl, rfl, by decide⟩

/-- Whether so many rounds are enough for all texts of values of some length. -/
def ReadsValues (rounds : Nat) : Prop :=
  ∀ j t rest, Spells j t → EndsValue rest → 2 * t.length ≤ rounds → readValue rounds (t ++ rest) = some (j, rest)

/-- Whether so many rounds are enough for all texts of items of some length. -/
def ReadsItems (rounds : Nat) : Prop :=
  ∀ items t rest, items ≠ [] → SpellsItems items t → 2 * t.length + 1 ≤ rounds →
    readItems rounds (t ++ ']' :: rest) = some (items, rest)

/-- Whether so many rounds are enough for all texts of members of some length. -/
def ReadsMembers (rounds : Nat) : Prop :=
  ∀ members t rest, members ≠ [] → SpellsMembers members t → 2 * t.length + 1 ≤ rounds →
    readMembers rounds (t ++ '\x7d' :: rest) = some (members, rest)

variable {rounds : Nat} {items : List Json} {members : List (Option SqlText × Json)}

/-- A value is read behind its blanks, and the blanks behind it are left. -/
theorem ReadsValues.padded (h : ReadsValues rounds) (ht : Padded (Spells j) t) (hlen : 2 * t.length ≤ rounds)
    (hc : c = ',' ∨ c = ']' ∨ c = '\x7d') (rest : SqlText) :
    ∃ behind, readValue rounds (skipBlanks (t ++ c :: rest)) = some (j, behind) ∧ skipBlanks behind = c :: rest := by
  obtain ⟨before, inner, after, hbefore, hinner, hafter, rfl⟩ := ht
  have hblank : isBlank c = false := by
    rcases hc with rfl | rfl | rfl <;> rfl
  have hends : EndsValue (after ++ c :: rest) := by
    refine .of_isGap hafter fun d hd => ?_
    obtain rfl : c = d := by simpa using hd
    exact .inr hc
  obtain ⟨d, u, hd, hdblank, -⟩ := hinner.exists_cons
  have hskip : skipBlanks (before ++ (inner ++ (after ++ c :: rest))) = inner ++ (after ++ c :: rest) := by
    refine skipBlanks_append hbefore fun b hb => ?_
    rw [hd] at hb
    obtain rfl : d = b := by simpa using hb
    exact hdblank
  have hinnerLen : 2 * inner.length ≤ rounds := by
    simp only [List.length_append] at hlen
    omega
  refine ⟨after ++ c :: rest, ?_, skipBlanks_append hafter fun d hd => ?_⟩
  · rw [List.append_assoc, List.append_assoc, hskip]
    exact h j inner _ hinner hends hinnerLen
  · obtain rfl : c = d := by simpa using hd
    exact hblank

/-- A name is read behind its blanks, and the blanks behind it are left. -/
theorem readString_padded (ht : Padded (SpellsString content) t) (rest : SqlText) :
    ∃ u behind, skipBlanks (t ++ ':' :: rest) = '"' :: u ∧ readString u = some (content, behind) ∧
      skipBlanks behind = ':' :: rest := by
  obtain ⟨before, inner, after, hbefore, hinner, hafter, rfl⟩ := ht
  obtain ⟨u, hu, hread⟩ := readString_append hinner (after ++ ':' :: rest)
  refine ⟨u, after ++ ':' :: rest, ?_, hread, skipBlanks_append hafter fun d hd => ?_⟩
  · rw [List.append_assoc, List.append_assoc, hu]
    refine skipBlanks_append hbefore fun d hd => ?_
    obtain rfl : '"' = d := by simpa using hd
    rfl
  · obtain rfl : ':' = d := by simpa using hd
    rfl

/-- Items start, behind their blanks, with neither a blank nor the end of the array. -/
theorem exists_skipBlanks_items (h : SpellsItems items t) (hne : items ≠ []) (rest : SqlText) :
    ∃ c u, skipBlanks (t ++ rest) = c :: u ∧ c ≠ ']' := by
  have hfirst : ∃ item first more, Padded (Spells item) first ∧ t = first ++ more := by
    match items, h with
    | [], _ => exact absurd rfl hne
    | [item], h =>
      rw [SpellsItems] at h
      exact ⟨item, t, [], h, (List.append_nil t).symm⟩
    | item :: other :: items, h =>
      rw [SpellsItems] at h
      · obtain ⟨first, more, hfirst, -, rfl⟩ := h
        exact ⟨item, first, ',' :: more, hfirst, rfl⟩
      · exact nofun
  obtain ⟨item, first, more, ⟨before, inner, after, hbefore, hinner, -, rfl⟩, rfl⟩ := hfirst
  obtain ⟨c, u, rfl, hblank, hend⟩ := hinner.exists_cons
  refine ⟨c, u ++ (after ++ (more ++ rest)), ?_, hend⟩
  have hskip : skipBlanks (before ++ (c :: (u ++ (after ++ (more ++ rest))))) = c :: (u ++ (after ++ (more ++ rest))) := by
    refine skipBlanks_append hbefore fun b hb => ?_
    obtain rfl : c = b := by simpa using hb
    exact hblank
  rw [← hskip]
  simp

/-- Members start, behind their blanks, with a quote. -/
theorem exists_skipBlanks_members (h : SpellsMembers members t) (hne : members ≠ []) (rest : SqlText) :
    ∃ u, skipBlanks (t ++ rest) = '"' :: u := by
  have hfirst : ∃ name first more, Padded (SpellsString name) first ∧ t = first ++ ':' :: more := by
    match members, h with
    | [], _ => exact absurd rfl hne
    | [(name, value)], h =>
      rw [SpellsMembers] at h
      obtain ⟨first, second, hfirst, -, rfl⟩ := h
      exact ⟨name, first, second, hfirst, rfl⟩
    | (name, value) :: other :: members, h =>
      rw [SpellsMembers] at h
      · obtain ⟨first, second, more, hfirst, -, -, rfl⟩ := h
        exact ⟨name, first, second ++ ',' :: more, hfirst, rfl⟩
      · exact nofun
  obtain ⟨name, first, more, hfirst, rfl⟩ := hfirst
  obtain ⟨u, behind, hskip, -⟩ := readString_padded hfirst (more ++ rest)
  exact ⟨u, by rw [List.append_assoc, List.cons_append, hskip]⟩

theorem readItems_skipBlanks (rounds : Nat) (t : SqlText) : readItems rounds (skipBlanks t) = readItems rounds t := by
  cases rounds with
  | zero => rw [readItems, readItems]
  | succ rounds => rw [readItems, readItems, skipBlanks_skipBlanks]

theorem readMembers_skipBlanks (rounds : Nat) (t : SqlText) :
    readMembers rounds (skipBlanks t) = readMembers rounds t := by
  cases rounds with
  | zero => rw [readMembers, readMembers]
  | succ rounds => rw [readMembers, readMembers, skipBlanks_skipBlanks]

/-- What starts with a digit is read as a number. -/
theorem readValue_of_isDigit (hc : c.isDigit = true) (rounds : Nat) (t : SqlText) :
    readValue (rounds + 1) (c :: t) = readNumber false (c :: t) := by
  rw [readValue.eq_def]
  simp only
  split
  case h_8 => rfl
  all_goals
    next h =>
      obtain ⟨rfl, -⟩ := List.cons.inj h
      cases hc

/-- A round for an opening bracket, and the rounds for what is inside. -/
theorem readsValues_succ (hitems : ReadsItems rounds) (hmembers : ReadsMembers rounds) : ReadsValues (rounds + 1) := by
  intro j t rest h hrest hlen
  cases j with
  | null =>
    rw [Spells] at h
    subst h
    rfl
  | bool b =>
    rw [Spells] at h
    subst h
    cases b with
    | true => rfl
    | false => rfl
  | number negative n =>
    rw [Spells] at h
    obtain ⟨hn, rfl⟩ := h
    cases negative with
    | true => exact readNumber_append hn true hrest
    | false =>
      obtain ⟨c, w, hw⟩ := List.exists_cons_of_ne_nil hn.ne_nil
      have hc : c.isDigit = true := hn.whole c (by rw [hw]; exact List.mem_cons_self)
      have hread := readNumber_append hn false hrest
      rw [Numeral.text, hw, List.cons_append, List.cons_append] at hread
      rw [Numeral.signedText, if_neg Bool.false_ne_true, Numeral.text, hw, List.cons_append, List.cons_append,
        readValue_of_isDigit hc, hread]
  | string content =>
    rw [Spells] at h
    obtain ⟨u, hu, hread⟩ := readString_append h rest
    rw [hu, readValue, hread]
    rfl
  | array items =>
    rw [Spells] at h
    obtain ⟨inner, hinner, rfl⟩ := h
    have hall : '[' :: (inner ++ [']']) ++ rest = '[' :: (inner ++ ']' :: rest) := by simp
    rw [hall, readValue]
    by_cases hne : items = []
    · subst hne
      have hskip : skipBlanks (inner ++ ']' :: rest) = ']' :: rest := by
        refine skipBlanks_append hinner fun c hc => ?_
        obtain rfl : ']' = c := by simpa using hc
        rfl
      rw [hskip]
      rfl
    · obtain ⟨c, u, hskip, hc⟩ := exists_skipBlanks_items hinner hne (']' :: rest)
      have hread : readItems rounds (skipBlanks (inner ++ ']' :: rest)) = some (items, rest) := by
        rw [readItems_skipBlanks]
        refine hitems items inner rest hne hinner ?_
        simp only [List.length_cons, List.length_append, List.length_nil] at hlen
        omega
      rw [hskip] at hread ⊢
      split
      · next heq => exact absurd (List.cons.inj heq).1 hc
      · rw [hread]
        rfl
  | object members =>
    rw [Spells] at h
    obtain ⟨inner, hinner, rfl⟩ := h
    have hall : '\x7b' :: (inner ++ ['\x7d']) ++ rest = '\x7b' :: (inner ++ '\x7d' :: rest) := by simp
    rw [hall, readValue]
    by_cases hne : members = []
    · subst hne
      have hskip : skipBlanks (inner ++ '\x7d' :: rest) = '\x7d' :: rest := by
        refine skipBlanks_append hinner fun c hc => ?_
        obtain rfl : '\x7d' = c := by simpa using hc
        rfl
      rw [hskip]
      rfl
    · obtain ⟨u, hskip⟩ := exists_skipBlanks_members hinner hne ('\x7d' :: rest)
      have hread : readMembers rounds (skipBlanks (inner ++ '\x7d' :: rest)) = some (members, rest) := by
        rw [readMembers_skipBlanks]
        refine hmembers members inner rest hne hinner ?_
        simp only [List.length_cons, List.length_append, List.length_nil] at hlen
        omega
      rw [hskip] at hread ⊢
      split
      · next heq => cases heq
      · rw [hread]
        rfl

/-- A round for a comma. -/
theorem readsItems_succ (hvalues : ReadsValues rounds) (hitems : ReadsItems rounds) : ReadsItems (rounds + 1) := by
  intro items t rest hne h hlen
  match items, hne, h with
  | [], hne, _ => exact absurd rfl hne
  | [item], _, h =>
    rw [SpellsItems] at h
    obtain ⟨behind, hread, hskip⟩ := hvalues.padded h (by omega) (.inr (.inl rfl)) rest
    rw [readItems, hread]
    simp only [Option.bind_eq_bind, Option.bind_some, hskip]
    rfl
  | item :: other :: items, _, h =>
    rw [SpellsItems] at h
    · obtain ⟨first, more, hfirst, hmore, rfl⟩ := h
      simp only [List.length_append, List.length_cons] at hlen
      obtain ⟨behind, hread, hskip⟩ := hvalues.padded hfirst (by omega) (.inl rfl) (more ++ ']' :: rest)
      have hrest := hitems (other :: items) more rest (List.cons_ne_nil _ _) hmore (by omega)
      rw [List.append_assoc, List.cons_append, readItems, hread]
      simp only [Option.bind_eq_bind, Option.bind_some, hskip, hrest]
      rfl
    · exact nofun

theorem readsMembers_succ (hvalues : ReadsValues rounds) (hmembers : ReadsMembers rounds) :
    ReadsMembers (rounds + 1) := by
  intro members t rest hne h hlen
  match members, hne, h with
  | [], hne, _ => exact absurd rfl hne
  | [(name, value)], _, h =>
    rw [SpellsMembers] at h
    obtain ⟨first, second, hfirst, hsecond, rfl⟩ := h
    simp only [List.length_append, List.length_cons] at hlen
    obtain ⟨u, afterName, hname, hstring, hcolon⟩ := readString_padded hfirst (second ++ '\x7d' :: rest)
    obtain ⟨behind, hread, hskip⟩ := hvalues.padded hsecond (by omega) (.inr (.inr rfl)) rest
    rw [List.append_assoc, List.cons_append, readMembers, hname]
    simp only [Option.bind_eq_bind, Option.bind_some, hstring, hcolon, hread, hskip]
    rfl
  | (name, value) :: other :: members, _, h =>
    rw [SpellsMembers] at h
    · obtain ⟨first, second, more, hfirst, hsecond, hmore, rfl⟩ := h
      simp only [List.length_append, List.length_cons] at hlen
      obtain ⟨u, afterName, hname, hstring, hcolon⟩ :=
        readString_padded hfirst (second ++ ',' :: (more ++ '\x7d' :: rest))
      obtain ⟨behind, hread, hskip⟩ := hvalues.padded hsecond (by omega) (.inl rfl) (more ++ '\x7d' :: rest)
      have hrest := hmembers (other :: members) more rest (List.cons_ne_nil _ _) hmore (by omega)
      have hall : first ++ ':' :: (second ++ ',' :: more) ++ '\x7d' :: rest
          = first ++ ':' :: (second ++ ',' :: (more ++ '\x7d' :: rest)) := by simp
      rw [hall, readMembers, hname]
      simp only [Option.bind_eq_bind, Option.bind_some, hstring, hcolon, hread, hskip, hrest]
      rfl
    · exact nofun

theorem reads (rounds : Nat) : ReadsValues rounds ∧ ReadsItems rounds ∧ ReadsMembers rounds := by
  induction rounds with
  | zero =>
    refine ⟨fun j t rest h _ hlen => ?_, fun items t rest _ _ hlen => absurd hlen (by omega),
      fun members t rest _ _ hlen => absurd hlen (by omega)⟩
    obtain ⟨c, u, rfl, -, -⟩ := h.exists_cons
    rw [List.length_cons] at hlen
    omega
  | succ rounds ih =>
    obtain ⟨hvalues, hitems, hmembers⟩ := ih
    exact ⟨readsValues_succ hitems hmembers, readsItems_succ hvalues hitems, readsMembers_succ hvalues hmembers⟩

/-- **Every text of a value is read as the value.** -/
theorem read?_of_isText (h : j.IsText t) : read? t = some j := by
  obtain ⟨before, inner, after, hbefore, hinner, hafter, rfl⟩ := h
  obtain ⟨c, u, hc, hblank, -⟩ := hinner.exists_cons
  have hskip : skipBlanks (before ++ (inner ++ after)) = inner ++ after := by
    refine skipBlanks_append hbefore fun b hb => ?_
    rw [hc] at hb
    obtain rfl : c = b := by simpa using hb
    exact hblank
  have hends : EndsValue after := by
    have hnil : EndsValue (after ++ []) := .of_isGap hafter nofun
    rwa [List.append_nil] at hnil
  have hread := (reads (2 * (before ++ (inner ++ after)).length + 1)).1 j inner after hinner hends (by
    simp only [List.length_append]
    omega)
  rw [read?, hskip, hread]
  simp [skipBlanks_of_isGap hafter]

/-! ### What is printed -/

/-- Only zero is written with a zero in front. -/
theorem natText_eq_zero {n : Nat} (h : (Decimal.natText n).head? = some '0') : Decimal.natText n = ['0'] := by
  induction n using Nat.strongRecOn with
  | ind n ih =>
    by_cases hn : n < 10
    · rw [Decimal.natText, Nat.toDigits_of_lt_base hn] at h ⊢
      rw [Option.some.inj h]
    · have hsplit : Decimal.natText n = Decimal.natText (n / 10) ++ [Nat.digitChar (n % 10)] :=
        Nat.toDigits_of_base_le (by decide) (by omega)
      obtain ⟨c, w, hw⟩ := List.exists_cons_of_ne_nil (Decimal.natText_ne_nil (n / 10))
      have hfront : (Decimal.natText (n / 10)).head? = some '0' := by
        rw [hsplit, hw] at h
        rw [hw]
        exact h
      have hzero := congrArg Decimal.ofDigits (ih (n / 10) (by omega) hfront)
      rw [Decimal.ofDigits_natText] at hzero
      have hnone : Decimal.ofDigits ['0'] = 0 := by decide
      omega

theorem isJson_natText (n : Nat) : Numeral.IsJson ⟨Decimal.natText n, [], none⟩ where
  ne_nil := Decimal.natText_ne_nil n
  whole := Decimal.isDigit_of_mem_natText
  zero := natText_eq_zero
  fraction := List.forall_mem_nil _
  power := nofun

/-- A control character is named by its digits. -/
theorem unit?_digitChar : ∀ n < 0x20, unit? '0' '0' (Nat.digitChar (n / 16)) (Nat.digitChar (n % 16)) = some n := by
  decide

/-- Each character is written as a part of a string that is read as the character. -/
theorem exists_part (c : Char) :
    ∃ p, SpellsPart p (escape c) ∧ ∀ parts, join? (p :: parts) = (join? parts).map (c :: ·) := by
  have hescaped : ∀ e, escaped? e = some c → escape c = ['\\', e] →
      ∃ p, SpellsPart p (escape c) ∧ ∀ parts, join? (p :: parts) = (join? parts).map (c :: ·) := by
    intro e he hc
    exact ⟨.char c, hc ▸ .escaped he, fun _ => rfl⟩
  by_cases hquote : c = '"'
  · subst hquote
    exact hescaped '"' rfl rfl
  by_cases hbackslash : c = '\\'
  · subst hbackslash
    exact hescaped '\\' rfl rfl
  by_cases hb : c = '\x08'
  · subst hb
    exact hescaped 'b' rfl rfl
  by_cases hf : c = '\x0c'
  · subst hf
    exact hescaped 'f' rfl rfl
  by_cases hn : c = '\n'
  · subst hn
    exact hescaped 'n' rfl rfl
  by_cases hr : c = '\r'
  · subst hr
    exact hescaped 'r' rfl rfl
  by_cases ht : c = '\t'
  · subst ht
    exact hescaped 't' rfl rfl
  by_cases hcontrol : c.toNat < 0x20
  · have hunit : escape c = ['\\', 'u', '0', '0', Nat.digitChar (c.toNat / 16), Nat.digitChar (c.toNat % 16)] := by
      simp [escape, *]
    refine ⟨.unit c.toNat, hunit ▸ .unit (unit?_digitChar c.toNat hcontrol), fun parts => ?_⟩
    have hsmall : c.toNat < 0xD800 ∨ 0xDFFF < c.toNat := by omega
    rw [join?.eq_def]
    simp only [if_pos hsmall, Char.ofNat_toNat]
  · have hplain : escape c = [c] := by simp [escape, *]
    exact ⟨.char c, hplain ▸ .char hquote hbackslash (Nat.le_of_not_lt hcontrol), fun _ => rfl⟩

theorem spellsString_quote (t : SqlText) : SpellsString (some t) (quote t) := by
  have hparts : ∃ spelled : List (StringPart × SqlText), (∀ p ∈ spelled, SpellsPart p.1 p.2) ∧
      join? (spelled.map Prod.fst) = some t ∧ spelled.flatMap Prod.snd = t.flatMap escape := by
    induction t with
    | nil => exact ⟨[], List.forall_mem_nil _, rfl, rfl⟩
    | cons c t ih =>
      obtain ⟨spelled, hspelled, hjoin, htext⟩ := ih
      obtain ⟨p, hp, hc⟩ := exists_part c
      refine ⟨(p, escape c) :: spelled, List.forall_mem_cons.2 ⟨hp, hspelled⟩, ?_, ?_⟩
      · rw [List.map_cons, hc, hjoin]
        rfl
      · rw [List.flatMap_cons, htext, List.flatMap_cons]
  obtain ⟨spelled, hspelled, hjoin, htext⟩ := hparts
  exact ⟨spelled, hspelled, hjoin, by rw [htext, quote]⟩

theorem isGap_newline (level : Nat) : IsGap (newline level) := by
  intro c hc
  rcases List.mem_cons.1 hc with rfl | hc
  · rfl
  · rw [List.eq_of_mem_replicate hc]
    rfl

theorem Padded.of {P : SqlText → Prop} (h : P t) : Padded P t :=
  ⟨[], t, [], nofun, h, nofun, (List.append_nil t).symm⟩

/-- Whether what the printers write of a value is among its texts. -/
structure Prints (j : Json) : Prop where
  compact : Spells j j.compact
  pretty : ∀ level, Spells j (prettyAt level j)

namespace Prints

theorem null : Prints .null :=
  ⟨rfl, fun _ => rfl⟩

theorem bool (b : Bool) : Prints (.bool b) :=
  ⟨rfl, fun _ => rfl⟩

theorem number (negative : Bool) (hn : n.IsJson) : Prints (.number negative n) :=
  ⟨⟨hn, rfl⟩, fun _ => ⟨hn, rfl⟩⟩

theorem ofInt (n : Int) : Prints (.ofInt n) :=
  number _ (isJson_natText n.natAbs)

theorem ofText (t : SqlText) : Prints (.ofText t) :=
  ⟨spellsString_quote t, fun _ => spellsString_quote t⟩

theorem ofString (s : String) : Prints (.ofString s) :=
  ofText s.toList

/-- The items on their lines, with blanks behind the last one. -/
theorem items_pretty {gap : SqlText} (h : ∀ item ∈ items, Prints item) (hgap : IsGap gap) (level : Nat) :
    SpellsItems items (prettyItems level items ++ gap) := by
  induction items with
  | nil => exact hgap
  | cons item items ih =>
    obtain ⟨hitem, hitems⟩ := List.forall_mem_cons.1 h
    cases items with
    | nil =>
      rw [prettyItems, SpellsItems, List.append_assoc]
      exact ⟨_, _, gap, isGap_newline level, hitem.pretty level, hgap, rfl⟩
    | cons other items =>
      refine ⟨newline level ++ prettyAt level item, _, ?_, ih hitems, ?_⟩
      · exact ⟨_, _, [], isGap_newline level, hitem.pretty level, nofun, by rw [List.append_nil]⟩
      · simp [prettyItems]

theorem array (h : ∀ item ∈ items, Prints item) : Prints (.array items) := by
  constructor
  · refine ⟨compactItems items, ?_, rfl⟩
    induction items with
    | nil => exact List.forall_mem_nil _
    | cons item items ih =>
      obtain ⟨hitem, hitems⟩ := List.forall_mem_cons.1 h
      cases items with
      | nil => exact .of hitem.compact
      | cons other items => exact ⟨_, _, .of hitem.compact, ih hitems, rfl⟩
  · intro level
    cases items with
    | nil => exact ⟨[], List.forall_mem_nil _, rfl⟩
    | cons item items => exact ⟨_, items_pretty h (isGap_newline level) (level + 1), by simp [prettyAt]⟩

variable {named : List (SqlText × Json)}

/-- The members on their lines, with blanks behind the last one. -/
theorem members_pretty {gap : SqlText} (h : ∀ m ∈ named, Prints m.2) (hgap : IsGap gap) (level : Nat) :
    SpellsMembers (named.map fun m => (some m.1, m.2))
      (prettyMembers level (named.map fun m => (some m.1, m.2)) ++ gap) := by
  induction named with
  | nil => exact hgap
  | cons m named ih =>
    obtain ⟨hm, hnamed⟩ := List.forall_mem_cons.1 h
    have hname : Padded (SpellsString (some m.1)) (newline level ++ quote m.1) :=
      ⟨_, _, [], isGap_newline level, spellsString_quote m.1, nofun, by rw [List.append_nil]⟩
    have hblank : IsGap [' '] := List.forall_mem_singleton.2 rfl
    cases named with
    | nil =>
      refine ⟨_, ' ' :: (prettyAt level m.2 ++ gap), hname, ⟨[' '], _, gap, hblank, hm.pretty level, hgap, rfl⟩, ?_⟩
      simp [prettyMembers]
    | cons other named =>
      refine ⟨_, ' ' :: prettyAt level m.2, _, hname,
        ⟨[' '], _, [], hblank, hm.pretty level, nofun, by rw [List.append_nil]; rfl⟩, ih hnamed, ?_⟩
      simp [prettyMembers]

theorem object (h : ∀ m ∈ named, Prints m.2) : Prints (.object (named.map fun m => (some m.1, m.2))) := by
  constructor
  · refine ⟨compactMembers _, ?_, rfl⟩
    induction named with
    | nil => exact List.forall_mem_nil _
    | cons m named ih =>
      obtain ⟨hm, hnamed⟩ := List.forall_mem_cons.1 h
      have hname : Padded (SpellsString (some m.1)) (quote m.1) := .of (spellsString_quote m.1)
      cases named with
      | nil => exact ⟨_, _, hname, .of hm.compact, rfl⟩
      | cons other named => exact ⟨_, _, _, hname, .of hm.compact, ih hnamed, rfl⟩
  · intro level
    cases named with
    | nil => exact ⟨[], List.forall_mem_nil _, rfl⟩
    | cons m named => exact ⟨_, members_pretty h (isGap_newline level) (level + 1), by simp [prettyAt]⟩

theorem isText_compact (h : Prints j) : j.IsText j.compact :=
  .of h.compact

theorem isText_pretty (h : Prints j) : j.IsText j.pretty :=
  .of (h.pretty 0)

end Prints

/-! ### Numbers that are read back -/

/-- What an integer is written as stands for the integer. -/
theorem number?_ofInt {n : Int} (hleast : -(Decimal.int64Count : Int) ≤ n) (hgreatest : n < UInt64.size) :
    number? (n < 0) ⟨Decimal.natText n.natAbs, [], none⟩ = some (.integer n) := by
  have hwhole : Numeral.isWhole ⟨Decimal.natText n.natAbs, [], none⟩ = true := rfl
  unfold number?
  rw [Decimal.ofDigits_natText]
  by_cases hn : n < 0
  · have hsize : -(n.natAbs : Int) = n := by omega
    rw [if_neg (by simp [hn]), if_pos ⟨hwhole, by simpa using hn, by omega, by omega⟩, hsize]
  · have hsize : (n.natAbs : Int) = n := by omega
    rw [if_pos ⟨hwhole, by simpa using hn, by omega⟩, hsize]

theorem nat?_ofInt {bound n : Nat} (h : n < bound) (hbound : bound ≤ UInt64.size) : nat? bound (.ofInt n) = some n := by
  have hread := number?_ofInt (n := n) (by omega) (by omega)
  rw [ofInt, nat?, hread]
  simp [h]

theorem mapM_eq_some_map {α β : Type} {f : α → Option β} {g : α → β} {xs : List α} (h : ∀ x ∈ xs, f x = some (g x)) :
    xs.mapM f = some (xs.map g) := by
  induction xs with
  | nil => rfl
  | cons x xs ih =>
    obtain ⟨hx, hxs⟩ := List.forall_mem_cons.1 h
    rw [List.mapM_cons, hx, ih hxs]
    rfl

end Json

end JetAdapter

import JetAdapter.Guarded.Lexer
import JetAdapter.Proofs.Guards
import JetAdapter.Proofs.Lexing
import JetAdapter.Proofs.Lookahead

/-!
# The cursor of the scanner

The cursor always stands between two characters of the text (`Stands`): it goes on by the size of a character that it
has just looked at.  So all that the scanner cuts out are stretches of the text, and the tokens that it finds with the
cursor are those of the text (`tokens_eq`).
-/

namespace JetAdapter.Guarded

open Lexeme (scanGap scan)
open Text (byteSize byteSize_append)

variable {input s t : SqlText} {c : Char} {cursor rounds : Nat} {p : Char → Bool}

/-- Whether the cursor stands before this last part of the text. -/
def Stands (input : SqlText) (cursor : Nat) (t : SqlText) : Prop :=
  ∃ before, input = before ++ t ∧ cursor = byteSize before

namespace Stands

theorem start (input : SqlText) : Stands input 0 input :=
  ⟨[], rfl, rfl⟩

theorem append (h : Stands input cursor (s ++ t)) : Stands input (cursor + byteSize s) t := by
  obtain ⟨before, hinput, hcursor⟩ := h
  exact ⟨before ++ s, by rw [hinput, List.append_assoc], by rw [hcursor, byteSize_append]⟩

theorem next (h : Stands input cursor (c :: t)) : Stands input (cursor + c.utf8Size) t :=
  append (s := [c]) h

theorem length_le (h : Stands input cursor t) : t.length ≤ input.length := by
  obtain ⟨before, hinput, -⟩ := h
  rw [hinput, List.length_append]
  omega

theorem cutFrom_eq (h : Stands input cursor t) : cutFrom input cursor = .ok t := by
  obtain ⟨before, hinput, hcursor⟩ := h
  exact cutFrom_append hinput hcursor

theorem cutOut_eq (h : Stands input cursor (s ++ t)) : cutOut input ⟨cursor, cursor + byteSize s⟩ = .ok s := by
  obtain ⟨before, hinput, hcursor⟩ := h
  exact cutOut_append hinput hcursor (by rw [hcursor, byteSize_append])

theorem peek_eq (h : Stands input cursor t) : peek input cursor = .ok t[0]? := by
  rw [peek, h.cutFrom_eq]
  rfl

theorem peekNext_eq (h : Stands input cursor t) : peekNext input cursor = .ok t[1]? := by
  rw [peekNext, h.cutFrom_eq]
  rfl

/-! ### Loops -/

theorem eatWhile_eq (h : Stands input cursor t) (hr : t.length ≤ rounds) :
    eatWhile input p rounds cursor = .ok (cursor + byteSize (t.takeWhile p)) := by
  induction t generalizing cursor rounds with
  | nil =>
    cases rounds with
    | zero => rfl
    | succ n =>
      rw [eatWhile, h.peek_eq]
      rfl
  | cons c t ih =>
    cases rounds with
    | zero => cases hr
    | succ n =>
      rw [eatWhile, h.peek_eq, List.takeWhile_cons]
      simp only [List.getElem?_cons_zero, ok_bind]
      split
      · rw [ih h.next (Nat.le_of_succ_le_succ hr), Text.byteSize_cons, Nat.add_assoc]
      · rfl

/-- A loop over the rest of the text has rounds enough. -/
theorem eatWhile_all (h : Stands input cursor t) (p : Char → Bool) :
    eatWhile input p input.length cursor = .ok (cursor + byteSize (t.takeWhile p)) :=
  h.eatWhile_eq h.length_le

/-- The cursor stands behind what it went over. -/
theorem dropWhile (h : Stands input cursor t) (p : Char → Bool) :
    Stands input (cursor + byteSize (t.takeWhile p)) (t.dropWhile p) := by
  rw [← List.takeWhile_append_dropWhile (p := p) (l := t)] at h
  exact h.append

end Stands

/-! ### Gaps -/

/-- A gap starts with its blanks. -/
theorem scanGap_blanks (t : SqlText) : scanGap .blanks t =
    (t.takeWhile Text.isBlank ++ (scanGap .blanks (t.dropWhile Text.isBlank)).1,
      (scanGap .blanks (t.dropWhile Text.isBlank)).2) := by
  induction t with
  | nil => rfl
  | cons c t ih =>
    by_cases hc : Text.isBlank c = true
    · rw [Lexeme.scanGap_blank hc, ih, List.takeWhile_cons_of_pos hc, List.dropWhile_cons_of_pos hc]
      rfl
    · rw [List.takeWhile_cons_of_neg hc, List.dropWhile_cons_of_neg hc]
      rfl

/-- A line comment goes up to the end of its line. -/
theorem scanGap_line (t : SqlText) : scanGap .lineComment t =
    (t.takeWhile (· != '\n') ++ (scanGap .blanks (t.dropWhile (· != '\n'))).1,
      (scanGap .blanks (t.dropWhile (· != '\n'))).2) := by
  induction t with
  | nil => rfl
  | cons c t ih =>
    by_cases hc : c = '\n'
    · subst hc
      rfl
    · have hne : (c != '\n') = true := bne_iff_ne.2 hc
      rw [Lexeme.scanGap_lineComment, if_neg hc, ih, List.takeWhile_cons_of_pos (by exact hne), List.dropWhile_cons_of_pos (by exact hne)]
      rfl

theorem Stands.eatBlock_eq (h : Stands input cursor t) (hr : t.length ≤ rounds) : ∃ comment rest,
    t = comment ++ rest ∧ eatBlock input rounds cursor = .ok (cursor + byteSize comment) ∧
      scanGap .blockComment t = (comment ++ (scanGap .blanks rest).1, (scanGap .blanks rest).2) := by
  induction t generalizing cursor rounds with
  | nil =>
    refine ⟨[], [], rfl, ?_, rfl⟩
    cases rounds with
    | zero => rfl
    | succ n =>
      rw [eatBlock, h.peek_eq]
      rfl
  | cons c t ih =>
    cases rounds with
    | zero => cases hr
    | succ n =>
      rw [eatBlock, h.peek_eq]
      simp only [List.getElem?_cons_zero, ok_bind, h.next.peek_eq]
      by_cases hend : c = '*' ∧ t[0]? = some '/'
      · obtain ⟨rfl, ht⟩ := hend
        rw [← List.head?_eq_getElem?] at ht
        obtain ⟨rest, rfl⟩ := List.head?_eq_some_iff.1 ht
        exact ⟨['*', '/'], rest, rfl, rfl, rfl⟩
      · obtain ⟨comment, rest, rfl, hstop, hgap⟩ := ih h.next (Nat.le_of_succ_le_succ hr)
        refine ⟨c :: comment, rest, rfl, ?_, ?_⟩
        · rw [if_neg hend, hstop, Text.byteSize_cons, Nat.add_assoc]
        · rw [Lexeme.scanGap_blockComment fun hc ht => hend ⟨hc, by rw [← List.head?_eq_getElem?]; exact ht⟩, hgap]
          rfl

/-- The characters behind the cursor are those that a text starts with. -/
theorem exists_cons_cons {a b : Char} (h : t[0]? = some a ∧ t[1]? = some b) : ∃ u, t = a :: b :: u := by
  obtain ⟨h0, h1⟩ := h
  match t, h0, h1 with
  | _ :: _ :: u, rfl, rfl => exact ⟨u, rfl⟩

theorem Stands.eatGap_eq (h : Stands input cursor t) (hr : t.length < rounds) :
    eatGap input rounds cursor = .ok (cursor + byteSize (scanGap .blanks t).1) := by
  induction rounds generalizing cursor t with
  | zero => cases hr
  | succ n ih =>
    rw [eatGap, h.eatWhile_all, scanGap_blanks, byteSize_append, ← Nat.add_assoc]
    have hlength : (t.dropWhile Text.isBlank).length ≤ t.length := (List.dropWhile_sublist _).length_le
    have hstands := h.dropWhile Text.isBlank
    have hblank := List.head?_dropWhile_not Text.isBlank t
    generalize cursor + byteSize (t.takeWhile Text.isBlank) = cursor at hstands
    generalize t.dropWhile Text.isBlank = u at hstands hlength hblank
    simp only [ok_bind, hstands.peek_eq, hstands.peekNext_eq]
    by_cases hline : u[0]? = some '-' ∧ u[1]? = some '-'
    · obtain ⟨v, rfl⟩ := exists_cons_cons hline
      have hrest := hstands.dropWhile (· != '\n')
      have hle : (v.dropWhile (· != '\n')).length ≤ v.length := (List.dropWhile_sublist _).length_le
      rw [if_pos hline, hstands.eatWhile_all, ok_bind, ih hrest ?_, Nat.add_assoc, ← byteSize_append]
      · congr 3
        rw [Lexeme.scanGap_lineStart, scanGap_line]
        rfl
      · show (v.dropWhile (· != '\n')).length < n
        simp only [List.length_cons] at hlength
        omega
    by_cases hblock : u[0]? = some '/' ∧ u[1]? = some '*'
    · obtain ⟨v, rfl⟩ := exists_cons_cons hblock
      have hbody : Stands input (cursor + '/'.utf8Size + '*'.utf8Size) v := hstands.next.next
      obtain ⟨comment, rest, rfl, hstop, hgap⟩ := hbody.eatBlock_eq hbody.length_le
      rw [if_neg hline, if_pos hblock, hstop, ok_bind, ih hbody.append (by simp at hlength; omega), Lexeme.scanGap_blockStart,
        hgap]
      simp only [Text.byteSize_cons, byteSize_append]
      congr 1
      omega
    · rw [if_neg hline, if_neg hblock]
      cases u with
      | nil => rfl
      | cons c v =>
        rw [Lexeme.scanGap_token (by simpa using hblank)
          (fun hc hv => hline ⟨by rw [hc]; rfl, by rw [← hv, List.head?_eq_getElem?]; rfl⟩)
          (fun hc hv => hblock ⟨by rw [hc]; rfl, by rw [← hv, List.head?_eq_getElem?]; rfl⟩)]
        rfl

/-! ### Single tokens -/

/-- Whether a reader of single tokens answers the kind and the end of a token of the text. -/
def ReadsAs (start : Nat) (x : Guarded (Kind × Nat)) (token : Lexeme.Scan) : Prop :=
  x = .ok (token.kind, start + byteSize token.text)

theorem Stands.readWord_eq (h : Stands input cursor t) :
    ReadsAs cursor (readWord input cursor) (Lexeme.scanWord t) := by
  have hword := h
  rw [← List.takeWhile_append_dropWhile (p := Text.continuesWord) (l := t)] at hword
  rw [ReadsAs, readWord, h.eatWhile_all, ok_bind, hword.cutOut_eq]
  rfl

theorem Stands.eatQuoted_cons {closing : Char} {content : SqlText} (h : Stands input cursor (c :: t)) :
    eatQuoted input closing (rounds + 1) content cursor =
      if c = closing then
        if t[0]? = some closing then
          eatQuoted input closing rounds (content ++ [closing]) (cursor + c.utf8Size + closing.utf8Size)
        else .ok (some content, cursor + c.utf8Size)
      else eatQuoted input closing rounds (content ++ [c]) (cursor + c.utf8Size) := by
  rw [eatQuoted, h.peek_eq]
  simp only [List.getElem?_cons_zero, ok_bind, h.next.peek_eq]
  rfl

theorem Stands.eatQuoted_eq {closing : Char} {content : SqlText} (h : Stands input cursor t) (hr : t.length ≤ rounds) :
    eatQuoted input closing rounds content cursor = match Text.readQuoted closing t with
      | some (more, _) => .ok (some (content ++ more), cursor + byteSize (Text.double closing more ++ [closing]))
      | none => .ok (none, cursor + byteSize t) := by
  -- Without characters behind the cursor there need not be a round.
  have hnil : ∀ {cursor rounds : Nat} {content : SqlText}, Stands input cursor [] →
      eatQuoted input closing rounds content cursor = .ok (none, cursor) := by
    intro cursor rounds content h
    cases rounds with
    | zero => rfl
    | succ n =>
      rw [eatQuoted, h.peek_eq]
      rfl
  fun_induction Text.readQuoted closing t generalizing cursor rounds content with
  | case1 => exact hnil h
  | case2 =>
    cases rounds with
    | zero => cases hr
    | succ n =>
      rw [h.eatQuoted_cons, if_pos rfl, if_neg (by simp)]
      simp only [List.append_nil]
      rfl
  | case3 c hc =>
    cases rounds with
    | zero => cases hr
    | succ n =>
      rw [h.eatQuoted_cons, if_neg hc, hnil h.next]
      rfl
  | case4 t ih =>
    cases rounds with
    | zero => cases hr
    | succ n =>
      have hle : t.length ≤ n := by
        simp only [List.length_cons] at hr
        omega
      rw [h.eatQuoted_cons, if_pos rfl, if_pos (show (closing :: t)[0]? = some closing from rfl), ih h.next.next hle]
      cases Text.readQuoted closing t with
      | none => simp only [Option.map_none, Text.byteSize_cons, Nat.add_assoc]
      | some found =>
        simp only [Option.map_some, Text.double, if_pos, List.cons_append, Text.byteSize_cons, Nat.add_assoc,
          List.append_assoc, List.nil_append]
  | case5 d t hd =>
    cases rounds with
    | zero => cases hr
    | succ n =>
      rw [h.eatQuoted_cons, if_pos rfl, if_neg (by simpa using hd)]
      simp only [List.append_nil]
      rfl
  | case6 c d t hc ih =>
    cases rounds with
    | zero => cases hr
    | succ n =>
      rw [h.eatQuoted_cons, if_neg hc, ih h.next (Nat.le_of_succ_le_succ hr)]
      cases Text.readQuoted closing (d :: t) with
      | none => simp only [Option.map_none, Text.byteSize_cons, Nat.add_assoc]
      | some found =>
        simp only [Option.map_some, Text.double, if_neg hc, List.cons_append, Text.byteSize_cons, Nat.add_assoc,
          List.append_assoc, List.nil_append]

theorem Stands.readQuoted_eq {closing : Char} {kind : SqlText → Kind} {fault : LexicalFault}
    (h : Stands input cursor (c :: t)) :
    ReadsAs cursor (readQuoted input c closing kind fault cursor) (Lexeme.scanQuoted c closing kind fault t) := by
  rw [ReadsAs, readQuoted, h.next.eatQuoted_eq h.next.length_le, Lexeme.scanQuoted]
  cases Text.readQuoted closing t with
  | none =>
    simp only [ok_bind, Text.byteSize_cons]
    rw [Nat.add_assoc]
    rfl
  | some found =>
    simp only [ok_bind, Text.byteSize_cons]
    rw [Nat.add_assoc]
    rfl

theorem Stands.readDate_eq (h : Stands input cursor ('#' :: t)) :
    ReadsAs cursor (readDate input cursor) (Lexeme.scanDate t) := by
  have hcontent := h.next
  have hstop := hcontent.dropWhile (· != '#')
  have hcut := hcontent
  rw [← List.takeWhile_append_dropWhile (p := (· != '#')) (l := t)] at hcut
  have hclosing := List.head?_dropWhile_not (· != '#') t
  rw [ReadsAs, readDate]
  simp only [hcontent.eatWhile_all, ok_bind, hstop.peek_eq, hcut.cutOut_eq, Lexeme.scanDate]
  cases hrest : t.dropWhile (· != '#') with
  | nil =>
    have ht : t.takeWhile (· != '#') = t := by
      have := List.takeWhile_append_dropWhile (p := (· != '#')) (l := t)
      rwa [hrest, List.append_nil] at this
    simp only [List.getElem?_nil, ht, Nat.add_assoc]
    rfl
  | cons c u =>
    obtain rfl : c = '#' := by simpa [hrest] using hclosing
    simp only [List.getElem?_cons_zero, Text.byteSize_cons, byteSize_append, Nat.add_assoc]
    rfl

/-- What is behind the cursor is a first part and a rest, and both are found. -/
theorem Stands.takeWhile (h : Stands input cursor t) (p : Char → Bool) :
    cutOut input ⟨cursor, cursor + byteSize (t.takeWhile p)⟩ = .ok (t.takeWhile p) := by
  rw [← List.takeWhile_append_dropWhile (p := p) (l := t)] at h
  exact h.cutOut_eq

/-- A stretch is empty just if nothing was gone over. -/
theorem add_byteSize_eq_iff : cursor + byteSize s = cursor ↔ s = [] :=
  ⟨fun h => Text.eq_nil_of_byteSize_eq_zero (by omega), fun h => by rw [h]; rfl⟩

theorem Stands.readAt_eq (h : Stands input cursor ('@' :: t)) :
    ReadsAs cursor (readAt input cursor) (Lexeme.scanAt t) := by
  rw [ReadsAs, readAt]
  simp only [h.next.peek_eq, ok_bind]
  by_cases hat : t[0]? = some '@'
  · obtain ⟨u, rfl⟩ : ∃ u, t = '@' :: u := List.head?_eq_some_iff.1 (by rw [List.head?_eq_getElem?, hat])
    have hname := h.next.next
    rw [if_pos hat, hname.eatWhile_all, ok_bind, Lexeme.scanAt]
    simp only [add_byteSize_eq_iff]
    have hcut : cutOut input ⟨cursor, cursor + '@'.utf8Size + '@'.utf8Size + byteSize (u.takeWhile Text.continuesWord)⟩
        = .ok ('@' :: '@' :: u.takeWhile Text.continuesWord) := by
      rw [← List.takeWhile_append_dropWhile (p := Text.continuesWord) (l := u)] at h
      have := h.cutOut_eq (s := '@' :: '@' :: u.takeWhile Text.continuesWord)
      rwa [Text.byteSize_cons, Text.byteSize_cons, ← Nat.add_assoc, ← Nat.add_assoc] at this
    split
    · next hnone =>
      rw [hnone]
      rfl
    · rw [hcut]
      simp only [ok_bind, Text.byteSize_cons, Nat.add_assoc]
      rfl
  · have hscan : Lexeme.scanAt t = ⟨if t.takeWhile Text.continuesWord = [] then .fault .parameterNameMissing
        else .named (t.takeWhile Text.continuesWord), '@' :: t.takeWhile Text.continuesWord,
        t.dropWhile Text.continuesWord⟩ := by
      rw [Lexeme.scanAt]
      rintro u rfl
      exact hat rfl
    rw [if_neg hat, h.next.eatWhile_all, ok_bind, hscan, h.next.takeWhile]
    simp only [add_byteSize_eq_iff, ok_bind, Text.byteSize_cons, ← Nat.add_assoc]
    split
    · rfl
    · rfl

/-! ### Numbers -/

/-- A point is read just if a fraction starts with it. -/
theorem startsFraction_iff : Text.startsFraction t = true ↔ t[0]? = some '.' ∧ t[1]?.any Char.isDigit = true := by
  cases t with
  | nil => exact ⟨nofun, fun h => nomatch h.1⟩
  | cons c t =>
    rw [List.getElem?_cons_zero, List.getElem?_cons_succ, ← List.head?_eq_getElem?, Option.some_inj]
    by_cases hc : c = '.'
    · subst hc
      exact ⟨fun h => ⟨rfl, h⟩, And.right⟩
    · rw [Text.startsFraction_of_ne hc]
      exact ⟨nofun, fun h => absurd h.1 hc⟩

theorem Stands.eatFraction_eq (h : Stands input cursor t) :
    eatFraction input cursor = .ok (cursor + byteSize (Numeral.fractionText (Numeral.scanFraction t).1)) := by
  rw [eatFraction, h.peek_eq, ok_bind, h.peekNext_eq, ok_bind]
  by_cases hf : Text.startsFraction t = true
  · obtain ⟨hdot, hdigit⟩ := startsFraction_iff.1 hf
    obtain ⟨u, rfl⟩ : ∃ u, t = '.' :: u := List.head?_eq_some_iff.1 (by rw [List.head?_eq_getElem?, hdot])
    have hne : u.takeWhile Char.isDigit ≠ [] := by
      rw [ne_eq, takeWhile_eq_nil_iff, Bool.not_eq_false]
      exact hf
    rw [if_pos ⟨hdot, hdigit⟩, h.next.eatWhile_all, Numeral.scanFraction, if_neg hne, Numeral.fractionText_of_ne_nil hne,
      Text.byteSize_cons, Nat.add_assoc]
  · rw [if_neg (mt startsFraction_iff.2 hf), Numeral.scanFraction_of_not (Bool.eq_false_iff.2 hf)]
    rfl

theorem Stands.eatPower_eq (h : Stands input cursor t) :
    eatPower input cursor
      = .ok (cursor + byteSize (((Numeral.scanPower t).1.map Numeral.powerText).getD [])) := by
  rw [eatPower, h.peek_eq, ok_bind]
  cases t with
  | nil => rfl
  | cons mark t =>
    have hiff : Text.startsPower (mark :: t) = true ↔ (mark = 'e' ∨ mark = 'E') ∧
        t[0]?.any (fun c => c.isDigit || c == '+' || c == '-') = true := by
      rw [Text.startsPower, Bool.and_eq_true, List.head?_eq_getElem?]
      simp
    simp only [List.getElem?_cons_zero, h.peekNext_eq, List.getElem?_cons_succ, ok_bind, h.next.peek_eq, ← hiff]
    by_cases hp : Text.startsPower (mark :: t) = true
    · rw [if_pos hp, Numeral.scanPower_of_starts hp]
      simp only [Option.map_some, Option.getD_some, Numeral.powerText, Text.byteSize_cons, byteSize_append,
        ← Nat.add_assoc]
      cases t with
      | nil => exact h.next.eatWhile_all _
      | cons sign t =>
        simp only [List.getElem?_cons_zero]
        by_cases hsign : sign = '+' ∨ sign = '-'
        · rw [if_pos hsign, h.next.next.eatWhile_all]
          rcases hsign with rfl | rfl
          · rfl
          · rfl
        · rw [if_neg hsign, h.next.eatWhile_all, Numeral.scanSign_of_not (fun hs => hsign (.inl (by simpa using hs)))
            fun hs => hsign (.inr (by simpa using hs))]
          rfl
    · rw [if_neg hp, Numeral.scanPower_of_not (Bool.eq_false_iff.2 hp)]
      rfl

theorem Stands.readNumber_eq (h : Stands input cursor t) :
    ReadsAs cursor (readNumber input cursor) (Lexeme.scanNumber t) := by
  have hwhole := h.dropWhile Char.isDigit
  have hfraction := hwhole
  rw [← Numeral.scanFraction_text (t.dropWhile Char.isDigit)] at hfraction
  have hstop : cursor + byteSize (Numeral.scan t).1.text
      = cursor + byteSize (t.takeWhile Char.isDigit)
        + byteSize (Numeral.fractionText (Numeral.scanFraction (t.dropWhile Char.isDigit)).1)
        + byteSize (((Numeral.scanPower (Numeral.scanFraction (t.dropWhile Char.isDigit)).2).1.map
            Numeral.powerText).getD []) := by
    simp only [Numeral.scan, Numeral.text, byteSize_append, Nat.add_assoc]
  have hcut := h
  rw [← Numeral.scan_text t] at hcut
  have hagain : Numeral.scan (Numeral.scan t).1.text = ((Numeral.scan t).1, []) := by
    have hstable := @Numeral.scan_stable t [] .nil
    rwa [List.append_nil] at hstable
  rw [ReadsAs, readNumber, h.eatWhile_all, ok_bind, hwhole.eatFraction_eq, ok_bind, hfraction.append.eatPower_eq,
    ok_bind, ← hstop, hcut.cutOut_eq, ok_bind, hagain]
  rfl

theorem Stands.readSymbol_eq (h : Stands input cursor (c :: t)) :
    ReadsAs cursor (readSymbol input c cursor) (Lexeme.scanSymbol c t) := by
  have htail : ∀ {d : Char}, t[0]? = some d → ∃ u, t = d :: u := fun hd =>
    List.head?_eq_some_iff.1 (by rw [List.head?_eq_getElem?, hd])
  rw [ReadsAs, readSymbol, h.next.peek_eq, ok_bind]
  split
  · obtain ⟨u, rfl⟩ := htail ‹_›
    rfl
  · obtain ⟨u, rfl⟩ := htail ‹_›
    rfl
  · obtain ⟨u, rfl⟩ := htail ‹_›
    rfl
  · obtain ⟨u, rfl⟩ := htail ‹_›
    rfl
  · obtain ⟨u, rfl⟩ := htail ‹_›
    rfl
  · next hltEq hlt hgt hbang hbar =>
    unfold Lexeme.scanSymbol
    split
    · exact (hltEq rfl rfl).elim
    · exact (hlt rfl rfl).elim
    · exact (hgt rfl rfl).elim
    · exact (hbang rfl rfl).elim
    · exact (hbar rfl rfl).elim
    · rfl

theorem Stands.readToken_eq (h : Stands input cursor (c :: t)) :
    ReadsAs cursor (readToken input c cursor) (scan c t) := by
  unfold readToken
  split
  · exact h.readQuoted_eq
  · exact h.readQuoted_eq
  · exact h.readQuoted_eq
  · exact h.readQuoted_eq
  · exact h.readDate_eq
  · exact h.readAt_eq
  · have hscan : scan c t = if c.isDigit then Lexeme.scanNumber (c :: t)
        else if Text.startsWord c then Lexeme.scanWord (c :: t) else Lexeme.scanSymbol c t := by
      unfold scan
      split <;> first | contradiction | rfl
    rw [hscan]
    split
    · exact h.readNumber_eq
    · split
      · exact h.readWord_eq
      · exact h.readSymbol_eq

/-! ### Whole texts -/

theorem Stands.nextToken_of_fits {l : Lexeme} {rest : SqlText} (h : Stands input cursor (l.gap ++ (l.text ++ rest)))
    (hfit : l.Fits rest) : nextToken input cursor = .ok ⟨l, cursor + byteSize l.gap⟩ := by
  obtain ⟨hgap, d, w, htext, hscan⟩ := hfit
  have htoken := h.append
  have hcut := htoken.cutOut_eq
  have hread : readToken input d (cursor + byteSize l.gap)
      = .ok (l.kind, cursor + byteSize l.gap + byteSize l.text) := by
    rw [htext, List.cons_append] at htoken
    have := htoken.readToken_eq
    rwa [ReadsAs, hscan] at this
  rw [nextToken, h.eatGap_eq (Nat.lt_succ_of_le h.length_le), hgap, ok_bind, h.cutOut_eq, ok_bind, htoken.peek_eq,
    ok_bind]
  have hfirst : (l.text ++ rest)[0]? = some d := by
    rw [htext]
    rfl
  simp only [hfirst, hread, ok_bind, hcut]
  rfl

theorem Stands.nextToken_of_ends {l : Lexeme} (h : Stands input cursor l.gap) (hends : l.Ends) :
    nextToken input cursor = .ok ⟨l, cursor + byteSize l.gap⟩ := by
  obtain ⟨kind, gap, text⟩ := l
  obtain ⟨rfl, rfl, hgap⟩ := hends
  have hcut : Stands input cursor (gap ++ []) := by
    rw [List.append_nil]
    exact h
  rw [nextToken, h.eatGap_eq (Nat.lt_succ_of_le h.length_le), hgap, ok_bind, hcut.cutOut_eq, ok_bind,
    hcut.append.peek_eq]
  rfl

theorem Stands.tokensFrom_eq {ls : List Lexeme} (h : Stands input cursor (Lexeme.spell ls)) (hls : Lexeme.Lexed ls)
    (hr : ls.length ≤ rounds) : tokensFrom input rounds cursor = .ok (Lexeme.placedFrom cursor ls) := by
  induction hls generalizing cursor rounds with
  | @last l ends =>
    cases rounds with
    | zero => cases hr
    | succ n =>
      have hgap : Lexeme.spell [l] = l.gap := by
        rw [Lexeme.spell_cons, ends.2.1, Lexeme.spell_nil, List.append_nil, List.append_nil]
      rw [hgap] at h
      rw [tokensFrom, h.nextToken_of_ends ends, ok_bind, if_pos ends.1]
      rfl
  | @cons l ls fits hls ih =>
    cases rounds with
    | zero => cases hr
    | succ n =>
      rw [Lexeme.spell_cons] at h
      have hrest := ih h.append.append (Nat.le_of_succ_le_succ hr)
      rw [tokensFrom, h.nextToken_of_fits fits, ok_bind, if_neg fits.kind_ne_eof]
      simp only [PlacedLexeme.stop, hrest, ok_bind]
      rfl

/-- There are no more tokens than characters, apart from the end. -/
theorem length_le_of_lexed {ls : List Lexeme} (h : Lexeme.Lexed ls) : ls.length ≤ (Lexeme.spell ls).length + 1 := by
  induction h with
  | last ends => exact Nat.le_add_left _ _
  | cons fits rest ih =>
    obtain ⟨-, d, w, htext, -⟩ := fits
    rw [List.length_cons, Lexeme.spell_cons, htext]
    simp only [List.length_append, List.length_cons]
    omega

/-- The tokens found with the cursor are those of the text. -/
theorem tokens_eq (input : SqlText) : tokens input = .ok (tokenize input) := by
  have hlexed := Lexeme.lexed_lex input
  have hlength := length_le_of_lexed hlexed
  have hstart : Stands input 0 (Lexeme.spell (lex input)) := by
    rw [spell_lex]
    exact .start input
  rw [spell_lex] at hlength
  exact hstart.tokensFrom_eq hlexed hlength

end JetAdapter.Guarded

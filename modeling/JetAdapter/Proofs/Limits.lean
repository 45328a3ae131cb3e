import JetAdapter.Dialect.Jet
import JetAdapter.Proofs.Splitting

/-!
# Limits of statements and of texts

The rows of a statement are limited by words in the text before its first parameter, those of a text by words in the
text itself.  For a statement that was split from a text the two agree (`limit_as_text`): they succeed on the same
statements, and the text of the limited statement is the limited text.

The words go behind the first token or the second one, so what has to be shown is that the text before the first
parameter starts with the same tokens as the whole text.  It does so up to its end: what a token is does not depend on
how far the text behind it goes (`Fits.of_append`), so a text that is cut behind a gap has the tokens before the cut
(`Lexed.exists_front`).
-/

namespace JetAdapter

open Lexeme Marked

/-! ### Fronts of a text -/

namespace Lexeme

variable {l : Lexeme} {ls : List Lexeme} {r u : SqlText}

/-- A lexeme fits also before the front of a rest. -/
theorem Fits.of_append (h : l.Fits (r ++ u)) : l.Fits r := by
  have hend : Text.StandsIn (r ++ u) (r ++ []) := .append_left r (.of_stops rfl)
  rw [List.append_nil] at hend
  refine h.before hend (fun hnil => (List.append_eq_nil_iff.1 hnil).1) fun hl hr => ?_
  obtain ⟨v, rfl⟩ := List.head?_eq_some_iff.1 hr
  exact h.head?_ne_at hl rfl

/-- The lexemes up to the first mark, and the lexemes of the text before it: these are the same up to the end. -/
theorem Lexed.exists_front {α : Type} (mark? : Kind → Option α) (h : Lexed ls) : ∃ front last back,
    ls = front ++ last :: back ∧ (ofLexemes mark? ls).head = spell front ++ last.gap ∧
      Lexed (front ++ [⟨.eof, last.gap, []⟩]) ∧ (last.kind = .eof ∨ (mark? last.kind).isSome = true) := by
  induction h with
  | @last l ends =>
    obtain ⟨hkind, htext, hgap⟩ := ends
    refine ⟨[], l, [], rfl, ?_, .last ⟨rfl, rfl, hgap⟩, .inl hkind⟩
    cases hm : mark? l.kind with
    | none => simp [ofLexemes, hm, prepend, htext]
    | some a => simp [ofLexemes, hm, prepend, Marked.cons]
  | @cons l ls fits rest ih =>
    cases hm : mark? l.kind with
    | some a =>
      exact ⟨[], l, ls, rfl, by simp [ofLexemes, hm, prepend, Marked.cons], .last fits.ends_gap, .inr (by simp [hm])⟩
    | none =>
      obtain ⟨front, last, back, rfl, hhead, hfront, hlast⟩ := ih
      refine ⟨l :: front, last, back, rfl, ?_, .cons ?_ hfront, hlast⟩
      · simp [ofLexemes, hm, prepend, hhead]
      · have hspell : spell (front ++ last :: back)
            = spell (front ++ [⟨.eof, last.gap, []⟩]) ++ (last.text ++ spell back) := by
          simp [spell]
        rw [hspell] at fits
        exact fits.of_append

end Lexeme

/-! ### Limited texts -/

/-- A text without parameters before a mark is limited as the whole text is. -/
theorem limitText_append (n : UInt64) {head after : SqlText} {front back : List Lexeme} {last : Lexeme}
    (hhead : lex head = front ++ [⟨.eof, last.gap, []⟩]) (hall : lex (head ++ after) = front ++ last :: back)
    (hafter : after = last.text ++ spell back) (hlast : ∀ k, last.kind.isKeyword k = false) :
    limitText n (head ++ after) = (limitText n head).map (· ++ after) := by
  have hend : ∀ k, Kind.eof.isKeyword k = false := fun _ => rfl
  rw [limitText, limitText, hhead, hall, hafter]
  match front with
  | [] =>
    cases back with
    | nil => rfl
    | cons next back =>
      simp only [List.nil_append, hlast, Bool.false_eq_true, if_false]
      rfl
  | [l] =>
    simp only [List.cons_append, List.nil_append, hlast, hend, Bool.false_eq_true, if_false]
    split
    · exact congrArg Except.ok (by simp)
    · rfl
  | l :: m :: front =>
    simp only [List.cons_append]
    split
    · split
      · exact congrArg Except.ok (by simp [spell])
      · exact congrArg Except.ok (by simp [spell])
    · rfl

theorem limitString_zero (t : SqlText) (n : UInt64) : limitString t 0 n = limitText n t :=
  if_neg (by decide)

namespace Statement

variable {s : Statement} {t : SqlText} {values : List SqlValue} (f : JetFeatures)

theorem sql_eq_head_append (s : Statement) :
    ∃ after, s.sql = s.head ++ after ∧ ∀ head, sql { s with head := head } = head ++ after :=
  ⟨_, rfl, fun _ => rfl⟩

/-- An empty text is no `SELECT`, so it needs no case of its own. -/
theorem limit_fixed (s : Statement) (n : UInt64) :
    s.limit f 0 (.fixed n) = (limitText n s.head).map fun head => { s with head := head } := by
  show (if s.head = [] then Except.error (SqlError.unsupportedClause .notSelect)
    else (limitString s.head 0 n).map fun head => { s with head := head }) = _
  split
  · next hnil =>
    rw [hnil, limitText, lex_nil]
    rfl
  · rw [limitString_zero]

/-- Limiting a statement and limiting the text that it was split from: the same text or the same error. -/
theorem limitString_eq_map_sql (hs : parse t values = .ok s) (n : UInt64) :
    limitString t 0 n = (s.limit f 0 (.fixed n)).map sql := by
  obtain ⟨after, hsql, hwrite⟩ := sql_eq_head_append s
  obtain ⟨front, last, back, hall, hhead, hfront, hlast⟩ :=
    (lexed_lex t).exists_front fun k => if k = .placeholder then some () else none
  have hs' : s.head = spell (front ++ [⟨.eof, last.gap, []⟩]) := by
    have htexts := (List.cons.inj (texts_of_parse hs)).1
    rw [htexts, placeholders, hhead]
    simp [spell]
  have ht : t = s.head ++ after := by
    rw [← hsql, sql_of_parse hs]
  have hafter : after = last.text ++ spell back := by
    have hspell := spell_lex t
    rw [hall, ht, hs'] at hspell
    simpa [spell] using hspell.symm
  have hkind : ∀ k, last.kind.isKeyword k = false := by
    intro k
    rcases hlast with hk | hk
    · rw [hk]
      rfl
    · have hk : last.kind = .placeholder := by
        by_contra hne
        rw [if_neg hne] at hk
        cases hk
      rw [hk]
      rfl
  have hlimit : limitText n (s.head ++ after) = (limitText n s.head).map (· ++ after) :=
    limitText_append n (by rw [hs', hfront.lex_spell]) (by rw [← ht, hall]) hafter hkind
  rw [limitString_zero, ht, hlimit, limit_fixed]
  cases limitText n s.head with
  | error e => rfl
  | ok head => exact congrArg Except.ok (hwrite head).symm

/-- A number that is not negative is a number of rows. -/
theorem toNat_toUInt64_of_nonneg {k : Int64} (hk : 0 ≤ k) : (k.toUInt64.toNat : Int) = k.toInt := by
  have hint : 0 ≤ k.toInt := by simpa using Int64.le_iff_toInt_le.1 hk
  have hmsb : k.toBitVec.msb = false := by simpa [BitVec.msb_eq_toInt] using hint
  exact (BitVec.toInt_eq_toNat_of_msb hmsb).symm

/-- What a limit is that holds a value: a number of rows, if the value is one. -/
theorem limit_bound (s : Statement) {k : Int64} (hf : f.variableLimit = true) (hk : 0 ≤ k) (offset : UInt64) :
    s.limit f offset (.bound (.int k)) = s.limit f offset (.fixed k.toUInt64) := by
  have hrows : RowLimit.rows f (.bound (.int k)) = .ok k.toUInt64 := by
    rw [RowLimit.rows, if_pos hf]
    exact if_neg (Int64.not_lt.2 hk)
  rw [limit, limit, hrows]
  rfl

theorem exists_limit_bound_eq_error (s : Statement) {v : SqlValue}
    (hv : f.variableLimit = true → ∀ k : Int64, 0 ≤ k → v ≠ .int k) (offset : UInt64) :
    ∃ e, s.limit f offset (.bound v) = .error e := by
  have hrows : ∃ e, RowLimit.rows f (.bound v) = .error e := by
    rw [RowLimit.rows]
    split
    · next hf =>
      split
      · next k hk =>
        split
        · exact ⟨_, rfl⟩
        · next hneg =>
          have hint : v = .int k := by
            cases v with
            | int m => rw [Option.some.inj hk]
            | _ => cases hk
          exact absurd hint (hv hf k (Int64.not_lt.1 hneg))
      · exact ⟨_, rfl⟩
    · exact ⟨_, rfl⟩
  obtain ⟨e, he⟩ := hrows
  exact ⟨e, by rw [limit, he]; rfl⟩

theorem limitString_of_offset {offset : UInt64} (h : offset > 0) (t : SqlText) (n : UInt64) :
    limitString t offset n = .error (.unsupportedClause .offset) :=
  if_pos h

theorem exists_limit_eq_error_of_offset (s : Statement) {offset : UInt64} (h : offset > 0) (limit : RowLimit) :
    ∃ e, s.limit f offset limit = .error e := by
  rw [Statement.limit]
  cases limit.rows f with
  | error e => exact ⟨e, rfl⟩
  | ok n =>
    show ∃ e, (if s.head = [] then _ else (limitString s.head offset n).map fun head => { s with head := head }) = _
    split
    · exact ⟨_, rfl⟩
    · rw [limitString_of_offset h]
      exact ⟨_, rfl⟩

end Statement

/-- **Limits of statements are limits of texts.**  A statement that was split from a text can be limited, from its
first row on, if and only if the text can, and then its text is the limited text and its parameters are what they
were.  A limit that holds a number which is not negative is that number, if such limits are allowed; every other limit
that holds a value is refused.  From a later row on neither of them can be limited. -/
theorem limit_as_text (f : JetFeatures) {t : SqlText} {values : List SqlValue} {s : Statement}
    (hs : Statement.parse t values = .ok s) :
    (∀ n, (∃ out, s.limit f 0 (.fixed n) = .ok out) ↔ ∃ text, limitString t 0 n = .ok text) ∧
    (∀ n out, s.limit f 0 (.fixed n) = .ok out →
      limitString t 0 n = .ok out.sql ∧ out.parameters = s.parameters) ∧
    (f.variableLimit = true → ∀ k : Int64, 0 ≤ k → ∃ n : UInt64, (n.toNat : Int) = k.toInt ∧
      ∀ offset, s.limit f offset (.bound (.int k)) = s.limit f offset (.fixed n)) ∧
    (∀ v, (f.variableLimit = true → ∀ k : Int64, 0 ≤ k → v ≠ .int k) →
      ∀ offset, ∃ e, s.limit f offset (.bound v) = .error e) ∧
    ∀ offset > 0, (∀ n, ∃ e, limitString t offset n = .error e) ∧
      ∀ limit, ∃ e, s.limit f offset limit = .error e := by
  refine ⟨fun n => ?_, fun n out hout => ⟨?_, ?_⟩, fun hf k hk => ⟨k.toUInt64, ?_, ?_⟩, fun v hv offset => ?_,
    fun offset h => ⟨fun n => ⟨_, Statement.limitString_of_offset h t n⟩, fun limit => ?_⟩⟩
  · rw [Statement.limitString_eq_map_sql f hs n]
    cases s.limit f 0 (.fixed n) with
    | error e => simp [Except.map]
    | ok out => simp [Except.map]
  · rw [Statement.limitString_eq_map_sql f hs n, hout]
    rfl
  · rw [Statement.limit_fixed] at hout
    cases hlimit : limitText n s.head with
    | error e =>
      rw [hlimit] at hout
      cases hout
    | ok head =>
      rw [hlimit] at hout
      cases hout
      rfl
  · exact Statement.toNat_toUInt64_of_nonneg hk
  · exact fun offset => Statement.limit_bound f s hf hk offset
  · exact Statement.exists_limit_bound_eq_error f s hv offset
  · exact Statement.exists_limit_eq_error_of_offset f s h limit

/-- A query with a parameter behind its `DISTINCT`. -/
def distinctStatement : Statement :=
  ⟨"select distinct ".toList, [(⟨.int 1, none⟩, ", b from t".toList)]⟩

/-- The words may come right before the first parameter. -/
theorem limit_as_text_distinct : ∃ out, distinctStatement.limit .default 0 (.fixed 5) = .ok out ∧
    Statement.sql out = "select distinct top 5 ?, b from t".toList ∧
    Statement.parameters out = [⟨.int 1, none⟩] := by
  have hs : Statement.parse "select distinct ?, b from t".toList [.int 1] = .ok distinctStatement := by
    decide +kernel
  have htext : limitString "select distinct ?, b from t".toList 0 5
      = .ok "select distinct top 5 ?, b from t".toList := by
    decide +kernel
  obtain ⟨hboth, hsame, -⟩ := limit_as_text .default hs
  obtain ⟨out, hout⟩ := (hboth 5).2 ⟨_, htext⟩
  obtain ⟨hsql, hparameters⟩ := hsame 5 out hout
  exact ⟨out, hout, (Except.ok.inj (htext.symm.trans hsql)).symm, hparameters⟩

end JetAdapter

import JetAdapter.Proofs.JoinSwaps
import JetAdapter.Proofs.Progress
import JetAdapter.Proofs.Opacity

/-!
# Quoted tokens in rewritten texts

Rewriting looks at words and symbols only.  So a string, a date or a name in quotes that is read in what comes
out stands in the text that went in (`quoted_kept`), but for the intervals that are written as first
arguments of `DatePart`.  As with the markers of parameters, it takes a condition for the names in an ordering:
an expression that runs into a comment opens what was quoted in the comment.
-/

namespace JetAdapter

open Cell (Sound Settles spell)

/-! ### Tokens in quotes -/

/-- Whether a character opens the quotes of a name. -/
def Text.opensName (c : Char) : Bool :=
  c = '"' || c = '\x60' || c = '['

/-- Whether a lexeme is a string, a date or a name in quotes. -/
def Lexeme.isQuoted (l : Lexeme) : Bool :=
  match l.kind with
  | .string _ | .date _ => true
  | .identifier _ => l.text.head?.any Text.opensName
  | _ => false

/-- Whether a text has no quoted tokens but those of another one. -/
def Text.KeepsQuoted (text out : SqlText) : Prop :=
  ∀ l ∈ lex out, l.isQuoted = true → ∃ m ∈ lex text, m.kind = l.kind ∧ m.text = l.text

instance (text out : SqlText) : Decidable (Text.KeepsQuoted text out) :=
  inferInstanceAs (Decidable (∀ l ∈ lex out, l.isQuoted = true →
    ∃ m ∈ lex text, m.kind = l.kind ∧ m.text = l.text))

/-- Whether a lexeme behind others is an interval that is the first argument of `DatePart`. -/
def Extract.WritesInterval (before : List Lexeme) (l : Lexeme) : Prop :=
  ∃ front name opening field interval, before = front ++ [name, opening] ∧
    name.text = "DatePart".toList ∧ opening.kind = .symbol .leftParen ∧ interval? field = some interval ∧
      l.kind = .string interval

namespace Cell

/-- Whether the cell is a token in quotes. -/
def isQuoted : Cell → Bool
  | gap _ => false
  | token k t => Lexeme.isQuoted ⟨k, [], t⟩

theorem Wordy.isQuoted {k : Kind} {t : SqlText} (h : Wordy k t) : isQuoted (token k t) = false := by
  cases h with
  | @word t isWord =>
    cases t with
    | nil => cases isWord.1
    | cons c t =>
      have hc : Text.startsWord c = true := by simpa using isWord.1
      have hopens : Text.opensName c = false := by
        refine Bool.eq_false_iff.2 fun ho => ?_
        simp only [Text.opensName, Bool.or_eq_true, decide_eq_true_eq] at ho
        rcases ho with (rfl | rfl) | rfl
        all_goals exact absurd hc (by decide)
      rw [Cell.isQuoted, Lexeme.wordKind]
      cases Keyword.ofWord? (c :: t) with
      | none => exact hopens
      | some k => rfl
  | named nonempty all => rfl
  | systemName nonempty all => rfl

theorem spares_isQuoted : Spares isQuoted where
  gap _ := rfl
  symbol _ _ := rfl
  keyword _ _ := rfl
  word _ _ hw _ := hw.isQuoted

theorem isQuoted_of_isFault {c : Cell} (h : c.isFault = true) : c.isQuoted = false := by
  cases c with
  | gap g => rfl
  | token k t => cases k <;> first | rfl | cases h

end Cell

/-! ### Lexemes and cells -/

theorem Lexeme.Lexed.filter_cellsOf {ls : List Lexeme} (h : Lexed ls) :
    (cellsOf ls).filter Cell.isToken = ls.dropLast.map fun l => .token l.kind l.text := by
  have hgap : ∀ g : SqlText, (Cell.ofGap g).filter Cell.isToken = [] := by
    intro g
    unfold Cell.ofGap
    split <;> rfl
  induction h with
  | @last l ends => exact hgap l.gap
  | @cons l ls fits rest ih =>
    obtain ⟨m, ls, rfl⟩ := List.exists_cons_of_ne_nil rest.ne_nil
    rw [cellsOf, List.filter_append, ih, cells, List.filter_append, hgap]
    rfl

/-- The tokens of a text, as cells. -/
theorem Cell.filter_isToken_ofText (t : SqlText) :
    (ofText t).filter isToken = (lex t).dropLast.map fun l => .token l.kind l.text :=
  (Lexeme.lexed_lex t).filter_cellsOf

/-- The last lexeme of a text marks its end. -/
theorem Lexeme.Lexed.getLast_kind {ls : List Lexeme} {l : Lexeme} (h : Lexed ls) (hl : ls.getLast? = some l) :
    l.kind = .eof := by
  induction h with
  | @last m ends =>
    obtain rfl : m = l := by simpa using hl
    exact ends.1
  | @cons m ls fits rest ih =>
    obtain ⟨n, ls, rfl⟩ := List.exists_cons_of_ne_nil rest.ne_nil
    exact ih (by simpa using hl)

/-- The cells around that of a token. -/
theorem Lexeme.filter_isToken_of_append {t : SqlText} {before after : List Lexeme} {l : Lexeme}
    (h : lex t = before ++ l :: after) (hl : l.kind ≠ .eof) :
    ∃ more, (Cell.ofText t).filter Cell.isToken =
      (before.map fun m => .token m.kind m.text) ++ .token l.kind l.text :: more := by
  have hafter : after ≠ [] := by
    rintro rfl
    exact hl ((lexed_lex t).getLast_kind (by rw [h]; simp))
  rw [Cell.filter_isToken_ofText, h, List.dropLast_append_of_ne_nil (by simp),
    List.dropLast_cons_of_ne_nil hafter]
  exact ⟨after.dropLast.map fun m => .token m.kind m.text, by simp⟩

theorem Lexeme.exists_of_mem_ofText {t : SqlText} {l : Lexeme}
    (h : Cell.token l.kind l.text ∈ Cell.ofText t) : ∃ m ∈ lex t, m.kind = l.kind ∧ m.text = l.text := by
  rcases mem_cellsOf h with ⟨g, hg⟩ | ⟨m, hm, he⟩
  · cases hg
  · exact ⟨m, hm, (Cell.token.inj he).1.symm, (Cell.token.inj he).2.symm⟩

theorem Lexeme.kind_ne_eof {l : Lexeme} (h : l.isQuoted = true) : l.kind ≠ .eof := by
  intro hk
  rw [isQuoted, hk] at h
  cases h

theorem Text.keepsQuoted_of_mem {text out : SqlText}
    (h : ∀ c ∈ Cell.ofText out, c.isQuoted = true → c ∈ Cell.ofText text) : Text.KeepsQuoted text out := by
  intro l hl hq
  obtain ⟨before, after, hall⟩ := List.append_of_mem hl
  obtain ⟨more, hcells⟩ := Lexeme.filter_isToken_of_append hall (Lexeme.kind_ne_eof hq)
  refine Lexeme.exists_of_mem_ofText (h _ ?_ hq)
  have hmem : Cell.token l.kind l.text ∈ (Cell.ofText out).filter Cell.isToken := by
    rw [hcells]
    simp
  exact (List.mem_filter.1 hmem).1

/-! ### Swaps that bring in nothing quoted -/

/-- Whether swaps bring in only words, symbols, gaps and what stands in the text. -/
def Swap.Draws (R : Swap) : Prop :=
  ∀ {X D Y N : List Cell}, R X D Y N → ∀ c ∈ N, c ∈ X ++ (D ++ Y) ∨ Cell.Plain c

namespace Swap.Draws

variable {R : Swap} {text out : SqlText}

theorem of_plain (h : ∀ {X D Y N : List Cell}, R X D Y N → ∀ c ∈ N, Cell.Plain c) : R.Draws :=
  fun hsw c hc => .inr (h hsw c hc)

theorem isFault (hR : R.Draws) (h : R.Makes text out) (harmless : Woven.Harmless Cell.isFault R)
    (hf : ∀ c ∈ Cell.ofText text, c.isFault = false) : ∀ c ∈ Cell.ofText out, c.isFault = false :=
  h.isFault harmless (fun hsw hf c hc => (hR hsw c hc).elim (hf c) Cell.Plain.isFault_of) hf

/-- Quoted tokens without faults beside them come from the text. -/
theorem mem_of_isQuoted (hR : R.Draws) (h : R.Makes text out) (harmless : Woven.Harmless Cell.isQuoted R)
    (hf : ∀ c ∈ Cell.ofText text, c.isFault = false) (hout : ∀ c ∈ Cell.ofText out, c.isFault = false) :
    ∀ c ∈ Cell.ofText out, c.isQuoted = true → c ∈ Cell.ofText text := by
  intro c hc hq
  obtain ⟨os, hw, hset⟩ := h.settles harmless hf
  have hfilter := hset.filter (fun _ => rfl) fun c hc hfault => by rw [hout c hc] at hfault; cases hfault
  have hos : c ∈ os.filter Cell.isQuoted := by
    rw [← hfilter]
    exact List.mem_filter.2 ⟨hc, hq⟩
  rcases hw.exists_of_mem (List.mem_filter.1 hos).1 with hc | ⟨X, D, Y, N, hsw, hall, hc⟩
  · exact hc
  · rcases hR hsw c hc with hc | hplain
    · rwa [hall] at hc
    · rw [hplain _ Cell.spares_isQuoted] at hq
      cases hq

/-- What is made without faults keeps the quoted tokens. -/
theorem keepsQuoted (hR : R.Draws) (h : R.Makes text out) (hfault : Woven.Harmless Cell.isFault R)
    (hquoted : Woven.Harmless Cell.isQuoted R) (hf : ∀ c ∈ Cell.ofText text, c.isFault = false) :
    Text.KeepsQuoted text out :=
  Text.keepsQuoted_of_mem (hR.mem_of_isQuoted h hquoted hf (hR.isFault h hfault hf))

/-- A repeated step that ends with a text without faults keeps the quoted tokens. -/
theorem keepsQuoted_exhaust (hR : R.Draws) (hquoted : Woven.Harmless Cell.isQuoted R)
    {step : Query → Except SqlError (Option Edit)}
    (hstep : ∀ {t u : SqlText} {q : Query} {e : Edit}, Query.ofText t = .ok q →
      step q = .ok (some e) → Edit.applyAll [e] t = .ok u → R.Once t u)
    (h : Query.exhaust step text = .ok out) (hout : ∃ q, Query.ofText out = .ok q) :
    Text.KeepsQuoted text out := by
  obtain ⟨q, hq⟩ := hout
  have hkeeps := Query.exhaust_induction
    (P := fun t => (∀ c ∈ Cell.ofText t, c.isFault = false) →
      ∀ c ∈ Cell.ofText t, c.isQuoted = true → c ∈ Cell.ofText text)
    (fun {t u q e} hq he hu ht hfu c hc hc' => ?_) h (fun _ c hc _ => hc)
  · exact Text.keepsQuoted_of_mem (hkeeps (Query.isFault_of_ofText hq))
  · have hft := Query.isFault_of_ofText hq
    exact ht hft c (hR.mem_of_isQuoted (hstep hq he hu).makes hquoted hft hfu c hc hc') hc'

end Swap.Draws

/-! ### Steps -/

/-- The only quoted tokens that replacing `Extract` brings in are the intervals. -/
theorem Extract.mem_or_writesInterval {text out : SqlText} (h : convert text = .ok out)
    {before after : List Lexeme} {l : Lexeme} (hl : lex out = before ++ l :: after)
    (hq : l.isQuoted = true) :
    (∃ m ∈ lex text, m.kind = l.kind ∧ m.text = l.text) ∨ WritesInterval before l := by
  obtain ⟨more, hcells⟩ := Lexeme.filter_isToken_of_append hl (Lexeme.kind_ne_eof hq)
  have htoken : ∀ c : Cell, c.isFault = true → c.isToken = true := by
    intro c hc
    cases c with
    | gap g => cases hc
    | token k t => rfl
  rcases (makes h).exists_of_append (fun _ => rfl) (harmless _) (Query.isFault_of_bind h)
    (fun c _ hc => htoken c hc) hcells with hc | ⟨X, D, Y, ms, ns, front, back, hsw, -, hbefore, -⟩
  · exact .inl (Lexeme.exists_of_mem_ofText hc)
  · right
    generalize hN : ms ++ Cell.token l.kind l.text :: ns = N at hsw
    cases hsw with
    | @front _ name opening field fromWord interval found left named word known =>
      -- Of what is written only the interval is quoted.
      have hplain : ∀ {c : Cell}, Cell.token l.kind l.text = c → ¬ Cell.Plain c := by
        rintro c rfl hplain
        have := hplain _ Cell.spares_isQuoted
        rw [Cell.isQuoted] at this
        exact absurd (this.symm.trans hq) (by decide)
      have hname := Cell.plain_word (Cell.isWord_of_isAlpha (t := "DatePart".toList) (by decide) (by decide))
      rcases ms with _ | ⟨a, _ | ⟨b, _ | ⟨c, _ | ⟨d, ms⟩⟩⟩⟩
      · exact absurd hname (hplain (List.cons.inj hN).1)
      · exact absurd (Cell.plain_sign (.inl rfl)) (hplain (List.cons.inj (List.cons.inj hN).2).1)
      · obtain ⟨ha, hN⟩ := List.cons.inj hN
        obtain ⟨hb, hN⟩ := List.cons.inj hN
        obtain ⟨hl', -⟩ := List.cons.inj hN
        subst ha hb
        obtain ⟨front', tail, rfl, -, htail⟩ := List.map_eq_append_iff.1 hbefore
        have htail : tail.map (fun m => Cell.token m.kind m.text)
            = [Cell.word "DatePart".toList, Cell.sign '('] := htail
        obtain ⟨name', tail, rfl, hname', htail⟩ := List.map_eq_cons_iff.1 htail
        obtain ⟨opening', tail, rfl, hopening, htail⟩ := List.map_eq_cons_iff.1 htail
        obtain rfl := List.map_eq_nil_iff.1 htail
        exact ⟨front', name', opening', _, interval, rfl, (Cell.token.inj hname').2,
          (Cell.token.inj hopening).1, known, (Cell.token.inj hl').1⟩
      · exact absurd (Cell.plain_sign (.inr (.inr rfl)))
          (hplain (List.cons.inj (List.cons.inj (List.cons.inj (List.cons.inj hN).2).2).2).1)
      · simp at hN

theorem OrderAlias.keepsQuoted {text out : SqlText} (h : spellOut text = .ok out)
    (apart : ∀ q, Query.ofText text = .ok q → DigitsApart q)
    (hout : ∀ l ∈ lex out, l.kind.isFault = false) : Text.KeepsQuoted text out :=
  Text.keepsQuoted_of_mem (Swap.Draws.mem_of_isQuoted (fun hsw c hc => .inl (hsw.source c hc))
    (makes h apart) (harmless Cell.spares_isQuoted fun _ => Cell.isQuoted_of_isFault)
    (Query.isFault_of_bind h) (Text.isFault_of_mem_ofText hout))

/-- **Rewriting brings in nothing quoted.**  A string, a date or a name in quotes that is read after nesting
joins or after one of the rules stands in the text before.  With the rule for parts of dates it may also be an
interval behind `DatePart` and its parenthesis.  With the rule for names in an ordering it is so if no
expression that starts with a digit is written directly behind a `BY` and the text that comes out has no
faults. -/
theorem quoted_kept (text out : SqlText) :
    (∀ limit, (Adapter.ofOptions ⟨[], limit, none⟩).adaptText text = .ok out →
      Text.KeepsQuoted text out) ∧
    (∀ r ∈ [Rule.upperLower, .cast, .locate, .aggregateDistinct, .caseWhen], r.apply text = .ok out →
      Text.KeepsQuoted text out) ∧
    (Rule.extract.apply text = .ok out → ∀ before l after, lex out = before ++ l :: after →
      l.isQuoted = true → (∃ m ∈ lex text, m.kind = l.kind ∧ m.text = l.text) ∨
        Extract.WritesInterval before l) ∧
    (Rule.orderByAlias.apply text = .ok out →
      (∀ q, Query.ofText text = .ok q → OrderAlias.DigitsApart q) →
      (∀ l ∈ lex out, l.kind.isFault = false) → Text.KeepsQuoted text out) := by
  refine ⟨fun limit h => ?_, fun r hr h => ?_, fun h before l after hl hq => ?_,
    fun h apart hout => ?_⟩
  · rw [Adapter.adaptText_of_no_rules] at h
    exact Swap.Draws.keepsQuoted (Swap.Draws.of_plain fun hsw => hsw.plain.1) (JoinChain.makes h)
      (JoinChain.harmless Cell.spares_isFault) (JoinChain.harmless Cell.spares_isQuoted)
      (Query.isFault_of_bind h)
  · simp only [List.mem_cons, List.not_mem_nil, or_false] at hr
    rcases hr with rfl | rfl | rfl | rfl | rfl
    · exact Swap.Draws.keepsQuoted (Swap.Draws.of_plain fun hsw => hsw.plain) (LetterCase.makes h)
        (LetterCase.harmless _) (LetterCase.harmless _) (Query.isFault_of_bind h)
    · exact Swap.Draws.keepsQuoted (Swap.Draws.of_plain fun hsw => hsw.plain) (Cast.makes h) (Cast.harmless _)
        (Cast.harmless _) (Query.isFault_of_bind h)
    · obtain ⟨q, hq, -⟩ := Locate.convert_eq_ok h
      exact Swap.Draws.keepsQuoted_exhaust (fun hsw => hsw.source) (Locate.harmless _) Locate.once h ⟨q, hq⟩
    · obtain ⟨q, hq, -⟩ := Distinct.convert_eq_ok h
      exact Swap.Draws.keepsQuoted_exhaust (fun hsw => hsw.source)
        (Distinct.harmless Cell.spares_isQuoted (fun _ => Cell.isQuoted_of_isFault)
          fun _ _ hw => hw.isQuoted) Distinct.once h ⟨q, hq⟩
    · obtain ⟨q, hq, -⟩ := Conditional.convert_eq_ok h
      exact Swap.Draws.keepsQuoted_exhaust (fun hsw => hsw.source) (Conditional.harmless _)
        Conditional.once h ⟨q, hq⟩
  · exact Extract.mem_or_writesInterval h hl hq
  · exact OrderAlias.keepsQuoted h apart hout

/-- What stands between quotes in a comment is no string. -/
example : (lex "select a --'c'\n".toList).any Lexeme.isQuoted = false := by decide +kernel

/-- A name beside a string is spelled out, a part of a date becomes an interval. -/
theorem quoted_kept_orderByAlias_extract :
    Text.KeepsQuoted "select a & 'x' as n from T order by n".toList
      "select a & 'x' as n from T order by a & 'x'".toList ∧
    ∀ before l after, lex "select DatePart('yyyy', [b]) from T".toList = before ++ l :: after →
      l.isQuoted = true →
      (∃ m ∈ lex "select extract(year from [b]) from T".toList, m.kind = l.kind ∧ m.text = l.text) ∨
        Extract.WritesInterval before l := by
  refine ⟨?_, (quoted_kept _ _).2.2.1 (by decide +kernel)⟩
  exact (quoted_kept _ _).2.2.2 (by decide +kernel) (Query.forall_of_ofText (by decide +kernel))
    (by decide +kernel)

/-- An expression that runs into a comment opens the quotes that were in the comment. -/
theorem not_quoted_kept :
    ¬ ∀ text out, Rule.orderByAlias.apply text = .ok out → Text.KeepsQuoted text out := by
  intro h
  have hkept := h "select 1e as x from T order by x--'c'\n".toList
    "select 1e as x from T order by 1e--'c'\n".toList (by decide +kernel)
  exact absurd hkept (by decide +kernel)

end JetAdapter

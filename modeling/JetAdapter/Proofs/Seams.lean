import JetAdapter.Proofs.AliasSwaps
import JetAdapter.Proofs.Tallies

/-!
# Counting around seams

An expression that is written in the place of a name may run into what is around it: its first word into a `BY`, its last
one into a direction or the word of a clause, a last minus sign into a comment.  Elsewhere the cells of an ordering are read
as they stand (`Seamed`).  A word that has come into being in one of these ways starts with `BY` or ends with one of the words
that may follow, and no name of a function does that.  So what is read counts no more than what was put together
(`count_le_of_settles`), and a text without calls has none with its aliases spelled out (`count_eq_zero`).
-/

namespace JetAdapter.OrderAlias

open Cell (Sound Settles Wordy IsWord spell ofGap firstToken?)
open Token (stretch)

variable {p : Cell → Bool} {w : Tally} {c d : Cell} {cs os ss as bs X D Y N : List Cell} {k : Kind} {t u v : SqlText}
  {s : Lead}

/-! ### Words that have run together -/

/-- The words that may follow an item of an ordering. -/
def closers : List Keyword :=
  .ASC :: .DESC :: Tally.enders

/-- Whether a text starts like `BY` or ends like a word that may follow an item. -/
def IsSeam (t : SqlText) : Prop :=
  Text.lower Keyword.BY.spelling <+: Text.lower t ∨ ∃ y ∈ closers, Text.lower y.spelling <:+ Text.lower t

instance : DecidablePred IsSeam :=
  fun _ => inferInstanceAs (Decidable (_ ∨ _))

theorem IsSeam.append_left (h : Text.lower Keyword.BY.spelling <+: Text.lower t) (u : SqlText) : IsSeam (t ++ u) := by
  have happend : Text.lower (t ++ u) = Text.lower t ++ Text.lower u := List.map_append
  exact .inl (by rw [happend]; exact h.trans (List.prefix_append _ _))

theorem IsSeam.append_right {y : Keyword} (hy : y ∈ closers) (h : Text.lower y.spelling <:+ Text.lower u) (t : SqlText) :
    IsSeam (t ++ u) := by
  have happend : Text.lower (t ++ u) = Text.lower t ++ Text.lower u := List.map_append
  exact .inr ⟨y, hy, by rw [happend]; exact h.trans (List.suffix_append _ _)⟩

theorem not_isSeam_of_counted : ∀ y ∈ Tally.counted, ¬ IsSeam y.spelling := by
  decide

theorem IsSeam.congr (h : IsSeam t) (hsame : Text.lower t = Text.lower u) : IsSeam u := by
  rw [IsSeam, hsame] at h
  exact h

/-- Whether no function that is counted is named like a word that runs into another one. -/
def Unseamed (w : Tally) : Prop :=
  ∀ f ∈ w.functions, ¬ IsSeam f.toList

theorem quiet_of_isSeam (hw : Unseamed w) (h : IsSeam t) (hwordy : Wordy k t) : w.Quiet (.token k t) :=
  Tally.quiet_of_wordy (fun f hf hsame => hw f hf (h.congr hsame))
    (fun y hy hsame => not_isSeam_of_counted y hy (h.congr hsame)) hwordy

/-! ### What follows an item -/

/-- Whether the first token of cells, if there is one, ends an item of an ordering. -/
def Closes (cs : List Cell) : Prop :=
  ∀ c ∈ firstToken? cs, ∃ t : Token, t.EndsItem ∧ c = t.cell

theorem quiet_of_endsItem {t : Token} (h : t.EndsItem) : w.Quiet t.cell := by
  rcases h with h | h | h | h
  · exact Tally.quiet_of_endsClause h
  · rw [Token.cell, Kind.isSymbol_iff.1 h]
    exact Tally.quiet_symbol (by decide) (by decide)
  · rw [Token.cell, Kind.isKeyword_iff.1 h]
    exact Tally.quiet_of_not_counted (by decide)
  · rw [Token.cell, Kind.isKeyword_iff.1 h]
    exact Tally.quiet_of_not_counted (by decide)

theorem Closes.count_eq {s' : Lead} (h : Closes cs) : w.count s cs = w.count s' cs := by
  refine Tally.count_eq_of_quiet fun c hc => ?_
  obtain ⟨t, ht, rfl⟩ := h c hc
  exact quiet_of_endsItem ht

/-- A word that follows an item is one of a few. -/
theorem exists_closer {t : Token} (h : t.EndsItem) (hk : t.kind = Lexeme.wordKind v) :
    ∃ y ∈ closers, Text.lower v = Text.lower y.spelling := by
  have hword : ∀ {y : Keyword}, t.isKeyword y = true → y ∈ closers →
      ∃ y ∈ closers, Text.lower v = Text.lower y.spelling := by
    intro y hy hmem
    have hkind := hk.symm.trans (Kind.isKeyword_iff.1 hy)
    rcases Lexeme.wordKind_eq v with h | ⟨x, hx, h⟩
    · cases h.symm.trans hkind
    · obtain rfl : x = y := Kind.keyword.inj (h.symm.trans hkind)
      exact ⟨x, hmem, Tally.lower_eq_of_ofWord? hx⟩
  have hsymbol : ∀ {y : Symbol}, t.isSymbol y = true → ∃ y ∈ closers, Text.lower v = Text.lower y.spelling := by
    intro y hy
    have hkind := hk.symm.trans (Kind.isSymbol_iff.1 hy)
    rcases Lexeme.wordKind_eq v with h | ⟨x, -, h⟩
    · cases h.symm.trans hkind
    · cases h.symm.trans hkind
  rcases h with (h | h | ⟨y, hy, h⟩) | h | h | h
  · exact hsymbol h
  · exact hsymbol h
  · exact hword h (List.mem_cons_of_mem _ (List.mem_cons_of_mem _ hy))
  · exact hsymbol h
  · exact hword h (by decide)
  · exact hword h (by decide)

/-! ### Seams -/

/-- A name or word has ended where it is one. -/
theorem ends_of_wordy {rest : SqlText} (h : Wordy k t) (hfit : (Cell.token k t).Fits rest) :
    rest.head?.any Text.continuesWord = false := by
  cases h with
  | word isWord => exact isWord.ends hfit
  | @named t nonempty all =>
    obtain ⟨-, c, u, hl, hscan⟩ := hfit
    obtain ⟨rfl, rfl⟩ := List.cons.inj hl
    change Lexeme.scanAt (t ++ rest) = _ at hscan
    rw [Lexeme.scanAt] at hscan
    · obtain ⟨-, -, hr⟩ := Lexeme.Scan.mk.inj hscan
      rw [← hr]
      exact any_head?_dropWhile _ _
    · rintro v hv
      obtain ⟨a, t, rfl⟩ := List.exists_cons_of_ne_nil nonempty
      obtain rfl : a = '@' := (List.cons.inj hv).1
      exact absurd (all '@' List.mem_cons_self) (by decide)
  | @systemName t nonempty all =>
    obtain ⟨-, c, u, hl, hscan⟩ := hfit
    obtain ⟨rfl, rfl⟩ := List.cons.inj hl
    change Lexeme.scanAt ('@' :: (t ++ rest)) = _ at hscan
    rw [Lexeme.scanAt] at hscan
    obtain ⟨-, -, hr⟩ := Lexeme.Scan.mk.inj hscan
    rw [← hr]
    exact any_head?_dropWhile _ _

/-- Whether a cell may run into the cells behind it. -/
inductive Clash : Cell → List Cell → Prop
  | words {k : Kind} {t v : SqlText} {cs : List Cell} (front : Wordy k t) (back : IsWord v) :
      Clash (.token k t) (.token (Lexeme.wordKind v) v :: cs)
  | comment {cs : List Cell} (front : (spell cs).head? = some '-') : Clash (.token (.symbol .minus) ['-']) cs

/-- In a text nothing runs into what is behind it. -/
theorem not_clash (h : Sound (c :: cs)) : ¬ Clash c cs := by
  obtain ⟨hfit, hcs⟩ := Cell.sound_cons_iff.1 h
  intro hclash
  cases hclash with
  | @words k t v cs front back =>
    have hcontinues : (v ++ spell cs).head?.any Text.continuesWord = true := by
      have hv := back.continues_head
      cases v with
      | nil => cases hv
      | cons a v => exact hv
    have hnot : (v ++ spell cs).head?.any Text.continuesWord = false := ends_of_wordy front hfit
    cases hnot.symm.trans hcontinues
  | comment front =>
    obtain ⟨r, hr⟩ := List.head?_eq_some_iff.1 front
    rw [hr] at hfit
    exact (Lexeme.bare_cons_iff.1 (Lexeme.Fits.bare hfit)).2.1 rfl rfl

/-- A comma runs into nothing. -/
theorem not_clash_comma : ¬ Clash (.token (.symbol .comma) t) cs := by
  generalize hc : Cell.token (.symbol .comma) t = c
  rintro (@⟨k, u, v, cs, front, back⟩ | front)
  · obtain ⟨rfl, rfl⟩ := Cell.token.inj hc
    generalize hk : Kind.symbol .comma = k at front
    cases front with
    | word isWord =>
      rcases Lexeme.wordKind_eq t with h | ⟨x, -, h⟩
      · cases hk.trans h
      · cases hk.trans h
    | named => cases hk
    | systemName => cases hk
  · cases (Cell.token.inj hc).1

/-- Whether cells run into each other only behind a `BY` or before what ends an item of an ordering. -/
def Seamed : List Cell → Prop
  | [] => True
  | c :: cs => (Clash c cs → Text.lower Keyword.BY.spelling <+: Text.lower c.text ∨ Closes cs) ∧ Seamed cs

/-- Where a cell runs into is seen at its neighbour. -/
theorem Clash.congr (h : Clash c (d :: cs)) (hd : d.text ≠ []) (bs : List Cell) : Clash c (d :: bs) := by
  cases h with
  | words front back => exact .words front back
  | comment front =>
    refine .comment ?_
    obtain ⟨a, v, hv⟩ := List.exists_cons_of_ne_nil hd
    rw [Cell.spell_cons, hv] at front ⊢
    exact front

/-- A stretch of a text before what ends an item. -/
theorem Seamed.append (hs : Sound (as ++ bs)) (hcloses : Closes os) (h : Seamed os) : Seamed (as ++ os) := by
  induction as with
  | nil => exact h
  | cons c as ih =>
    refine ⟨fun hclash => ?_, ih (Cell.sound_cons_iff.1 hs).2⟩
    cases as with
    | nil => exact .inr hcloses
    | cons d as =>
      have hfit := (Cell.sound_cons_iff.1 (Cell.sound_cons_iff.1 hs).2).1
      exact absurd (hclash.congr hfit.text_ne_nil _) (not_clash hs)

/-! ### What is read counts no more -/

/-- How the first word that is read has come into being. -/
def StartsAs (os ss : List Cell) : Prop :=
  ∀ v rest, ss = .token (Lexeme.wordKind v) v :: rest → IsWord v →
    ∃ u more, os = .token (Lexeme.wordKind u) u :: more ∧ IsWord u ∧
      (v = u ∨ Text.lower Keyword.BY.spelling <+: Text.lower u ∨ ∃ y ∈ closers, Text.lower y.spelling <:+ Text.lower v)

theorem not_startsBy_of_closer : ∀ y ∈ closers, ¬ Text.lower Keyword.BY.spelling <+: Text.lower y.spelling := by
  decide

/-- What stands in front of a word that runs into it is a word if both are. -/
theorem isWord_of_append (h : Wordy k t) (hword : IsWord (t ++ u)) : k = Lexeme.wordKind t ∧ IsWord t := by
  cases h with
  | word isWord => exact ⟨rfl, isWord⟩
  | named | systemName =>
    have hat : Text.startsWord '@' = false := by decide
    simp [IsWord, hat] at hword

/-- Where two words run together, the first one starts with `BY`, or the second one ends like a word that may follow an
item. -/
theorem startsBy_or_closes {x : SqlText} (hseam : Text.lower Keyword.BY.spelling <+: Text.lower u ∨
      Closes (.token (Lexeme.wordKind x) x :: cs))
    (hv : v = x ∨ Text.lower Keyword.BY.spelling <+: Text.lower x ∨ ∃ y ∈ closers, Text.lower y.spelling <:+ Text.lower v) :
    Text.lower Keyword.BY.spelling <+: Text.lower u ∨ ∃ y ∈ closers, Text.lower y.spelling <:+ Text.lower v := by
  rcases hseam with hby | hcloses
  · exact .inl hby
  · obtain ⟨t, ht, hcell⟩ := hcloses _ rfl
    obtain ⟨y, hy, hlower⟩ := exists_closer ht (Cell.token.inj hcell).1.symm
    rcases hv with rfl | hby | hcloser
    · exact .inr ⟨y, hy, [], hlower.symm⟩
    · rw [hlower] at hby
      exact absurd hby (not_startsBy_of_closer y hy)
    · exact .inr hcloser

/-- Behind a word less may be counted than behind what it has run into. -/
theorem below_next_word (s : Lead) (v : SqlText) : Lead.Below .other (w.next s (.token (Lexeme.wordKind v) v)) := by
  refine .inr (.inr ⟨rfl, ?_⟩)
  rcases Lexeme.wordKind_eq v with h | ⟨y, -, h⟩
  · rw [h]
    show (if _ then _ else _) ≠ _
    split <;> decide
  · rw [h]
    show (if _ then _ else _) ≠ _
    split <;> decide

/-- **What is read counts no more than what was put together**, if it has no faults. -/
theorem count_le_of_settles (hw : Unseamed w) (h : Settles p os ss) (hseam : Seamed os) (hos : ∀ c ∈ os, ∃ r, c.Fits r)
    (hf : ∀ c ∈ ss, c.isFault = false) : (∀ s, w.count s ss ≤ w.count s os) ∧ StartsAs os ss := by
  induction h with
  | nil => exact ⟨fun s => Nat.le_refl _, nofun⟩
  | @keep c os ss fits rest ih =>
    obtain ⟨hle, -⟩ := ih hseam.2 (List.forall_mem_cons.1 hos).2 (List.forall_mem_cons.1 hf).2
    refine ⟨fun s => Nat.add_le_add_left (hle _) _, fun v rest hv hword => ?_⟩
    obtain ⟨rfl, rfl⟩ := List.cons.inj hv
    exact ⟨v, _, rfl, hword, .inl rfl⟩
  | @meld k k' u v os ss front back both fits aside rest ih =>
    have hfault : ∀ c ∈ Cell.token (Lexeme.wordKind v) v :: ss, c.isFault = false :=
      List.forall_mem_cons.2 ⟨(Wordy.word back).isFault, (List.forall_mem_cons.1 hf).2⟩
    obtain ⟨hle, hstart⟩ := ih hseam.2 (List.forall_mem_cons.1 hos).2 hfault
    obtain ⟨x, more, rfl, hx, hv⟩ := hstart v ss rfl back
    have hcase := startsBy_or_closes (hseam.1 (.words front hx)) hv
    have hquiet : w.Quiet (.token k' (u ++ v)) := by
      refine quiet_of_isSeam hw ?_ both
      rcases hcase with hby | ⟨y, hy, hcloser⟩
      · exact .append_left hby v
      · exact .append_right hy hcloser u
    refine ⟨fun s => ?_, fun z rest hz hword => ?_⟩
    · have hnext : Lead.Below .other (w.next (w.next s (.token k u)) (.token (Lexeme.wordKind v) v)) :=
        below_next_word _ v
      have hrest := @Tally.count_mono w _ _ ss hnext
      have hbehind := hle (w.next s (.token k u))
      rw [hquiet.count, Tally.count_cons]
      rw [Tally.count_cons] at hbehind
      omega
    · obtain ⟨hcell, rfl⟩ := List.cons.inj hz
      obtain ⟨-, rfl⟩ := Cell.token.inj hcell
      obtain ⟨rfl, hu⟩ := isWord_of_append front hword
      refine ⟨u, _, rfl, hu, .inr ?_⟩
      rcases hcase with hby | ⟨y, hy, hcloser⟩
      · exact .inl hby
      · have happend : Text.lower (u ++ v) = Text.lower u ++ Text.lower v := List.map_append
        exact .inr ⟨y, hy, by rw [happend]; exact hcloser.trans (List.suffix_append _ _)⟩
  | @swallow k g os ss fits aside rest ih =>
    have hfault : ∀ c ∈ Cell.gap g :: ss, c.isFault = false := List.forall_mem_cons.2 ⟨rfl, (List.forall_mem_cons.1 hf).2⟩
    obtain ⟨hle, -⟩ := ih hseam.2 (List.forall_mem_cons.1 hos).2 hfault
    refine ⟨fun s => ?_, fun v more hv => by cases (List.cons.inj hv).1⟩
    obtain ⟨r, hr⟩ := hos _ List.mem_cons_self
    obtain rfl := Cell.kind_of_minus hr
    -- a comment is behind the minus sign
    have hminus : (spell os).head? = some '-' := by
      obtain ⟨c, u, hg, hc⟩ | ⟨u, hg⟩ := fits.gap_front
      · obtain rfl : '-' = c := (List.cons.inj hg).1
        exact absurd hc (by decide)
      · rw [← rest.spelled, Cell.spell_cons, (List.cons.inj hg).2]
        rfl
    have hcloses : Closes os := by
      rcases hseam.1 (.comment hminus) with hby | hcloses
      · exact absurd hby (by decide)
      · exact hcloses
    have hquiet : w.Quiet (.token (.symbol .minus) ['-']) := Tally.quiet_symbol (by decide) (by decide)
    have hbehind := hle s
    rw [hquiet.count, (hcloses.count_eq : _ = w.count s _)]
    exact hbehind
  | @merge f g os ss fits rest ih =>
    have hfault : ∀ c ∈ Cell.gap g :: ss, c.isFault = false := List.forall_mem_cons.2 ⟨rfl, (List.forall_mem_cons.1 hf).2⟩
    obtain ⟨hle, -⟩ := ih hseam.2 (List.forall_mem_cons.1 hos).2 hfault
    refine ⟨fun s => ?_, fun v more hv => by cases (List.cons.inj hv).1⟩
    have hbehind := hle s
    simpa using hbehind
  | wreck sound spelled fault =>
    obtain ⟨c, hc, hfault, -⟩ := fault
    cases (hf c hc).symm.trans hfault

/-! ### Copies -/

/-- The copy of an expression in which nothing is counted, before what ends an item. -/
inductive Copied (w : Tally) : Swap
  | spelled {X Y B : List Cell} {sep name : Token} {expression : List Token}
      (before : sep.isSymbol .comma = true ∨ sep.isKeyword .BY = true) (named : name.kind.isIdentifier = true)
      (context : Sound (stretch expression ++ B)) (closes : Closes Y)
      (silent : w.count .other (stretch expression) = 0) :
      Copied w X (sep.cell :: (ofGap name.gap ++ [name.cell])) Y (sep.cell :: (ofGap name.gap ++ stretch expression))

/-- What stands before the place of a name stays there. -/
theorem head?_woven (h : Woven (Copied w) X cs os) :
    os.head? = cs.head? ∧ firstToken? os = firstToken? cs := by
  induction h with
  | nil => exact ⟨rfl, rfl⟩
  | @keep X cs os c rest ih =>
    refine ⟨rfl, ?_⟩
    cases c with
    | token k t => rfl
    | gap g => exact ih.2
  | swap swapped rest ih =>
    cases swapped with
    | spelled before named context closes silent => exact ⟨rfl, rfl⟩

theorem fits_woven (h : Woven (Copied w) X cs os) (hs : Sound (X ++ cs)) : ∀ c ∈ os, ∃ r, c.Fits r := by
  intro c hc
  rcases h.exists_of_mem hc with hc | ⟨X', D, Y, N, hsw, hall, hc⟩
  · exact hs.fits (List.mem_append_right _ hc)
  rw [← hall] at hs
  cases hsw with
  | spelled before named context closes silent =>
    simp only [List.mem_cons, List.mem_append] at hc
    rcases hc with rfl | hc | hc
    · exact hs.fits (by simp)
    · exact hs.fits (by simp [hc])
    · exact context.fits (by simp [hc])

theorem seamed_woven (h : Woven (Copied w) X cs os) (hs : Sound (X ++ cs)) : Seamed os := by
  induction h with
  | nil => trivial
  | @keep X cs os c rest ih =>
    rw [List.append_assoc] at ih
    refine ⟨fun hclash => absurd ?_ (not_clash hs.of_append), ih hs⟩
    cases hos : os with
    | nil =>
      subst hos
      cases hclash with
      | comment front => cases front
    | cons d more =>
      -- the cell behind is the one that stood there before
      obtain ⟨rest', hcs⟩ : ∃ rest', cs = d :: rest' := by
        have hhead := (head?_woven rest).1
        rw [hos] at hhead
        exact List.head?_eq_some_iff.1 hhead.symm
      subst hos hcs
      have hfit := (Cell.sound_cons_iff.1 (Cell.sound_cons_iff.1 hs.of_append).2).1
      exact hclash.congr hfit.text_ne_nil _
  | @swap X D Y N os swapped rest ih =>
    rw [List.append_assoc] at ih
    have hos := ih hs
    have hfirst := (head?_woven rest).2
    cases swapped with
    | @spelled _ _ B sep name expression before named context closes silent =>
      have hcloses : Closes os := by
        rw [Closes, hfirst]
        exact closes
      have hexpression : Seamed (stretch expression ++ os) := .append context hcloses hos
      have hgap : Seamed (ofGap name.gap ++ (stretch expression ++ os)) := by
        unfold ofGap
        split
        · exact hexpression
        · exact ⟨nofun, hexpression⟩
      rw [List.cons_append, List.append_assoc]
      refine ⟨fun hclash => ?_, hgap⟩
      rcases before with hcomma | hby
      · have hk : sep.kind = .symbol .comma := Kind.isSymbol_iff.1 hcomma
        rw [Token.cell, hk] at hclash
        exact absurd hclash not_clash_comma
      · left
        have hk : sep.kind = .keyword .BY := Kind.isKeyword_iff.1 hby
        have hfit := (Cell.sound_cons_iff.1 hs.of_append).1
        rw [Token.cell, hk] at hfit
        have hlower : Text.lower sep.text = Text.lower Keyword.BY.spelling :=
          Tally.lower_eq_of_ofWord? (Cell.isWord_of_keyword hfit).2
        exact ⟨[], (List.append_nil _).trans hlower.symm⟩

/-- Where nothing is counted, nothing is counted with copies woven in. -/
theorem count_woven (h : Woven (Copied w) X cs os) (hzero : w.count s cs = 0) : w.count s os = 0 := by
  induction h generalizing s with
  | nil => rfl
  | keep rest ih =>
    rw [Tally.count_cons, Nat.add_eq_zero_iff] at hzero ⊢
    exact ⟨hzero.1, ih hzero.2⟩
  | @swap X D Y N os swapped rest ih =>
    cases swapped with
    | @spelled _ _ B sep name expression before named context closes silent =>
      have hsep : w.Quiet sep.cell := by
        rcases before with hcomma | hby
        · exact quiet_of_endsItem (.inr (.inl hcomma))
        · rw [Token.cell, Kind.isKeyword_iff.1 hby]
          exact Tally.quiet_of_not_counted (by decide)
      simp only [List.cons_append, List.append_assoc, hsep.count, Tally.count_append, Tally.count_ofGap, Nat.zero_add,
        Tally.after_ofGap, Tally.count_cons, Tally.count_nil, Nat.add_eq_zero_iff] at hzero ⊢
      refine ⟨silent, ih ?_⟩
      rw [closes.count_eq]
      exact hzero.2

/-- Whether copies keep to themselves: no `BY` ends where one is written that starts with a digit, and no select list
starts behind a dot. -/
structure CopiesApart (q : Query) : Prop where
  digits : DigitsApart q
  undotted : ∀ s ∈ q.scopes, ∀ t ∈ s.modifiers.getLast?, t.isSymbol .dot = false

instance : DecidablePred CopiesApart := fun q =>
  decidable_of_iff (DigitsApart q ∧ ∀ s ∈ q.scopes, ∀ t ∈ s.modifiers.getLast?, t.isSymbol .dot = false)
    ⟨fun h => ⟨h.1, h.2⟩, fun h => ⟨h.digits, h.undotted⟩⟩

theorem Copies.copied {q : Query} {tail : List Cell} {e : Edit} {as bs us expression vs : List Token} {sep name : Token}
    (h : q.IsRead tail) (hc : Copies q e as sep name bs us expression vs) (hq : CopiesApart q)
    (hzero : w.count .other (Token.cells q.tokens ++ tail) = 0) :
    Copied w (Token.cells as ++ ofGap sep.gap) (sep.cell :: (ofGap name.gap ++ [name.cell])) (Token.cells bs ++ tail)
      (sep.cell :: (ofGap name.gap ++ stretch expression)) := by
  obtain ⟨first, others, hexpression⟩ := List.exists_cons_of_ne_nil hc.nonempty
  have hcontext := h.sound
  rw [(h.split (hexpression ▸ hc.selected)).1, ← hexpression] at hcontext
  refine .spelled hc.before hc.named hcontext.of_append (fun c hfirst => ?_) ?_
  · rw [h.firstToken?_cells] at hfirst
    obtain ⟨t, ht, rfl⟩ := Option.map_eq_some_iff.1 hfirst
    exact ⟨t, hc.behind t ht, rfl⟩
  · -- no dot stands before the expression, so at its own place it counts at least as much
    have hlead : Lead.Below .other (w.after .other (Token.cells us)) := by
      by_cases hus : us = []
      · rw [hus]
        exact .inl rfl
      refine .inr (.inr ⟨rfl, ?_⟩)
      rw [Tally.after_cells]
      refine Tally.after_ne_dot hus fun u hu => ?_
      obtain ⟨s, hs, hstarts⟩ := hc.starts
      rcases hstarts u hu with hcomma | hselect | hmodifier
      · rw [Token.isSymbol, Kind.isSymbol_iff.1 hcomma]
        rfl
      · rw [Token.isSymbol, Kind.isKeyword_iff.1 hselect]
        rfl
      · exact hq.undotted s hs u hmodifier
    rw [hc.selected, Token.cells_append, Token.cells_append, List.append_assoc, List.append_assoc, Tally.count_append,
      Tally.count_append, Nat.add_eq_zero_iff, Nat.add_eq_zero_iff] at hzero
    have hle := @Tally.count_mono w _ _ (stretch expression) hlead
    rw [← Tally.count_cells expression (s := w.after .other (Token.cells us)), hzero.2.1] at hle
    exact Nat.le_zero.1 hle

/-- **Spelling out aliases makes nothing that is counted**, if nothing is counted before and copies keep to themselves. -/
theorem count_eq_zero {text out : SqlText} {q q' : Query} (hw : Unseamed w) (hq : Query.ofText text = .ok q)
    (hapart : CopiesApart q) (h : spellOut text = .ok out) (hq' : Query.ofText out = .ok q')
    (hzero : w.count .other (Cell.ofText text) = 0) : w.count .other (Cell.ofText out) = 0 := by
  obtain ⟨q'', hq'', happ⟩ := Except.bind_eq_ok h
  obtain rfl := Except.ok.inj (hq.symm.trans hq'')
  have hmakes : Swap.Makes (fun X D Y N => Swapped X D Y N ∧ Copied w X D Y N) text out := by
    refine Query.makes hq stays (fun tail hread e he => isSwap hread he fun hc => ?_) happ
    obtain ⟨rfl, -⟩ := Query.isRead hq
    exact ⟨hc.swapped hread he hapart.digits, hc.copied hread hapart (by rwa [hread.cells] at hzero)⟩
  obtain ⟨os, hwoven, rfl⟩ := hmakes
  have hcopied : Woven (Copied w) [] (Cell.ofText text) os := hwoven.mono fun h => h.2
  have hsound : Sound ([] ++ Cell.ofText text) := Cell.sound_ofText text
  -- no cell has the property that seams keep away from
  have hharmless : Woven.Harmless (fun _ => false) Swapped :=
    harmless ⟨fun _ => rfl, fun _ _ => rfl, fun _ _ => rfl, fun _ _ _ _ => rfl⟩ fun _ _ => rfl
  obtain ⟨⟨ss, hset, -⟩, -⟩ := (hwoven.mono fun h => h.1).settles hharmless hsound (Query.isFault_of_ofText hq)
  have hss : Cell.ofText (spell os) = ss := by rw [← hset.spelled, hset.sound.ofText_spell]
  have hf := Query.isFault_of_ofText hq'
  rw [hss] at hf ⊢
  have hle := (count_le_of_settles hw hset (seamed_woven hcopied hsound) (fits_woven hcopied hsound) hf).1 .other
  rw [count_woven hcopied hzero] at hle
  exact Nat.le_zero.1 hle

end JetAdapter.OrderAlias

import JetAdapter.Adapter
import JetAdapter.Dialect.Jet
import JetAdapter.Proofs.AliasSwaps
import JetAdapter.Proofs.CallSwaps
import JetAdapter.Proofs.CaseSwaps
import JetAdapter.Proofs.DistinctSwaps
import JetAdapter.Proofs.JoinNesting
import JetAdapter.Proofs.Rounds
import JetAdapter.Proofs.Splices

/-!
# Where edits are made

Applying an edit of a stretch that is no part of the text is refused with `misplacedEdit`.  Every edit that nesting the
joins or a rule makes fits the text (`Edit.Fits`): its stretch lies between two characters and starts no later than it
stops.  So a set of them is refused only if two of them overlap, and no text is refused for a misplaced edit.
-/

namespace JetAdapter

open Cell (spell ofGap)
open Query (IsRead)

/-- Whether an error says what is wrong with a statement, and not that an edit was misplaced. -/
def SqlError.IsRefusal (e : SqlError) : Prop :=
  ∀ span, e ≠ .misplacedEdit span

theorem SqlError.IsSyntax.isRefusal {e : SqlError} (h : e.IsSyntax) : e.IsRefusal := by
  rintro span rfl
  obtain ⟨fault, span', h⟩ := h
  cases h

open SqlError (IsSyntax IsRefusal)

namespace Edit

variable {e : Edit} {es : List Edit} {text : SqlText}

theorem fits_of_cells {cs X D Y : List Cell} (hcs : cs = X ++ (D ++ Y))
    (hstart : e.span.start = Text.byteSize (spell X)) (hstop : e.span.stop = Text.byteSize (spell (X ++ D))) :
    e.Fits (spell cs) := by
  refine ⟨spell X, spell D, spell Y, ?_, hstart, ?_⟩
  · rw [hcs, Cell.spell_append, Cell.spell_append]
  · rw [hstop, Cell.spell_append]

theorem IsSwap.fits {R : Swap} {stays : Cell → Bool} {cs : List Cell} (h : e.IsSwap R stays cs) :
    e.Fits (spell cs) := by
  obtain ⟨X, K, D, Y, N, -, hcs, hstart, hstop, -⟩ := h
  refine fits_of_cells (X := X ++ K) (D := D) (Y := Y) ?_ hstart ?_
  · rw [hcs, List.append_assoc]
  · rw [hstop, List.append_assoc]

/-- Edits that fit are refused only because of each other. -/
theorem refuses_applyAll (h : ∀ e ∈ es, e.Fits text) : Refuses IsSyntax (applyAll es text) := by
  rcases applyAll_ok_or_overlapping h with ⟨out, hout⟩ | ⟨e, -, herror⟩
  · rw [hout]
    exact .ok _
  · rw [herror]
    exact .error ⟨_, _, rfl⟩

end Edit

/-! ### Steps and edits of a query -/

namespace Query

variable {q : Query} {text : SqlText}

/-- Edits that fit every text that is read as a query. -/
theorem refuses_edits {f : Query → Except SqlError (List Edit)}
    (hf : ∀ q, Refuses IsRefusal (f q))
    (hfits : ∀ q tail es, q.IsRead tail → f q = .ok es → ∀ e ∈ es, e.Fits (spell (Token.cells q.tokens ++ tail))) :
    Refuses IsRefusal (do Edit.applyAll (← f (← ofText text)) text) := by
  refine ((refuses_ofText text).mono fun _ => IsSyntax.isRefusal).bind fun q hq => ?_
  refine (hf q).bind fun es hes => ?_
  obtain ⟨rfl, tail, hread⟩ := isRead hq
  refine (Edit.refuses_applyAll fun e he => ?_).mono fun _ => IsSyntax.isRefusal
  rw [← hread.spell]
  exact hfits q tail es hread hes e he

/-- A step whose edits fit every text that is read as a query. -/
theorem refuses_exhaust {step : Query → Except SqlError (Option Edit)} (hstep : ∀ q, Refuses IsRefusal (step q))
    (hfits : ∀ q tail e, q.IsRead tail → step q = .ok (some e) → e.Fits (spell (Token.cells q.tokens ++ tail))) :
    Refuses IsRefusal (exhaust step text) := by
  have hrounds : ∀ (n : Nat) (text : SqlText), Refuses IsRefusal (repeatStep step n text) := by
    intro n
    induction n with
    | zero => exact fun text => .ok text
    | succ n ih =>
      intro text
      rw [repeatStep]
      refine ((refuses_ofText text).mono fun _ => IsSyntax.isRefusal).bind fun q hq => ?_
      refine (hstep q).bind fun found hfound => ?_
      cases found with
      | none => exact .ok _
      | some e =>
        obtain ⟨rfl, tail, hread⟩ := isRead hq
        have he := hfits q tail e hread hfound
        rw [hread.spell] at he
        have happ := Edit.refuses_applyAll (List.forall_mem_singleton.2 he)
        exact (happ.mono fun _ => IsSyntax.isRefusal).bind fun u _ => ih u
  exact hrounds _ text

end Query

/-! ### The rules -/

section

variable {q : Query} {tail : List Cell} {es : List Edit} {e : Edit}

theorem LetterCase.fits (h : q.IsRead tail) (he : e ∈ (q.calls isName).map fun c => ⟨c.name.span, jetName c.name⟩) :
    e.Fits (spell (Token.cells q.tokens ++ tail)) := by
  obtain ⟨c, hc, rfl⟩ := List.mem_map.1 he
  exact (isSwap h hc).fits

theorem LetterCase.refuses_rename (text : SqlText) : Refuses IsRefusal (rename text) := by
  refine Query.refuses_edits (f := fun q => .ok ((q.calls isName).map fun c => ⟨c.name.span, jetName c.name⟩))
    (fun _ => .ok _) fun q tail es hread hes e he => ?_
  cases hes
  exact fits hread he

theorem Cast.fits (h : q.IsRead tail) (he : e ∈ (q.calls fun t => t.isKeyword .CAST).flatMap callEdits) :
    e.Fits (spell (Token.cells q.tokens ++ tail)) := by
  obtain ⟨c, hc, he⟩ := List.mem_flatMap.1 he
  exact (isSwap h hc he).fits

theorem Cast.refuses_convert (text : SqlText) : Refuses IsRefusal (convert text) := by
  refine Query.refuses_edits (f := fun q => .ok ((q.calls fun t => t.isKeyword .CAST).flatMap callEdits))
    (fun _ => .ok _) fun q tail es hread hes e he => ?_
  cases hes
  exact fits hread he

theorem Extract.refuses_callEdit (c : Call) : Refuses IsRefusal (callEdit c) := by
  unfold callEdit
  split
  · split
    · split
      · exact .ok _
      · exact .error nofun
    · exact .error nofun
  · exact .error nofun

theorem Extract.fits (h : q.IsRead tail) (hes : (q.calls fun t => t.spells "extract".toList).mapM callEdit = .ok es)
    (he : e ∈ es) : e.Fits (spell (Token.cells q.tokens ++ tail)) := by
  obtain ⟨c, hc, he⟩ := Except.mem_of_mapM_eq_ok hes e he
  exact (isSwap h hc he).fits

theorem Extract.refuses_convert (text : SqlText) : Refuses IsRefusal (convert text) :=
  Query.refuses_edits (fun _ => .mapM fun c _ => refuses_callEdit c)
    fun _ _ _ hread hes _ he => fits hread hes he

theorem Locate.refuses_convert (text : SqlText) : Refuses IsRefusal (convert text) := by
  refine Query.refuses_exhaust (fun q => ?_) fun q tail e hread he => (isSwap hread he).fits
  unfold step
  split
  · exact .ok _
  · split
    · exact .ok _
    · exact .error nofun

/-- A `DISTINCT` is dropped up to the token behind it. -/
theorem Distinct.fits_plain {aggregate : Keyword} {c : Call} {distinct : Token}
    {operand : List Token} (h : q.IsRead tail) (hcall : firstCall? q = some (aggregate, c, distinct, operand)) :
    Edit.Fits (spell (Token.cells q.tokens ++ tail))
      ⟨⟨distinct.start, Token.startOr c.closing.start operand⟩, []⟩ := by
  obtain ⟨hc, hargs, -⟩ := firstCall?_eq_some hcall
  obtain ⟨as, bs, htokens, -⟩ := Call.mem_among hc
  obtain ⟨next, us, hnext, hstart⟩ := Token.exists_startOr_eq operand c.closing bs
  have hall : q.tokens = (as ++ [c.name, c.opening]) ++ distinct :: next :: us := by
    rw [htokens, Call.tokens, hargs, ← hnext]
    simp
  obtain ⟨hcells, hdistinct, -⟩ := h.split_one hall
  obtain ⟨-, hstop, -⟩ := h.split_one
    (show q.tokens = (as ++ [c.name, c.opening, distinct]) ++ next :: us by rw [hall]; simp)
  refine Edit.fits_of_cells (D := distinct.cell :: ofGap next.gap) (Y := next.cell :: (Token.cells us ++ tail)) ?_
    hdistinct ?_
  · rw [hcells]
    simp
  · show Token.startOr c.closing.start operand = _
    rw [hstart, hstop]
    simp

theorem Distinct.fits (h : q.IsRead tail) (he : step q = .ok (some e)) :
    e.Fits (spell (Token.cells q.tokens ++ tail)) := by
  unfold step at he
  split at he
  · cases he
  next aggregate c distinct operand hcall =>
  split at he
  · cases he
    exact fits_plain h hcall
  · split at he
    · next edit hedit =>
      cases he
      exact (isSwap h hcall hedit).fits
    · cases he

theorem Distinct.refuses_convert (text : SqlText) : Refuses IsRefusal (convert text) := by
  refine Query.refuses_exhaust (fun q => ?_) fun q tail e hread he => fits hread he
  unfold step
  split
  · exact .ok _
  · split
    · exact .ok _
    · split
      · exact .ok _
      · exact .error nofun

theorem OrderAlias.fits (h : q.IsRead tail) (he : e ∈ q.scopes.flatMap scopeEdits) :
    e.Fits (spell (Token.cells q.tokens ++ tail)) := by
  obtain ⟨s, hs, hes⟩ := List.mem_flatMap.1 he
  obtain ⟨ordering, item, t, name, expression, hordering, hitem, hname, -, -, rfl⟩ := exists_of_mem_scopeEdits hes
  obtain ⟨as, sep, bs, htokens, -⟩ := eq_append_of_item h hs hordering hitem hname
  obtain ⟨hcells, hstart, hstop⟩ := h.split_one (show q.tokens = (as ++ [sep]) ++ t :: bs by rw [htokens]; simp)
  exact Edit.fits_of_cells (D := [t.cell]) hcells hstart hstop

theorem OrderAlias.refuses_spellOut (text : SqlText) : Refuses IsRefusal (spellOut text) := by
  refine Query.refuses_edits (f := fun q => .ok (q.scopes.flatMap scopeEdits))
    (fun _ => .ok _) fun q tail es hread hes e he => ?_
  cases hes
  exact fits hread he

theorem Conditional.refuses_convert (text : SqlText) : Refuses IsRefusal (convert text) := by
  refine Query.refuses_exhaust (fun q => ?_) fun q tail e hread he => (isSwap hread he).fits
  unfold step
  split
  · exact .ok _
  · split
    · exact .ok _
    · exact .error nofun

end

theorem Rule.refuses_apply (r : Rule) (text : SqlText) : Refuses IsRefusal (r.apply text) := by
  cases r with
  | upperLower => exact LetterCase.refuses_rename text
  | cast => exact Cast.refuses_convert text
  | extract => exact Extract.refuses_convert text
  | locate => exact Locate.refuses_convert text
  | aggregateDistinct => exact Distinct.refuses_convert text
  | orderByAlias => exact OrderAlias.refuses_spellOut text
  | caseWhen => exact Conditional.refuses_convert text

theorem RuleChain.refuses_apply (chain : RuleChain) (text : SqlText) : Refuses IsRefusal (chain.apply text) := by
  rw [apply]
  generalize chain.rules = rules
  induction rules generalizing text with
  | nil => exact .ok text
  | cons r rules ih =>
    rw [List.foldlM_cons]
    exact (r.refuses_apply text).bind fun u _ => ih u

/-! ### Joins and whole texts -/

namespace JoinChain

variable {q : Query} {tail : List Cell}

theorem Inserts.fits {depth : Nat} {e : Edit} (hread : q.IsRead tail) (h : Inserts q depth e) :
    e.Fits (spell (Token.cells q.tokens ++ tail)) := by
  cases h with
  | @before as bs w t text tokens =>
    obtain ⟨hcells, hstart, -⟩ := hread.split_one (show q.tokens = (as ++ [w]) ++ t :: bs by rw [tokens]; simp)
    refine Edit.fits_of_cells (D := []) hcells hstart ?_
    rw [List.append_nil]
    exact hstart
  | @behind as bs u text tokens =>
    obtain ⟨hcells, -, hstop⟩ := hread.split_one tokens
    refine Edit.fits_of_cells (D := []) (Y := Token.cells bs ++ tail) ?_ hstop ?_
    · rw [hcells]
      simp
    · rw [List.append_nil]
      exact hstop

theorem fits {es : List Edit} {e : Edit} (h : q.IsRead tail) (hes : scopesEdits q.scopes = .ok es) (he : e ∈ es) :
    e.Fits (spell (Token.cells q.tokens ++ tail)) := by
  obtain ⟨depth, hinserts⟩ := exists_inserts h hes he
  exact hinserts.fits h

theorem refuses_nestAll (text : SqlText) : Refuses IsRefusal (nestAll text) := by
  refine ((Query.refuses_ofText text).mono fun _ => IsSyntax.isRefusal).bind fun q hq => ?_
  split
  · exact .ok _
  · refine ((refuses_scopesEdits q.scopes).mono fun _ => IsSyntax.isRefusal).bind fun es hes => ?_
    obtain ⟨rfl, tail, hread⟩ := Query.isRead hq
    refine (Edit.refuses_applyAll fun e he => ?_).mono fun _ => IsSyntax.isRefusal
    rw [← hread.spell]
    exact fits hread hes he

end JoinChain

theorem Adapter.refuses_adaptText (a : Adapter) (text : SqlText) : Refuses IsRefusal (a.adaptText text) :=
  (JoinChain.refuses_nestAll _).bind fun _ _ => a.chain.refuses_apply _

end JetAdapter

import JetAdapter.Proofs.Readings

/-!
# Patches

Where it is known which cells each edit of a set replaces, and by which, the outcome of the whole set is known: the edits
are applied from the first to the last, in whatever order they were given (`Edit.Patches.applyAll_eq`).  Patches are put
together from those of stretches (`Edit.Patches.append`), each made with regard to the cells before and behind it.

The other way round, edits that can be applied do not overlap (`Edit.disjoint_of_applyAll`).
-/

namespace JetAdapter

open Cell (spell Sound)

namespace Edit

variable {R : Swap} {X Z cs cs' os os' D Y N : List Cell} {es es' : List Edit} {text out : SqlText}

/-! ### The order of edits -/

/-- Edits that start one behind the other are sorted, in whatever order they are given. -/
theorem sorted_eq_of_perm (h : es.Pairwise fun a b => a.span.start < b.span.start) (hperm : es'.Perm es) :
    sorted es' = es := by
  have hstarts : ∀ a ∈ es, ∀ b ∈ es, a.span.start = b.span.start → a = b := by
    intro a ha b hb heq
    by_contra hne
    have hsymm : es.Pairwise fun a b => a.span.start ≠ b.span.start := h.imp Nat.ne_of_lt
    have : Std.Symm fun a b : Edit => a.span.start ≠ b.span.start := ⟨fun _ _ hab => hab.symm⟩
    exact hsymm.forall ha hb hne heq
  have hall : (sorted es').Perm es := (sorted_perm es').trans hperm
  have hanti : ∀ a b : Edit, a ∈ sorted es' → b ∈ es → comesFirst a b = true → comesFirst b a = true → a = b := by
    intro a b ha hb hab hba
    refine hstarts a (hall.mem_iff.1 ha) b hb ?_
    rw [comesFirst_iff] at hab hba
    omega
  exact hall.eq_of_pairwise hanti (pairwise_sorted es') (h.imp fun hlt => comesFirst_iff.2 (.inl hlt))

/-- Of two edits that are applied together, one ends before the other starts. -/
theorem disjoint_of_applyAll (h : applyAll es text = .ok out) {a b : Edit} (ha : a ∈ es) (hb : b ∈ es) (hne : a ≠ b) :
    a.span.stop ≤ b.span.start ∨ b.span.stop ≤ a.span.start := by
  have hpairs := (disjoint_of_applyFrom h).2.imp fun {a b} hab =>
    (.inl hab : a.span.stop ≤ b.span.start ∨ b.span.stop ≤ a.span.start)
  have : Std.Symm fun a b : Edit => a.span.stop ≤ b.span.start ∨ b.span.stop ≤ a.span.start := ⟨fun _ _ hab => hab.symm⟩
  exact hpairs.forall ((sorted_perm es).mem_iff.2 ha) ((sorted_perm es).mem_iff.2 hb) hne

/-- What stands before all edits is kept. -/
theorem applyFrom_append {offset : Nat} {kept : SqlText}
    (h : applyFrom (offset + Text.byteSize kept) text es = .ok out) :
    applyFrom offset (kept ++ text) es = .ok (kept ++ out) := by
  cases es with
  | nil =>
    obtain rfl : text = out := Except.ok.inj h
    rfl
  | cons e es =>
    rw [applyFrom] at h
    split at h
    · cases h
    next hstart =>
    split at h
    · cases h
    next hstop =>
    split at h
    · cases h
    next before fromStart hbefore =>
    split at h
    · cases h
    next dropped rest hdropped =>
    obtain ⟨rfl, hsize⟩ := Text.eq_append_of_cutAt hbefore
    obtain ⟨rfl, hsize'⟩ := Text.eq_append_of_cutAt hdropped
    rw [← List.append_assoc, applyFrom_cons (e := e) (by rw [Text.byteSize_append]; omega) (by omega)]
    cases hrest : applyFrom e.span.stop rest es with
    | error err =>
      rw [hrest] at h
      cases h
    | ok out' =>
      rw [hrest] at h
      obtain rfl := Except.ok.inj h
      show Except.ok _ = Except.ok _
      simp

/-! ### Cells and their edits -/

/-- Cells with new ones in the place of some of them, and the edits that put them there, from the first to the last.
The cells `X` stand before and the cells `Z` behind. -/
inductive Patches (R : Swap) (Z : List Cell) : List Cell → List Cell → List Edit → List Cell → Prop
  | nil {X : List Cell} : Patches R Z X [] [] []
  | keep {X cs os : List Cell} {es : List Edit} {c : Cell} (rest : Patches R Z (X ++ [c]) cs es os) :
      Patches R Z X (c :: cs) es (c :: os)
  | swap {X D Y N os : List Cell} {es : List Edit} (swapped : R X D (Y ++ Z) N) (rest : Patches R Z (X ++ D) Y es os) :
      Patches R Z X (D ++ Y)
        (⟨⟨Text.byteSize (spell X), Text.byteSize (spell (X ++ D))⟩, spell N⟩ :: es) (N ++ os)

namespace Patches

/-- Cells that are kept before others. -/
theorem behind {as : List Cell} (h : Patches R Z (X ++ as) cs es os) : Patches R Z X (as ++ cs) es (as ++ os) := by
  induction as generalizing X with
  | nil => rwa [List.append_nil] at h
  | cons c as ih =>
    refine .keep (ih ?_)
    rwa [List.append_assoc]

theorem refl (X cs : List Cell) : Patches R Z X cs [] cs := by
  have h : Patches R Z X (cs ++ []) [] (cs ++ []) := .behind .nil
  rwa [List.append_nil] at h

/-- A single edit. -/
theorem one (h : R X D Z N) :
    Patches R Z X D [⟨⟨Text.byteSize (spell X), Text.byteSize (spell (X ++ D))⟩, spell N⟩] N := by
  have hone : Patches R Z X (D ++ []) _ (N ++ []) := .swap h .nil
  rwa [List.append_nil, List.append_nil] at hone

/-- The patches of a stretch and of the stretch behind it. -/
theorem append {as bs : List Cell} (h : Patches R (cs ++ Z) X as es bs) (h' : Patches R Z (X ++ as) cs es' os) :
    Patches R Z X (as ++ cs) (es ++ es') (bs ++ os) := by
  generalize hW : cs ++ Z = W at h
  induction h with
  | nil => rwa [List.append_nil] at h'
  | keep _ ih =>
    refine .keep (ih ?_)
    rwa [List.append_assoc]
  | @swap X D Y N bs es swapped _ ih =>
    rw [← List.append_assoc] at h'
    rw [List.append_assoc, List.append_assoc]
    refine .swap ?_ (ih h')
    rwa [List.append_assoc, hW]

theorem woven (h : Patches R [] X cs es os) : Woven R X cs os := by
  induction h with
  | nil => exact .nil
  | keep _ ih => exact .keep ih
  | swap swapped _ ih =>
    rw [List.append_nil] at swapped
    exact .swap swapped ih

/-- The edits put the new cells in the place of the old ones. -/
theorem applyFrom_eq (h : Patches R Z X cs es os) :
    applyFrom (Text.byteSize (spell X)) (spell cs) es = .ok (spell os) := by
  induction h with
  | nil => rfl
  | @keep X cs os es c _ ih =>
    rw [Cell.spell_append, Text.byteSize_append] at ih
    rw [Cell.spell_cons, Cell.spell_cons]
    refine applyFrom_append ?_
    simpa using ih
  | @swap X D Y N os es _ _ ih =>
    rw [Cell.spell_append D, Cell.spell_append N]
    have hstop : Text.byteSize (spell (X ++ D)) = Text.byteSize (spell X) + Text.byteSize (spell D) := by
      rw [Cell.spell_append, Text.byteSize_append]
    have hstep : applyFrom (Text.byteSize (spell X)) ([] ++ (spell D ++ spell Y))
        (⟨⟨Text.byteSize (spell X), Text.byteSize (spell (X ++ D))⟩, spell N⟩ :: es) = _ := applyFrom_cons rfl hstop
    rw [List.nil_append] at hstep
    rw [hstep, ih]
    rfl

/-- The edits start one behind the other, if none of them only inserts. -/
theorem pairwise_start (hR : ∀ {X D Y N : List Cell}, R X D Y N → D ≠ []) (h : Patches R Z X cs es os)
    (hs : Sound (X ++ cs)) : (∀ e ∈ es, Text.byteSize (spell X) ≤ e.span.start) ∧
      es.Pairwise fun a b => a.span.start < b.span.start := by
  induction h with
  | nil => exact ⟨List.forall_mem_nil _, .nil⟩
  | @keep X cs os es c _ ih =>
    rw [List.append_cons] at hs
    obtain ⟨hbehind, hpairs⟩ := ih hs
    refine ⟨fun e he => Nat.le_trans ?_ (hbehind e he), hpairs⟩
    rw [Cell.spell_append, Text.byteSize_append]
    omega
  | @swap X D Y N os es swapped _ ih =>
    rw [← List.append_assoc] at hs
    obtain ⟨hbehind, hpairs⟩ := ih hs
    have hlt : Text.byteSize (spell X) < Text.byteSize (spell (X ++ D)) := by
      obtain ⟨c, D, rfl⟩ := List.exists_cons_of_ne_nil (hR swapped)
      rw [List.append_assoc] at hs
      obtain ⟨a, w, ha⟩ := List.exists_cons_of_ne_nil (Cell.sound_cons_iff.1 hs.of_append).1.text_ne_nil
      have := a.utf8Size_pos
      simp only [Cell.spell_append, Cell.spell_cons, ha, Text.byteSize_append, Text.byteSize_cons]
      omega
    refine ⟨List.forall_mem_cons.2 ⟨Nat.le_refl _, fun e he => ?_⟩, .cons (fun e he => ?_) hpairs⟩
    · exact Nat.le_trans (Nat.le_of_lt hlt) (hbehind e he)
    · exact Nat.lt_of_lt_of_le hlt (hbehind e he)

/-- The whole set is applied, in whatever order it is given. -/
theorem applyAll_eq (hR : ∀ {X D Y N : List Cell}, R X D Y N → D ≠ []) (h : Patches R Z [] cs es os) (hs : Sound cs)
    (hperm : es'.Perm es) : applyAll es' (spell cs) = .ok (spell os) := by
  rw [applyAll, sorted_eq_of_perm (h.pairwise_start hR hs).2 hperm]
  exact h.applyFrom_eq

end Patches

end Edit

/-- What patches make of a text, if the new cells are read as they stand and leave no faults, and the parentheses match. -/
theorem Query.IsRead.reads_patched {q : Query} {tail os cs : List Cell} {R : Swap} {es es' : List Edit}
    (h : q.IsRead tail) (hR : Woven.Harmless Cell.isToken R)
    (hplain : ∀ {X D Y N : List Cell}, R X D Y N → ∀ c ∈ N, c.isFault = false)
    (hreplaces : ∀ {X D Y N : List Cell}, R X D Y N → D ≠ [])
    (hp : Edit.Patches R [] [] (Token.cells q.tokens ++ tail) es os) (hperm : es'.Perm es)
    (hcs : os.filter Cell.isToken = cs) (hb : Balanced (Cell.kinds cs)) :
    ∃ out q', Edit.applyAll es' q.text = .ok out ∧ ofText out = .ok q' ∧ Token.Reads 0 cs q'.tokens := by
  have happ := hp.applyAll_eq hreplaces h.sound hperm
  rw [h.spell] at happ
  have hw := hp.woven
  obtain ⟨⟨ss, hset, -⟩, -⟩ := hw.settles hR h.sound h.isFault
  have hfaults : ∀ c ∈ os, c.isFault = false := by
    intro c hc
    rcases hw.exists_of_mem hc with hc | ⟨X, D, Y, N, hsw, -, hc⟩
    · exact h.isFault c hc
    · exact hplain hsw c hc
  have hfilter : (Cell.ofText (Cell.spell os)).filter Cell.isToken = cs := by
    rw [← hset.spelled, hset.sound.ofText_spell, ← hcs]
    refine hset.filter (fun _ => rfl) fun c _ hc => ?_
    cases c with
    | gap g => cases hc
    | token k t => rfl
  have hkinds : ∀ k ∈ Cell.kinds cs, k.isFault = false := by
    rw [← hcs, Cell.kinds_filter_isToken]
    exact Cell.isFault_kinds hfaults
  obtain ⟨q', hq', hreads⟩ := exists_of_filter hfilter hkinds hb
  exact ⟨_, q', happ, hq', hreads⟩

end JetAdapter

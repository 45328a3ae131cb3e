import JetAdapter.Proofs.Settling
import JetAdapter.Query.Edit

/-!
# What a set of edits makes of cells

If every edit of a set puts new cells in the place of whole old cells, the text that comes out is spelled by
the old cells with the new ones woven in (`Edit.woven`).  The swaps that are made can be of any kind; `R X D Y
N` says that the cells `N` may take the place of `D` between `X` and `Y`.

How the woven cells are read is found from the last one to the first one (`Woven.settles`): that takes one
step for a cell that is kept and, for each kind of swap, a proof that it is `Harmless`.
-/

namespace JetAdapter

open Cell (Sound Settles Replaces spell isGap)

/-- A kind of swaps: new cells for old ones, between the cells before and behind. -/
abbrev Swap :=
  List Cell → List Cell → List Cell → List Cell → Prop

/-- Whether cells come from old ones, behind the cells `X`, by swaps. -/
inductive Woven (R : Swap) : List Cell → List Cell → List Cell → Prop
  | nil {X : List Cell} : Woven R X [] []
  | keep {X cs os : List Cell} {c : Cell} (rest : Woven R (X ++ [c]) cs os) :
      Woven R X (c :: cs) (c :: os)
  | swap {X D Y N os : List Cell} (swapped : R X D Y N) (rest : Woven R (X ++ D) Y os) :
      Woven R X (D ++ Y) (N ++ os)

namespace Woven

variable {R : Swap} {X cs os as : List Cell} {p : Cell → Bool}

theorem keep_append (h : Woven R (X ++ as) cs os) : Woven R X (as ++ cs) (as ++ os) := by
  induction as generalizing X with
  | nil => rwa [List.append_nil] at h
  | cons c as ih =>
    refine .keep (ih ?_)
    rwa [List.append_assoc]

theorem refl (X cs : List Cell) : Woven R X cs cs := by
  have h : Woven R X (cs ++ []) (cs ++ []) := .keep_append .nil
  rwa [List.append_nil] at h

theorem mono {R' : Swap} (hR : ∀ {X D Y N : List Cell}, R X D Y N → R' X D Y N) (h : Woven R X cs os) :
    Woven R' X cs os := by
  induction h with
  | nil => exact .nil
  | keep rest ih => exact .keep ih
  | swap swapped rest ih => exact .swap (hR swapped) ih

/-- Swaps that keep the cells with a property up to their order. -/
theorem perm_filter
    (hR : ∀ {X D Y N : List Cell}, R X D Y N → Sound (X ++ (D ++ Y)) →
      (∀ c ∈ X ++ (D ++ Y), c.isFault = false) → (N.filter p).Perm (D.filter p))
    (h : Woven R X cs os) (hs : Sound (X ++ cs)) (hf : ∀ c ∈ X ++ cs, c.isFault = false) :
    (os.filter p).Perm (cs.filter p) := by
  induction h with
  | nil => exact .refl _
  | @keep X cs os c rest ih =>
    rw [List.append_cons] at hs hf
    rw [List.filter_cons, List.filter_cons]
    split
    · exact (ih hs hf).cons c
    · exact ih hs hf
  | swap swapped rest ih =>
    rw [List.append_assoc] at ih
    rw [List.filter_append, List.filter_append]
    exact (hR swapped hs hf).append (ih hs hf)

/-- A woven cell is an old one or comes in with a swap, which the cells around it belong to. -/
theorem exists_of_append {c : Cell} {pre post : List Cell} (h : Woven R X cs os)
    (hc : os = pre ++ c :: post) : c ∈ cs ∨ ∃ X' D Y ms ns front back,
      R X' D Y (ms ++ c :: ns) ∧ X' ++ (D ++ Y) = X ++ cs ∧ pre = front ++ ms ∧ post = ns ++ back := by
  induction h generalizing pre with
  | nil => exact absurd hc (by simp)
  | @keep X cs os d rest ih =>
    cases pre with
    | nil => exact .inl (by rw [(List.cons.inj hc).1]; exact List.mem_cons_self)
    | cons d' pre =>
      obtain ⟨rfl, hos⟩ := List.cons.inj hc
      rcases ih hos with hc | ⟨X', D, Y, ms, ns, front, back, hR, hall, rfl, rfl⟩
      · exact .inl (List.mem_cons_of_mem _ hc)
      · exact .inr ⟨X', D, Y, ms, ns, d :: front, back, hR, by rw [hall]; simp, rfl, rfl⟩
  | @swap X D Y N os swapped rest ih =>
    rcases List.append_eq_append_iff.1 hc with ⟨us, rfl, hos⟩ | ⟨us, rfl, hpost⟩
    · rcases ih hos with hc | ⟨X', D', Y', ms, ns, front, back, hR, hall, rfl, rfl⟩
      · exact .inl (List.mem_append_right _ hc)
      · exact .inr ⟨X', D', Y', ms, ns, N ++ front, back, hR, by rw [hall]; simp, by simp, rfl⟩
    · cases us with
      | nil =>
        have hos : os = [] ++ c :: post := hpost.symm
        rcases ih hos with hc | ⟨X', D', Y', ms, ns, front, back, hR, hall, hnil, rfl⟩
        · exact .inl (List.mem_append_right _ hc)
        · obtain ⟨rfl, rfl⟩ := List.append_eq_nil_iff.1 hnil.symm
          exact .inr ⟨X', D', Y', [], ns, pre, back, hR, by rw [hall]; simp, by simp, rfl⟩
      | cons u us =>
        obtain ⟨rfl, rfl⟩ := List.cons.inj hpost
        exact .inr ⟨X, D, Y, pre, us, [], os, swapped, rfl, rfl, rfl⟩

/-- A woven cell is an old one or comes in with a swap. -/
theorem exists_of_mem {c : Cell} (h : Woven R X cs os) (hc : c ∈ os) :
    c ∈ cs ∨ ∃ X' D Y N, R X' D Y N ∧ X' ++ (D ++ Y) = X ++ cs ∧ c ∈ N := by
  obtain ⟨pre, post, hos⟩ := List.append_of_mem hc
  rcases h.exists_of_append hos with hc | ⟨X', D, Y, ms, ns, -, -, hR, hall, -, -⟩
  · exact .inl hc
  · exact .inr ⟨X', D, Y, _, hR, hall, by simp⟩

/-- Whether the cells that a kind of swaps brings in are read as they stand, but for cells without a
property. -/
structure Harmless (p : Cell → Bool) (R : Swap) : Prop where
  settles : ∀ {X D Y N os ss : List Cell}, R X D Y N → Sound (X ++ (D ++ Y)) →
    (∀ c ∈ X ++ (D ++ Y), c.isFault = false) → Settles p os ss → Replaces Y ss →
      ∃ ss', Settles p (N ++ os) ss' ∧ Replaces (D ++ Y) ss'
  ends : ∀ {X D Y N : List Cell}, R X D Y N → D ++ Y = [] → X.getLast?.any isGap = false

/-- How woven cells are read. -/
theorem settles (hR : Harmless p R) (h : Woven R X cs os) (hs : Sound (X ++ cs))
    (hf : ∀ c ∈ X ++ cs, c.isFault = false) :
    (∃ ss, Settles p os ss ∧ Replaces cs ss) ∧ (X.getLast?.any isGap = true → cs = [] → os = []) := by
  induction h with
  | nil => exact ⟨⟨[], .nil, .refl [], fun hg => nomatch hg⟩, fun _ _ => rfl⟩
  | @keep X cs os c rest ih =>
    have hall : X ++ [c] ++ cs = X ++ c :: cs := List.append_cons X c cs ▸ rfl
    rw [hall] at ih
    obtain ⟨⟨ss, h', hr⟩, hend⟩ := ih hs hf
    refine ⟨?_, fun _ hn => nomatch hn⟩
    refine h'.keep_one hs.of_append (hf c (by simp)) (fun hg => hend ?_) hr
    simpa using hg
  | @swap X D Y N os swapped rest ih =>
    rw [List.append_assoc] at ih
    obtain ⟨⟨ss, h', hr⟩, -⟩ := ih hs hf
    refine ⟨hR.settles swapped hs hf h' hr, fun hg hn => ?_⟩
    rw [hR.ends swapped hn] at hg
    cases hg

end Woven

namespace Edit

variable {R : Swap} {cs : List Cell} {es : List Edit} {out : SqlText}

/-- Whether an edit of a text with these cells swaps whole cells.  Some cells `K` before those that the edit
replaces may count as swapped too, and stay; they have a property that no last cell of a swap has. -/
def IsSwap (R : Swap) (stays : Cell → Bool) (cs : List Cell) (e : Edit) : Prop :=
  ∃ X K D Y N, R X (K ++ D) Y (K ++ N) ∧ cs = X ++ (K ++ (D ++ Y)) ∧
    e.span.start = Text.byteSize (spell (X ++ K)) ∧
    e.span.stop = Text.byteSize (spell (X ++ (K ++ D))) ∧ e.text = spell N ∧
    (∀ c ∈ K, stays c = true) ∧ (X ++ (K ++ D)).getLast?.any stays = false

/-- An edit that swaps what it replaces and nothing else. -/
theorem IsSwap.of_eq {X D Y N : List Cell} {e : Edit} (hR : R X D Y N) (hcs : cs = X ++ (D ++ Y))
    (hstart : e.span.start = Text.byteSize (spell X))
    (hstop : e.span.stop = Text.byteSize (spell (X ++ D))) (htext : e.text = spell N) :
    e.IsSwap R (fun _ => false) cs := by
  refine ⟨X, [], D, Y, N, hR, hcs, by rwa [List.append_nil], hstop, htext, ?_, ?_⟩
  · intro c hc
    cases hc
  · cases (X ++ ([] ++ D)).getLast? <;> rfl

/-- Of two ways to cut sound cells in two, the one with the smaller front cuts first. -/
theorem exists_eq_append {X₀ cs₀ X Y : List Cell} (hs : Sound (X₀ ++ cs₀))
    (heq : X₀ ++ cs₀ = X ++ Y) (hle : Text.byteSize (spell X₀) ≤ Text.byteSize (spell X)) :
    ∃ A, X = X₀ ++ A ∧ cs₀ = A ++ Y := by
  rcases List.append_eq_append_iff.1 heq with ⟨A, hX, hcs⟩ | ⟨A, hX, hY⟩
  · exact ⟨A, hX, hcs⟩
  · -- The smaller front cannot be the longer one, since no cell is empty.
    rw [hX, Cell.spell_append, Text.byteSize_append] at hle
    have hA : A = [] := by
      rw [hX, List.append_assoc] at hs
      cases A with
      | nil => rfl
      | cons c A =>
        have hne := (Cell.sound_cons_iff.1 hs.of_append).1.text_ne_nil
        obtain ⟨d, w, hd⟩ := List.exists_cons_of_ne_nil hne
        have := d.utf8Size_pos
        rw [Cell.spell_cons, hd, List.cons_append, Text.byteSize_cons] at hle
        omega
    subst hA
    exact ⟨[], by rw [hX, List.append_nil, List.append_nil], hY.symm⟩

theorem woven_from {stays : Cell → Bool} {X₀ cs₀ : List Cell} (hs : Sound (X₀ ++ cs₀))
    (hX₀ : X₀.getLast?.any stays = false) (hes : ∀ e ∈ es, e.IsSwap R stays (X₀ ++ cs₀))
    (happ : applyFrom (Text.byteSize (spell X₀)) (spell cs₀) es = .ok out) :
    ∃ os, Woven R X₀ cs₀ os ∧ out = spell os := by
  induction es generalizing X₀ cs₀ out with
  | nil =>
    obtain rfl : spell cs₀ = out := by simpa [applyFrom] using happ
    exact ⟨cs₀, .refl _ _, rfl⟩
  | cons e es ih =>
    obtain ⟨X, K, D, Y, N, hR, heq, hstart, hstop, htext, hK, hlast⟩ := hes e List.mem_cons_self
    rw [applyFrom] at happ
    split at happ
    · cases happ
    next hle =>
    split at happ
    · cases happ
    next hle' =>
    obtain ⟨A, rfl, rfl⟩ : ∃ A, X = X₀ ++ A ∧ cs₀ = A ++ (K ++ (D ++ Y)) := by
      obtain ⟨B, hB, hcs₀⟩ := exists_eq_append (X := X ++ K) (Y := D ++ Y) hs
        (by rw [heq, List.append_assoc]) (by omega)
      rcases List.append_eq_append_iff.1 hB with ⟨C, hC, hK'⟩ | ⟨A, hA, hB'⟩
      · -- The last edit cannot have ended among the cells that stay.
        rcases List.eq_nil_or_concat C with rfl | ⟨C, c, rfl⟩
        · exact ⟨[], by simpa using hC.symm, by simpa [hK'] using hcs₀⟩
        · have hc := hK c (by simp [hK'])
          rw [hC] at hX₀
          simp [hc] at hX₀
      · exact ⟨A, hA, by rw [hcs₀, hB', List.append_assoc]⟩
    rw [hstart, hstop] at happ
    simp only [Cell.spell_append, Text.byteSize_append] at happ
    rw [Nat.add_assoc, Nat.add_sub_cancel_left, ← List.append_assoc, ← Text.byteSize_append,
      Text.cutAt_append] at happ
    simp only at happ
    rw [Text.byteSize_append, ← Nat.add_assoc, ← Nat.add_assoc, Nat.add_sub_cancel_left,
      Text.cutAt_append] at happ
    simp only at happ
    cases hrest : applyFrom (Text.byteSize (spell (X₀ ++ (A ++ (K ++ D))))) (spell Y) es with
    | error err =>
      simp only [Cell.spell_append, Text.byteSize_append, Nat.add_assoc] at hrest happ
      rw [hrest] at happ
      cases happ
    | ok rest =>
      have hassoc : X₀ ++ (A ++ (K ++ D)) ++ Y = X₀ ++ (A ++ (K ++ (D ++ Y))) := by simp
      rw [List.append_assoc] at hlast
      have hs' : Sound (X₀ ++ (A ++ (K ++ D)) ++ Y) := by rwa [hassoc]
      obtain ⟨os, hw, rfl⟩ := ih hs' hlast
        (fun e' he' => by rw [hassoc]; exact hes e' (List.mem_cons_of_mem _ he')) hrest
      simp only [Cell.spell_append, Text.byteSize_append, Nat.add_assoc] at hrest happ
      rw [hrest] at happ
      have hswap : Woven R (X₀ ++ A) ((K ++ D) ++ Y) ((K ++ N) ++ os) := by
        refine .swap hR ?_
        rwa [List.append_assoc]
      refine ⟨A ++ ((K ++ N) ++ os), ?_, ?_⟩
      · rw [← List.append_assoc K]
        exact .keep_append hswap
      · have hout := Except.ok.inj happ
        rw [← hout, htext]
        simp

/-- The text that edits make of a text is spelled by its cells with new ones woven in. -/
theorem woven {stays : Cell → Bool} (hs : Sound cs) (hes : ∀ e ∈ es, e.IsSwap R stays cs)
    (happ : applyAll es (spell cs) = .ok out) : ∃ os, Woven R [] cs os ∧ out = spell os := by
  have hsorted : ∀ e ∈ sorted es, e.IsSwap R stays ([] ++ cs) :=
    fun e he => hes e ((sorted_perm es).mem_iff.1 he)
  exact woven_from hs rfl hsorted happ

/-- A single edit, whatever stands before and behind it. -/
theorem eq_of_applyAll_one {X D Y N : List Cell} {e : Edit}
    (hstart : e.span.start = Text.byteSize (spell X))
    (hstop : e.span.stop = Text.byteSize (spell (X ++ D))) (htext : e.text = spell N) :
    applyAll [e] (spell (X ++ (D ++ Y))) = .ok (spell (X ++ (N ++ Y))) := by
  have hle : Text.byteSize (spell X) ≤ Text.byteSize (spell (X ++ D)) := by
    rw [Cell.spell_append, Text.byteSize_append]
    omega
  show applyFrom 0 _ [e] = _
  rw [applyFrom, if_neg (by omega), if_neg (by omega), hstart, hstop, Nat.sub_zero]
  simp only [Cell.spell_append, Text.byteSize_append, Text.cutAt_append, Nat.add_sub_cancel_left,
    applyFrom, htext, Except.map]
  rw [List.append_assoc]

end Edit

/-! ### Texts made of texts -/

/-- Whether a text is spelled by the cells of another one with one swap made. -/
def Swap.Once (R : Swap) (text out : SqlText) : Prop :=
  ∃ X D Y N, R X D Y N ∧ Cell.ofText text = X ++ (D ++ Y) ∧ out = spell (X ++ (N ++ Y))

/-- Whether a text is spelled by the cells of another one with new ones woven in. -/
def Swap.Makes (R : Swap) (text out : SqlText) : Prop :=
  ∃ os, Woven R [] (Cell.ofText text) os ∧ out = spell os

namespace Swap.Makes

variable {R : Swap} {p : Cell → Bool} {text out : SqlText}

/-- How the text is read that harmless swaps make. -/
theorem settles (h : R.Makes text out) (hR : Woven.Harmless p R)
    (hf : ∀ c ∈ Cell.ofText text, c.isFault = false) :
    ∃ os, Woven R [] (Cell.ofText text) os ∧ Settles p os (Cell.ofText out) := by
  obtain ⟨os, hw, rfl⟩ := h
  obtain ⟨⟨ss, hset, -⟩, -⟩ := hw.settles hR (Cell.sound_ofText text) hf
  refine ⟨os, hw, ?_⟩
  rwa [← hset.spelled, hset.sound.ofText_spell]

/-- Harmless swaps that bring in no faults leave none. -/
theorem isFault (h : R.Makes text out) (hR : Woven.Harmless Cell.isFault R)
    (hN : ∀ {X D Y N : List Cell}, R X D Y N → (∀ c ∈ X ++ (D ++ Y), c.isFault = false) →
      ∀ c ∈ N, c.isFault = false)
    (hf : ∀ c ∈ Cell.ofText text, c.isFault = false) : ∀ c ∈ Cell.ofText out, c.isFault = false := by
  obtain ⟨os, hw, hset⟩ := h.settles hR hf
  have hos : os.filter Cell.isFault = [] := by
    refine List.filter_eq_nil_iff.2 fun c hc => ?_
    rw [Bool.not_eq_true]
    rcases hw.exists_of_mem hc with hc | ⟨X, D, Y, N, hRN, hall, hc⟩
    · exact hf c hc
    · exact hN hRN (by rw [hall]; exact hf) c hc
  have hss := hset.filter (fun _ => rfl) fun c _ hc => hc
  rw [hos] at hss
  intro c hc
  rw [Bool.eq_false_iff]
  exact List.filter_eq_nil_iff.1 hss c hc

/-- Harmless swaps that keep the cells with a property up to their order, if faults have the property or none
are left. -/
theorem perm_filter (h : R.Makes text out) (hp : ∀ g, p (.gap g) = false)
    (hR : Woven.Harmless p R)
    (hN : ∀ {X D Y N : List Cell}, R X D Y N → Sound (X ++ (D ++ Y)) →
      (∀ c ∈ X ++ (D ++ Y), c.isFault = false) → (N.filter p).Perm (D.filter p))
    (hf : ∀ c ∈ Cell.ofText text, c.isFault = false)
    (hout : ∀ c ∈ Cell.ofText out, c.isFault = true → p c = true) :
    ((Cell.ofText out).filter p).Perm ((Cell.ofText text).filter p) := by
  obtain ⟨os, hw, hset⟩ := h.settles hR hf
  rw [hset.filter hp hout]
  exact hw.perm_filter hN (Cell.sound_ofText text) hf

/-- A cell with a property in what harmless swaps make is an old one or comes in with a swap, which the cells
around it belong to. -/
theorem exists_of_append {c : Cell} {pre post : List Cell} (h : R.Makes text out)
    (hp : ∀ g, p (.gap g) = false) (hR : Woven.Harmless p R)
    (hf : ∀ c ∈ Cell.ofText text, c.isFault = false)
    (hout : ∀ c ∈ Cell.ofText out, c.isFault = true → p c = true)
    (hc : (Cell.ofText out).filter p = pre ++ c :: post) :
    c ∈ Cell.ofText text ∨ ∃ X D Y ms ns front back, R X D Y (ms ++ c :: ns) ∧
      X ++ (D ++ Y) = Cell.ofText text ∧ pre = front ++ ms.filter p ∧ post = ns.filter p ++ back := by
  obtain ⟨os, hw, hset⟩ := h.settles hR hf
  rw [hset.filter hp hout, List.filter_eq_append_iff] at hc
  obtain ⟨as, bs, rfl, rfl, hbs⟩ := hc
  obtain ⟨cs, ds, rfl, hcs, -, rfl⟩ := List.filter_eq_cons_iff.1 hbs
  rw [← List.append_assoc] at hw
  rcases hw.exists_of_append rfl with hc | ⟨X, D, Y, ms, ns, front, back, hRN, hall, hpre, rfl⟩
  · exact .inl hc
  · refine .inr ⟨X, D, Y, ms, ns, front.filter p, back.filter p, hRN, hall, ?_, List.filter_append ..⟩
    have hfilter := congrArg (List.filter p) hpre
    rwa [List.filter_append, List.filter_append, List.filter_eq_nil_iff.2 hcs, List.append_nil] at hfilter

end Swap.Makes

namespace Swap.Once

variable {R : Swap} {text out : SqlText}

theorem makes (h : R.Once text out) : R.Makes text out := by
  obtain ⟨X, D, Y, N, hR, hcs, rfl⟩ := h
  refine ⟨X ++ (N ++ Y), ?_, rfl⟩
  rw [hcs]
  refine .keep_append ?_
  rw [List.nil_append]
  exact .swap hR (.refl _ _)

/-- What a single edit makes of a text, if some cells `K` before those that it replaces count as swapped. -/
theorem of_edit {X K D Y N : List Cell} {e : Edit} (hR : R X (K ++ D) Y (K ++ N))
    (hcs : Cell.ofText text = X ++ (K ++ (D ++ Y)))
    (hstart : e.span.start = Text.byteSize (spell (X ++ K)))
    (hstop : e.span.stop = Text.byteSize (spell (X ++ (K ++ D)))) (htext : e.text = spell N)
    (happ : Edit.applyAll [e] text = .ok out) : R.Once text out := by
  have hone := Edit.eq_of_applyAll_one (X := X ++ K) (D := D) (Y := Y) hstart
    (by rw [hstop, List.append_assoc]) htext
  have hspell : spell (X ++ K ++ (D ++ Y)) = text := by
    rw [List.append_assoc, ← hcs, Cell.spell_ofText]
  rw [hspell, happ] at hone
  refine ⟨X, K ++ D, Y, K ++ N, hR, by rw [hcs, List.append_assoc], ?_⟩
  rw [Except.ok.inj hone]
  simp

end Swap.Once

theorem Edit.IsSwap.once {R : Swap} {stays : Cell → Bool} {e : Edit} {text out : SqlText}
    (h : e.IsSwap R stays (Cell.ofText text)) (happ : applyAll [e] text = .ok out) :
    R.Once text out := by
  obtain ⟨X, K, D, Y, N, hR, hcs, hstart, hstop, htext, -⟩ := h
  exact .of_edit hR hcs hstart hstop htext happ

/-- What edits that swap cells make of a text. -/
theorem Edit.makes {R : Swap} {stays : Cell → Bool} {es : List Edit} {text out : SqlText}
    (hes : ∀ e ∈ es, e.IsSwap R stays (Cell.ofText text)) (happ : applyAll es text = .ok out) :
    R.Makes text out := by
  refine woven (Cell.sound_ofText text) hes ?_
  rwa [Cell.spell_ofText]

end JetAdapter

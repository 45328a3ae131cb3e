import Mathlib.Data.List.Induction
import JetAdapter.Proofs.Session

/-!
# What a session does to the entries of a cache

A request writes to the cache only where it adapts a `SELECT` that has no template yet, and then at most one
entry behind all others (`Cache.Grows`).  So entries are never changed, and only `Cache.clear` drops any.
`cache_discipline` says this of every cache that a session can reach, bounded or not, and that without a bound
the texts with an entry are those of the `SELECT`s that were adapted since the entries were last dropped.
-/

namespace JetAdapter

namespace Cache

variable {c : Cache} {key : SqlText} {t : Template} {rs : List (Adapter × Request)}

/-! ### Writing -/

theorem write_of_missing {entries : List (SqlText × Template)} (h : entries.lookup key = none) :
    write key t entries = entries ++ [(key, t)] := by
  induction entries with
  | nil => rfl
  | cons e entries ih =>
    obtain ⟨k, u⟩ := e
    by_cases hk : key = k
    · subst hk
      simp at h
    · have hbeq : (key == k) = false := by simpa using hk
      rw [List.lookup_cons, hbeq] at h
      rw [write, if_neg (Ne.symm hk), ih h, List.cons_append]

/-- Whether there is room for one more entry. -/
def HasRoom (c : Cache) : Prop :=
  ∀ m, c.limit = some m → c.size < m

theorem takes_iff (h : c.get? key = none) : c.takes key = true ↔ c.HasRoom := by
  rw [takes, h, HasRoom]
  cases c.limit <;> simp

theorem store_of_hasRoom (h : c.get? key = none) (hroom : c.HasRoom) :
    c.store key t = { c with entries := c.entries ++ [(key, t)] } := by
  rw [store, if_pos ((takes_iff h).2 hroom), write_of_missing h]

theorem store_of_full (h : c.get? key = none) (hfull : ¬ c.HasRoom) : c.store key t = c := by
  rw [store, if_neg fun ht => hfull ((takes_iff h).1 ht)]

/-- A text has an entry if it is the first part of one. -/
theorem isSome_get?_iff : (c.get? key).isSome = true ↔ ∃ t, (key, t) ∈ c.entries := by
  rw [get?]
  induction c.entries with
  | nil => simp
  | cons e entries ih =>
    obtain ⟨k, u⟩ := e
    by_cases hk : key = k
    · subst hk
      simp
    · have hbeq : (key == k) = false := by simpa using hk
      rw [List.lookup_cons, hbeq, ih]
      simp [hk]

/-! ### Single requests -/

/-- What a request can make of a cache other than dropping all entries: nothing, or one more entry for a text
that has none, behind all others and where there is room. -/
inductive Grows (c : Cache) : Cache → Prop
  | same : Grows c c
  | entry {key : SqlText} {t : Template} (missing : c.get? key = none) (room : c.HasRoom) :
      Grows c { c with entries := c.entries ++ [(key, t)] }

theorem grows_adapt (c : Cache) (a : Adapter) (s : Statement) : c.Grows (a.adapt s c).2 := by
  have hstep := adaptation a s c
  generalize a.adapt s c = r at hstep
  cases hstep with
  | hit t found => exact .same
  | untouched missing other => exact .same
  | refused missing select e failed => exact .same
  | adapted missing select out done =>
    by_cases hroom : c.HasRoom
    · rw [show (Except.ok (Adapter.asAdapted out), c.store (Tracker.linearize s).2
        (Template.ofStatement out)).2 = _ from store_of_hasRoom missing hroom]
      exact .entry missing hroom
    · rw [show (Except.ok (Adapter.asAdapted out), c.store (Tracker.linearize s).2
        (Template.ofStatement out)).2 = c from store_of_full missing hroom]
      exact .same

variable {c' : Cache}

theorem Grows.limit_eq (h : c.Grows c') : c'.limit = c.limit := by
  cases h with
  | same => rfl
  | entry missing room => rfl

theorem Grows.size_le (h : c.Grows c') (hc : ∀ m, c.limit = some m → c.size ≤ m) :
    ∀ m, c'.limit = some m → c'.size ≤ m := by
  cases h with
  | same => exact hc
  | entry missing room =>
    intro m hm
    have := room m hm
    simp only [size, List.length_append, List.length_singleton] at this ⊢
    omega

/-- Old entries stay first. -/
theorem Grows.entries_isPrefix (h : c.Grows c') : c.entries <+: c'.entries := by
  cases h with
  | same => exact List.prefix_rfl
  | entry missing room => exact List.prefix_append _ _

theorem Grows.nodup (h : c.Grows c') (hc : (c.entries.map Prod.fst).Nodup) :
    (c'.entries.map Prod.fst).Nodup := by
  cases h with
  | same => exact hc
  | @entry key t missing room =>
    rw [List.map_append, List.nodup_append]
    refine ⟨hc, by simp, ?_⟩
    rintro k hk k' hk' rfl
    obtain ⟨⟨k, u⟩, hu, rfl⟩ := List.mem_map.1 hk
    obtain rfl : k = key := by simpa using hk'
    have := isSome_get?_iff.2 ⟨u, hu⟩
    rw [missing] at this
    cases this

/-! ### Sessions -/

theorem serveAll_append (c : Cache) (rs rs' : List (Adapter × Request)) :
    c.serveAll (rs ++ rs') = (c.serveAll rs).serveAll rs' := by
  induction rs generalizing c with
  | nil => rfl
  | cons ar rs ih => exact ih _

/-- What every request keeps, a session keeps. -/
theorem serveAll_induction {P : Cache → Prop} (hadapt : ∀ c c' : Cache, c.Grows c' → P c → P c')
    (hclear : ∀ c : Cache, P c → P c.clear) (hc : P c) : P (c.serveAll rs) := by
  induction rs generalizing c with
  | nil => exact hc
  | cons ar rs ih =>
    obtain ⟨a, r⟩ := ar
    refine ih ?_
    cases r with
    | adapt s => exact hadapt _ _ (c.grows_adapt a s) hc
    | clear => exact hclear c hc

theorem limit_serveAll : (c.serveAll rs).limit = c.limit :=
  serveAll_induction (P := fun d => d.limit = c.limit)
    (fun _ _ hg h => hg.limit_eq.trans h) (fun _ h => h) rfl

theorem size_serveAll_le (hc : ∀ m, c.limit = some m → c.size ≤ m) :
    ∀ m, (c.serveAll rs).limit = some m → (c.serveAll rs).size ≤ m :=
  serveAll_induction (P := fun d => ∀ m, d.limit = some m → d.size ≤ m)
    (fun _ _ hg h => hg.size_le h) (fun _ _ _ _ => Nat.zero_le _) hc

theorem nodup_serveAll (hc : (c.entries.map Prod.fst).Nodup) :
    ((c.serveAll rs).entries.map Prod.fst).Nodup :=
  serveAll_induction (P := fun d => (d.entries.map Prod.fst).Nodup)
    (fun _ _ hg h => hg.nodup h) (fun _ _ => List.nodup_nil) hc

end Cache

/-! ### Texts with an entry -/

/-- Whether a `SELECT` with this text was adapted in a session, and the entries were not dropped since. -/
def Cache.Served (c : Cache) (history : List (Adapter × Request)) (key : SqlText) : Prop :=
  ∃ before a s after out, history = before ++ (a, Request.adapt s) :: after ∧
    (∀ b, (b, Request.clear) ∉ after) ∧ s.isSelect = true ∧ (Tracker.linearize s).2 = key ∧
    (a.adapt s (c.serveAll before)).1 = .ok out

variable {c : Cache} {key : SqlText} {history : List (Adapter × Request)} {a : Adapter} {s : Statement}

theorem Cache.served_concat_clear : ¬ c.Served (history ++ [(a, .clear)]) key := by
  rintro ⟨before, b, s, after, out, hall, hafter, -⟩
  rcases List.eq_nil_or_concat after with rfl | ⟨after, r, rfl⟩
  · obtain ⟨-, hlast⟩ := List.append_inj' hall rfl
    cases hlast
  · rw [List.concat_eq_append, ← List.cons_append, ← List.append_assoc] at hall
    obtain ⟨-, hlast⟩ := List.append_inj' hall rfl
    obtain rfl : (a, Request.clear) = r := by simpa using hlast
    exact hafter a (by simp)

theorem Cache.served_concat_adapt : c.Served (history ++ [(a, .adapt s)]) key ↔
    c.Served history key ∨ s.isSelect = true ∧ (Tracker.linearize s).2 = key ∧
      ∃ out, (a.adapt s (c.serveAll history)).1 = .ok out := by
  constructor
  · rintro ⟨before, b, s', after, out, hall, hafter, hselect, hkey, hout⟩
    rcases List.eq_nil_or_concat after with rfl | ⟨after, r, rfl⟩
    · obtain ⟨rfl, hlast⟩ := List.append_inj' hall rfl
      cases hlast
      exact .inr ⟨hselect, hkey, out, hout⟩
    · rw [List.concat_eq_append, ← List.cons_append, ← List.append_assoc] at hall
      obtain ⟨rfl, -⟩ := List.append_inj' hall rfl
      refine .inl ⟨before, b, s', after, out, rfl, fun b' hb => hafter b' ?_, hselect, hkey, hout⟩
      rw [List.concat_eq_append]
      exact List.mem_append_left _ hb
  · rintro (⟨before, b, s', after, out, rfl, hafter, hselect, hkey, hout⟩ | ⟨hselect, hkey, out, hout⟩)
    · refine ⟨before, b, s', after ++ [(a, .adapt s)], out, by simp, fun b' hb => ?_, hselect, hkey, hout⟩
      rcases List.mem_append.1 hb with hb | hb
      · exact hafter b' hb
      · simp at hb
    · exact ⟨history, a, s, [], out, rfl, by simp, hselect, hkey, hout⟩

/-- Without a bound a request gives an entry to the text of a `SELECT` that it adapts, and to no other. -/
theorem Adapter.isSome_get?_adapt (hlimit : c.limit = none) :
    ((a.adapt s c).2.get? key).isSome = true ↔ (c.get? key).isSome = true ∨
      s.isSelect = true ∧ (Tracker.linearize s).2 = key ∧ ∃ out, (a.adapt s c).1 = .ok out := by
  have hroom : c.HasRoom := by
    intro m hm
    rw [hlimit] at hm
    cases hm
  have hstep := adaptation a s c
  generalize a.adapt s c = r at hstep
  cases hstep with
  | hit t found =>
    refine ⟨.inl, ?_⟩
    rintro (h | ⟨-, rfl, -⟩)
    · exact h
    · rw [found]
      rfl
  | untouched missing other =>
    refine ⟨.inl, ?_⟩
    rintro (h | ⟨hselect, -⟩)
    · exact h
    · rw [other] at hselect
      cases hselect
  | refused missing select e failed =>
    refine ⟨.inl, ?_⟩
    rintro (h | ⟨-, -, out, hout⟩)
    · exact h
    · cases hout
  | adapted missing select out done =>
    rw [Cache.store_of_hasRoom missing hroom, Cache.isSome_get?_iff, Cache.isSome_get?_iff]
    simp only [List.mem_append, List.mem_singleton, Prod.mk.injEq, exists_or, select, true_and,
      Except.ok.injEq, exists_eq', and_true]
    rw [exists_and_left]
    simp [eq_comm]

/-- Without a bound the texts with an entry are those that were served. -/
theorem Cache.isSome_get?_serveAll :
    (((empty none).serveAll history).get? key).isSome = true ↔ (empty none).Served history key := by
  induction history using List.reverseRecOn with
  | nil =>
    constructor
    · intro h
      cases h
    · rintro ⟨before, b, s, after, out, hall, -⟩
      simp at hall
  | append_singleton history ar ih =>
    obtain ⟨a, r⟩ := ar
    rw [serveAll_append]
    cases r with
    | clear =>
      refine ⟨fun h => ?_, fun h => absurd h served_concat_clear⟩
      rw [show (((empty none).serveAll history).serveAll [(a, .clear)]).get? key = none from rfl] at h
      cases h
    | adapt s =>
      rw [served_concat_adapt, ← ih]
      exact Adapter.isSome_get?_adapt limit_serveAll

/-- A request that fails, is about no `SELECT` or finds a template leaves the cache as it is. -/
theorem Adapter.adapt_snd_eq (h : (∃ e, (a.adapt s c).1 = .error e) ∨ s.isSelect = false ∨
    (c.get? (Tracker.linearize s).2).isSome = true) : (a.adapt s c).2 = c := by
  have hstep := adaptation a s c
  generalize a.adapt s c = r at hstep h
  cases hstep with
  | hit t found => rfl
  | untouched missing other => rfl
  | refused missing select e failed => rfl
  | adapted missing select out done =>
    rcases h with ⟨e, he⟩ | h | h
    · cases he
    · rw [select] at h
      cases h
    · rw [missing] at h
      cases h

/-- A `SELECT` that is adapted without a template gets an entry if there is room. -/
theorem Adapter.adapt_snd_of_missing {out : Adapted} (h : (a.adapt s c).1 = .ok out)
    (hselect : s.isSelect = true) (hmissing : c.get? (Tracker.linearize s).2 = none) :
    (c.HasRoom → (a.adapt s c).2.entries
      = c.entries ++ [((Tracker.linearize s).2, Template.ofStatement out.statement)]) ∧
    (¬ c.HasRoom → (a.adapt s c).2 = c) := by
  have hstep := adaptation a s c
  generalize a.adapt s c = r at hstep h
  cases hstep with
  | hit t found =>
    rw [hmissing] at found
    cases found
  | untouched missing other =>
    rw [hselect] at other
    cases other
  | refused missing select e failed => cases h
  | adapted missing select adapted done =>
    cases h
    refine ⟨fun hroom => ?_, fun hfull => Cache.store_of_full missing hfull⟩
    rw [show (Except.ok (Adapter.asAdapted adapted), c.store (Tracker.linearize s).2
      (Template.ofStatement adapted)).2 = _ from Cache.store_of_hasRoom missing hroom]
    rfl

/-- **The discipline of a cache.**  Whatever has been asked of the adapters that share a cache, it holds no
more entries than its bound allows, and one for a text at most.  A request that fails, that is about no
`SELECT` or that finds a template leaves it as it is; a `SELECT` that is adapted without a template gets an
entry behind all others, if the bound is not reached; no entry is changed or goes but by dropping all.
Without a bound, the texts with an entry are those of the `SELECT`s that were adapted since. -/
theorem cache_discipline (limit : Option Nat) (history : List (Adapter × Request)) (c : Cache)
    (hc : c = (Cache.empty limit).serveAll history) :
    (∀ m, limit = some m → c.size ≤ m) ∧ (c.entries.map Prod.fst).Nodup ∧
    (∀ a s, ((∃ e, (Adapter.adapt a s c).1 = .error e) ∨ s.isSelect = false ∨
      (c.get? (Tracker.linearize s).2).isSome = true) → (a.adapt s c).2 = c) ∧
    (∀ a s out, (Adapter.adapt a s c).1 = .ok out → s.isSelect = true →
      c.get? (Tracker.linearize s).2 = none →
        (c.HasRoom → (a.adapt s c).2.entries
          = c.entries ++ [((Tracker.linearize s).2, Template.ofStatement out.statement)]) ∧
        (¬ c.HasRoom → (a.adapt s c).2 = c)) ∧
    (∀ a s, c.entries <+: (Adapter.adapt a s c).2.entries) ∧
    (limit = none → ∀ key, (c.get? key).isSome = true ↔ (Cache.empty limit).Served history key) := by
  subst hc
  refine ⟨fun m hm => ?_, ?_, fun a s h => Adapter.adapt_snd_eq h,
    fun a s out h hselect hmissing => Adapter.adapt_snd_of_missing h hselect hmissing,
    fun a s => (Cache.grows_adapt _ a s).entries_isPrefix, ?_⟩
  · exact Cache.size_serveAll_le (fun _ _ => Nat.zero_le _) m (Cache.limit_serveAll.trans hm)
  · exact Cache.nodup_serveAll List.nodup_nil
  · rintro rfl key
    exact Cache.isSome_get?_serveAll

/-- A cache for one entry, and a second `SELECT` that finds it full. -/
theorem cache_discipline_of_full :
    ((Cache.empty (some 1)).serveAll
      [(Adapter.ofOptions .default, .adapt ⟨"select 1".toList, []⟩)]).size ≤ 1 ∧
    ((Adapter.ofOptions .default).adapt ⟨"select lower(a)".toList, []⟩
        ((Cache.empty (some 1)).serveAll
          [(Adapter.ofOptions .default, .adapt ⟨"select 1".toList, []⟩)])).2
      = (Cache.empty (some 1)).serveAll
          [(Adapter.ofOptions .default, .adapt ⟨"select 1".toList, []⟩)] := by
  have h := cache_discipline (some 1)
    [(Adapter.ofOptions .default, .adapt ⟨"select 1".toList, []⟩)] _ rfl
  refine ⟨h.1 1 rfl, ?_⟩
  refine (h.2.2.2.1 (Adapter.ofOptions .default) ⟨"select lower(a)".toList, []⟩
    ⟨⟨"select lcase(a)".toList, []⟩, []⟩ (by decide +kernel) (by decide +kernel) (by decide +kernel)).2 ?_
  intro hroom
  exact absurd (hroom 1 (by decide +kernel)) (by decide +kernel)

end JetAdapter

import Mathlib.Data.List.Dedup
import ProjectDb.Flush

namespace ProjectDb.Touch
open Text ProjectDb.Path
set_option autoImplicit true

theorem pairwise_dedupFrom {same : τ → τ → Bool} {key : τ → κ} {le : κ → κ → Prop}
    (hsame : ∀ a b, same a b = true ↔ key a = key b)
    (hanti : ∀ x y, le x y → le y x → x = y) {kept : τ} {l : List τ}
    (h : (kept :: l).Pairwise fun a b => le (key a) (key b)) :
    (kept :: dedupFrom same kept l).Pairwise fun a b => key a ≠ key b := by
  induction l generalizing kept with
  | nil => exact List.pairwise_singleton _ _
  | cons b l ih =>
    obtain ⟨hkept, hrest⟩ := List.pairwise_cons.1 h
    obtain ⟨hb, hl⟩ := List.pairwise_cons.1 hrest
    simp only [dedupFrom]
    cases hk : same b kept with
    | true =>
      apply ih
      exact List.pairwise_cons.2 ⟨fun a ha => hkept a (List.mem_cons_of_mem _ ha), hl⟩
    | false =>
      apply List.pairwise_cons.2 ⟨?_, ih hrest⟩
      intro a ha he
      have hbk : key b = key kept := by
        rcases List.mem_cons.1 ha with rfl | ha
        · exact he.symm
        · apply hanti _ _ ?_ (hkept b List.mem_cons_self)
          rw [he]
          exact hb a (mem_of_mem_dedupFrom ha)
      rw [(hsame b kept).2 hbk] at hk
      cases hk

theorem pairwise_dedupBy {same : τ → τ → Bool} {key : τ → κ} {le : κ → κ → Prop}
    (hsame : ∀ a b, same a b = true ↔ key a = key b)
    (hanti : ∀ x y, le x y → le y x → x = y) {l : List τ}
    (h : l.Pairwise fun a b => le (key a) (key b)) :
    (dedupBy same l).Pairwise fun a b => key a ≠ key b := by
  cases l with
  | nil => exact .nil
  | cons a l => exact pairwise_dedupFrom hsame hanti h

theorem mem_of_mem_dedupBy {same : τ → τ → Bool} {l : List τ} (ha : a ∈ dedupBy same l) :
    a ∈ l := by
  cases l with
  | nil => exact ha
  | cons b l =>
    rcases List.mem_cons.1 ha with rfl | ha
    · exact List.mem_cons_self
    · exact List.mem_cons_of_mem _ (mem_of_mem_dedupFrom ha)

theorem strLe_iff {a b : Str} : strLe a b = true ↔ a ≤ b := decide_eq_true_iff

theorem strLe_antisymm {a b : Str} (hab : strLe a b = true) (hba : strLe b a = true) : a = b :=
  le_antisymm (strLe_iff.1 hab) (strLe_iff.1 hba)

theorem strLe_trans {a b c : Str} (hab : strLe a b = true) (hbc : strLe b c = true) :
    strLe a c = true :=
  strLe_iff.2 (le_trans (strLe_iff.1 hab) (strLe_iff.1 hbc))

theorem strLe_total (a b : Str) : (strLe a b || strLe b a) = true := by
  rw [Bool.or_eq_true, strLe_iff, strLe_iff]
  exact le_total a b

theorem sorted_by_fold (paths : List Str) :
    (paths.mergeSort fun a b => strLe (toAsciiLowercase a) (toAsciiLowercase b)).Pairwise
      fun a b => strLe (toAsciiLowercase a) (toAsciiLowercase b) = true := by
  apply List.pairwise_mergeSort
  · intro a b c hab hbc
    exact strLe_trans hab hbc
  · intro a b
    exact strLe_total _ _

theorem pairwise_deduplicated (paths : List Str) :
    (deduplicated paths).Pairwise fun p q => ¬ FoldsOnto p q :=
  pairwise_dedupBy eqIgnoreAsciiCase_iff (fun _ _ => strLe_antisymm)
    (sorted_by_fold paths)

theorem mem_of_mem_deduplicated (h : p ∈ deduplicated paths) : p ∈ paths :=
  (List.mergeSort_perm _ _).mem_iff.1 (mem_of_mem_dedupBy h)

theorem nodup_deduplicated (paths : List Str) :
    ((deduplicated paths).map toAsciiLowercase).Nodup :=
  List.pairwise_map.2 (pairwise_deduplicated paths)

theorem mem_map_deduplicated {paths : List Str} :
    k ∈ (deduplicated paths).map toAsciiLowercase ↔ k ∈ paths.map toAsciiLowercase := by
  rw [List.mem_map, List.mem_map]
  constructor
  · intro ⟨p, hp, he⟩
    exact ⟨p, mem_of_mem_deduplicated hp, he⟩
  · intro ⟨p, hp, he⟩
    obtain ⟨q, hq, h⟩ := (exists_deduplicated p).2 ⟨p, hp, .refl p⟩
    exact ⟨q, hq, Eq.trans h.symm he⟩

theorem length_deduplicated (paths : List Str) :
    (deduplicated paths).length = (paths.map toAsciiLowercase).dedup.length := by
  have hlength : ((deduplicated paths).map toAsciiLowercase).length = (deduplicated paths).length :=
    List.length_map _
  rw [← hlength]
  apply List.Perm.length_eq
  apply (List.perm_ext_iff_of_nodup (nodup_deduplicated paths) (List.nodup_dedup _)).2
  intro k
  rw [mem_map_deduplicated, List.mem_dedup]

/-- The paths bound are representatives of the paths of a flush under the store's equality. -/
theorem deduplicated_representatives (paths : List Str) :
    (∀ p ∈ deduplicated paths, p ∈ paths) ∧
    ((deduplicated paths).Pairwise fun p q => ¬ FoldsOnto p q) ∧
    (∀ q ∈ paths, ∃! p, p ∈ deduplicated paths ∧ FoldsOnto q p) ∧
    (deduplicated paths).length = (paths.map toAsciiLowercase).dedup.length ∧
    ∀ shuffled recased, paths.Perm shuffled → List.Forall₂ FoldsOnto shuffled recased →
      (deduplicated recased).length = (deduplicated paths).length := by
  refine ⟨fun p hp => mem_of_mem_deduplicated hp, pairwise_deduplicated paths, fun q hq => ?_,
    length_deduplicated paths, fun shuffled recased hperm hcase => ?_⟩
  · obtain ⟨p, hp, h⟩ := (exists_deduplicated q).2 ⟨q, hq, .refl q⟩
    refine ⟨p, ⟨hp, h⟩, fun p' ⟨hp', h'⟩ => ?_⟩
    exact List.inj_on_of_nodup_map (nodup_deduplicated paths) hp' hp (h'.symm.trans h)
  · have hfold : shuffled.map toAsciiLowercase = recased.map toAsciiLowercase :=
      List.forall₂_eq_eq_eq ▸ List.forall₂_map_left_iff.2 (List.forall₂_map_right_iff.2 hcase)
    rw [length_deduplicated, length_deduplicated, ← hfold]
    exact (hperm.map toAsciiLowercase).dedup.length_eq.symm

/-- Rows named by keys are fewer than the keys exactly when a key names none of them, or two keys
name one row. -/
theorem length_lt_iff [Inhabited κ] (names : κ → ρ → Prop) {keys : List κ} {rows : List ρ}
    (hkeys : keys.Nodup) (hrows : rows.Nodup)
    (hone : ∀ k ∈ keys, ∀ r ∈ rows, ∀ r' ∈ rows, names k r → names k r' → r = r')
    (hnamed : ∀ r ∈ rows, ∃ k ∈ keys, names k r) :
    rows.length < keys.length ↔ (∃ k ∈ keys, ∀ r ∈ rows, ¬ names k r) ∨
      ∃ k ∈ keys, ∃ k' ∈ keys, k ≠ k' ∧ ∃ r ∈ rows, names k r ∧ names k' r := by
  choose! key hkey hname using hnamed
  have hinj : ∀ r ∈ rows, ∀ r' ∈ rows, key r = key r' → r = r' := by
    intro r hr r' hr' he
    exact hone _ (hkey r hr) r hr r' hr' (hname r hr) (he ▸ hname r' hr')
  have himage : (rows.map key).Nodup := hrows.map_on hinj
  have hspare : rows.length < keys.length ↔ ∃ k ∈ keys, k ∉ rows.map key := by
    have hlength : (rows.map key).length = rows.length := List.length_map _
    rw [← hlength]
    constructor
    · intro hlt
      by_contra hnone
      have hsub : keys ⊆ rows.map key := by
        intro k hk
        by_contra hk'
        exact hnone ⟨k, hk, hk'⟩
      exact Nat.not_le_of_lt hlt (List.subperm_of_subset hkeys hsub).length_le
    · intro ⟨k, hk, hk'⟩
      have hsub : k :: rows.map key ⊆ keys := by
        apply List.cons_subset.2 ⟨hk, ?_⟩
        intro k' hm
        obtain ⟨r, hr, rfl⟩ := List.mem_map.1 hm
        exact hkey r hr
      exact (List.subperm_of_subset (List.nodup_cons.2 ⟨hk', himage⟩) hsub).length_le
  rw [hspare]
  constructor
  · intro ⟨k, hk, hk'⟩
    by_cases hr : ∃ r ∈ rows, names k r
    · obtain ⟨r, hr, hn⟩ := hr
      refine .inr ⟨k, hk, key r, hkey r hr, ?_, r, hr, hn, hname r hr⟩
      rintro rfl
      exact hk' (List.mem_map_of_mem hr)
    · exact .inl ⟨k, hk, fun r hr' hn => hr ⟨r, hr', hn⟩⟩
  · rintro (⟨k, hk, hn⟩ | ⟨k, hk, k', hk', hne, r, hr, hn, hn'⟩)
    · refine ⟨k, hk, fun hm => ?_⟩
      obtain ⟨r, hr, rfl⟩ := List.mem_map.1 hm
      exact hn r hr (hname r hr)
    · -- of two keys of one row at most one is the key chosen for it
      by_cases he : key r = k
      · refine ⟨k', hk', fun hm => hne ?_⟩
        obtain ⟨r', hr', rfl⟩ := List.mem_map.1 hm
        rw [← he, hone _ hk' r hr r' hr' hn' (hname r' hr')]
      · refine ⟨k, hk, fun hm => he ?_⟩
        obtain ⟨r', hr', rfl⟩ := List.mem_map.1 hm
        rw [hone _ hk r hr r' hr' hn (hname r' hr')]

/-- The path is one of the row, now or formerly. -/
def ResolvesTo (s : Store) (p : Str) (r : ProjectRow) : Prop :=
  FoldsOnto r.path p ∨ ∃ a ∈ s.projectAlias, a.projectId = r.id ∧ FoldsOnto a.aliasPath p

/-- Aliases name rows of the store, by paths that are no row's own. -/
structure Aliased (s : Store) : Prop where
  live : ∀ a ∈ s.projectAlias, ∃ r ∈ s.project, r.id = a.projectId
  apart : ∀ a ∈ s.projectAlias, ∀ r ∈ s.project, ¬ FoldsOnto a.aliasPath r.path

/-- Some path of the flush folds neither onto a live path nor onto an alias. -/
def Unmatched (s : Store) (paths : List Str) : Prop :=
  ∃ p ∈ paths, (∀ r ∈ s.project, ¬ FoldsOnto p r.path) ∧
    ∀ a ∈ s.projectAlias, ¬ FoldsOnto p a.aliasPath

/-- Two paths of the flush, not one to the store, resolve to one row. -/
def Shared (s : Store) (paths : List Str) : Prop :=
  ∃ p ∈ paths, ∃ q ∈ paths, ¬ FoldsOnto p q ∧ ∃ r ∈ s.project, ResolvesTo s p r ∧ ResolvesTo s q r

theorem ResolvesTo.congr (h : FoldsOnto p q) : ResolvesTo s p r ↔ ResolvesTo s q r := by
  have hfold : ∀ x, FoldsOnto x p ↔ FoldsOnto x q := fun x =>
    ⟨fun hx => hx.trans h, fun hx => hx.trans h.symm⟩
  unfold ResolvesTo
  simp only [hfold]

theorem Aliased.unreached (ha : Aliased s) : (∀ r ∈ s.project, ¬ ResolvesTo s p r) ↔
    (∀ r ∈ s.project, ¬ FoldsOnto p r.path) ∧ ∀ a ∈ s.projectAlias, ¬ FoldsOnto p a.aliasPath := by
  constructor
  · intro h
    refine ⟨fun r hr hp => h r hr (.inl hp.symm), fun a hm hp => ?_⟩
    obtain ⟨r, hr, hid⟩ := ha.live a hm
    exact h r hr (.inr ⟨a, hm, hid.symm, hp.symm⟩)
  · intro ⟨hlive, halias⟩ r hr h
    rcases h with h | ⟨a, hm, _, h⟩
    · exact hlive r hr h.symm
    · exact halias a hm h.symm

section
variable [ServerCollation]

theorem Aliased.resolves_one {s : Store} (ha : Aliased s) (hs : s.Schema) (hr : r ∈ s.project)
    (hr' : r' ∈ s.project) (h : ResolvesTo s p r) (h' : ResolvesTo s p r') : r = r' := by
  rcases h with h | ⟨a, hm, hid, h⟩
  · rcases h' with h' | ⟨a', hm', _, h'⟩
    · exact List.inj_on_of_nodup_map hs.path_key hr hr' (h.trans h'.symm)
    · exact absurd (h'.trans h.symm) (ha.apart a' hm' r hr)
  · rcases h' with h' | ⟨a', hm', hid', h'⟩
    · exact absurd (h.trans h'.symm) (ha.apart a hm r' hr')
    · have he := List.inj_on_of_nodup_map hs.alias_key hm hm' (h.trans h'.symm)
      exact List.inj_on_of_nodup_map hs.id_key hr hr' (hid.symm.trans (he ▸ hid'))

theorem matched_lt_iff {s : Store} (hs : s.Schema) (ha : Aliased s) (paths : List Str) :
    matched s (deduplicated paths) < (deduplicated paths).length ↔
      Unmatched s paths ∨ Shared s paths := by
  have hmem : ∀ r, r ∈ s.project.filter (matchesPaths s (deduplicated paths)) ↔
      r ∈ s.project ∧ ∃ p ∈ paths, ResolvesTo s p r := by
    intro r
    rw [List.mem_filter, matchesPaths_deduplicated]
    rfl
  have hbound : ∀ q ∈ paths, ∃ p ∈ deduplicated paths, FoldsOnto q p := fun q hq =>
    (exists_deduplicated q).2 ⟨q, hq, .refl q⟩
  have hcount := length_lt_iff (ResolvesTo s)
    (nodup_deduplicated paths).of_map (hs.id_key.of_map.filter _)
    (fun k _ r hr r' hr' => ha.resolves_one hs ((hmem r).1 hr).1 ((hmem r').1 hr').1)
    (fun r hr => by
      obtain ⟨_, q, hq, h⟩ := (hmem r).1 hr
      obtain ⟨p, hp, hfold⟩ := hbound q hq
      exact ⟨p, hp, (ResolvesTo.congr hfold).1 h⟩)
  rw [matched, hcount]
  apply or_congr
  · constructor
    · intro ⟨p, hp, hnone⟩
      have hp := mem_of_mem_deduplicated hp
      refine ⟨p, hp, ha.unreached.1 fun r hr h => ?_⟩
      exact hnone r ((hmem r).2 ⟨hr, p, hp, h⟩) h
    · intro ⟨q, hq, hnone⟩
      obtain ⟨p, hp, hfold⟩ := hbound q hq
      refine ⟨p, hp, fun r hr h => ?_⟩
      exact ha.unreached.2 hnone r ((hmem r).1 hr).1 ((ResolvesTo.congr hfold).2 h)
  · constructor
    · intro ⟨p, hp, q, hq, hne, r, hr, h, h'⟩
      refine ⟨p, mem_of_mem_deduplicated hp, q, mem_of_mem_deduplicated hq, fun hfold => hne ?_,
        r, ((hmem r).1 hr).1, h, h'⟩
      exact List.inj_on_of_nodup_map (nodup_deduplicated paths) hp hq hfold
    · intro ⟨p, hp, q, hq, hne, r, hr, h, h'⟩
      obtain ⟨p', hp', hfold⟩ := hbound p hp
      obtain ⟨q', hq', hfold'⟩ := hbound q hq
      refine ⟨p', hp', q', hq', fun he => hne ?_, r, (hmem r).2 ⟨hr, p, hp, h⟩,
        (ResolvesTo.congr hfold).1 h, (ResolvesTo.congr hfold').1 h'⟩
      exact hfold.trans (he ▸ hfold'.symm)

theorem serve_warns {s : Store} (hs : s.Schema) {req : TouchProjectsRequest}
    (h : ((touch req).serve env s).1 = .ok (answer, warned)) : warned =
      decide (matched s (deduplicated req.paths) < (deduplicated req.paths).length) := by
  rcases serve_touch_cases req env hs with ⟨_, e, he⟩ | ⟨_, seconds, paths, hc, hserve⟩
  · rw [he] at h
    cases h
  · obtain ⟨_, _, rfl⟩ := checked_ok_iff.1 hc
    rw [hserve] at h
    cases Tick.acked_ok h
    rfl

/-- An accepted flush warns exactly of the paths that resolve to nothing, unless every path
resolves and two of them to one row. -/
theorem warning_exact_iff {s : Store} (hs : s.Schema) (ha : Aliased s)
    {req : TouchProjectsRequest} (hreq : Flushable req) (env : Nat → Tick) :
    (Faultless env → ∃ answer, ((touch req).serve env s).1 = .ok answer) ∧
    ∀ answer warned, ((touch req).serve env s).1 = .ok (answer, warned) →
      ((warned = true ↔ Unmatched s req.paths) ↔
        (Unmatched s req.paths ∨ ∀ p ∈ req.paths, ∀ q ∈ req.paths, ∀ r ∈ s.project,
          ResolvesTo s p r → ResolvesTo s q r → FoldsOnto p q)) := by
  refine ⟨fun hf => serve_answers hf hreq s, fun answer warned h => ?_⟩
  have hwarned : warned = true ↔ Unmatched s req.paths ∨ Shared s req.paths := by
    rw [serve_warns hs h, decide_eq_true_eq, matched_lt_iff hs ha]
  rw [hwarned]
  constructor
  · intro hexact
    by_cases hu : Unmatched s req.paths
    · exact .inl hu
    · refine .inr fun p hp q hq r hr hpr hqr => ?_
      by_contra hne
      exact hu (hexact.1 (.inr ⟨p, hp, q, hq, hne, r, hr, hpr, hqr⟩))
  · rintro (hu | hnone)
    · exact ⟨fun _ => hu, .inl⟩
    · refine ⟨fun h => ?_, .inl⟩
      rcases h with hu | ⟨p, hp, q, hq, hne, r, hr, hpr, hqr⟩
      · exact hu
      · exact absurd (hnone p hp q hq r hr hpr hqr) hne

end

section
open scoped Reference

/-- A flush of the present path of a project and its former one. -/
def flushBoth : TouchProjectsRequest := ⟨some ⟨ada, []⟩, ["acme".toList, "OLD".toList], some ⟨7⟩⟩

theorem flushBoth_flushable : Flushable flushBoth := by
  refine ⟨rfl, ⟨_, rfl, by decide, by decide⟩, by decide, by decide, fun p hp => ?_⟩
  apply (validate_ok_iff "paths" p).1
  revert p
  decide

theorem renamed_aliased : Aliased Read.renamed := ⟨by decide, by decide⟩

/-- Every path of the flush resolves, and it warns all the same. -/
theorem warning_of_resolved : Read.renamed.Schema ∧ Aliased Read.renamed ∧ Flushable flushBoth ∧
    ((touch flushBoth).serve (fun n => .quiet 1 n) Read.renamed).1 = .ok (⟨⟩, true) ∧
    ¬ Unmatched Read.renamed flushBoth.paths := by
  have hfault : Faultless fun n => .quiet 1 n := fun _ => rfl
  have hshared : Shared Read.renamed flushBoth.paths := by
    refine ⟨"acme".toList, by decide, "OLD".toList, by decide, by decide, Read.acmeRoot,
      List.mem_cons_self, .inl (.refl _), ?_⟩
    exact .inr ⟨⟨"old".toList, "1".toList⟩, by decide, by decide, by decide⟩
  refine ⟨renamed_schema, renamed_aliased, flushBoth_flushable, ?_, ?_⟩
  · obtain ⟨⟨answer, warned⟩, h⟩ := serve_answers hfault flushBoth_flushable Read.renamed
    have hcount := (matched_lt_iff renamed_schema renamed_aliased flushBoth.paths).2 (.inr hshared)
    rw [h, serve_warns renamed_schema h, decide_eq_true hcount]
  · rintro ⟨p, hp, hlive, halias⟩
    revert p
    decide

theorem warning_exact_iff_renamed : ∃ warned,
    ((touch (flushOld 7)).serve (fun n => .quiet 1 n) Read.renamed).1 = .ok (⟨⟩, warned) ∧
    (warned = true ↔ Unmatched Read.renamed (flushOld 7).paths) := by
  have hreq : Flushable (flushOld 7) := by
    refine ⟨rfl, ⟨_, rfl, by decide, by decide⟩, by decide, by decide, fun p hp => ?_⟩
    apply (validate_ok_iff "paths" p).1
    revert p
    decide
  obtain ⟨hanswers, hexact⟩ := warning_exact_iff renamed_schema renamed_aliased hreq
    fun n => .quiet 1 n
  obtain ⟨⟨answer, warned⟩, h⟩ := hanswers fun _ => rfl
  refine ⟨warned, h, (hexact answer warned h).2 (.inr fun p hp q hq r _ _ _ => ?_)⟩
  rw [List.mem_singleton.1 hp, List.mem_singleton.1 hq]
  exact .refl _

end

end ProjectDb.Touch

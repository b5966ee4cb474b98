import ProjectDb.Upsert

namespace ProjectDb
open Text ProjectDb.Path Sync
set_option autoImplicit true

/-- A grant on an organisation row. -/
def OrgGrant (s : Store) (g : GrantRow) : Prop :=
  ∃ r ∈ s.project, r.isOrg = true ∧ r.id = g.projectId

theorem mem_orgGrants {s : Store} :
    g ∈ orgGrants s ↔ ∃ h ∈ s.projectGrant, ∃ r ∈ s.project, r.isOrg = true ∧
      r.id = h.projectId ∧ g = ⟨h.projectId, r.path, h.teamId, h.level⟩ := by
  simp only [orgGrants, List.mem_flatMap, List.mem_map, List.mem_filter, Store.mem_orgRows,
    beq_iff_eq]
  constructor
  · rintro ⟨h, hh, r, ⟨⟨hr, ho⟩, hid⟩, rfl⟩
    exact ⟨h, hh, r, hr, ho, hid, rfl⟩
  · rintro ⟨h, hh, r, hr, ho, hid, rfl⟩
    exact ⟨h, hh, r, ⟨⟨hr, ho⟩, hid⟩, rfl⟩

namespace Grants

/-- A grant after the planned level changes. -/
def relevel (updates : List (Str × Str × Int)) (g : GrantRow) : GrantRow :=
  updates.foldl (fun g u =>
    if g.projectId == u.1 && g.teamId == u.2.1 then { g with level := u.2.2 } else g) g

theorem relevel_key (us : List (Str × Str × Int)) (g : GrantRow) :
    (relevel us g).projectId = g.projectId ∧ (relevel us g).teamId = g.teamId := by
  induction us generalizing g with
  | nil => exact ⟨rfl, rfl⟩
  | cons u us ih =>
    unfold relevel at ih ⊢
    rw [List.foldl_cons]
    split
    · exact ih { g with level := u.2.2 }
    · exact ih g

theorem relevel_of_not_mem (h : ∀ u ∈ us, ¬ (g.projectId = u.1 ∧ g.teamId = u.2.1)) :
    relevel us g = g := by
  induction us with
  | nil => rfl
  | cons u us ih =>
    have hu : (g.projectId == u.1 && g.teamId == u.2.1) = false := by
      apply eq_false_of_ne_true
      rw [Bool.and_eq_true, beq_iff_eq, beq_iff_eq]
      exact h u List.mem_cons_self
    unfold relevel at ih ⊢
    rw [List.foldl_cons, hu]
    exact ih fun u' hu' => h u' (List.mem_cons_of_mem _ hu')

theorem relevel_eq (h : ∀ u ∈ us, g.projectId = u.1 → g.teamId = u.2.1 → u.2.2 = l)
    (hex : g.level = l ∨ ∃ u ∈ us, g.projectId = u.1 ∧ g.teamId = u.2.1) :
    relevel us g = { g with level := l } := by
  induction us generalizing g with
  | nil =>
    rcases hex with rfl | ⟨u, hu, _⟩
    · rfl
    · cases hu
  | cons u us ih =>
    have htail : ∀ u' ∈ us, g.projectId = u'.1 → g.teamId = u'.2.1 → u'.2.2 = l :=
      fun u' hu' => h u' (List.mem_cons_of_mem _ hu')
    unfold relevel at ih ⊢
    rw [List.foldl_cons]
    by_cases hu : g.projectId = u.1 ∧ g.teamId = u.2.1
    · have hb : (g.projectId == u.1 && g.teamId == u.2.1) = true := by
        rw [Bool.and_eq_true, beq_iff_eq, beq_iff_eq]
        exact hu
      have hl := h u List.mem_cons_self hu.1 hu.2
      rw [hb, hl]
      exact ih (g := { g with level := l }) htail (.inl rfl)
    · have hb : (g.projectId == u.1 && g.teamId == u.2.1) = false := by
        apply eq_false_of_ne_true
        rwa [Bool.and_eq_true, beq_iff_eq, beq_iff_eq]
      rw [hb]
      apply ih htail
      rcases hex with hl | ⟨u', hu', he⟩
      · exact .inl hl
      · rcases List.mem_cons.1 hu' with rfl | hu'
        · exact absurd he hu
        · exact .inr ⟨u', hu', he⟩

/-- The grant an insertion makes, with the id of its declared row. -/
def grantOf (ids : HashMap Str Str) (i : Str × Str × Int) : GrantRow :=
  ⟨(ids.get i.1).getD [], i.2.1, i.2.2⟩

section
variable [ServerCollation] {env : Nat → Tick}

theorem writeDeletes_ok {w : Store × Nat} (h : (writeDeletes ds).eval env w = (.ok (), w')) :
    w'.1 = { w.1 with
      projectGrant := w.1.projectGrant.filter fun g => !ds.contains (g.projectId, g.teamId) } := by
  induction ds generalizing w with
  | nil =>
    cases h
    simp only [List.contains_nil, Bool.not_false, List.filter_true]
  | cons d ds ih =>
    obtain ⟨_, w₁, hq, h⟩ := Txn.eval_bind_ok h
    obtain ⟨ws, hx, rfl⟩ := Txn.eval_query_ok hq
    cases hx
    rw [ih h]
    simp only [patchAll_singleton, Write.patch, List.filter_filter, Store.mk.injEq, true_and]
    apply List.filter_congr
    intro g _
    rw [List.contains_cons, Bool.not_or, Bool.and_comm]
    rfl

theorem writeUpdates_ok {w : Store × Nat} (h : (writeUpdates us).eval env w = (.ok (), w')) :
    w'.1 = { w.1 with projectGrant := w.1.projectGrant.map (relevel us) } := by
  induction us generalizing w with
  | nil =>
    cases h
    have hid : relevel [] = id := rfl
    rw [hid, List.map_id]
  | cons u us ih =>
    obtain ⟨_, w₁, hq, h⟩ := Txn.eval_bind_ok h
    obtain ⟨ws, hx, rfl⟩ := Txn.eval_query_ok hq
    simp only [Stmt.exec] at hx
    split at hx
    · cases hx
      rw [ih h]
      simp only [patchAll_singleton, Write.patch, List.map_map, Store.mk.injEq, true_and]
      exact List.map_congr_left fun g _ => rfl
    · cases hx

theorem writeInserts_ok {w : Store × Nat} (h : (writeInserts ids is).eval env w = (.ok (), w')) :
    w'.1 = { w.1 with projectGrant := w.1.projectGrant ++ is.map (grantOf ids) } := by
  induction is generalizing w with
  | nil =>
    cases h
    simp only [List.map_nil, List.append_nil]
  | cons i is ih =>
    unfold writeInserts at h
    cases hi : ids.get i.1 with
    | none =>
      rw [hi] at h
      cases h
    | some projectId =>
      rw [hi] at h
      obtain ⟨_, w₁, hq, h⟩ := Txn.eval_bind_ok h
      obtain ⟨ws, hx, rfl⟩ := Txn.eval_query_ok hq
      obtain ⟨_, _, _, rfl⟩ := exec_insertGrant_ok hx
      rw [ih h]
      simp only [patchAll_singleton, Write.patch, List.append_assoc, List.singleton_append,
        List.map_cons, grantOf, hi, Option.getD_some]

theorem write_ok {w : Store × Nat} (h : (write p ids).eval env w = (.ok (), w')) :
    w'.1 = { w.1 with
      projectGrant := ((w.1.projectGrant.filter fun g =>
        !p.deletes.contains (g.projectId, g.teamId)).map (relevel p.updates)) ++
          p.inserts.map (grantOf ids) } := by
  obtain ⟨_, w₁, h₁, h⟩ := Txn.eval_bind_ok h
  obtain ⟨_, w₂, h₂, h₃⟩ := Txn.eval_bind_ok h
  rw [writeInserts_ok h₃, writeUpdates_ok h₂, writeDeletes_ok h₁]

end

theorem mem_missing {kept : List (Str × Str)} {declared : List Declared} :
    i ∈ missing kept declared ↔
      ∃ d ∈ declared, ∃ g ∈ d.grants, (d.key, g.1) ∉ kept ∧ i = (d.key, g.1, g.2) := by
  simp only [missing, List.mem_flatMap, List.mem_map, List.mem_filter, Bool.not_eq_true',
    ← Bool.not_eq_true, List.contains_iff_mem]
  constructor
  · rintro ⟨d, hd, g, ⟨hg, hk⟩, rfl⟩
    exact ⟨d, hd, g, hg, hk, rfl⟩
  · rintro ⟨d, hd, g, hg, hk, rfl⟩
    exact ⟨d, hd, g, ⟨hg, hk⟩, rfl⟩

section
variable {s : Store} {stored : List StoredGrant} {declared : List Declared}

theorem mem_stored (hp : stored.Perm (orgGrants s)) :
    g ∈ stored ↔ ∃ h ∈ s.projectGrant, ∃ r ∈ s.project, r.isOrg = true ∧
      r.id = h.projectId ∧ g = ⟨h.projectId, r.path, h.teamId, h.level⟩ := by
  rw [hp.mem_iff, mem_orgGrants]

theorem revoked_orgGrant (hp : stored.Perm (orgGrants s))
    (h : (g.projectId, g.teamId) ∈ revoked (wanted declared) stored) : OrgGrant s g := by
  simp only [revoked, List.mem_map, List.mem_filter, Prod.mk.injEq] at h
  obtain ⟨sg, ⟨hsg, _⟩, he, _⟩ := h
  obtain ⟨g', _, r, hr, ho, hid, rfl⟩ := (mem_stored hp).1 hsg
  exact ⟨r, hr, ho, hid.trans he⟩

theorem relevelled_orgGrant (hp : stored.Perm (orgGrants s))
    (h : (g.projectId, g.teamId, l) ∈ relevelled (wanted declared) stored) : OrgGrant s g := by
  simp only [relevelled, List.mem_filterMap, Option.bind_eq_some_iff,
    Option.ite_none_left_eq_some, Option.some.injEq, Prod.mk.injEq] at h
  obtain ⟨sg, hsg, _, _, _, he, _⟩ := h
  obtain ⟨g', _, r, hr, ho, hid, rfl⟩ := (mem_stored hp).1 hsg
  exact ⟨r, hr, ho, hid.trans he⟩

variable [ServerCollation]

theorem stored_unique (hs : s.Schema) (hp : stored.Perm (orgGrants s)) (hg : g ∈ s.projectGrant)
    (hr : r ∈ s.project) (hid : r.id = g.projectId) (hsg : sg ∈ stored)
    (h : sg.projectId = g.projectId ∧ sg.teamId = g.teamId) :
    sg = ⟨g.projectId, r.path, g.teamId, g.level⟩ := by
  obtain ⟨g', hg', r', hr', _, hid', rfl⟩ := (mem_stored hp).1 hsg
  have hgg : g' = g := List.inj_on_of_nodup_map hs.grant_key hg' hg (Prod.ext h.1 h.2)
  subst hgg
  have hrr : r' = r := List.inj_on_of_nodup_map hs.id_key hr' hr (hid'.trans hid.symm)
  rw [hrr]

theorem mem_revoked (hs : s.Schema) (hp : stored.Perm (orgGrants s))
    (hg : g ∈ s.projectGrant) (hr : r ∈ s.project) (ho : r.isOrg = true)
    (hid : r.id = g.projectId) :
    (g.projectId, g.teamId) ∈ revoked (wanted declared) stored ↔
      ∀ l, ¬ Declares declared (toAsciiLowercase r.path, g.teamId) l := by
  have hmem : ⟨g.projectId, r.path, g.teamId, g.level⟩ ∈ stored :=
    (mem_stored hp).2 ⟨g, hg, r, hr, ho, hid, rfl⟩
  simp only [revoked, List.mem_map, List.mem_filter, Option.isNone_iff_eq_none, get_wanted_none,
    Prod.mk.injEq]
  constructor
  · rintro ⟨sg, ⟨hsg, hnone⟩, he⟩
    rw [stored_unique hs hp hg hr hid hsg he] at hnone
    exact hnone
  · intro hnone
    exact ⟨_, ⟨hmem, hnone⟩, rfl, rfl⟩

theorem mem_relevelled (hd : Sound declared) (hs : s.Schema) (hp : stored.Perm (orgGrants s))
    (hg : g ∈ s.projectGrant) (hr : r ∈ s.project) (ho : r.isOrg = true)
    (hid : r.id = g.projectId) :
    (g.projectId, g.teamId, l) ∈ relevelled (wanted declared) stored ↔
      Declares declared (toAsciiLowercase r.path, g.teamId) l ∧ l ≠ g.level := by
  have hmem : ⟨g.projectId, r.path, g.teamId, g.level⟩ ∈ stored :=
    (mem_stored hp).2 ⟨g, hg, r, hr, ho, hid, rfl⟩
  simp only [relevelled, List.mem_filterMap, Option.bind_eq_some_iff, get_wanted hd,
    Option.ite_none_left_eq_some, Option.some.injEq, Prod.mk.injEq]
  constructor
  · rintro ⟨sg, hsg, l', hdecl, hne, h₁, h₂, rfl⟩
    rw [stored_unique hs hp hg hr hid hsg ⟨h₁, h₂⟩] at hdecl hne
    exact ⟨hdecl, hne⟩
  · rintro ⟨hdecl, hne⟩
    exact ⟨_, hmem, l, hdecl, hne, rfl, rfl, rfl⟩

theorem relevel_declared (hd : Sound declared) (hs : s.Schema) (hp : stored.Perm (orgGrants s))
    (hg : g ∈ s.projectGrant) (hr : r ∈ s.project) (ho : r.isOrg = true)
    (hid : r.id = g.projectId) (h : Declares declared (toAsciiLowercase r.path, g.teamId) l) :
    relevel (relevelled (wanted declared) stored) g = { g with level := l } := by
  apply relevel_eq
  · rintro ⟨projectId, teamId, l'⟩ hu rfl rfl
    exact (((mem_relevelled hd hs hp hg hr ho hid).1 hu).1).level_eq hd h
  · by_cases hl : g.level = l
    · exact .inl hl
    · refine .inr ⟨(g.projectId, g.teamId, l), ?_, rfl, rfl⟩
      exact (mem_relevelled hd hs hp hg hr ho hid).2 ⟨h, fun he => hl he.symm⟩

/-- The grants after a sync: those on private rows as they were, and those the declaration
names, on the rows it names. -/
theorem mem_regranted {w : Store} (hd : Sound declared) (hs : s.Schema) (hw : w.Schema)
    (hp : stored.Perm (orgGrants s))
    (hkeep : ∀ r ∈ s.project, ∃ r' ∈ w.project, r'.id = r.id ∧ r'.path = r.path ∧
      r'.isOrg = r.isOrg)
    (hnamed : ∀ d ∈ declared, ∃ r ∈ w.project, d.Names r ∧ ids.get d.key = some r.id)
    (g : GrantRow) :
    g ∈ ((s.projectGrant.filter fun g =>
        !(plan declared stored).deletes.contains (g.projectId, g.teamId)).map
          (relevel (plan declared stored).updates)) ++
        (plan declared stored).inserts.map (grantOf ids) ↔
      (g ∈ s.projectGrant ∧ ¬ OrgGrant s g) ∨
        ∃ d ∈ declared, ∃ r ∈ w.project, d.Names r ∧ r.id = g.projectId ∧
          (g.teamId, g.level) ∈ d.grants := by
  simp only [plan_eq, List.mem_append, List.mem_map, List.mem_filter, Bool.not_eq_true',
    ← Bool.not_eq_true, List.contains_iff_mem, mem_missing]
  constructor
  · rintro (⟨g₀, ⟨hg₀, hdel⟩, rfl⟩ | ⟨_, ⟨d, hdm, gr, hgr, _, rfl⟩, rfl⟩)
    · by_cases horg : OrgGrant s g₀
      · obtain ⟨r, hr, ho, hid⟩ := horg
        rw [mem_revoked hs hp hg₀ hr ho hid] at hdel
        simp only [not_forall, not_not] at hdel
        obtain ⟨l, hl⟩ := hdel
        rw [relevel_declared hd hs hp hg₀ hr ho hid hl]
        obtain ⟨d, hdm, hk, hmem⟩ := hl
        obtain ⟨r', hr', hid', hpath, horg⟩ := hkeep r hr
        exact .inr ⟨d, hdm, r', hr', ⟨horg.trans ho, by rw [hpath, hk]⟩, hid'.trans hid, hmem⟩
      · have he : relevel (relevelled (wanted declared) stored) g₀ = g₀ := by
          apply relevel_of_not_mem
          rintro ⟨projectId, teamId, l⟩ hu ⟨rfl, rfl⟩
          exact horg (relevelled_orgGrant hp hu)
        rw [he]
        exact .inl ⟨hg₀, horg⟩
    · obtain ⟨r, hr, hn, hid⟩ := hnamed d hdm
      refine .inr ⟨d, hdm, r, hr, hn, ?_, hgr⟩
      simp only [grantOf, hid, Option.getD_some]
  · rintro (⟨hg, horg⟩ | ⟨d, hdm, r, hr, hn, hid, hmem⟩)
    · refine .inl ⟨g, ⟨hg, fun h => horg (revoked_orgGrant hp h)⟩, ?_⟩
      apply relevel_of_not_mem
      rintro ⟨projectId, teamId, l⟩ hu ⟨rfl, rfl⟩
      exact horg (relevelled_orgGrant hp hu)
    · by_cases hk : (d.key, g.teamId) ∈ kept stored
      · obtain ⟨sg, hsg, he⟩ := List.mem_map.1 hk
        obtain ⟨g₁, hg₁, r₁, hr₁, ho₁, hid₁, rfl⟩ := (mem_stored hp).1 hsg
        have hkey : toAsciiLowercase r₁.path = d.key := (Prod.mk.inj he).1
        have hteam : g₁.teamId = g.teamId := (Prod.mk.inj he).2
        obtain ⟨r', hr', hid', hpath, horg⟩ := hkeep r₁ hr₁
        have hn' : d.Names r' := ⟨horg.trans ho₁, by rw [hpath, hkey]⟩
        have hrr := names_inj hw hr' hr hn' hn
        have hpid : g₁.projectId = g.projectId := by rw [← hid₁, ← hid', hrr, hid]
        have hdecl : Declares declared (toAsciiLowercase r₁.path, g₁.teamId) g.level :=
          ⟨d, hdm, hkey.symm, by rw [hteam]; exact hmem⟩
        refine .inl ⟨g₁, ⟨hg₁, fun hdel => ?_⟩, ?_⟩
        · exact (mem_revoked hs hp hg₁ hr₁ ho₁ hid₁).1 hdel _ hdecl
        · rw [relevel_declared hd hs hp hg₁ hr₁ ho₁ hid₁ hdecl, hpid, hteam]
      · obtain ⟨r', hr', hn', hid'⟩ := hnamed d hdm
        refine .inr ⟨_, ⟨d, hdm, _, hmem, hk, rfl⟩, ?_⟩
        rw [names_inj hw hr' hr hn' hn, hid] at hid'
        simp only [grantOf, hid', Option.getD_some]

end

end Grants

end ProjectDb

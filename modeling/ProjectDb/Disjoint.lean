import ProjectDb.Confinement

namespace ProjectDb
open Text ProjectDb.Path Mvcc
set_option autoImplicit true

section
variable [ServerCollation]

/-- The second store is the first one beside what was written to some records. -/
structure Beside (K : Record → Prop) (s s' : Store) : Prop where
  aliases : s'.projectAlias = s.projectAlias
  rows : ∀ r ∈ s.project, ∃ r' ∈ s'.project, r'.id = r.id ∧ r'.path = r.path
  added : ∀ r' ∈ s'.project, (∃ r ∈ s.project, r.id = r'.id ∧ r.path = r'.path) ∨
    K (.project r'.id) ∧ K (.path (toAsciiLowercase r'.path))
  keys : ∀ w ∈ s.projectWrite, ∃ w' ∈ s'.projectWrite, w'.key = w.key
  claims : ∀ key, ¬ K (.write key) →
    s'.projectWrite.filter (fun w => w.key == key) = s.projectWrite.filter fun w => w.key == key

/-- A statement of a registration. -/
def Stmt.registers : Stmt → Bool
  | .insertWrite .. => true
  | .selectWriteForUpdate .. => true
  | .selectAliasOwner _ => true
  | .insertProject _ => true
  | .updateWrite .. => true
  | _ => false

variable {K : Record → Prop} {s s' : Store}

namespace Beside

theorem refl (s : Store) : Beside K s s where
  aliases := rfl
  rows r hr := ⟨r, hr, rfl, rfl⟩
  added r hr := .inl ⟨r, hr, rfl, rfl⟩
  keys w hw := ⟨w, hw, rfl⟩
  claims _ _ := rfl

theorem setRows {p : ProjectRow → Bool} {f : ProjectRow → ProjectRow} (h : Beside K s s')
    (hid : ∀ r, (f r).id = r.id) (hpath : ∀ r, (f r).path = r.path) :
    Beside K s { s' with project := updateRows p f s'.project } where
  aliases := h.aliases
  rows r hr := by
    obtain ⟨r', hr', hrid, hrpath⟩ := h.rows r hr
    refine ⟨_, List.mem_map_of_mem hr', ?_⟩
    split
    · exact ⟨(hid r').trans hrid, (hpath r').trans hrpath⟩
    · exact ⟨hrid, hrpath⟩
  added r' hr' := by
    obtain ⟨r, hr, rfl⟩ := List.mem_map.1 hr'
    have hsame : (if p r = true then f r else r).id = r.id ∧
        (if p r = true then f r else r).path = r.path := by
      split
      · exact ⟨hid r, hpath r⟩
      · exact ⟨rfl, rfl⟩
    rw [hsame.1, hsame.2]
    exact h.added r hr
  keys := h.keys
  claims := h.claims

theorem setGrants (h : Beside K s s') (gs : List GrantRow) :
    Beside K s { s' with projectGrant := gs } :=
  ⟨h.aliases, h.rows, h.added, h.keys, h.claims⟩

theorem filter_update {ws : List WriteRow} {κ key : Str × Str × Str} {response : Bytes}
    (hne : κ ≠ key) :
    ((ws.map fun w => if w.key == κ then { w with response := response } else w).filter fun w =>
      w.key == key) = ws.filter fun w => w.key == key := by
  induction ws with
  | nil => rfl
  | cons w ws ih =>
    have hkey : (if w.key == κ then { w with response := response } else w : WriteRow).key =
        w.key := by
      split <;> rfl
    rw [List.map_cons, List.filter_cons, List.filter_cons, ih, hkey]
    by_cases hw : w.key = key
    · have hnot : (w.key == κ) = false := beq_eq_false_iff_ne.2 fun h => hne (h.symm.trans hw)
      rw [hnot]
      rfl
    · rw [if_neg (fun h => hw (beq_iff_eq.1 h)), if_neg (fun h => hw (beq_iff_eq.1 h))]

theorem patch (h : Beside K s s') (w : Write) (hw : ∀ k ∈ w.records, K k) :
    Beside K s (w.patch s') := by
  cases w with
  | insertProject row =>
    refine ⟨h.aliases, fun r hr => ?_, fun r' hr' => ?_, h.keys, h.claims⟩
    · obtain ⟨r', hr', hsame⟩ := h.rows r hr
      exact ⟨r', List.mem_append_left _ hr', hsame⟩
    · rcases List.mem_append.1 hr' with hr' | hr'
      · exact h.added r' hr'
      · rw [List.mem_singleton.1 hr']
        exact .inr ⟨hw _ List.mem_cons_self, hw _ (List.mem_cons_of_mem _ List.mem_cons_self)⟩
  | updateDeclared => exact h.setRows (fun _ => rfl) fun _ => rfl
  | updateArchived => exact h.setRows (fun _ => rfl) fun _ => rfl
  | updateLastSeen => exact h.setRows (fun _ => rfl) fun _ => rfl
  | deleteGrant => exact h.setGrants _
  | updateGrant => exact h.setGrants _
  | insertGrant => exact h.setGrants _
  | insertWrite row =>
    have hkey : K (.write row.key) := hw _ List.mem_cons_self
    refine ⟨h.aliases, h.rows, h.added, fun w hw => ?_, fun key hk => ?_⟩
    · obtain ⟨w', hw', hsame⟩ := h.keys w hw
      exact ⟨w', List.mem_append_left _ hw', hsame⟩
    · have hnone : ([row].filter fun w => w.key == key) = [] := by
        apply List.filter_eq_nil_iff.2
        intro w hw he
        rw [List.mem_singleton.1 hw] at he
        exact hk (beq_iff_eq.1 he ▸ hkey)
      rw [← h.claims key hk]
      change (s'.projectWrite ++ [row]).filter _ = _
      rw [List.filter_append, hnone, List.append_nil]
  | updateWrite response projectId userId idemKey =>
    have hkey : K (.write (ledgerKey projectId userId idemKey)) := hw _ List.mem_cons_self
    refine ⟨h.aliases, h.rows, h.added, fun w hw => ?_, fun key hk => ?_⟩
    · obtain ⟨w', hw', hsame⟩ := h.keys w hw
      refine ⟨_, List.mem_map_of_mem hw', ?_⟩
      split <;> exact hsame
    · rw [← h.claims key hk]
      exact filter_update fun he => hk (he ▸ hkey)

theorem patchAll (h : Beside K s s') {ws : List Write} (hws : ∀ k ∈ ws.flatMap Write.records, K k) :
    Beside K s (engine.patchAll ws s') := by
  induction ws generalizing s' with
  | nil => exact h
  | cons w ws ih =>
    rw [List.flatMap_cons] at hws
    apply ih (h.patch w fun k hk => hws k (List.mem_append_left _ hk))
    exact fun k hk => hws k (List.mem_append_right _ hk)

theorem insertProject (h : Beside K s s') (row : ProjectRow) :
    Beside K ((Write.insertProject row).patch s) ((Write.insertProject row).patch s') where
  aliases := h.aliases
  rows r hr := by
    rcases List.mem_append.1 hr with hr | hr
    · obtain ⟨r', hr', hsame⟩ := h.rows r hr
      exact ⟨r', List.mem_append_left _ hr', hsame⟩
    · exact ⟨r, List.mem_append_right _ hr, rfl, rfl⟩
  added r' hr' := by
    rcases List.mem_append.1 hr' with hr' | hr'
    · apply (h.added r' hr').imp_left
      rintro ⟨r, hr, hsame⟩
      exact ⟨r, List.mem_append_left _ hr, hsame⟩
    · exact .inl ⟨r', List.mem_append_right _ hr', rfl, rfl⟩
  keys := h.keys
  claims := h.claims

theorem insertWrite (h : Beside K s s') (row : WriteRow) :
    Beside K ((Write.insertWrite row).patch s) ((Write.insertWrite row).patch s') where
  aliases := h.aliases
  rows := h.rows
  added := h.added
  keys w hw := by
    rcases List.mem_append.1 hw with hw | hw
    · obtain ⟨w', hw', hsame⟩ := h.keys w hw
      exact ⟨w', List.mem_append_left _ hw', hsame⟩
    · exact ⟨w, List.mem_append_right _ hw, rfl⟩
  claims key hk := by
    change (s'.projectWrite ++ [row]).filter _ = (s.projectWrite ++ [row]).filter _
    rw [List.filter_append, List.filter_append, h.claims key hk]

theorem updateWrite (h : Beside K s s') (response : Bytes) (projectId userId idemKey : Str) :
    Beside K ((Write.updateWrite response projectId userId idemKey).patch s)
      ((Write.updateWrite response projectId userId idemKey).patch s') where
  aliases := h.aliases
  rows := h.rows
  added := h.added
  keys w hw := by
    obtain ⟨u, hu, rfl⟩ := List.mem_map.1 hw
    obtain ⟨u', hu', hsame⟩ := h.keys u hu
    refine ⟨_, List.mem_map_of_mem hu', ?_⟩
    split <;> split <;> exact hsame
  claims key hk := by
    have hfilter : ∀ {ws ws' : List WriteRow},
        (ws'.filter fun w => w.key == key) = (ws.filter fun w => w.key == key) →
        ((ws'.map fun w => if w.key == ledgerKey projectId userId idemKey then
          { w with response := response } else w).filter fun w => w.key == key) =
        ((ws.map fun w => if w.key == ledgerKey projectId userId idemKey then
          { w with response := response } else w).filter fun w => w.key == key) := by
      intro ws ws' hws
      have hpush : ∀ vs : List WriteRow, ((vs.map fun w => if w.key == ledgerKey projectId userId
          idemKey then { w with response := response } else w).filter fun w => w.key == key) =
          (vs.filter fun w => w.key == key).map fun w => if w.key == ledgerKey projectId userId
            idemKey then { w with response := response } else w := by
        intro vs
        rw [List.filter_map]
        congr 1
        apply List.filter_congr
        intro w _
        simp only [Function.comp_apply]
        split <;> rfl
      rw [hpush, hpush, hws]
    exact hfilter (h.claims key hk)

theorem any_key (h : Beside K s s') {key : Str × Str × Str}
    (hfree : (s.projectWrite.any fun w => w.key == key) = false → ¬ K (.write key)) :
    (s'.projectWrite.any fun w => w.key == key) = s.projectWrite.any fun w => w.key == key := by
  cases hany : s.projectWrite.any fun w => w.key == key with
  | true =>
    obtain ⟨w, hw, hkey⟩ := List.any_eq_true.1 hany
    obtain ⟨w', hw', hsame⟩ := h.keys w hw
    exact List.any_eq_true.2 ⟨w', hw', by rw [hsame]; exact hkey⟩
  | false =>
    by_contra hany'
    rw [Bool.not_eq_false] at hany'
    obtain ⟨w, hw, hkey⟩ := List.any_eq_true.1 hany'
    have hmem : w ∈ s'.projectWrite.filter fun w => w.key == key :=
      List.mem_filter.2 ⟨hw, hkey⟩
    rw [h.claims _ (hfree hany)] at hmem
    exact Bool.false_ne_true
      (hany.symm.trans (List.any_eq_true.2 ⟨w, (List.mem_filter.1 hmem).1, hkey⟩))

theorem any_clash (h : Beside K s s') {id path : Str}
    (hfree : (s.project.any fun r => r.id == id || eqIgnoreAsciiCase r.path path) = false →
      ¬ K (.project id) ∧ ¬ K (.path (toAsciiLowercase path))) :
    (s'.project.any fun r => r.id == id || eqIgnoreAsciiCase r.path path) =
      s.project.any fun r => r.id == id || eqIgnoreAsciiCase r.path path := by
  cases hany : s.project.any fun r => r.id == id || eqIgnoreAsciiCase r.path path with
  | true =>
    obtain ⟨r, hr, hclash⟩ := List.any_eq_true.1 hany
    obtain ⟨r', hr', hid, hpath⟩ := h.rows r hr
    exact List.any_eq_true.2 ⟨r', hr', by rw [hid, hpath]; exact hclash⟩
  | false =>
    by_contra hany'
    rw [Bool.not_eq_false] at hany'
    obtain ⟨r', hr', hclash⟩ := List.any_eq_true.1 hany'
    rcases h.added r' hr' with ⟨r, hr, hrid, hrpath⟩ | ⟨hkid, hkpath⟩
    · exact Bool.false_ne_true (hany.symm.trans
        (List.any_eq_true.2 ⟨r, hr, by rw [hrid, hrpath]; exact hclash⟩))
    · rcases Bool.or_eq_true_iff.1 hclash with he | he
      · exact (hfree hany).1 (beq_iff_eq.1 he ▸ hkid)
      · rw [(eqIgnoreAsciiCase_iff _ _).1 he] at hkpath
        exact (hfree hany).2 hkpath

/-- The statement is answered alike from the two stores, and what it writes leaves them one beside
the other. -/
def Alike (K : Record → Prop) (s s' : Store) (t : Tick) (q : Stmt) : Prop :=
  q.exec t s' = q.exec t s ∧
    ∀ a ws, q.exec t s = .ok (a, ws) → Beside K (engine.patchAll ws s) (engine.patchAll ws s')

theorem exec_insertWrite (h : Beside K s s') {t : Tick}
    (hwrites : ∀ a ws, (Stmt.insertWrite projectId userId idemKey rpc fp).exec t s = .ok (a, ws) →
      ∀ k ∈ ws.flatMap Write.records, ¬ K k) :
    Alike K s s' t (.insertWrite projectId userId idemKey rpc fp) := by
  have hexec : (Stmt.insertWrite projectId userId idemKey rpc fp).exec t s' =
      (Stmt.insertWrite projectId userId idemKey rpc fp).exec t s := by
    simp only [Stmt.exec] at hwrites ⊢
    generalize WriteRow.kept ⟨projectId, userId, idemKey, rpc, [], fp⟩ = row at hwrites ⊢
    by_cases hfits : row.fits = true
    · simp only [hfits, Bool.not_true, Bool.false_eq_true, if_false] at hwrites ⊢
      rw [h.any_key fun hnone => hwrites () _ (by rw [hnone]; rfl) _ List.mem_cons_self]
    · simp only [hfits, Bool.not_false, if_true]
  refine ⟨hexec, fun a ws he => ?_⟩
  rw [insertWrite_writes he]
  exact h.insertWrite _

theorem exec_selectWrite (h : Beside K s s') {t : Tick}
    (hkey : ¬ K (.write (ledgerKey projectId userId idemKey))) :
    Alike K s s' t (.selectWriteForUpdate projectId userId idemKey) := by
  have hfind : (s'.projectWrite.find? fun w => w.key == ledgerKey projectId userId idemKey) =
      s.projectWrite.find? fun w => w.key == ledgerKey projectId userId idemKey := by
    rw [← List.head?_filter, ← List.head?_filter, h.claims _ hkey]
  refine ⟨by simp only [Stmt.exec, hfind], fun a ws he => ?_⟩
  rw [selectWrite_writes he]
  exact h

theorem exec_insertProject (h : Beside K s s') {t : Tick}
    (hwrites : ∀ a ws, (Stmt.insertProject n).exec t s = .ok (a, ws) →
      ∀ k ∈ ws.flatMap Write.records, ¬ K k) :
    Alike K s s' t (.insertProject n) := by
  have hexec : (Stmt.insertProject n).exec t s' = (Stmt.insertProject n).exec t s := by
    simp only [Stmt.exec] at hwrites ⊢
    by_cases hfits : (n.row t.now).fits = true
    · simp only [hfits, Bool.not_true, Bool.false_eq_true, if_false] at hwrites ⊢
      have hany := h.any_clash fun hnone => by
        have hfree := hwrites () _ (by rw [hnone]; rfl)
        exact ⟨hfree _ List.mem_cons_self, hfree _ (List.mem_cons_of_mem _ List.mem_cons_self)⟩
      rw [hany]
    · simp only [hfits, Bool.not_false, if_true]
  refine ⟨hexec, fun a ws he => ?_⟩
  simp only [Stmt.exec] at he
  split_ifs at he
  cases he
  exact h.insertProject _

end Beside

/-- A registration's statement is answered alike beside writes to records that it has no lock on,
and writes alike. -/
theorem Beside.exec {q : Stmt} (hq : q.registers = true) (h : Beside K s s') {t : Tick}
    (hfree : ∀ k ∈ q.locks, ¬ K k)
    (hwrites : ∀ a ws, q.exec t s = .ok (a, ws) → ∀ k ∈ ws.flatMap Write.records, ¬ K k) :
    q.exec t s' = q.exec t s ∧
      ∀ a ws, q.exec t s = .ok (a, ws) →
        Beside K (engine.patchAll ws s) (engine.patchAll ws s') := by
  cases q with
  | insertWrite => exact h.exec_insertWrite hwrites
  | selectWriteForUpdate => exact h.exec_selectWrite (hfree _ List.mem_cons_self)
  | selectAliasOwner path =>
    simp only [Stmt.exec, h.aliases]
    refine ⟨trivial, fun a ws he => ?_⟩
    cases he
    exact h
  | insertProject => exact h.exec_insertProject hwrites
  | updateWrite response projectId userId idemKey =>
    refine ⟨rfl, fun a ws he => ?_⟩
    rw [updateWrite_writes he]
    exact h.updateWrite _ _ _ _
  | _ => cases hq

end

end ProjectDb

import ProjectDb.Reading
import ProjectDb.Reference

namespace ProjectDb.Read
open Text ProjectDb.Path
set_option autoImplicit true

theorem covers_of_foldsOnto {candidate : Str} (hr : ¬ FoldsOnto candidate reservedRoot)
    (h : FoldsOnto path candidate) : Covers candidate path :=
  ⟨candidate, List.prefix_refl _, hr, h⟩

theorem Denotes.member {s : Store} (h : Denotes s p r) (hr : ¬ FoldsOnto p reservedRoot) :
    ∃ m, Member s p m ∧ FoldsOnto m.matched p ∧ m.row = r := by
  obtain ⟨hmem, hlive | ⟨_, a, ha, hf, hida⟩⟩ := h
  · exact ⟨⟨r.path, r, false⟩, ⟨⟨hmem, rfl⟩, covers_of_foldsOnto hr hlive⟩, hlive, rfl⟩
  · refine ⟨⟨a.aliasPath, r, true⟩, ⟨⟨hmem, ?_⟩, covers_of_foldsOnto hr hf⟩, hf, rfl⟩
    rw [← hida]
    exact ha

/-- The preferred match at the path itself is the row the path denotes, through an alias exactly
when no live row is there. -/
theorem denotes_of_exact {s : Store} (hm : Member s p m)
    (hbest : ∀ m', Member s p m' → m' ≠ m → Preferred m m') (hf : FoldsOnto m.matched p)
    (hr : ¬ FoldsOnto p reservedRoot) :
    Denotes s p m.row ∧ (m.former = true ↔ ¬ FoldsOnto m.row.path p) := by
  obtain ⟨⟨hmem, ho⟩, _⟩ := hm
  cases hformer : m.former with
  | false =>
    rw [hformer] at ho
    have hpath : m.row.path = m.matched := ho
    have hlive : FoldsOnto m.row.path p := hpath ▸ hf
    exact ⟨⟨hmem, .inl hlive⟩, (by intro h; cases h), fun h => absurd hlive h⟩
  | true =>
    rw [hformer] at ho
    have halias : ⟨m.matched, m.row.id⟩ ∈ s.projectAlias := ho
    have hno : ∀ r' ∈ s.project, ¬ FoldsOnto r'.path p := by
      intro r' hr' hlive
      have hne : (⟨r'.path, r', false⟩ : Target) ≠ m := by
        rintro rfl
        cases hformer
      have hpref := hbest ⟨r'.path, r', false⟩ ⟨⟨hr', rfl⟩, covers_of_foldsOnto hr hlive⟩ hne
      have hdepth : depth r'.path = depth m.matched := depth_eq_of_foldsOnto (hlive.trans hf.symm)
      rcases hpref with hlt | ⟨_, hfalse, _⟩
      · exact absurd hlt (Nat.not_lt.2 (Nat.le_of_eq hdepth.symm))
      · rw [hformer] at hfalse
        cases hfalse
    exact ⟨⟨hmem, .inr ⟨hno, _, halias, hf, rfl⟩⟩, fun _ => hno _ hmem, fun _ => rfl⟩

/-- A match at the path itself leaves no other match to be preferred to it. -/
theorem exact_of_member {s : Store} (hm : Member s p m)
    (hbest : ∀ m', Member s p m' → m' ≠ m → Preferred m m') (hm₀ : Member s p m₀)
    (hf : FoldsOnto m₀.matched p) : FoldsOnto m.matched p := by
  by_cases he : m₀ = m
  · exact he ▸ hf
  · have hle : depth m₀.matched ≤ depth m.matched := by
      rcases hbest m₀ hm₀ he with hlt | ⟨heq, _⟩
      · exact Nat.le_of_lt hlt
      · exact Nat.le_of_eq heq
    rw [depth_eq_of_foldsOnto hf] at hle
    have hdepth := Nat.le_antisymm hm.2.depth_le hle
    rw [← depth_eq_of_foldsOnto hf] at hdepth
    exact (hm.2.foldsOnto hm₀.2 hdepth).trans hf

section
variable [ServerCollation] {env : Nat → Tick} {s : Store}

theorem get_denotes (hf : Faultless env) (hid : (s.project.map ProjectRow.id).Nodup)
    (hpath : (s.project.map fun r => toAsciiLowercase r.path).Nodup)
    (halias : (s.projectAlias.map fun a => toAsciiLowercase a.aliasPath).Nodup)
    (hg : Grammatical p) (h : Denotes s p r) : ∃ P, ((get ⟨p⟩).serve env s).1 = .ok ⟨some P⟩ ∧
      P.path = r.path ∧ P.status = r.status := by
  have hsel := (selected_iff hid hpath halias (env 1) p r).2 h
  obtain ⟨pairs, grants, hserve⟩ : ∃ pairs grants, (get ⟨p⟩).serve env s =
      (.ok ⟨some (fillGrants grants (fillAliases pairs (rowToProject r)))⟩, s) :=
    serve_get_ok hf hg hsel
  refine ⟨_, congrArg Prod.fst hserve, ?_, ?_⟩
  · rw [fillGrants_path, fillAliases_path]
    rfl
  · rw [fillGrants_status, fillAliases_status]
    rfl

theorem get_nothing (hf : Faultless env) (hid : (s.project.map ProjectRow.id).Nodup)
    (hpath : (s.project.map fun r => toAsciiLowercase r.path).Nodup)
    (halias : (s.projectAlias.map fun a => toAsciiLowercase a.aliasPath).Nodup)
    (hg : Grammatical p) (h : ∀ r, ¬ Denotes s p r) :
    ∃ e, ((get ⟨p⟩).serve env s).1 = .error e ∧ e.code = .notFound := by
  have hsel : selected (env 1) s p = none := by
    cases hsel : selected (env 1) s p with
    | none => rfl
    | some r => exact absurd ((selected_iff hid hpath halias (env 1) p r).1 hsel) (h r)
  obtain ⟨e, hserve, hcode⟩ : ∃ e, (get ⟨p⟩).serve env s = (.error e, s) ∧ e.code = .notFound :=
    serve_get_notFound hf hg hsel
  exact ⟨e, congrArg Prod.fst hserve, hcode⟩

theorem resolve_preferred (hf : Faultless env) (hid : (s.project.map ProjectRow.id).Nodup)
    (hpath : (s.project.map fun r => toAsciiLowercase r.path).Nodup)
    (halias : (s.projectAlias.map fun a => toAsciiLowercase a.aliasPath).Nodup)
    (hg : Grammatical p) (hr : ¬ FoldsOnto p reservedRoot) (hm : Member s p m₀) :
    ∃ m, Member s p m ∧ (∀ m', Member s p m' → m' ≠ m → Preferred m m') ∧
      (resolve ⟨p⟩).serve env s = (.ok (m.answer p), s) :=
  serve_resolve_ok hf hid hpath halias hg hr hm

theorem resolve_denotes (hf : Faultless env) (hid : (s.project.map ProjectRow.id).Nodup)
    (hpath : (s.project.map fun r => toAsciiLowercase r.path).Nodup)
    (halias : (s.projectAlias.map fun a => toAsciiLowercase a.aliasPath).Nodup)
    (hg : Grammatical p) (hr : ¬ FoldsOnto p reservedRoot) (h : Denotes s p r) :
    ∃ a, ((resolve ⟨p⟩).serve env s).1 = .ok a ∧ a.exact = true ∧ a.resolvedPath = r.path ∧
      a.status = r.status ∧ (a.viaAlias = true ↔ ¬ FoldsOnto r.path p) := by
  obtain ⟨m₀, hm₀, hf₀, _⟩ := h.member hr
  obtain ⟨m, hm, hbest, hserve⟩ := resolve_preferred hf hid hpath halias hg hr hm₀
  have hexact := exact_of_member hm hbest hm₀ hf₀
  obtain ⟨hd, hformer⟩ := denotes_of_exact hm hbest hexact hr
  have hrow := hd.unique hid hpath halias h
  refine ⟨m.answer p, congrArg Prod.fst hserve, decide_eq_true hexact,
    congrArg ProjectRow.path hrow,
    congrArg ProjectRow.status hrow, ?_⟩
  rw [← hrow, ← hformer, Target.answer, decide_eq_true hexact, Bool.true_and]

theorem resolve_nothing (hf : Faultless env) (hid : (s.project.map ProjectRow.id).Nodup)
    (hpath : (s.project.map fun r => toAsciiLowercase r.path).Nodup)
    (halias : (s.projectAlias.map fun a => toAsciiLowercase a.aliasPath).Nodup)
    (hg : Grammatical p) (hr : ¬ FoldsOnto p reservedRoot) (h : ∀ r, ¬ Denotes s p r) :
    (∃ e, ((resolve ⟨p⟩).serve env s).1 = .error e ∧ e.code = .notFound) ∨
      ∃ a, ((resolve ⟨p⟩).serve env s).1 = .ok a ∧ a.exact = false := by
  by_cases hm₀ : ∃ m, Member s p m
  · obtain ⟨m₀, hm₀⟩ := hm₀
    obtain ⟨m, hm, hbest, hserve⟩ := resolve_preferred hf hid hpath halias hg hr hm₀
    refine .inr ⟨m.answer p, congrArg Prod.fst hserve, decide_eq_false fun hexact => ?_⟩
    exact h m.row (denotes_of_exact hm hbest hexact hr).1
  · have hnone : ∀ m, ¬ Member s p m := fun m hm => hm₀ ⟨m, hm⟩
    obtain ⟨e, hserve, hcode⟩ : ∃ e, (resolve ⟨p⟩).serve env s = (.error e, s) ∧
        e.code = .notFound := serve_resolve_notFound hf hg hr hnone
    exact .inl ⟨e, congrArg Prod.fst hserve, hcode⟩

/-- `GetProject` finds what `ResolveProject` answers exactly, and nothing else. -/
theorem get_agrees_with_resolve {env' : Nat → Tick} (hf : Faultless env) (hf' : Faultless env')
    (hid : (s.project.map ProjectRow.id).Nodup)
    (hpath : (s.project.map fun r => toAsciiLowercase r.path).Nodup)
    (halias : (s.projectAlias.map fun a => toAsciiLowercase a.aliasPath).Nodup)
    (hg : Grammatical p) (hr : ¬ FoldsOnto p reservedRoot) :
    ((∃ P, ((get ⟨p⟩).serve env s).1 = .ok ⟨some P⟩) ↔
      ∃ a, ((resolve ⟨p⟩).serve env' s).1 = .ok a ∧ a.exact = true) ∧
    (∀ P a, ((get ⟨p⟩).serve env s).1 = .ok ⟨some P⟩ → ((resolve ⟨p⟩).serve env' s).1 = .ok a →
      a.resolvedPath = P.path ∧ a.status = P.status ∧
        (a.viaAlias = true ↔ ¬ FoldsOnto P.path p)) ∧
    ((∃ e, ((get ⟨p⟩).serve env s).1 = .error e ∧ e.code = .notFound) ↔
      (∃ e, ((resolve ⟨p⟩).serve env' s).1 = .error e ∧ e.code = .notFound) ∨
        ∃ a, ((resolve ⟨p⟩).serve env' s).1 = .ok a ∧ a.exact = false) := by
  by_cases h : ∃ r, Denotes s p r
  · obtain ⟨r, h⟩ := h
    obtain ⟨P, hget, hpathP, hstatusP⟩ := get_denotes hf hid hpath halias hg h
    obtain ⟨a, hres, hexact, hpathA, hstatusA, hvia⟩ :=
      resolve_denotes hf' hid hpath halias hg hr h
    rw [hget, hres]
    refine ⟨⟨fun _ => ⟨a, rfl, hexact⟩, fun _ => ⟨P, rfl⟩⟩, fun P' a' hP' ha' => ?_, ?_⟩
    · cases hP'
      cases ha'
      rw [hpathA, hstatusA, hpathP, hstatusP]
      exact ⟨rfl, rfl, hvia⟩
    · constructor
      · rintro ⟨e, he, _⟩
        cases he
      · rintro (⟨e, he, _⟩ | ⟨a', ha', hne⟩)
        · cases he
        · cases ha'
          rw [hexact] at hne
          cases hne
  · have hnone : ∀ r, ¬ Denotes s p r := fun r hd => h ⟨r, hd⟩
    obtain ⟨e, hget, hcode⟩ := get_nothing hf hid hpath halias hg hnone
    have hres := resolve_nothing hf' hid hpath halias hg hr hnone
    rw [hget]
    refine ⟨⟨?_, ?_⟩, ?_, fun _ => hres, fun _ => ⟨e, rfl, hcode⟩⟩
    · rintro ⟨P, hP⟩
      cases hP
    · rintro ⟨a, ha, hexact⟩
      rcases hres with ⟨e', he', _⟩ | ⟨a', ha', hne⟩
      · rw [ha] at he'
        cases he'
      · rw [ha] at ha'
        cases ha'
        rw [hexact] at hne
        cases hne
    · intro P a hP
      cases hP

end

section
open scoped Reference

theorem get_agrees_with_resolve_renamed : ∃ P a,
    ((get ⟨"OLD".toList⟩).serve (fun n => .quiet 1 n) renamed).1 = .ok ⟨some P⟩ ∧
    ((resolve ⟨"OLD".toList⟩).serve (fun n => .quiet 2 n) renamed).1 = .ok a ∧
    a.exact = true ∧ a.viaAlias = true ∧ a.resolvedPath = P.path := by
  have hgrammar : Grammatical "OLD".toList := (validate_ok_iff "" _).1 (by decide)
  have hfirst : Faultless fun n => .quiet 1 n := fun _ => rfl
  have hsecond : Faultless fun n => .quiet 2 n := fun _ => rfl
  obtain ⟨hexact, hagree, _⟩ := get_agrees_with_resolve (s := renamed) hfirst hsecond
    (by decide) (by decide) (by decide) hgrammar (by decide)
  have hget : ∃ P, ((get ⟨"OLD".toList⟩).serve (fun n => .quiet 1 n) renamed).1 =
      .ok ⟨some P⟩ ∧ ¬ FoldsOnto P.path "OLD".toList :=
    ⟨{ rowToProject acmeRoot with aliases := ["old".toList] }, by decide +kernel, by decide⟩
  obtain ⟨P, hget, hformer⟩ := hget
  obtain ⟨a, hres, he⟩ := hexact.1 ⟨P, hget⟩
  obtain ⟨hpath, _, hvia⟩ := hagree P a hget hres
  exact ⟨P, a, hget, hres, he, hvia.2 hformer, hpath⟩

end

end ProjectDb.Read

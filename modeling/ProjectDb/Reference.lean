import ProjectDb.Encoding

namespace ProjectDb.Reference
open Text ProjectDb.Path
set_option autoImplicit true

/-- The spellings of a uuid that the crate takes. -/
def Spells (s t : Str) : Prop :=
  s = t ∨ s = t.filter (· ≠ '-') ∨ s = '{' :: t ++ ['}'] ∨ s = "urn:uuid:".toList ++ t

instance (s t : Str) : Decidable (Spells s t) :=
  inferInstanceAs (Decidable (_ ∨ _))

/-- Put a hyphen after each group of the given lengths. -/
def hyphenate : List Nat → Str → Str
  | [], s => s
  | n :: ns, s => s.take n ++ '-' :: hyphenate ns (s.drop n)

theorem exists_groups {t : Str} (h : (t.splitOn '-').map List.length = [8, 4, 4, 4, 12]) :
    ∃ a b c d e : Str, t = a ++ '-' :: (b ++ '-' :: (c ++ '-' :: (d ++ '-' :: e))) ∧
      a.length = 8 ∧ b.length = 4 ∧ c.length = 4 ∧ d.length = 4 ∧ e.length = 12 ∧
      '-' ∉ a ∧ '-' ∉ b ∧ '-' ∉ c ∧ '-' ∉ d ∧ '-' ∉ e := by
  have hjoin : ['-'].intercalate (t.splitOn '-') = t := List.intercalate_splitOn '-'
  have hnot : ∀ g ∈ t.splitOn '-', '-' ∉ g := fun g hg => not_mem_of_mem_splitOn hg
  rcases hs : t.splitOn '-' with _ | ⟨a, _ | ⟨b, _ | ⟨c, _ | ⟨d, _ | ⟨e, _ | ⟨f, l⟩⟩⟩⟩⟩⟩
  all_goals rw [hs] at h hjoin hnot
  all_goals simp only [List.map_nil, List.map_cons, List.cons.injEq, reduceCtorEq, and_false,
    and_true] at h
  obtain ⟨ha, hb, hc, hd, he⟩ := h
  simp only [List.mem_cons, List.not_mem_nil, or_false, forall_eq_or_imp, forall_eq] at hnot
  refine ⟨a, b, c, d, e, ?_, ha, hb, hc, hd, he, hnot⟩
  rw [← hjoin]
  simp only [List.intercalate, List.intersperse_cons_cons, List.intersperse_singleton,
    List.flatten_cons, List.flatten_nil, List.append_nil, List.singleton_append]

theorem filter_groups {a b c d e : Str}
    (h : '-' ∉ a ∧ '-' ∉ b ∧ '-' ∉ c ∧ '-' ∉ d ∧ '-' ∉ e) :
    (a ++ '-' :: (b ++ '-' :: (c ++ '-' :: (d ++ '-' :: e)))).filter (· ≠ '-') =
      a ++ (b ++ (c ++ (d ++ e))) := by
  obtain ⟨ha, hb, hc, hd, he⟩ := h
  have hkeep : ∀ g : Str, '-' ∉ g → g.filter (· ≠ '-') = g := by
    intro g hg
    apply List.filter_eq_self.2
    intro x hx
    rw [decide_eq_true_eq]
    exact fun he => hg (he ▸ hx)
  simp only [List.filter_append, List.filter_cons, hkeep a ha, hkeep b hb, hkeep c hc,
    hkeep d hd, hkeep e he, ne_eq, not_true_eq_false, decide_false, Bool.false_eq_true, ↓reduceIte]

theorem hyphenate_filter {t : Str} (h : (t.splitOn '-').map List.length = [8, 4, 4, 4, 12]) :
    hyphenate [8, 4, 4, 4] (t.filter (· ≠ '-')) = t := by
  obtain ⟨a, b, c, d, e, rfl, ha, hb, hc, hd, _, hnot⟩ := exists_groups h
  rw [filter_groups hnot]
  simp only [hyphenate, List.take_left' ha, List.drop_left' ha, List.take_left' hb,
    List.drop_left' hb, List.take_left' hc, List.drop_left' hc, List.take_left' hd,
    List.drop_left' hd]

/-- The texts that may be what a spelling spells. -/
def readings (s : Str) : List Str :=
  [s, hyphenate [8, 4, 4, 4] s, (s.drop 1).dropLast, s.drop 9]

theorem groups_of_hyphenated {t : Str} (h : Hyphenated (toAsciiLowercase t)) :
    (t.splitOn '-').map List.length = [8, 4, 4, 4, 12] := by
  have hg := h.1
  rw [splitOn_toAsciiLowercase (fun _ => toLower_eq_dash), List.map_map] at hg
  rw [← hg]
  exact List.map_congr_left fun g _ => (toAsciiLowercase_length g).symm

theorem lengths_of_hyphenated {t : Str} (h : Hyphenated (toAsciiLowercase t)) :
    t.length = 36 ∧ (t.filter (· ≠ '-')).length = 32 := by
  obtain ⟨a, b, c, d, e, rfl, ha, hb, hc, hd, he, hnot⟩ := exists_groups (groups_of_hyphenated h)
  rw [filter_groups hnot]
  simp only [List.length_append, List.length_cons, ha, hb, hc, hd, he, and_self]

theorem mem_readings {s t : Str} (ht : Hyphenated (toAsciiLowercase t)) (h : Spells s t) :
    t ∈ readings s := by
  simp only [readings, List.mem_cons, List.not_mem_nil, or_false]
  rcases h with rfl | rfl | rfl | rfl
  · exact .inl rfl
  · exact .inr (.inl (hyphenate_filter (groups_of_hyphenated ht)).symm)
  · refine .inr (.inr (.inl ?_))
    rw [List.cons_append, List.drop_one, List.tail_cons, List.dropLast_concat]
  · have hurn : ("urn:uuid:".toList : Str).length = 9 := rfl
    exact .inr (.inr (.inr (List.drop_left' hurn).symm))

theorem spells_unique {s t t' : Str} (ht : Hyphenated (toAsciiLowercase t))
    (ht' : Hyphenated (toAsciiLowercase t')) (h : Spells s t) (h' : Spells s t') : t = t' := by
  obtain ⟨hl, hf⟩ := lengths_of_hyphenated ht
  obtain ⟨hl', hf'⟩ := lengths_of_hyphenated ht'
  have hurn : ("urn:uuid:".toList : Str).length = 9 := rfl
  have hlen : ∀ u : Str, Hyphenated (toAsciiLowercase u) → Spells s u →
      (s = u ∧ s.length = 36) ∨ (s = u.filter (· ≠ '-') ∧ s.length = 32) ∨
        (s = '{' :: u ++ ['}'] ∧ s.length = 38) ∨
          (s = "urn:uuid:".toList ++ u ∧ s.length = 45) := by
    intro u hu hs
    obtain ⟨hl, hf⟩ := lengths_of_hyphenated hu
    rcases hs with rfl | rfl | rfl | rfl
    · exact .inl ⟨rfl, hl⟩
    · exact .inr (.inl ⟨rfl, hf⟩)
    · refine .inr (.inr (.inl ⟨rfl, ?_⟩))
      rw [List.length_append, List.length_cons, hl]
      rfl
    · refine .inr (.inr (.inr ⟨rfl, ?_⟩))
      rw [List.length_append, hl, hurn]
  rcases hlen t ht h with ⟨e, n⟩ | ⟨e, n⟩ | ⟨e, n⟩ | ⟨e, n⟩ <;>
    rcases hlen t' ht' h' with ⟨e', n'⟩ | ⟨e', n'⟩ | ⟨e', n'⟩ | ⟨e', n'⟩ <;>
    first | (exfalso; omega) | skip
  · exact e.symm.trans e'
  · rw [← hyphenate_filter (groups_of_hyphenated ht), ← e, e',
      hyphenate_filter (groups_of_hyphenated ht')]
  · exact List.append_cancel_right (List.cons.inj (e.symm.trans e')).2
  · exact List.append_cancel_left (e.symm.trans e')

theorem getD_of_hyphenated {u : Str} (h : Hyphenated u) : u.getD 14 '-' ∈ hexDigits := by
  obtain ⟨a, b, c, d, e, rfl, ha, hb, hc, _, _, _, _, hnc, _⟩ := exists_groups h.1
  cases c with
  | nil => cases hc
  | cons x c =>
    have hat : (a ++ '-' :: (b ++ '-' :: (x :: c ++ '-' :: (d ++ '-' :: e)))).getD 14 '-' = x := by
      simp [List.getD_eq_getElem?_getD, List.getElem?_append, ha, hb]
    rw [hat]
    apply (h.2 x (by simp)).resolve_left
    rintro rfl
    exact hnc List.mem_cons_self

theorem getElem?_of_hyphenated {u : Str} (h : Hyphenated u) : u[14]? = some (u.getD 14 '-') := by
  have hlen : 14 < u.length := by
    obtain ⟨a, b, c, d, e, rfl, ha, hb, hc, hd, he, _⟩ := exists_groups h.1
    simp only [List.length_append, List.length_cons, ha, hb, hc, hd, he]
    decide
  rw [List.getD_eq_getElem?_getD, List.getElem?_eq_getElem hlen, Option.getD_some]

scoped instance uuidCrate : UuidCrate where
  Uuid := { s : Str // Hyphenated s }
  tryParse s := ((readings s).find? fun t => Hyphenated (toAsciiLowercase t) ∧ Spells s t).bind
    fun t => if h : Hyphenated (toAsciiLowercase t) then some ⟨toAsciiLowercase t, h⟩ else none
  getVersionNum u := hexDigits.idxOf (u.1.getD 14 '-')
  isRfc4122 u := (u.1[19]?).any fun c => "89ab".toList.contains c
  hyphenated u := u.1
  hyphenated_shape u := u.2
  hyphenated_onto s h := ⟨⟨s, h⟩, rfl⟩
  hyphenated_inj _ _ h := Subtype.ext h
  tryParse_iff := by
    intro s u
    rw [Option.bind_eq_some_iff]
    constructor
    · rintro ⟨t, hfind, h⟩
      have hp := List.find?_some hfind
      rw [decide_eq_true_eq] at hp
      rw [dif_pos hp.1] at h
      cases h
      exact ⟨t, rfl, hp.2⟩
    · rintro ⟨t, ht, hs⟩
      have hh : Hyphenated (toAsciiLowercase t) := by
        rw [ht]
        exact u.2
      cases hfind : (readings s).find? fun t => Hyphenated (toAsciiLowercase t) ∧ Spells s t with
      | none =>
        have hn := List.find?_eq_none.1 hfind t (mem_readings hh hs)
        exact absurd (decide_eq_true ⟨hh, hs⟩) hn
      | some t' =>
        have hp := List.find?_some hfind
        rw [decide_eq_true_eq] at hp
        have he := spells_unique hp.1 hh hp.2 hs
        subst he
        refine ⟨t', rfl, ?_⟩
        rw [dif_pos hh]
        exact congrArg some (Subtype.ext ht)
  version_digit := by
    intro u
    rw [getElem?_of_hyphenated u.2, List.getElem?_idxOf (getD_of_hyphenated u.2)]
  variant_digit := by
    intro u
    simp only [Option.any_eq_true, List.contains_iff_mem]
    constructor
    · rintro ⟨c, hc, hm⟩
      exact ⟨c, hm, hc⟩
    · rintro ⟨c, hm, hc⟩
      exact ⟨c, hc, hm⟩

scoped instance collation : ServerCollation := .ascii

/-- Thirty-two bytes that depend on every byte of the text. -/
scoped instance sha256 : Idem.Sha256 where
  digest b := (List.range 32).map fun i =>
    .ofNat (b.foldl (fun n x => n * 257 + x.toNat + 1) 0 / 256 ^ i)
  digest_length b := by
    rw [List.length_map, List.length_range]

scoped instance registerRequest : Message RegisterProjectRequest where
  encodeToVec r := Protobuf.put r.fields
  decode := RegisterProjectRequest.decode
  unset := ⟨none, none, [], [], []⟩
  decode_encodeToVec := RegisterProjectRequest.decode_put
  decode_nil := rfl

scoped instance registerResponse : Message RegisterProjectResponse where
  encodeToVec r := Protobuf.put r.fields
  decode := RegisterProjectResponse.decode
  unset := ⟨none⟩
  decode_encodeToVec := RegisterProjectResponse.decode_put
  decode_nil := rfl

end ProjectDb.Reference

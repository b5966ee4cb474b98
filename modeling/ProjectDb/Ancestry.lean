import ProjectDb.Reference

namespace ProjectDb.Path
open Text
set_option autoImplicit true

/-- The path of a list of segments. -/
def join (ts : List Str) : Str := ['/'].intercalate ts

/-- The path is these legal segments, of which there is one at least. -/
structure Joins (p : Str) (ts : List Str) : Prop where
  nonempty : ts ≠ []
  eq : p = join ts
  legal : ∀ t ∈ ts, LegalSegment t

theorem join_segments (p : Str) : join (segments p) = p := List.intercalate_splitOn '/'

theorem slash_not_mem_legal (h : LegalSegment t) : '/' ∉ t := by
  intro hm
  rcases h.2.2.2 '/' hm with he | he | he | he
  · exact absurd he (by decide)
  · cases he
  · cases he
  · cases he

theorem segments_join (hne : ts ≠ []) (h : ∀ t ∈ ts, '/' ∉ t) : segments (join ts) = ts :=
  List.splitOn_intercalate '/' h hne

theorem Joins.segments (h : Joins p ts) : Text.segments p = ts := by
  rw [h.eq]
  exact segments_join h.nonempty fun t ht => slash_not_mem_legal (h.legal t ht)

/-- The grammar, said of the segments that a path joins. -/
theorem grammatical_iff_joins : Grammatical p ↔ byteLen p ≤ maxLen ∧ ∃ ts, Joins p ts := by
  constructor
  · intro h
    exact ⟨h.1, segments p, segments_ne_nil p, (join_segments p).symm, h.2⟩
  · intro ⟨hlen, ts, h⟩
    refine ⟨hlen, fun t ht => ?_⟩
    rw [h.segments] at ht
    exact h.legal t ht

/-- The chain drops one segment a turn, down to the first. -/
theorem ancestorsBelow_eq {fuel : Nat} {p : Str} (hf : p.length ≤ fuel) :
    p :: ancestorsBelow fuel p = (List.range (segments p).length).map fun k =>
      join ((segments p).take ((segments p).length - k)) := by
  induction fuel generalizing p with
  | zero =>
    have hp : p = [] := List.length_eq_zero_iff.1 (Nat.le_zero.1 hf)
    subst hp
    rfl
  | succ fuel ih =>
    cases h : rfind '/' p with
    | none =>
      have hs := segments_of_not_mem ((rfind_eq_none_iff _ _).1 h)
      have hone : join [p] = p := List.append_nil p
      simp only [ancestorsBelow, h, hs, List.length_singleton, List.range_one, List.map_singleton,
        Nat.sub_zero, List.take_succ_cons, List.take_nil, hone]
    | some cut =>
      obtain ⟨_, _, hlt⟩ := rfind_eq_some '/' h
      have hs := segments_of_rfind h
      have hlen : (p.take cut).length ≤ fuel := by
        rw [List.length_take]
        omega
      have hcount : (segments p).length = (segments (p.take cut)).length + 1 := by
        rw [hs, List.length_append, List.length_singleton]
      simp only [ancestorsBelow, h]
      rw [ih hlen, hcount, List.range_succ_eq_map, List.map_cons, List.map_map, Nat.sub_zero,
        ← hcount, List.take_length, join_segments]
      apply congrArg (p :: ·)
      apply List.map_congr_left
      intro k hk
      rw [Function.comp_apply, hcount, Nat.add_sub_add_right, hs,
        List.take_append_of_le_length (Nat.sub_le _ _)]

/-- The path and its ancestors are its segments joined, one fewer at each turn. -/
theorem ancestors_eq (p : Str) : ancestors p = (List.range (segments p).length).map fun k =>
    join ((segments p).take ((segments p).length - k)) := ancestorsBelow_eq (Nat.le_refl _)

theorem ancestorsBelow_length {fuel : Nat} {p q : Str} (hq : q ∈ ancestorsBelow fuel p) :
    q.length < p.length := by
  induction fuel generalizing p with
  | zero => cases hq
  | succ fuel ih =>
    cases h : rfind '/' p with
    | none =>
      simp only [ancestorsBelow, h] at hq
      cases hq
    | some cut =>
      obtain ⟨_, _, hlt⟩ := rfind_eq_some '/' h
      have hlen : (p.take cut).length < p.length := by
        rw [List.length_take]
        omega
      simp only [ancestorsBelow, h] at hq
      rcases List.mem_cons.1 hq with rfl | hq
      · exact hlen
      · exact Nat.lt_trans (ih hq) hlen

theorem ancestorsBelow_shorten (fuel : Nat) (p : Str) :
    (ancestorsBelow fuel p).Pairwise fun a b => b.length < a.length := by
  induction fuel generalizing p with
  | zero => exact .nil
  | succ fuel ih =>
    simp only [ancestorsBelow]
    split
    · exact .cons (fun q hq => ancestorsBelow_length hq) (ih _)
    · exact .nil

/-- Each ancestor is shorter than the one before it. -/
theorem ancestors_shorten (p : Str) : (ancestors p).Pairwise fun a b => b.length < a.length :=
  .cons (fun _ hq => ancestorsBelow_length hq) (ancestorsBelow_shorten _ _)

/-- An ancestor of a project path is one itself. -/
theorem Grammatical.ancestor (h : Grammatical p) (hq : q ∈ ancestors p) : Grammatical q := by
  have hbefore := mem_ancestors.1 hq
  constructor
  · rcases Nat.lt_or_ge (segments q).length (segments p).length with hlt | hge
    · exact Nat.le_trans (Nat.le_of_lt (byteLen_lt_of_segments hbefore hlt)) h.1
    · rw [segments_inj (hbefore.eq_of_length (Nat.le_antisymm hbefore.length_le hge))]
      exact h.1
  · exact fun t ht => h.2 t (hbefore.subset ht)

/-- `validate` and `ancestors` are the grammar and the chain of the segments. -/
theorem path_segments (what : String) (p : Str) :
    (validate what p = .ok () ↔ byteLen p ≤ 255 ∧ ∃ ts, Joins p ts) ∧
    ∀ ts, byteLen p ≤ 255 → Joins p ts →
      ancestors p = (List.range ts.length).map (fun k => join (ts.take (ts.length - k))) ∧
      (ancestors p).length = ts.length ∧
      (ancestors p).Pairwise (fun a b => b.length < a.length) ∧
      (∀ q ∈ ancestors p, validate what q = .ok ()) ∧
      ∀ q us, validate what q = .ok () → Joins q us → (q ∈ ancestors p ↔ us <+: ts) := by
  refine ⟨(validate_ok_iff what p).trans grammatical_iff_joins, fun ts hlen h => ?_⟩
  have hgrammar : Grammatical p := grammatical_iff_joins.2 ⟨hlen, ts, h⟩
  have hchain := ancestors_eq p
  rw [h.segments] at hchain
  refine ⟨hchain, ?_, ancestors_shorten p, fun q hq => ?_, fun q us _ hus => ?_⟩
  · rw [hchain, List.length_map, List.length_range]
  · exact (validate_ok_iff what q).2 (hgrammar.ancestor hq)
  · rw [mem_ancestors, hus.segments, h.segments]

theorem path_segments_abc : "a/b".toList ∈ ancestors "a/b/c".toList ∧
    ancestors "a/b/c".toList = (List.range 3).map fun k =>
      join (["a".toList, "b".toList, "c".toList].take (3 - k)) := by
  have hlegal : ∀ t ∈ ["a".toList, "b".toList, "c".toList], LegalSegment t := by
    intro t ht
    rw [← segmentIsLegal_iff]
    revert t
    decide
  have hjoins : Joins "a/b/c".toList ["a".toList, "b".toList, "c".toList] :=
    ⟨List.cons_ne_nil _ _, by decide, hlegal⟩
  have habove : Joins "a/b".toList ["a".toList, "b".toList] :=
    ⟨List.cons_ne_nil _ _, by decide, fun t ht => hlegal t (List.mem_append_left ["c".toList] ht)⟩
  obtain ⟨_, hmodel⟩ := path_segments "path" "a/b/c".toList
  obtain ⟨hchain, _, _, _, hmem⟩ := hmodel _ (by decide) hjoins
  exact ⟨(hmem _ _ (by decide) habove).2 (List.prefix_append _ _), hchain⟩

/-- Lowercase hex digits in groups of 8, 4, 4, 4 and 12, the third starting with 7 and the fourth
with 8, 9, a or b. -/
def CanonicalUuid (s : Str) : Prop :=
  ∃ a b c d e, s = ['-'].intercalate [a, b, c, d, e] ∧
    [a, b, c, d, e].map List.length = [8, 4, 4, 4, 12] ∧
    (∀ g ∈ [a, b, c, d, e], ∀ x ∈ g, x ∈ hexDigits) ∧
    c.head? = some '7' ∧ ∃ x ∈ "89ab".toList, d.head? = some x

theorem dash_not_mem_hex {g : Str} (h : ∀ x ∈ g, x ∈ hexDigits) : '-' ∉ g :=
  fun hm => absurd (h _ hm) (by decide)

/-- The characters of a joined list are the separator's and those of its parts. -/
theorem mem_intercalate {c x : Char} {gs : List Str} :
    (x ∈ [c].intercalate gs → x = c ∨ ∃ g ∈ gs, x ∈ g) ∧
      ∀ g ∈ gs, x ∈ g → x ∈ [c].intercalate gs := by
  induction gs with
  | nil => exact ⟨fun hx => absurd hx List.not_mem_nil, fun _ hg => absurd hg List.not_mem_nil⟩
  | cons g gs ih =>
    cases gs with
    | nil =>
      rw [List.intercalate_singleton]
      refine ⟨fun hx => .inr ⟨g, List.mem_singleton.2 rfl, hx⟩, fun g' hg' hx => ?_⟩
      rwa [← List.mem_singleton.1 hg']
    | cons g' gs =>
      obtain ⟨hof, hmem⟩ := ih
      rw [List.intercalate_cons_cons, List.mem_append, List.mem_append, List.mem_singleton]
      constructor
      · rintro ((hx | hx) | hx)
        · exact .inr ⟨g, List.mem_cons_self, hx⟩
        · exact .inl hx
        · exact (hof hx).imp_right fun ⟨t, ht, hx⟩ => ⟨t, List.mem_cons_of_mem _ ht, hx⟩
      · intro t ht hx
        rcases List.mem_cons.1 ht with rfl | ht
        · exact .inl (.inl hx)
        · exact .inr (hmem t ht hx)

/-- The third and the fourth group stand at the positions the crate reads them at. -/
theorem getElem?_groups {a b c d e : Str}
    (hlen : [a, b, c, d, e].map List.length = [8, 4, 4, 4, 12]) :
    (['-'].intercalate [a, b, c, d, e])[14]? = c.head? ∧
      (['-'].intercalate [a, b, c, d, e])[19]? = d.head? := by
  simp only [List.map_cons, List.map_nil, List.cons.injEq, and_true] at hlen
  obtain ⟨ha, hb, hc, hd, _⟩ := hlen
  have hthird : ['-'].intercalate [a, b, c, d, e] =
      (a ++ '-' :: (b ++ ['-'])) ++ (c ++ '-' :: (d ++ '-' :: e)) := by
    simp only [List.intercalate, List.intersperse_cons_cons, List.intersperse_singleton,
      List.flatten_cons, List.flatten_nil, List.append_assoc, List.cons_append, List.nil_append,
      List.append_nil]
  have hfourth : ['-'].intercalate [a, b, c, d, e] =
      (a ++ '-' :: (b ++ '-' :: (c ++ ['-']))) ++ (d ++ '-' :: e) := by
    rw [hthird]
    simp only [List.append_assoc, List.cons_append, List.nil_append]
  have hhead : ∀ {x y : Str}, x.length = 4 → (x ++ y).head? = x.head? := by
    intro x y hx
    cases x with
    | nil => cases hx
    | cons _ _ => rfl
  constructor
  · rw [hthird, List.getElem?_append_right]
    · rw [← hhead hc, ← List.head?_drop]
      simp only [List.length_append, List.length_cons, List.length_nil, ha, hb, Nat.reduceAdd,
        Nat.sub_self, List.drop_zero]
      rfl
    · simp only [List.length_append, List.length_cons, List.length_nil, ha, hb, Nat.reduceAdd]
      exact Nat.le_refl 14
  · rw [hfourth, List.getElem?_append_right]
    · rw [← hhead hd, ← List.head?_drop]
      simp only [List.length_append, List.length_cons, List.length_nil, ha, hb, hc, Nat.reduceAdd,
        Nat.sub_self, List.drop_zero]
      rfl
    · simp only [List.length_append, List.length_cons, List.length_nil, ha, hb, hc, Nat.reduceAdd]
      exact Nat.le_refl 19

theorem canonicalUuid_iff : CanonicalUuid s ↔
    Hyphenated s ∧ s[14]? = some '7' ∧ ∃ x ∈ "89ab".toList, s[19]? = some x := by
  constructor
  · rintro ⟨a, b, c, d, e, rfl, hlen, hhex, hversion, hvariant⟩
    obtain ⟨hthird, hfourth⟩ := getElem?_groups hlen
    rw [hthird, hfourth]
    refine ⟨⟨?_, fun x hx => ?_⟩, hversion, hvariant⟩
    · rw [List.splitOn_intercalate '-' (fun g hg => dash_not_mem_hex (hhex g hg))
        (List.cons_ne_nil _ _)]
      exact hlen
    · rcases mem_intercalate.1 hx with hx | ⟨g, hg, hx⟩
      · exact .inl hx
      · exact .inr (hhex g hg x hx)
  · intro ⟨⟨hlen, hhex⟩, hversion, hvariant⟩
    have hjoin : ['-'].intercalate (s.splitOn '-') = s := List.intercalate_splitOn '-'
    have hgroup : ∀ g ∈ s.splitOn '-', ∀ x ∈ g, x ∈ hexDigits := by
      intro g hg x hx
      have hmem : x ∈ s := by
        rw [← hjoin]
        exact mem_intercalate.2 g hg hx
      rcases hhex x hmem with rfl | hx'
      · exact absurd hx (not_mem_of_mem_splitOn hg)
      · exact hx'
    rcases hs : s.splitOn '-' with _ | ⟨a, _ | ⟨b, _ | ⟨c, _ | ⟨d, _ | ⟨e, _ | ⟨f, l⟩⟩⟩⟩⟩⟩
    case cons.cons.cons.cons.cons.nil =>
      rw [hs] at hlen hjoin hgroup
      obtain ⟨hthird, hfourth⟩ := getElem?_groups hlen
      rw [hjoin] at hthird hfourth
      rw [hthird] at hversion
      rw [hfourth] at hvariant
      exact ⟨a, b, c, d, e, hjoin.symm, hlen, hgroup, hversion, hvariant⟩
    all_goals
      rw [hs] at hlen
      simp only [List.map_nil, List.map_cons, List.cons.injEq, reduceCtorEq, and_false] at hlen

theorem segments_of_isUnderOwnRoot {path seg : Str} (h : isUnderOwnRoot path seg = true) :
    ∃ rest, segments path = reservedRoot :: seg :: rest := by
  unfold isUnderOwnRoot at h
  rw [Bool.and_eq_true, beq_iff_eq, beq_iff_eq] at h
  obtain ⟨h₀, h₁⟩ := h
  cases hs : segments path with
  | nil =>
    rw [hs] at h₀
    cases h₀
  | cons x xs =>
    cases xs with
    | nil =>
      rw [hs] at h₁
      cases h₁
    | cons y ys =>
      rw [hs] at h₀ h₁
      cases h₀
      cases h₁
      exact ⟨ys, rfl⟩

/-- A path under an account's root folds, segment by segment, onto `local` and the account. -/
theorem folded_of_isUnderOwnRoot {path seg : Str} (h : isUnderOwnRoot path seg = true)
    (hseg : Hyphenated seg) :
    ∃ rest, (segments path).map toAsciiLowercase = reservedRoot :: seg :: rest := by
  obtain ⟨rest, hrest⟩ := segments_of_isUnderOwnRoot h
  have hroot : toAsciiLowercase reservedRoot = reservedRoot := by decide
  rw [hrest, List.map_cons, List.map_cons, hroot, lowercase_of_hyphenated hseg]
  exact ⟨_, rfl⟩

theorem isPrivateClass_of_own {path seg : Str} (h : isUnderOwnRoot path seg = true) :
    isPrivateClass path = true := by
  obtain ⟨rest, hrest⟩ := segments_of_isUnderOwnRoot h
  unfold isPrivateClass
  rw [hrest]
  exact (eqIgnoreAsciiCase_iff _ _).2 (.refl _)

/-- No ancestor of a path under one account's root folds onto a path under another's. -/
theorem roots_apart (hseg : Hyphenated seg) (hseg' : Hyphenated seg') (hne : seg ≠ seg')
    (h : isUnderOwnRoot p seg = true) (h' : isUnderOwnRoot q seg' = true) :
    ∀ a ∈ ancestors p, ¬ FoldsOnto a q := by
  intro a ha hfold
  obtain ⟨rest, hrest⟩ := folded_of_isUnderOwnRoot h hseg
  obtain ⟨rest', hrest'⟩ := folded_of_isUnderOwnRoot h' hseg'
  have hbefore := (mem_ancestors.1 ha).map toAsciiLowercase
  rw [hfold.segments, hrest, hrest', List.cons_prefix_cons, List.cons_prefix_cons] at hbefore
  exact hne hbefore.2.1.symm

section
variable [UuidCrate]

theorem accountSegment_iff {userId seg : Str} : accountSegment userId = some seg ↔
    userId = userIdPrefix ++ seg ∧ CanonicalUuid seg := by
  rw [canonicalUuid_iff]
  constructor
  · intro h
    obtain ⟨hbefore, hshape⟩ := accountSegment_eq_some h
    unfold accountSegment at h
    obtain ⟨seg', hp, h⟩ := Option.bind_eq_some_iff.1 h
    obtain ⟨uuid, _, h⟩ := Option.bind_eq_some_iff.1 h
    simp only at h
    split at h
    · rename_i hc
      cases h
      rw [Bool.and_eq_true, Bool.and_eq_true, beq_iff_eq, beq_iff_eq] at hc
      obtain ⟨⟨hversion, hvariant⟩, hrender⟩ := hc
      have hdigit := UuidCrate.version_digit uuid
      obtain ⟨x, hx, hat⟩ := (UuidCrate.variant_digit uuid).1 hvariant
      rw [hrender, hversion] at hdigit
      rw [hrender] at hat
      exact ⟨hbefore, hshape, hdigit, x, hx, hat⟩
    · cases h
  · intro ⟨hbefore, hshape, hdigit, x, hx, hat⟩
    obtain ⟨uuid, hrender⟩ := UuidCrate.hyphenated_onto seg hshape
    have hparse : UuidCrate.tryParse seg = some uuid :=
      (UuidCrate.tryParse_iff seg uuid).2
        ⟨seg, (lowercase_of_hyphenated hshape).trans hrender.symm, .inl rfl⟩
    have hversion : UuidCrate.getVersionNum uuid = 7 := by
      have hseven := UuidCrate.version_digit uuid
      rw [hrender, hdigit] at hseven
      have hsame : hexDigits[7]? = hexDigits[UuidCrate.getVersionNum uuid]? := hseven
      exact ((List.getElem?_inj (by decide : 7 < hexDigits.length) (by decide)).1 hsame).symm
    have hvariant : UuidCrate.isRfc4122 uuid = true :=
      (UuidCrate.variant_digit uuid).2 ⟨x, hx, by rw [hrender, hat]⟩
    unfold accountSegment
    rw [isPrefixOf?_eq_some.2 hbefore, Option.bind_eq_bind, Option.bind_some, hparse,
      Option.bind_eq_bind, Option.bind_some, hversion, hvariant, hrender]
    simp only [beq_self_eq_true, Bool.and_self, ↓reduceIte]

/-- The canonical user ids own a segment each, and the roots of two of them have nothing in
common. -/
theorem account_roots_disjoint :
    (∀ userId seg, accountSegment userId = some seg ↔
      userId = userIdPrefix ++ seg ∧ CanonicalUuid seg) ∧
    (∀ userId, accountSegment userId = none ↔
      ¬ ∃ seg, userId = userIdPrefix ++ seg ∧ CanonicalUuid seg) ∧
    ∀ u₁ u₂ seg₁ seg₂, u₁ ≠ u₂ → accountSegment u₁ = some seg₁ → accountSegment u₂ = some seg₂ →
      ∀ p₁ p₂, isUnderOwnRoot p₁ seg₁ = true → isUnderOwnRoot p₂ seg₂ = true →
        ¬ FoldsOnto p₁ p₂ ∧ (∀ a ∈ ancestors p₁, ¬ FoldsOnto a p₂) ∧
        (∀ a ∈ ancestors p₂, ¬ FoldsOnto a p₁) ∧
        isPrivateClass p₁ = true ∧ isPrivateClass p₂ = true := by
  refine ⟨fun _ _ => accountSegment_iff, fun userId => ?_, ?_⟩
  · constructor
    · intro hnone ⟨seg, h⟩
      rw [accountSegment_iff.2 h] at hnone
      cases hnone
    · intro h
      cases hs : accountSegment userId with
      | none => rfl
      | some seg => exact absurd ⟨seg, accountSegment_iff.1 hs⟩ h
  · intro u₁ u₂ seg₁ seg₂ hne h₁ h₂ p₁ p₂ hp₁ hp₂
    obtain ⟨rfl, hseg₁⟩ := accountSegment_eq_some h₁
    obtain ⟨rfl, hseg₂⟩ := accountSegment_eq_some h₂
    have hapart : seg₁ ≠ seg₂ := fun he => hne (congrArg (userIdPrefix ++ ·) he)
    have hbelow := roots_apart hseg₁ hseg₂ hapart hp₁ hp₂
    exact ⟨hbelow p₁ List.mem_cons_self, hbelow,
      roots_apart hseg₂ hseg₁ (Ne.symm hapart) hp₂ hp₁, isPrivateClass_of_own hp₁,
      isPrivateClass_of_own hp₂⟩

end

section
open scoped Reference

/-- Two accounts whose ids differ in the last digit. -/
theorem account_roots_disjoint_digit :
    accountSegment "yadgar:user:01920000-0000-7000-8000-00000000000a".toList =
      some "01920000-0000-7000-8000-00000000000a".toList ∧
    ¬ FoldsOnto "local/01920000-0000-7000-8000-00000000000a/src".toList
      "local/01920000-0000-7000-8000-00000000000b".toList := by
  obtain ⟨_, _, hapart⟩ := account_roots_disjoint
  have hfirst : accountSegment "yadgar:user:01920000-0000-7000-8000-00000000000a".toList =
      some "01920000-0000-7000-8000-00000000000a".toList := by decide +kernel
  have hsecond : accountSegment "yadgar:user:01920000-0000-7000-8000-00000000000b".toList =
      some "01920000-0000-7000-8000-00000000000b".toList := by decide +kernel
  obtain ⟨hfold, _⟩ := hapart _ _ _ _ (by decide) hfirst hsecond
    "local/01920000-0000-7000-8000-00000000000a/src".toList
    "local/01920000-0000-7000-8000-00000000000b".toList (by decide) (by decide)
  exact ⟨hfirst, hfold⟩

end

end ProjectDb.Path

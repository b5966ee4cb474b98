import ProjectDb.Status

namespace ProjectDb.Path
open Text
set_option autoImplicit true

def hexDigits : Str := "0123456789abcdef".toList

/-- Five groups of lowercase hex digits, of 8, 4, 4, 4 and 12. -/
def Hyphenated (s : Str) : Prop :=
  (s.splitOn '-').map List.length = [8, 4, 4, 4, 12] ∧ ∀ c ∈ s, c = '-' ∨ c ∈ hexDigits

instance : DecidablePred Hyphenated := fun s =>
  @instDecidableAnd _ _ inferInstance (List.decidableBAll (fun c => c = '-' ∨ c ∈ hexDigits) s)

/-- What the service relies on of the `uuid` crate: `try_parse` takes the hyphenated, simple,
braced and URN spellings in either hex case, and `hyphenated` renders the lowercase form. -/
class UuidCrate where
  Uuid : Type
  tryParse : Str → Option Uuid
  getVersionNum : Uuid → Nat
  isRfc4122 : Uuid → Bool
  hyphenated : Uuid → Str
  hyphenated_shape : ∀ u, Hyphenated (hyphenated u)
  hyphenated_onto : ∀ s, Hyphenated s → ∃ u, hyphenated u = s
  hyphenated_inj : ∀ u v, hyphenated u = hyphenated v → u = v
  tryParse_iff : ∀ s u, tryParse s = some u ↔ ∃ t, toAsciiLowercase t = hyphenated u ∧
    (s = t ∨ s = t.filter (· ≠ '-') ∨ s = '{' :: t ++ ['}'] ∨ s = "urn:uuid:".toList ++ t)
  version_digit : ∀ u, (hyphenated u)[14]? = hexDigits[getVersionNum u]?
  variant_digit : ∀ u, isRfc4122 u = true ↔ ∃ c ∈ "89ab".toList, (hyphenated u)[19]? = some c

def maxLen : Nat := 255

def reservedRoot : Str := "local".toList

def refuseReservedRoot (what : String) (path : Str) : Except Status Unit :=
  if eqIgnoreAsciiCase path reservedRoot then
    .error (.invalidArgument [what, " is ", .debug path, ", which is the RESERVED segment ",
      .debug reservedRoot, " and is not an organisation — the store folds ASCII case, so every ",
      "spelling of it is one key. It is the first segment of the private class of project ids — ",
      "a directory that is not a repository is registered beneath it — so a project owning it ",
      "would be the nearest registered ancestor of every private path in the estate, and every ",
      "one of them would resolve into it (D52, D53). Name the project itself, such as \"",
      .shown reservedRoot, "/<your-account-uuid>/home/you/src/thing\" (ADR-0954), or an ",
      "organisation of your own"])
  else
    .ok ()

def isPrivateClass (path : Str) : Bool :=
  match segments path with
  | root :: _ :: _ => eqIgnoreAsciiCase root reservedRoot
  | _ => false

def userIdPrefix : Str := "yadgar:user:".toList

def accountSegment [UuidCrate] (userId : Str) : Option Str := do
  let seg ← userIdPrefix.isPrefixOf? userId
  let uuid ← UuidCrate.tryParse seg
  let canonical := UuidCrate.getVersionNum uuid == 7 && UuidCrate.isRfc4122 uuid &&
    UuidCrate.hyphenated uuid == seg
  if canonical then some seg else none

def isUnderOwnRoot (path seg : Str) : Bool :=
  (segments path)[0]? == some reservedRoot && (segments path)[1]? == some seg

def isAsciiAlphanumeric (c : Char) : Bool :=
  ('0' ≤ c && c ≤ '9') || ('A' ≤ c && c ≤ 'Z') || ('a' ≤ c && c ≤ 'z')

def segmentIsLegal (segment : Str) : Bool :=
  !segment.isEmpty && segment != ['.'] && segment != ['.', '.'] &&
    segment.all (fun c => isAsciiAlphanumeric c || c == '.' || c == '_' || c == '-')

def validate (what : String) (path : Str) : Except Status Unit :=
  if path.isEmpty then
    .error (.invalidArgument [what, " is required and is never derived: a project path is ",
      "supplied by the caller or the call is refused (ADR-0227). It is a slash-separated path ",
      "such as \"acme/forecast\" (D53)"])
  else if byteLen path > maxLen then
    .error (.invalidArgument [what, " is ", .num (byteLen path), " characters and the limit is ",
      .num maxLen, ". The value is not repeated here because it is longer than any message this ",
      "service writes"])
  else if path.head? == some '/' || path.getLast? == some '/' then
    .error (.invalidArgument [what, " must not begin or end with a slash: ", .debug path,
      ". A project path names a hierarchy of segments (D53), and a leading or trailing slash is ",
      "an empty segment"])
  else
    match (segments path).find? (fun segment => !segmentIsLegal segment) with
    | some segment =>
      .error (.invalidArgument [what, " contains the segment ", .debug segment, ", which is not ",
        "a project path segment: ", .debug path, ". A segment is one or more of A-Z a-z 0-9 . ",
        "_ - and is neither \".\" nor \"..\". Spaces and punctuation are refused because a ",
        "required free-text identifier attracts a DESCRIPTION, and a description accepted as an ",
        "identity mints a project nobody meant to create (D52)"])
    | none => .ok ()

/-- The loop of `ancestors`, which cuts one segment a turn and so ends within the length. -/
def ancestorsBelow : Nat → Str → List Str
  | 0, _ => []
  | fuel + 1, rest =>
    match rfind '/' rest with
    | some cut => rest.take cut :: ancestorsBelow fuel (rest.take cut)
    | none => []

/-- The path and every ancestor of it, deepest first. -/
def ancestors (path : Str) : List Str := path :: ancestorsBelow path.length path

example : ancestors "a/b/c".toList = ["a/b/c".toList, "a/b".toList, "a".toList] := by decide

/-- A segment of the path alphabet that is not one of the two dot segments. -/
def LegalSegment (t : Str) : Prop :=
  t ≠ [] ∧ t ≠ ['.'] ∧ t ≠ ['.', '.'] ∧
    ∀ c ∈ t, isAsciiAlphanumeric c = true ∨ c = '.' ∨ c = '_' ∨ c = '-'

/-- The path grammar: at most 255 bytes of legal segments. -/
def Grammatical (path : Str) : Prop :=
  byteLen path ≤ maxLen ∧ ∀ t ∈ segments path, LegalSegment t

theorem segmentIsLegal_iff (t : Str) : segmentIsLegal t = true ↔ LegalSegment t := by
  simp only [segmentIsLegal, Bool.and_eq_true, Bool.not_eq_true', List.isEmpty_eq_false_iff,
    bne_iff_ne, List.all_eq_true, Bool.or_eq_true, beq_iff_eq, LegalSegment, and_assoc,
    or_assoc, ne_eq]

theorem nil_mem_segments_of_head {path : Str} (h : path.head? = some '/') :
    [] ∈ segments path := by
  cases path with
  | nil => cases h
  | cons c t =>
    cases h
    rw [segments_cons]
    exact List.mem_cons_self

theorem nil_mem_segments_of_last {path : Str} (h : path.getLast? = some '/') :
    [] ∈ segments path := by
  obtain ⟨t, ht⟩ := List.getLast?_eq_some_iff.1 h
  rw [ht, segments_append_slash]
  exact List.mem_append_right _ (List.mem_singleton.2 rfl)

/-- `validate` accepts exactly the grammar. -/
theorem validate_ok_iff (what : String) (path : Str) :
    validate what path = .ok () ↔ Grammatical path := by
  unfold validate
  split
  · rename_i h
    rw [List.isEmpty_iff.1 h]
    simp only [reduceCtorEq, false_iff]
    exact fun hg => (hg.2 [] (List.mem_singleton.2 rfl)).1 rfl
  · split
    · rename_i h
      simp only [reduceCtorEq, false_iff]
      exact fun hg => Nat.not_lt_of_ge hg.1 h
    · rename_i hlen
      split
      · rename_i h
        simp only [reduceCtorEq, false_iff]
        intro hg
        simp only [Bool.or_eq_true, beq_iff_eq] at h
        rcases h with h | h
        · exact (hg.2 [] (nil_mem_segments_of_head h)).1 rfl
        · exact (hg.2 [] (nil_mem_segments_of_last h)).1 rfl
      · split
        · rename_i segment h
          simp only [reduceCtorEq, false_iff]
          intro hg
          have hl := (segmentIsLegal_iff _).2 (hg.2 segment (List.mem_of_find?_eq_some h))
          have hn := List.find?_some h
          rw [hl] at hn
          cases hn
        · rename_i h
          simp only [true_iff]
          refine ⟨Nat.le_of_not_gt hlen, fun t ht => ?_⟩
          have hn := List.find?_eq_none.1 h t ht
          simp only [Bool.not_eq_true', Bool.not_eq_false] at hn
          exact (segmentIsLegal_iff _).1 hn

theorem validate_code {what : String} {path : Str} (h : validate what path = .error e) :
    e.code = .invalidArgument := by
  unfold validate at h
  split at h
  · cases h; rfl
  · split at h
    · cases h; rfl
    · split at h
      · cases h; rfl
      · split at h
        · cases h; rfl
        · cases h

theorem Grammatical.ne_nil {path : Str} (h : Grammatical path) : path ≠ [] := by
  rintro rfl
  exact (h.2 [] List.mem_cons_self).1 rfl

theorem refuseReservedRoot_ok_iff (what : String) (path : Str) :
    refuseReservedRoot what path = .ok () ↔ ¬ FoldsOnto path reservedRoot := by
  unfold refuseReservedRoot
  simp only [eqIgnoreAsciiCase_iff]
  split
  · rename_i h
    simp only [reduceCtorEq, h, not_true_eq_false]
  · rename_i h
    simp only [h, not_false_eq_true]

theorem refuseReservedRoot_code {what : String} {path : Str}
    (h : refuseReservedRoot what path = .error e) : e.code = .invalidArgument := by
  unfold refuseReservedRoot at h
  split at h
  · cases h; rfl
  · cases h

theorem eq_of_segments_prefix {p q : Str} (h : (segments p).length ≤ 1)
    (hq : segments q <+: segments p) : q = p := by
  have hpos := List.length_pos_iff.2 (segments_ne_nil q)
  have hle := hq.length_le
  exact segments_inj (hq.eq_of_length (by omega))

theorem mem_ancestorsBelow {fuel : Nat} {p q : Str} (hf : p.length ≤ fuel) :
    q ∈ ancestorsBelow fuel p ↔ segments q <+: segments p ∧ q ≠ p := by
  induction fuel generalizing p with
  | zero =>
    have hp : p = [] := List.length_eq_zero_iff.1 (Nat.le_zero.1 hf)
    subst hp
    simp only [ancestorsBelow, List.not_mem_nil, false_iff, not_and, not_not]
    exact eq_of_segments_prefix (Nat.le_refl 1)
  | succ fuel ih =>
    cases h : rfind '/' p with
    | none =>
      have hs := segments_of_not_mem ((rfind_eq_none_iff _ _).1 h)
      simp only [ancestorsBelow, h, List.not_mem_nil, false_iff, not_and, not_not]
      apply eq_of_segments_prefix
      rw [hs]
      exact Nat.le_refl 1
    | some cut =>
      obtain ⟨_, _, hlt⟩ := rfind_eq_some '/' h
      have hs := segments_of_rfind h
      have hlen : (p.take cut).length ≤ fuel := by
        rw [List.length_take]
        omega
      simp only [ancestorsBelow, h, List.mem_cons, ih hlen]
      rw [hs, List.prefix_concat_iff]
      constructor
      · rintro (rfl | ⟨hq, _⟩)
        · refine ⟨.inr (List.prefix_refl _), fun he => ?_⟩
          have hl := congrArg List.length he
          rw [List.length_take] at hl
          omega
        · refine ⟨.inr hq, fun he => ?_⟩
          have hl := hq.length_le
          rw [he, hs, List.length_append] at hl
          simp only [List.length_singleton] at hl
          omega
      · rintro ⟨hq | hq, hne⟩
        · exact absurd (segments_inj (hq.trans hs.symm)) hne
        · by_cases he : q = p.take cut
          · exact .inl he
          · exact .inr ⟨hq, he⟩

/-- The ancestors of a path are the paths whose segments begin its own. -/
theorem mem_ancestors {p q : Str} : q ∈ ancestors p ↔ segments q <+: segments p := by
  simp only [ancestors, List.mem_cons, mem_ancestorsBelow (Nat.le_refl _)]
  constructor
  · rintro (rfl | ⟨h, _⟩)
    · exact List.prefix_refl _
    · exact h
  · intro h
    by_cases he : q = p
    · exact .inl he
    · exact .inr ⟨h, he⟩

theorem exists_of_segments_append {p : Str} (h : segments p = xs ++ ys) (hys : ys ≠ []) :
    ∃ t, segments t = ys := by
  refine ⟨['/'].intercalate ys, List.splitOn_intercalate '/' (fun t ht => ?_) hys⟩
  apply slash_not_mem_segment (s := p)
  rw [h]
  exact List.mem_append_right _ ht

theorem byteLen_lt_of_segments {p q : Str} (h : segments q <+: segments p)
    (hlt : (segments q).length < (segments p).length) : byteLen q < byteLen p := by
  obtain ⟨ys, hys⟩ := h
  have hne : ys ≠ [] := by
    intro he
    rw [he, List.append_nil] at hys
    rw [hys] at hlt
    exact Nat.lt_irrefl _ hlt
  obtain ⟨t, ht⟩ := exists_of_segments_append hys.symm hne
  have hp : p = q ++ '/' :: t := by
    apply segments_inj
    rw [segments_append_slash, ht, hys]
  have hslash : byteLen ('/' :: t) = 1 + byteLen t := rfl
  rw [hp, byteLen_append, hslash]
  omega

theorem isAsciiAlphanumeric_iff (c : Char) : isAsciiAlphanumeric c = true ↔
    (48 ≤ c.val.toNat ∧ c.val.toNat ≤ 57) ∨ (65 ≤ c.val.toNat ∧ c.val.toNat ≤ 90) ∨
      (97 ≤ c.val.toNat ∧ c.val.toNat ≤ 122) := by
  have hle : ∀ a b : Char, a ≤ b ↔ a.val.toNat ≤ b.val.toNat := fun _ _ => UInt32.le_iff_toNat_le
  simp only [isAsciiAlphanumeric, Bool.or_eq_true, Bool.and_eq_true, decide_eq_true_eq, hle,
    or_assoc]
  exact Iff.rfl

theorem isAsciiAlphanumeric_toLower (c : Char) :
    isAsciiAlphanumeric c.toLower = isAsciiAlphanumeric c := by
  by_cases hc : c.val ≥ 'A'.val ∧ c.val ≤ 'Z'.val
  · obtain ⟨h₁, h₂, h₃⟩ := toLower_val_nat hc
    rw [Bool.eq_iff_iff, isAsciiAlphanumeric_iff, isAsciiAlphanumeric_iff]
    omega
  · rw [toLower_eq_of_not_upper hc]

@[simp] theorem toLower_eq_dot {c : Char} : c.toLower = '.' ↔ c = '.' :=
  toLower_eq_iff (by decide) (by decide)

@[simp] theorem toLower_eq_underscore {c : Char} : c.toLower = '_' ↔ c = '_' :=
  toLower_eq_iff (by decide) (by decide)

@[simp] theorem toLower_eq_dash {c : Char} : c.toLower = '-' ↔ c = '-' :=
  toLower_eq_iff (by decide) (by decide)

theorem legalSegment_toAsciiLowercase (t : Str) :
    LegalSegment (toAsciiLowercase t) ↔ LegalSegment t := by
  have hdot : toAsciiLowercase t = ['.'] ↔ t = ['.'] := by
    simp [toAsciiLowercase]
  have hdots : toAsciiLowercase t = ['.', '.'] ↔ t = ['.', '.'] := by
    simp [toAsciiLowercase, List.map_eq_cons_iff]
  have hall : (∀ c ∈ toAsciiLowercase t, isAsciiAlphanumeric c = true ∨ c = '.' ∨ c = '_' ∨
      c = '-') ↔ ∀ c ∈ t, isAsciiAlphanumeric c = true ∨ c = '.' ∨ c = '_' ∨ c = '-' := by
    simp only [toAsciiLowercase, List.forall_mem_map, isAsciiAlphanumeric_toLower, toLower_eq_dot,
      toLower_eq_underscore, toLower_eq_dash]
  have hnil : toAsciiLowercase t = [] ↔ t = [] := List.map_eq_nil_iff
  simp only [LegalSegment, ne_eq, hnil, hdot, hdots, hall]

theorem Grammatical.congr (h : FoldsOnto p q) (hp : Grammatical p) : Grammatical q := by
  constructor
  · rw [← h.byteLen_eq]
    exact hp.1
  · intro t ht
    have hm : toAsciiLowercase t ∈ (segments p).map toAsciiLowercase := by
      rw [h.segments]
      exact List.mem_map_of_mem ht
    obtain ⟨u, hu, he⟩ := List.mem_map.1 hm
    rw [← legalSegment_toAsciiLowercase, ← he, legalSegment_toAsciiLowercase]
    exact hp.2 u hu

theorem length_of_hyphenated (h : Hyphenated u) : u.length = 36 := by
  have hjoin : ['-'].intercalate (u.splitOn '-') = u := List.intercalate_splitOn '-'
  have hlen := h.1
  rcases hs : u.splitOn '-' with _ | ⟨a, _ | ⟨b, _ | ⟨c, _ | ⟨d, _ | ⟨e, _ | ⟨f, l⟩⟩⟩⟩⟩⟩
  all_goals rw [hs] at hlen hjoin
  all_goals simp only [List.map_nil, List.map_cons, List.cons.injEq, reduceCtorEq, and_false,
    and_true] at hlen
  rw [← hjoin]
  simp only [List.intercalate, List.intersperse_cons_cons, List.intersperse_singleton,
    List.flatten_cons, List.flatten_nil, List.length_append, List.length_singleton,
    List.length_nil]
  omega

theorem lowercase_of_hyphenated {s : Str} (h : Hyphenated s) : toAsciiLowercase s = s := by
  have hhex : hexDigits.all (fun c => c.toLower == c) = true := by decide
  have hlower : ∀ c ∈ s, c.toLower = c := by
    intro c hc
    rcases h.2 c hc with rfl | hc
    · rfl
    · exact beq_iff_eq.1 (List.all_eq_true.1 hhex c hc)
  exact (List.map_congr_left hlower).trans (List.map_id s)

theorem slash_not_mem_hyphenated {s : Str} (h : Hyphenated s) : '/' ∉ s := by
  intro hm
  rcases h.2 '/' hm with he | he
  · cases he
  · exact absurd he (by decide)

theorem accountSegment_eq_some [UuidCrate] {owner seg : Str} (h : accountSegment owner = some seg) :
    owner = userIdPrefix ++ seg ∧ Hyphenated seg := by
  unfold accountSegment at h
  obtain ⟨seg', hp, h⟩ := Option.bind_eq_some_iff.1 h
  obtain ⟨uuid, _, h⟩ := Option.bind_eq_some_iff.1 h
  simp only at h
  split at h
  · rename_i hc
    cases h
    rw [Bool.and_eq_true, beq_iff_eq] at hc
    refine ⟨isPrefixOf?_eq_some.1 hp, ?_⟩
    rw [← hc.2]
    exact UuidCrate.hyphenated_shape uuid
  · cases h

end ProjectDb.Path

namespace ProjectDb
open Text ProjectDb.Path

/-- A path that is the root or lies beneath it, to the byte. -/
def Beneath (root path : Str) : Prop := path = root ∨ ∃ rest, path = root ++ '/' :: rest

theorem beneath_of_segments {root path : Str} (h : segments root <+: segments path) :
    Beneath root path := by
  obtain ⟨ys, hys⟩ := h
  cases ys with
  | nil =>
    rw [List.append_nil] at hys
    exact .inl (segments_inj hys.symm)
  | cons y ys =>
    obtain ⟨t, ht⟩ := exists_of_segments_append hys.symm (List.cons_ne_nil y ys)
    refine .inr ⟨t, segments_inj ?_⟩
    rw [segments_append_slash, ht, hys]

theorem segments_of_beneath {root path : Str} (h : Beneath root path) :
    segments root <+: segments path := by
  rcases h with rfl | ⟨rest, rfl⟩
  · exact List.prefix_refl _
  · rw [segments_append_slash]
    exact List.prefix_append _ _

theorem mem_ancestors_iff {path q : Str} : q ∈ ancestors path ↔ Beneath q path :=
  mem_ancestors.trans ⟨beneath_of_segments, segments_of_beneath⟩

end ProjectDb

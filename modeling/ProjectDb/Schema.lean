import Mathlib.Data.List.DropRight
import ProjectDb.Path

namespace ProjectDb
open Text ProjectDb.Path
set_option autoImplicit true

abbrev Bytes := List UInt8

/-- Seconds from the epoch, the precision of a `TIMESTAMP` column. -/
abbrev Time := Int

inductive ProjectStatus
  | unspecified
  | active
  | archived
  deriving DecidableEq, Repr

def ProjectStatus.toI8 : ProjectStatus → Int
  | .unspecified => 0
  | .active => 1
  | .archived => 2

def ProjectStatus.tryFrom (n : Int) : Option ProjectStatus :=
  if n = 0 then some .unspecified
  else if n = 1 then some .active
  else if n = 2 then some .archived
  else none

inductive Visibility
  | unspecified
  | private_
  | team
  | org
  deriving DecidableEq, Repr

def Visibility.toI8 : Visibility → Int
  | .unspecified => 0
  | .private_ => 1
  | .team => 2
  | .org => 3

inductive GrantLevel
  | unspecified
  | read
  | readWrite
  deriving DecidableEq, Repr

def GrantLevel.toI8 : GrantLevel → Int
  | .unspecified => 0
  | .read => 1
  | .readWrite => 2

def GrantLevel.tryFrom (n : Int) : Option GrantLevel :=
  if n = 0 then some .unspecified
  else if n = 1 then some .read
  else if n = 2 then some .readWrite
  else none

/-- `version` is `BIGINT UNSIGNED` and grows by one a statement, so that no run exhausts it. -/
structure ProjectRow where
  id : Str
  version : Nat
  path : Str
  displayName : Str
  status : Int
  sourceRepo : Option Str
  ownerUserId : Option Str
  visibility : Int
  createdBy : Str
  updatedBy : Str
  createdAt : Time
  updatedAt : Time
  lastSeenAt : Option Time
  deriving DecidableEq, Repr

structure AliasRow where
  aliasPath : Str
  projectId : Str
  deriving DecidableEq, Repr

structure WriteRow where
  projectId : Str
  userId : Str
  idemKey : Str
  rpc : Str
  response : Bytes
  requestFingerprint : Bytes
  deriving DecidableEq, Repr

structure GrantRow where
  projectId : Str
  teamId : Str
  level : Int
  deriving DecidableEq, Repr

/-- The tables. The sentinel row of `project_sync_lock` never changes and is a lock alone. -/
structure Store where
  project : List ProjectRow
  projectAlias : List AliasRow
  projectWrite : List WriteRow
  projectGrant : List GrantRow
  deriving DecidableEq, Repr

def Store.empty : Store := ⟨[], [], [], []⟩

/-- The server's default collation, which the ledger's key columns take. It pads values with spaces,
as every default of MariaDB does: two are equal when, but for the spaces that they end in, their
weights are. -/
class ServerCollation where
  weight : Str → Str

/-- A collation that folds ASCII case alone. -/
abbrev ServerCollation.ascii : ServerCollation := ⟨toAsciiLowercase⟩

def ServerCollation.collated [ServerCollation] (s : Str) : Str := weight (s.rdropWhile (· == ' '))

/-- The primary key of `project_write`, as the engine compares it. -/
def ledgerKey [ServerCollation] (projectId userId idemKey : Str) : Str × Str × Str :=
  (ServerCollation.collated projectId, ServerCollation.collated userId,
    ServerCollation.collated idemKey)

def WriteRow.key [ServerCollation] (w : WriteRow) : Str × Str × Str :=
  ledgerKey w.projectId w.userId w.idemKey

/-- What a `VARCHAR` column keeps of a value, in every `sql_mode`: all but the spaces at its end
that the width has no room for. -/
def varchar (width : Nat) (s : Str) : Str :=
  if (s.drop width).all (· == ' ') then s.take width else s

/-- A ledger row as its columns keep it, where it `fits` them. -/
def WriteRow.kept (w : WriteRow) : WriteRow :=
  { w with
    projectId := varchar 255 w.projectId
    userId := varchar 64 w.userId
    idemKey := varchar 255 w.idemKey
    rpc := varchar 32 w.rpc }

/-- `path LIKE 'local/%'` under the column's collation. -/
def likeLocal (path : Str) : Bool := "local/".toList.isPrefixOf (toAsciiLowercase path)

def ckProjectClass (r : ProjectRow) : Bool := r.sourceRepo.isSome != r.ownerUserId.isSome

def ckProjectClassPath (r : ProjectRow) : Bool := r.ownerUserId.isSome == likeLocal r.path

/-- The column widths, in characters, and the two CHECKs of `project`. -/
def ProjectRow.fits (r : ProjectRow) : Bool :=
  r.id.length ≤ 96 && r.path.length ≤ 255 && r.displayName.length ≤ 255 &&
    r.sourceRepo.all (·.length ≤ 255) && r.ownerUserId.all (·.length ≤ 64) &&
    r.createdBy.length ≤ 64 && r.updatedBy.length ≤ 64 && ckProjectClass r && ckProjectClassPath r

def WriteRow.fits (w : WriteRow) : Bool :=
  w.projectId.length ≤ 255 && w.userId.length ≤ 64 && w.idemKey.length ≤ 255 &&
    w.rpc.length ≤ 32 && w.response.length ≤ 4096 && w.requestFingerprint.length == 32

theorem rdropWhile_append_all {p : α → Bool} {l r : List α} (h : r.all p = true) :
    (l ++ r).rdropWhile p = l.rdropWhile p := by
  have hall : ∀ a ∈ r.reverse, p a = true :=
    fun a ha => List.all_eq_true.1 h a (List.mem_reverse.1 ha)
  rw [List.rdropWhile, List.rdropWhile, List.reverse_append, List.dropWhile_append_of_pos hall]

@[simp] theorem collated_varchar [ServerCollation] (width : Nat) (s : Str) :
    ServerCollation.collated (varchar width s) = ServerCollation.collated s := by
  unfold varchar
  split
  · rename_i h
    have hpadded := rdropWhile_append_all (l := s.take width) h
    rw [List.take_append_drop] at hpadded
    unfold ServerCollation.collated
    rw [hpadded]
  · rfl

theorem varchar_of_le {width : Nat} {s : Str} (h : s.length ≤ width) : varchar width s = s := by
  unfold varchar
  rw [List.drop_eq_nil_of_le h, List.take_of_length_le h]
  rfl

@[simp] theorem WriteRow.kept_key [ServerCollation] (w : WriteRow) : w.kept.key = w.key := by
  simp only [WriteRow.key, WriteRow.kept, ledgerKey, collated_varchar]

theorem WriteRow.kept_of_fits {w : WriteRow} (h : w.fits = true) : w.kept = w := by
  simp only [WriteRow.fits, Bool.and_eq_true, decide_eq_true_eq] at h
  simp only [WriteRow.kept, varchar_of_le h.1.1.1.1.1, varchar_of_le h.1.1.1.1.2,
    varchar_of_le h.1.1.1.2, varchar_of_le h.1.1.2]

def GrantRow.fits (g : GrantRow) : Bool :=
  g.projectId.length ≤ 96 && g.teamId.length ≤ 96 && (g.level == 1 || g.level == 2)

def ProjectRow.isOrg (r : ProjectRow) : Bool := r.ownerUserId.isNone

def Store.orgRows (s : Store) : List ProjectRow := s.project.filter ProjectRow.isOrg

/-- What the keys and the CHECKs of the migrated tables hold of every store. -/
structure Store.Schema [ServerCollation] (s : Store) : Prop where
  id_key : (s.project.map ProjectRow.id).Nodup
  path_key : (s.project.map (fun r => toAsciiLowercase r.path)).Nodup
  row_fits : ∀ r ∈ s.project, r.fits = true
  alias_key : (s.projectAlias.map (fun a => toAsciiLowercase a.aliasPath)).Nodup
  write_key : (s.projectWrite.map WriteRow.key).Nodup
  grant_key : (s.projectGrant.map (fun g => (g.projectId, g.teamId))).Nodup
  grant_fits : ∀ g ∈ s.projectGrant, g.fits = true
  grant_project : ∀ g ∈ s.projectGrant, ∃ r ∈ s.project, r.id = g.projectId

/-- The ledger has a row of the key. -/
def Store.HasKey [ServerCollation] (s : Store) (key : Str × Str × Str) : Prop :=
  ∃ w ∈ s.projectWrite, w.key = key

theorem ckProjectClass_iff (r : ProjectRow) :
    ckProjectClass r = true ↔ (r.sourceRepo.isSome ↔ r.ownerUserId.isNone) := by
  cases h : r.sourceRepo <;> cases h' : r.ownerUserId <;>
    simp only [ckProjectClass, h, h', Option.isSome_none, Option.isSome_some, Option.isNone_none,
      Option.isNone_some, bne_self_eq_false, Bool.false_eq_true, Bool.true_bne, Bool.false_bne,
      Bool.not_false, iff_true, iff_false, not_true_eq_false, iff_self]

theorem segments_private {path : Str} :
    isPrivateClass path = true ↔
      ∃ root next rest, segments path = root :: next :: rest ∧ FoldsOnto root reservedRoot := by
  unfold isPrivateClass
  constructor
  · intro h
    split at h
    · rename_i root next rest hs
      exact ⟨root, next, rest, hs, (eqIgnoreAsciiCase_iff _ _).1 h⟩
    · cases h
  · rintro ⟨root, next, rest, hs, h⟩
    rw [hs]
    exact (eqIgnoreAsciiCase_iff _ _).2 h

theorem isPrivateClass_congr (h : FoldsOnto a b) : isPrivateClass a = isPrivateClass b := by
  have hmap := h.segments
  unfold isPrivateClass
  cases ha : segments a with
  | nil => exact absurd ha (segments_ne_nil a)
  | cons x xs =>
    cases hb : segments b with
    | nil => exact absurd hb (segments_ne_nil b)
    | cons y ys =>
      rw [ha, hb] at hmap
      simp only [List.map_cons, List.cons.injEq] at hmap
      cases xs with
      | nil =>
        have hys : ys = [] := by simpa using hmap.2
        rw [hys]
      | cons x' xs =>
        cases ys with
        | nil => simp at hmap
        | cons y' ys => simp only [eqIgnoreAsciiCase, hmap.1]

theorem isPrivateClass_of_likeLocal {path : Str} (h : likeLocal path = true) :
    isPrivateClass path = true := by
  obtain ⟨t, ht⟩ := List.isPrefixOf_iff_prefix.1 h
  have hf : FoldsOnto (toAsciiLowercase path) path := .toAsciiLowercase path
  rw [← isPrivateClass_congr hf, ← ht, segments_private]
  have hs : segments ("local/".toList ++ t) = "local".toList :: segments t :=
    segments_append_slash "local".toList t
  cases h' : segments t with
  | nil => exact absurd h' (segments_ne_nil t)
  | cons x xs => exact ⟨"local".toList, x, xs, by rw [hs, h'], rfl⟩

/-- The class the Rust side reads off a path is the one the engine's CHECK reads. -/
theorem likeLocal_eq (path : Str) : likeLocal path = isPrivateClass path := by
  rw [Bool.eq_iff_iff]
  refine ⟨isPrivateClass_of_likeLocal, fun h => ?_⟩
  obtain ⟨root, next, rest, hs, hr⟩ := segments_private.1 h
  have hp : path = ['/'].intercalate (segments path) := (List.intercalate_splitOn '/').symm
  have hr' : toAsciiLowercase root = "local".toList := hr
  rw [hs] at hp
  have he : toAsciiLowercase path =
      "local/".toList ++ toAsciiLowercase (['/'].intercalate (next :: rest)) := by
    rw [hp]
    change toAsciiLowercase (root ++ (['/'] ++ ['/'].intercalate (next :: rest))) = _
    rw [toAsciiLowercase_append, toAsciiLowercase_append, hr']
    rfl
  rw [likeLocal, he]
  exact List.isPrefixOf_iff_prefix.2 (List.prefix_append _ _)

end ProjectDb

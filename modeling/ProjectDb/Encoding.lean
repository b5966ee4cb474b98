import ProjectDb.Protobuf
import ProjectDb.Register

namespace ProjectDb
open Protobuf Text ProjectDb.Path
set_option autoImplicit true

def Timestamp.fields (t : Timestamp) : List Field := int 1 t.seconds

def Timestamp.decode (b : Bytes) : Option Timestamp := do
  let fs ← get b
  some ⟨← intAt 1 fs⟩

def Idempotency.fields (i : Idempotency) : List Field := text 1 i.key

def Idempotency.decode (b : Bytes) : Option Idempotency := do
  let fs ← get b
  some ⟨← textAt 1 fs⟩

def Scope.fields (s : Scope) : List Field := text 1 s.userId ++ text 2 s.projectId

def Scope.decode (b : Bytes) : Option Scope := do
  let fs ← get b
  some ⟨← textAt 1 fs, ← textAt 2 fs⟩

def Meta.fields (m : Meta) : List Field :=
  text 1 m.id ++ uint 2 m.version ++ text 3 m.projectId ++ text 4 m.ownerUserId ++
    text 5 m.teamId ++ int 6 m.visibility ++ text 7 m.createdBy ++ text 8 m.updatedBy ++
    message 9 (m.createdAt.map fun t => put t.fields) ++
    message 10 (m.updatedAt.map fun t => put t.fields) ++
    message 11 (m.deletedAt.map fun t => put t.fields) ++ texts 12 m.derivedFrom

def Meta.decode (b : Bytes) : Option Meta := do
  let fs ← get b
  some ⟨← textAt 1 fs, ← uintAt 2 fs, ← textAt 3 fs, ← textAt 4 fs, ← textAt 5 fs, ← intAt 6 fs,
    ← textAt 7 fs, ← textAt 8 fs, ← messageAt Timestamp.decode 9 fs,
    ← messageAt Timestamp.decode 10 fs, ← messageAt Timestamp.decode 11 fs, ← textsAt 12 fs⟩

def RegisterProjectRequest.fields (r : RegisterProjectRequest) : List Field :=
  message 1 (r.idempotency.map fun i => put i.fields) ++
    message 2 (r.scope.map fun s => put s.fields) ++ text 3 r.path ++ text 4 r.displayName ++
    text 5 r.sourceRepo

def RegisterProjectRequest.decode (b : Bytes) : Option RegisterProjectRequest := do
  let fs ← get b
  some ⟨← messageAt Idempotency.decode 1 fs, ← messageAt Scope.decode 2 fs, ← textAt 3 fs,
    ← textAt 4 fs, ← textAt 5 fs⟩

def RegisterProjectResponse.fields (r : RegisterProjectResponse) : List Field :=
  message 1 (r.envelope.map fun m => put m.fields)

def RegisterProjectResponse.decode (b : Bytes) : Option RegisterProjectResponse := do
  let fs ← get b
  some ⟨← messageAt Meta.decode 1 fs⟩

theorem Timestamp.decode_put (t : Timestamp) : decode (put t.fields) = some t := by
  have hseconds : intAt 1 t.fields = some t.seconds := intAt_eq (by simp [fields])
  simp only [decode, get_put, Option.bind_eq_bind, Option.bind_some, hseconds]

theorem Idempotency.decode_put (i : Idempotency) : decode (put i.fields) = some i := by
  have hkey : textAt 1 i.fields = some i.key := textAt_eq (by simp [fields])
  simp only [decode, get_put, Option.bind_eq_bind, Option.bind_some, hkey]

theorem Scope.decode_put (s : Scope) : decode (put s.fields) = some s := by
  have huser : textAt 1 s.fields = some s.userId := textAt_eq (by simp [fields])
  have hproject : textAt 2 s.fields = some s.projectId := textAt_eq (by simp [fields])
  simp only [decode, get_put, Option.bind_eq_bind, Option.bind_some, huser, hproject]

theorem Meta.decode_put (m : Meta) : decode (put m.fields) = some m := by
  have hid : textAt 1 m.fields = some m.id := textAt_eq (by simp [fields])
  have hversion : uintAt 2 m.fields = some m.version := uintAt_eq (by simp [fields])
  have hproject : textAt 3 m.fields = some m.projectId := textAt_eq (by simp [fields])
  have howner : textAt 4 m.fields = some m.ownerUserId := textAt_eq (by simp [fields])
  have hteam : textAt 5 m.fields = some m.teamId := textAt_eq (by simp [fields])
  have hvisibility : intAt 6 m.fields = some m.visibility := intAt_eq (by simp [fields])
  have hcreator : textAt 7 m.fields = some m.createdBy := textAt_eq (by simp [fields])
  have hupdater : textAt 8 m.fields = some m.updatedBy := textAt_eq (by simp [fields])
  have hcreated : messageAt Timestamp.decode 9 m.fields = some m.createdAt :=
    messageAt_eq Timestamp.decode_put (by simp [fields])
  have hupdated : messageAt Timestamp.decode 10 m.fields = some m.updatedAt :=
    messageAt_eq Timestamp.decode_put (by simp [fields])
  have hdeleted : messageAt Timestamp.decode 11 m.fields = some m.deletedAt :=
    messageAt_eq Timestamp.decode_put (by simp [fields])
  have hderived : textsAt 12 m.fields = some m.derivedFrom := textsAt_eq (by simp [fields])
  simp only [decode, get_put, Option.bind_eq_bind, Option.bind_some, hid, hversion, hproject,
    howner, hteam, hvisibility, hcreator, hupdater, hcreated, hupdated, hdeleted, hderived]

theorem RegisterProjectRequest.decode_put (r : RegisterProjectRequest) :
    decode (put r.fields) = some r := by
  have hidem : messageAt Idempotency.decode 1 r.fields = some r.idempotency :=
    messageAt_eq Idempotency.decode_put (by simp [fields])
  have hscope : messageAt Scope.decode 2 r.fields = some r.scope :=
    messageAt_eq Scope.decode_put (by simp [fields])
  have hpath : textAt 3 r.fields = some r.path := textAt_eq (by simp [fields])
  have hname : textAt 4 r.fields = some r.displayName := textAt_eq (by simp [fields])
  have hrepo : textAt 5 r.fields = some r.sourceRepo := textAt_eq (by simp [fields])
  simp only [decode, get_put, Option.bind_eq_bind, Option.bind_some, hidem, hscope, hpath, hname,
    hrepo]

theorem RegisterProjectResponse.decode_put (r : RegisterProjectResponse) :
    decode (put r.fields) = some r := by
  have henvelope : messageAt Meta.decode 1 r.fields = some r.envelope :=
    messageAt_eq Meta.decode_put (by simp [fields])
  simp only [decode, get_put, Option.bind_eq_bind, Option.bind_some, henvelope]

theorem byteLen_le (s : Str) : byteLen s ≤ 4 * s.length := by
  induction s with
  | nil => exact Nat.le_refl 0
  | cons c s ih =>
    have hc := c.utf8Size_le_four
    simp only [byteLen, List.map_cons, List.sum_cons, List.length_cons] at ih ⊢
    omega

theorem text_length_le (number : Nat) {s : Str} (hnumber : number < 16) (h : byteLen s ≤ 255) :
    (put (text number s)).length ≤ 3 + byteLen s := by
  have hlen : (putUtf8 s).length = byteLen s := putUtf8_length s
  rw [← hlen] at h ⊢
  exact text_length (k := 1) hnumber (Nat.lt_of_le_of_lt h (by decide))

theorem metaOf_length {id path actor : Str} (hid : id.length ≤ 51) (hpath : byteLen path ≤ 255)
    (hactor : actor.length ≤ 48) :
    (put (RegisterProjectResponse.fields ⟨some (Register.metaOf id 1 path actor)⟩)).length ≤
      1068 := by
  have hid' := byteLen_le id
  have hactor' := byteLen_le actor
  have h1 := text_length_le 1 (s := id) (by decide) (by omega)
  have h2 : (put (uint 2 1)).length ≤ 2 := uint_length (k := 0) (by decide) (by decide)
  have h3 := text_length_le 3 (by decide) hpath
  have h4 := text_length_le 4 (s := actor) (by decide) (by omega)
  have h7 := text_length_le 7 (s := actor) (by decide) (by omega)
  have h8 := text_length_le 8 (s := actor) (by decide) (by omega)
  have hmeta : (put (Register.metaOf id 1 path actor).fields).length ≤ 1064 := by
    simp only [Meta.fields, Register.metaOf, put_append, List.length_append]
    have h5 : put (text 5 []) = [] := rfl
    have h6 : put (int 6 0) = [] := rfl
    have hnone : ∀ n, put (message n (Option.map (fun t : Timestamp => put t.fields) none)) = [] :=
      fun _ => rfl
    have hlist : put (texts 12 []) = [] := rfl
    simp only [h5, h6, hnone, hlist, List.length_nil]
    omega
  have h := message_length 1 (k := 1) (by decide) (Nat.lt_of_le_of_lt hmeta (by decide))
  exact Nat.le_trans h (by omega)

end ProjectDb

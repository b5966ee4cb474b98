import Mathlib.Data.List.Basic
import Mathlib.Tactic.Ring

namespace Protobuf
set_option autoImplicit true

abbrev Bytes := List UInt8

/-- Seven bits a byte from the lowest, the eighth set on every byte but the last. -/
def groups : Nat → Nat → Bytes
  | 0, n => [.ofNat n]
  | fuel + 1, n =>
    if n < 128 then [.ofNat n] else .ofNat (n % 128 + 128) :: groups fuel (n / 128)

def putVarint (n : Nat) : Bytes := groups n n

def getVarint : Bytes → Option (Nat × Bytes)
  | [] => none
  | b :: l =>
    if b.toNat < 128 then some (b.toNat, l)
    else (getVarint l).map fun (n, rest) => (b.toNat - 128 + 128 * n, rest)

theorem getVarint_groups {n fuel : Nat} (h : n ≤ fuel) (rest : Bytes) :
    getVarint (groups fuel n ++ rest) = some (n, rest) := by
  have hlast : ∀ n, n < 128 → getVarint (UInt8.ofNat n :: rest) = some (n, rest) := by
    intro n hn
    have hb : (UInt8.ofNat n).toNat = n := by
      rw [UInt8.toNat_ofNat']
      omega
    rw [getVarint, hb, if_pos hn]
  induction fuel generalizing n with
  | zero =>
    cases Nat.le_zero.1 h
    exact hlast 0 (by decide)
  | succ fuel ih =>
    rw [groups]
    by_cases hn : n < 128
    · rw [if_pos hn]
      exact hlast n hn
    · have hb : (UInt8.ofNat (n % 128 + 128)).toNat = n % 128 + 128 := by
        rw [UInt8.toNat_ofNat']
        omega
      have hfuel : n / 128 ≤ fuel := by omega
      rw [if_neg hn, List.cons_append, getVarint, hb, ih hfuel, if_neg (by omega)]
      have hn' : n % 128 + 128 - 128 + 128 * (n / 128) = n := by omega
      exact congrArg (fun m => some (m, rest)) hn'

theorem getVarint_putVarint (n : Nat) (rest : Bytes) :
    getVarint (putVarint n ++ rest) = some (n, rest) := getVarint_groups (Nat.le_refl n) rest

theorem groups_ne_nil (fuel n : Nat) : groups fuel n ≠ [] := by
  cases fuel with
  | zero => exact List.cons_ne_nil _ _
  | succ fuel =>
    rw [groups]
    split <;> exact List.cons_ne_nil _ _

theorem groups_length {n k : Nat} (fuel : Nat) (h : n < 128 ^ (k + 1)) :
    (groups fuel n).length ≤ k + 1 := by
  induction fuel generalizing n k with
  | zero => exact Nat.succ_le_succ (Nat.zero_le k)
  | succ fuel ih =>
    rw [groups]
    split
    · exact Nat.succ_le_succ (Nat.zero_le k)
    · cases k with
      | zero => omega
      | succ k =>
        have hk : n / 128 < 128 ^ (k + 1) := by
          rw [Nat.div_lt_iff_lt_mul (by decide)]
          rwa [pow_succ] at h
        exact Nat.succ_le_succ (ih hk)

theorem putVarint_length {n k : Nat} (h : n < 128 ^ (k + 1)) : (putVarint n).length ≤ k + 1 :=
  groups_length n h

/-- A field's value, by its wire type. -/
inductive Value
  | varint (n : Nat)
  | len (b : Bytes)
  deriving DecidableEq, Repr

structure Field where
  number : Nat
  value : Value
  deriving DecidableEq, Repr

def Value.wireType : Value → Nat
  | .varint _ => 0
  | .len _ => 2

def Value.put : Value → Bytes
  | .varint n => putVarint n
  | .len b => putVarint b.length ++ b

def Value.get (wireType : Nat) (l : Bytes) : Option (Value × Bytes) :=
  match wireType with
  | 0 => (getVarint l).map fun (n, rest) => (.varint n, rest)
  | 2 => (getVarint l).bind fun (n, rest) =>
    if n ≤ rest.length then some (.len (rest.take n), rest.drop n) else none
  | _ => none

def Field.put (f : Field) : Bytes := putVarint (f.number * 8 + f.value.wireType) ++ f.value.put

def Field.get (l : Bytes) : Option (Field × Bytes) :=
  (getVarint l).bind fun (key, rest) =>
    (Value.get (key % 8) rest).map fun (value, rest) => (⟨key / 8, value⟩, rest)

theorem Value.get_put (v : Value) (rest : Bytes) :
    Value.get v.wireType (v.put ++ rest) = some (v, rest) := by
  cases v with
  | varint n => simp only [wireType, get, put, getVarint_putVarint, Option.map_some]
  | len b =>
    simp only [wireType, get, put, List.append_assoc, getVarint_putVarint, Option.bind_some,
      List.length_append, Nat.le_add_right, ↓reduceIte, List.take_left, List.drop_left]

theorem Field.get_put (f : Field) (rest : Bytes) : Field.get (f.put ++ rest) = some (f, rest) := by
  have htype : f.value.wireType < 8 := by
    cases f.value with
    | varint n => exact Nat.zero_lt_succ 7
    | len b => exact Nat.lt_of_sub_eq_succ rfl
  have hmod : (f.number * 8 + f.value.wireType) % 8 = f.value.wireType := by omega
  have hdiv : (f.number * 8 + f.value.wireType) / 8 = f.number := by omega
  simp only [get, put, List.append_assoc, getVarint_putVarint, Option.bind_some, hmod, hdiv,
    Value.get_put, Option.map_some]

theorem Field.put_ne_nil (f : Field) : f.put ≠ [] :=
  fun h => groups_ne_nil _ _ (List.append_eq_nil_iff.1 h).1

/-- The fields one after another. -/
def put (fields : List Field) : Bytes := fields.flatMap Field.put

def parse : Nat → Bytes → Option (List Field)
  | _, [] => some []
  | 0, _ :: _ => none
  | fuel + 1, b :: l =>
    (Field.get (b :: l)).bind fun (f, rest) => (parse fuel rest).map (f :: ·)

def get (l : Bytes) : Option (List Field) := parse l.length l

theorem parse_put (fields : List Field) {fuel : Nat} (h : (put fields).length ≤ fuel) :
    parse fuel (put fields) = some fields := by
  induction fields generalizing fuel with
  | nil => cases fuel <;> rfl
  | cons f fields ih =>
    have hput : put (f :: fields) = f.put ++ put fields := List.flatMap_cons
    have hpos := List.length_pos_of_ne_nil f.put_ne_nil
    rw [hput, List.length_append] at h
    obtain ⟨fuel, rfl⟩ : ∃ k, fuel = k + 1 := ⟨fuel - 1, by omega⟩
    have hstep : parse (fuel + 1) (f.put ++ put fields) =
        (Field.get (f.put ++ put fields)).bind fun (f, rest) =>
          (parse fuel rest).map (f :: ·) := by
      cases hl : f.put ++ put fields with
      | nil => exact absurd (List.append_eq_nil_iff.1 hl).1 f.put_ne_nil
      | cons b l => rfl
    have hfuel : (put fields).length ≤ fuel := by omega
    rw [hput, hstep, Field.get_put, Option.bind_some]
    simp only [ih hfuel, Option.map_some]

/-- What is written is read back field by field. -/
theorem get_put (fields : List Field) : get (put fields) = some fields :=
  parse_put fields (Nat.le_refl _)

theorem put_append (a b : List Field) : put (a ++ b) = put a ++ put b := List.flatMap_append

def putUtf8 (s : List Char) : Bytes := s.flatMap String.utf8EncodeChar

def parseUtf8 : Nat → Bytes → Option (List Char)
  | _, [] => some []
  | 0, _ :: _ => none
  | fuel + 1, b :: l =>
    ((b :: l).toByteArray.utf8DecodeChar? 0).bind fun c =>
      (parseUtf8 fuel ((b :: l).drop c.utf8Size)).map (c :: ·)

def getUtf8 (l : Bytes) : Option (List Char) := parseUtf8 l.length l

theorem parseUtf8_putUtf8 (s : List Char) {fuel : Nat} (h : (putUtf8 s).length ≤ fuel) :
    parseUtf8 fuel (putUtf8 s) = some s := by
  induction s generalizing fuel with
  | nil => cases fuel <;> rfl
  | cons c s ih =>
    have hput : putUtf8 (c :: s) = String.utf8EncodeChar c ++ putUtf8 s := List.flatMap_cons
    have hlen := String.length_utf8EncodeChar c
    have hpos := c.utf8Size_pos
    rw [hput, List.length_append, hlen] at h
    obtain ⟨fuel, rfl⟩ : ∃ k, fuel = k + 1 := ⟨fuel - 1, by omega⟩
    have hne : String.utf8EncodeChar c ≠ [] := List.ne_nil_of_length_pos (hlen ▸ hpos)
    have hstep : parseUtf8 (fuel + 1) (String.utf8EncodeChar c ++ putUtf8 s) =
        ((String.utf8EncodeChar c ++ putUtf8 s).toByteArray.utf8DecodeChar? 0).bind fun c' =>
          (parseUtf8 fuel ((String.utf8EncodeChar c ++ putUtf8 s).drop c'.utf8Size)).map
            (c' :: ·) := by
      cases hl : String.utf8EncodeChar c ++ putUtf8 s with
      | nil => exact absurd (List.append_eq_nil_iff.1 hl).1 hne
      | cons b l => rfl
    rw [hput, hstep, List.toByteArray_append, ByteArray.utf8DecodeChar?_utf8EncodeChar_append,
      Option.bind_some, List.drop_left' hlen, ih (by omega), Option.map_some]

theorem getUtf8_putUtf8 (s : List Char) : getUtf8 (putUtf8 s) = some s :=
  parseUtf8_putUtf8 s (Nat.le_refl _)

theorem putUtf8_length (s : List Char) : (putUtf8 s).length = (s.map Char.utf8Size).sum := by
  rw [putUtf8, List.length_flatMap]
  exact congrArg List.sum (List.map_congr_left fun c _ => String.length_utf8EncodeChar c)

def uint (number n : Nat) : List Field := if n = 0 then [] else [⟨number, .varint n⟩]

/-- The 64 bits of a signed number; the numbers beyond them are kept apart. -/
def bits (n : Int) : Nat :=
  if 0 ≤ n then (if n < 2 ^ 63 then n.toNat else n.toNat + 2 ^ 63 + n.toNat)
  else if -2 ^ 63 ≤ n then (n + 2 ^ 64).toNat
  else (-n).toNat + 2 ^ 63 + (-n).toNat + 1

def ofBits (u : Nat) : Int :=
  if u < 2 ^ 63 then u
  else if u < 2 ^ 64 then (u : Int) - 2 ^ 64
  else if (u - 2 ^ 63) % 2 = 0 then ((u - 2 ^ 63) / 2 : Nat)
  else -((u - 2 ^ 63) / 2 : Nat)

theorem ofBits_bits (n : Int) : ofBits (bits n) = n := by
  unfold ofBits bits
  split <;> split <;> split <;> omega

def int (number : Nat) (n : Int) : List Field := uint number (bits n)

def text (number : Nat) (s : List Char) : List Field :=
  if putUtf8 s = [] then [] else [⟨number, .len (putUtf8 s)⟩]

/-- A message inside another, which is written when it is set. -/
def message (number : Nat) (m : Option Bytes) : List Field :=
  m.toList.map fun b => ⟨number, .len b⟩

def texts (number : Nat) (l : List (List Char)) : List Field :=
  l.map fun s => ⟨number, .len (putUtf8 s)⟩

/-- What a message holds under a number. -/
def select (number : Nat) (fields : List Field) : List Value :=
  (fields.filter fun f => f.number == number).map Field.value

@[simp] theorem select_nil (j : Nat) : select j [] = [] := rfl

@[simp] theorem select_append (j : Nat) (a b : List Field) :
    select j (a ++ b) = select j a ++ select j b := by
  simp only [select, List.filter_append, List.map_append]

theorem select_of_number {fields : List Field} (h : ∀ f ∈ fields, f.number = k) (j : Nat) :
    select j fields = if k = j then fields.map Field.value else [] := by
  unfold select
  split
  · rename_i he
    rw [List.filter_eq_self.2 fun f hf => beq_iff_eq.2 ((h f hf).trans he)]
  · rename_i hne
    rw [List.filter_eq_nil_iff.2 fun f hf he => hne ((h f hf).symm.trans (beq_iff_eq.1 he))]
    rfl

def uintAt (number : Nat) (fields : List Field) : Option Nat :=
  match (select number fields).getLast? with
  | none => some 0
  | some (.varint n) => some n
  | some (.len _) => none

def intAt (number : Nat) (fields : List Field) : Option Int := (uintAt number fields).map ofBits

def Value.bytes : Value → Option Bytes
  | .varint _ => none
  | .len b => some b

def textAt (number : Nat) (fields : List Field) : Option (List Char) :=
  match (select number fields).getLast? with
  | none => some []
  | some v => v.bytes.bind getUtf8

/-- The occurrences of a message are read as one, the later over the earlier. -/
def messageAt (decode : Bytes → Option τ) (number : Nat) (fields : List Field) :
    Option (Option τ) :=
  match select number fields with
  | [] => some none
  | vs => (vs.mapM Value.bytes).bind fun l => (decode l.flatten).map some

def textsAt (number : Nat) (fields : List Field) : Option (List (List Char)) :=
  (select number fields).mapM fun v => v.bytes.bind getUtf8

theorem number_of_uint {f : Field} (h : f ∈ uint k n) : f.number = k := by
  unfold uint at h
  split at h
  · cases h
  · cases List.mem_singleton.1 h
    rfl

theorem number_of_text {f : Field} (h : f ∈ text k s) : f.number = k := by
  unfold text at h
  split at h
  · cases h
  · cases List.mem_singleton.1 h
    rfl

theorem number_of_message {f : Field} (h : f ∈ message k m) : f.number = k := by
  obtain ⟨b, _, rfl⟩ := List.mem_map.1 h
  rfl

theorem number_of_texts {f : Field} (h : f ∈ texts k l) : f.number = k := by
  obtain ⟨s, _, rfl⟩ := List.mem_map.1 h
  rfl

@[simp] theorem select_uint (j k n : Nat) :
    select j (uint k n) = if k = j then (uint k n).map Field.value else [] :=
  select_of_number (fun _ => number_of_uint) j

@[simp] theorem select_int (j k : Nat) (n : Int) :
    select j (int k n) = if k = j then (int k n).map Field.value else [] :=
  select_of_number (fun _ => number_of_uint) j

@[simp] theorem select_text (j k : Nat) (s : List Char) :
    select j (text k s) = if k = j then (text k s).map Field.value else [] :=
  select_of_number (fun _ => number_of_text) j

@[simp] theorem select_message (j k : Nat) (m : Option Bytes) :
    select j (message k m) = if k = j then (message k m).map Field.value else [] :=
  select_of_number (fun _ => number_of_message) j

@[simp] theorem select_texts (j k : Nat) (l : List (List Char)) :
    select j (texts k l) = if k = j then (texts k l).map Field.value else [] :=
  select_of_number (fun _ => number_of_texts) j

section
variable {fields : List Field} {k : Nat}

theorem uintAt_eq (h : select k fields = (uint k n).map Field.value) :
    uintAt k fields = some n := by
  unfold uintAt
  rw [h, uint]
  by_cases hn : n = 0
  · rw [if_pos hn, hn]
    rfl
  · rw [if_neg hn]
    rfl

theorem intAt_eq {n : Int} (h : select k fields = (int k n).map Field.value) :
    intAt k fields = some n := by
  rw [intAt, uintAt_eq h, Option.map_some, ofBits_bits]

theorem textAt_eq {s : List Char} (h : select k fields = (text k s).map Field.value) :
    textAt k fields = some s := by
  unfold textAt
  rw [h, text]
  by_cases hs : putUtf8 s = []
  · have hnil := getUtf8_putUtf8 s
    rw [hs] at hnil
    rw [if_pos hs]
    exact hnil
  · rw [if_neg hs]
    exact getUtf8_putUtf8 s

theorem messageAt_eq {decode : Bytes → Option τ} {encode : τ → Bytes} {m : Option τ}
    (hdecode : ∀ m, decode (encode m) = some m)
    (h : select k fields = (message k (m.map encode)).map Field.value) :
    messageAt decode k fields = some m := by
  unfold messageAt
  rw [h]
  cases m with
  | none => rfl
  | some m =>
    change (decode ([encode m].flatten)).map some = _
    rw [List.flatten_singleton, hdecode, Option.map_some]

theorem textsAt_eq {l : List (List Char)} (h : select k fields = (texts k l).map Field.value) :
    textsAt k fields = some l := by
  rw [textsAt, h]
  clear h
  induction l with
  | nil => rfl
  | cons s l ih =>
    have hs : (Value.len (putUtf8 s)).bytes.bind getUtf8 = some s := getUtf8_putUtf8 s
    simp only [texts, List.map_cons, List.map_map] at ih ⊢
    rw [List.mapM_cons, hs, ih]
    rfl

end

theorem field_length {number k : Nat} {b : Bytes} (hnumber : number < 16)
    (h : b.length < 128 ^ (k + 1)) : (Field.put ⟨number, .len b⟩).length ≤ k + 2 + b.length := by
  have hkey : (putVarint (number * 8 + 2)).length ≤ 1 := putVarint_length (by omega)
  have hlen := putVarint_length h
  simp only [Field.put, Value.put, Value.wireType, List.length_append]
  omega

theorem uint_length {number k n : Nat} (hnumber : number < 16) (h : n < 128 ^ (k + 1)) :
    (put (uint number n)).length ≤ k + 2 := by
  unfold uint
  split
  · exact Nat.zero_le _
  · have hkey : (putVarint (number * 8 + 0)).length ≤ 1 := putVarint_length (by omega)
    have hn := putVarint_length h
    simp only [put, List.flatMap_cons, List.flatMap_nil, List.append_nil, Field.put, Value.put,
      Value.wireType, List.length_append]
    omega

theorem text_length {number k : Nat} {s : List Char} (hnumber : number < 16)
    (h : (putUtf8 s).length < 128 ^ (k + 1)) :
    (put (text number s)).length ≤ k + 2 + (putUtf8 s).length := by
  unfold text
  split
  · exact Nat.zero_le _
  · simp only [put, List.flatMap_cons, List.flatMap_nil, List.append_nil]
    exact field_length hnumber h

theorem message_length (number : Nat) {k : Nat} {b : Bytes} (hnumber : number < 16)
    (h : b.length < 128 ^ (k + 1)) :
    (put (message number (some b))).length ≤ k + 2 + b.length := by
  simp only [message, Option.toList_some, List.map_cons, List.map_nil, put, List.flatMap_cons,
    List.flatMap_nil, List.append_nil]
  exact field_length hnumber h

end Protobuf

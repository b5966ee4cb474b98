import ProjectDb.Orderly
import ProjectDb.Reference

namespace ProjectDb
open Text ProjectDb.Path Mvcc Pool
set_option autoImplicit true

section
variable [ServerCollation] [UuidCrate] [Idem.Sha256] [Message RegisterProjectRequest]
  [Message RegisterProjectResponse] {ι : Type} {own : Str → Prop} {calls : ι → Request}
  {env : ι → Nat → Tick} {s₀ : Store} {M : Server ι → Prop} {turns : List ι} {w v : Server ι}
  {envs : Nat → Tick}

/-- The ids that calls mint are new, and no registration mints one that a sync does. -/
structure FreshIds (calls : ι → Request) (env : ι → Nat → Tick) (s₀ : Store) : Prop where
  schema : s₀.Schema
  unused : ∀ i, (calls i).writes = true → Unminted (env i) s₀
  apart : ∀ i j, (calls i).isRegister = true → (calls j).isSync = true →
    ∀ n m, (env i n).uuid ≠ (env j m).uuid

/-- The ids that syncs may name: those of the organisation's rows, and those that syncs mint. -/
def OrgIds (calls : ι → Request) (env : ι → Nat → Tick) (s₀ : Store) (id : Str) : Prop :=
  (∃ r ∈ s₀.orgRows, r.id = id) ∨
    ∃ j n, (calls j).isSync = true ∧ id = Sync.projectIdPrefix ++ (env j n).uuid

omit [UuidCrate] [Idem.Sha256] [Message RegisterProjectRequest] [Message RegisterProjectResponse] in
theorem FreshIds.assigned (h : FreshIds calls env s₀) :
    Assigned (OrgIds calls env s₀) calls env s₀ where
  parted := by
    refine ⟨h.schema, fun r hr ho hown => ?_⟩
    rcases hown with ⟨r', hr', hid⟩ | ⟨j, n, hj, hid⟩
    · obtain ⟨hmem, horg⟩ := Store.mem_orgRows.1 hr'
      have hsame : r' = r := List.inj_on_of_nodup_map h.schema.id_key hmem hr hid
      rw [hsame, ho] at horg
      cases horg
    · exact h.unused j (Request.writes_of_sync hj) r hr n hid
  rows r hr := .inl ⟨r, hr, rfl⟩
  syncs i hi n := .inr ⟨i, n, hi, rfl⟩
  registers := by
    rintro i hi n (⟨r, hr, hid⟩ | ⟨j, m, hj, hid⟩)
    · exact h.unused i (Request.writes_of_register hi) r (Store.mem_orgRows.1 hr).1 n hid
    · exact h.apart i j hi hj n m (List.append_cancel_left hid)

/-- A call served alone: its answer, and the store after it. -/
def Request.alone (req : Request) (envs : Nat → Tick) (s : Store) : Answer × Store :=
  ((req.handler.run (engine.serve envs) ⟨s, none, 0⟩).1,
    (req.handler.run (engine.serve envs) ⟨s, none, 0⟩).2.store)

theorem Orderly.answers (h : Orderly own calls env s₀ M turns w) (hw : (calls i).writes = true)
    (ha : w.answer i = some a) :
    (∃ l r, turns = l ++ i :: r ∧ ((calls i).alone (env i) (inTurn calls env s₀ l)).1 = a) ∨
      i ∉ turns ∧ ((∀ s, (calls i).alone (env i) s = (a, s)) ∨ Lost calls env s₀ M i a) := by
  by_cases hi : i ∈ turns
  · obtain ⟨l, r, rfl⟩ := List.append_of_mem hi
    exact .inl ⟨l, r, rfl, h.serializes.answer_of_turn ha⟩
  · refine .inr ⟨hi, ?_⟩
    have halone := h.serializes.answer_of_live hw hi (fun s => Request.handler_closed hw s) ha
    apply halone.imp_left
    intro hany s
    exact congrArg (fun p : Answer × Conn Store => (p.1, p.2.store)) (hany s)

variable [DecidableEq ι]

/-- However the commands of calls in flight interleave, whatever fails and wherever calls are cut
off, those that register and sync end as if they had been served one after another: the store is
what it is after their turns, except for what was last seen. Each of them answers what it answers
alone in its turn, or has no turn and answers as it does on any store, which it then leaves alone,
or is a sync that a flush overtook. A call that has its answer before another is served its first
command has its turn before it. -/
theorem calls_serialize (hfresh : FreshIds calls env s₀) {acts : List (Act ι)}
    (h : (Server.start calls).run engine s₀ env acts = some w) :
    ∃ turns : List ι, turns.Nodup ∧ (∀ i ∈ turns, (calls i).writes = true) ∧
      (w.committed engine s₀).unseen = (inTurn calls env s₀ turns).unseen ∧
      (∀ i a, (calls i).writes = true → w.answer i = some a →
        (∃ l r, turns = l ++ i :: r ∧
          ((calls i).alone (env i) (inTurn calls env s₀ l)).1 = a) ∨
        i ∉ turns ∧ ((∀ s, (calls i).alone (env i) s = (a, s)) ∨
          Lost calls env s₀ ((Server.start calls).Moment engine s₀ env acts) i a)) ∧
      ∀ before rest u, acts = before ++ rest →
        (Server.start calls).run engine s₀ env before = some u → ∀ i ∈ turns, ∀ j ∈ turns,
          (u.answer i).isSome = true → (u.sess j).count = 0 → (u.sess j).rest.isSome = true →
            ∃ l m r, turns = l ++ i :: m ++ j :: r := by
  obtain ⟨turns, hend, _, hall⟩ := Orderly.start.run hfresh.assigned (fun _ hu => hu) h
  rw [List.nil_append] at hend
  refine ⟨turns, hend.serializes.nodup, hend.serializes.followed, hend.committed,
    fun i a hw ha => hend.answers hw ha, ?_⟩
  · intro before rest u hacts hu i hi j hj hanswer hcount hrest
    obtain ⟨early, late, rfl, hearly, hwaiting⟩ := hall before rest u hacts hu
    rw [List.nil_append] at hearly
    have hfirst : i ∈ early := by
      rcases List.mem_append.1 hi with hi | hi
      · exact hi
      · obtain ⟨c, k, hask⟩ := hwaiting i hi
        simp only [World.answer, hask] at hanswer
        cases hanswer
    have hlater : j ∈ late :=
      (List.mem_append.1 hj).resolve_left (hearly.untaken hcount hrest)
    obtain ⟨l, m, rfl⟩ := List.append_of_mem hfirst
    obtain ⟨m', r, rfl⟩ := List.append_of_mem hlater
    exact ⟨l, m ++ m', r, by simp only [List.append_assoc, List.cons_append]⟩

end

section
open scoped Reference

/-- A registration of a home, and a sync of a root. -/
def registerAndSync : Bool → Request
  | false => .sync (some Sync.syncCaller) Sync.acmeOnly
  | true => .register (some Register.registerCaller) adaHome

def registerAndSyncEnv : Bool → Nat → Tick
  | false => fun _ => .quiet 2 4
  | true => fun _ => .quiet 1 3

/-- The sync has its lock and its view, the registration runs whole, and the sync goes on. -/
def registerAmid : List (Act Bool) :=
  List.replicate 5 (.run false) ++ List.replicate 7 (.run true) ++ List.replicate 5 (.run false)

theorem registerAndSync_fresh : FreshIds registerAndSync registerAndSyncEnv Read.renamed where
  schema := renamed_schema
  unused i _ := renamed_unminted (registerAndSyncEnv i)
  apart i j hi hj _ _ := by
    cases i with
    | false => exact absurd hi Bool.false_ne_true
    | true =>
      cases j with
      | true => exact absurd hj Bool.false_ne_true
      | false => exact of_decide_eq_true rfl

theorem calls_serialize_acme : ∃ w, (Server.start registerAndSync).run engine Read.renamed
      registerAndSyncEnv registerAmid = some w ∧ w.log.map Prod.fst = [true, false] ∧
    (w.answer false).isSome = true ∧ (w.answer true).isSome = true ∧
    ∃ turns : List Bool, turns.Nodup ∧ (w.committed engine Read.renamed).unseen =
      (inTurn registerAndSync registerAndSyncEnv Read.renamed turns).unseen := by
  have hrun : ((Server.start registerAndSync).run engine Read.renamed registerAndSyncEnv
      registerAmid).map (fun w => (w.log.map Prod.fst, (w.answer false).isSome,
        (w.answer true).isSome)) = some ([true, false], true, true) := by decide +kernel
  obtain ⟨w, hw, hfacts⟩ := Option.map_eq_some_iff.1 hrun
  obtain ⟨hlog, hanswers⟩ := Prod.mk.inj hfacts
  obtain ⟨hsynced, hregistered⟩ := Prod.mk.inj hanswers
  obtain ⟨turns, hnodup, _, hcommitted, _⟩ := calls_serialize registerAndSync_fresh hw
  exact ⟨w, hw, hlog, hsynced, hregistered, turns, hnodup, hcommitted⟩

end

end ProjectDb

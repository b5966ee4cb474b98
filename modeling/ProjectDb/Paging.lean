import ProjectDb.Listing
import ProjectDb.Stability

namespace ProjectDb
open Text ProjectDb.Path Read
set_option autoImplicit true

theorem PathLe.trans_lt (h : PathLe a b) (h' : PathLt b c) : PathLt a c := lt_of_le_of_lt h h'

theorem mem_present {value path : Str} : path ∈ present value ↔ path = value ∧ value ≠ [] := by
  unfold present
  cases value with
  | nil => exact iff_of_false (fun h => nomatch h) fun h => h.2 rfl
  | cons c cs =>
    refine ⟨fun h => ⟨(Option.some.inj h).symm, List.cons_ne_nil _ _⟩, ?_⟩
    rintro ⟨rfl, _⟩
    rfl

theorem pageSize_pos (size : Int) : 0 < (pageSize size).toNat := by
  unfold pageSize defaultPage maxPage
  split_ifs <;> omega

namespace Read.PageOf

theorem row_of_mem (h : PageOf req s token size rows response) (hP : P ∈ response.projects) :
    ∃ r ∈ rows.take (pageSize size).toNat, bare P = rowToProject r := by
  have hmem : bare P ∈ response.projects.map bare := List.mem_map_of_mem hP
  rw [h.projects] at hmem
  obtain ⟨r, hr, he⟩ := List.mem_map.1 hmem
  exact ⟨r, hr, he.symm⟩

theorem mem_of_row (h : PageOf req s token size rows response)
    (hr : r ∈ rows.take (pageSize size).toNat) :
    ∃ P ∈ response.projects, bare P = rowToProject r := by
  have hmem : rowToProject r ∈ (rows.take (pageSize size).toNat).map rowToProject :=
    List.mem_map_of_mem hr
  rw [← h.projects] at hmem
  exact List.mem_map.1 hmem

theorem strict (h : PageOf req s token size rows response) :
    response.projects.Pairwise fun P Q => PathLt P.path Q.path := by
  have hrows : ((rows.take (pageSize size).toNat).map rowToProject).Pairwise fun P Q =>
      PathLt P.path Q.path := List.pairwise_map.2 (h.sorted.sublist (List.take_sublist _ _))
  rw [← h.projects, List.pairwise_map] at hrows
  exact hrows

theorem length_le (h : PageOf req s token size rows response) :
    response.projects.length = min (pageSize size).toNat rows.length := by
  have hlen := congrArg List.length h.projects
  rwa [List.length_map, List.length_map, List.length_take] at hlen

/-- A page with a token is full, and its token parts what it holds from what is left. -/
theorem more (h : PageOf req s token size rows response) (hmore : response.nextPageToken ≠ []) :
    ∃ last ∈ rows.take (pageSize size).toNat, response.nextPageToken = last.path ∧
      (pageSize size).toNat < rows.length ∧
      (∀ r ∈ rows.take (pageSize size).toNat, PathLe r.path last.path) ∧
      ∀ r ∈ rows.drop (pageSize size).toNat, PathLt last.path r.path := by
  have hlt : (pageSize size).toNat < rows.length := by
    by_contra hle
    apply hmore
    rw [h.next, if_pos (Nat.not_lt.1 hle)]
  have htoken := h.next
  rw [if_neg (Nat.not_le.2 hlt)] at htoken
  have hsplit := h.sorted
  rw [← List.take_append_drop (pageSize size).toNat rows, List.pairwise_append] at hsplit
  obtain ⟨hfirst, _, hcross⟩ := hsplit
  cases hlast : (rows.take (pageSize size).toNat).getLast? with
  | none =>
    rw [hlast] at htoken
    exact absurd htoken hmore
  | some last =>
    rw [hlast] at htoken
    obtain ⟨init, hinit⟩ := List.getLast?_eq_some_iff.1 hlast
    have hmem : last ∈ rows.take (pageSize size).toNat := List.mem_of_getLast? hlast
    refine ⟨last, hmem, htoken, hlt, fun r hr => ?_, hcross last hmem⟩
    rw [hinit] at hr hfirst
    rcases List.mem_append.1 hr with hr | hr
    · exact le_of_lt ((List.pairwise_append.1 hfirst).2.2 r hr last (List.mem_singleton.2 rfl))
    · cases List.mem_singleton.1 hr
      exact le_rfl

/-- A page without a token holds every row that was left. -/
theorem complete (h : PageOf req s token size rows response)
    (hne : ∀ r ∈ s.project, r.path ≠ []) (hend : response.nextPageToken = []) :
    rows.take (pageSize size).toNat = rows := by
  by_cases hle : rows.length ≤ (pageSize size).toNat
  · exact List.take_of_length_le hle
  · have htoken := h.next
    rw [if_neg hle, hend] at htoken
    cases hlast : (rows.take (pageSize size).toNat).getLast? with
    | none =>
      have hnil := List.getLast?_eq_none_iff.1 hlast
      have hlen := congrArg List.length hnil
      have hpos := pageSize_pos size
      rw [List.length_take, List.length_nil] at hlen
      omega
    | some last =>
      rw [hlast] at htoken
      have hmem := List.mem_of_mem_take (List.mem_of_getLast? hlast)
      exact absurd htoken.symm (hne last ((h.mem last).1 hmem).1)

end Read.PageOf

theorem path_of_bare {P : Project} {r : ProjectRow} (h : bare P = rowToProject r) :
    P.path = r.path := congrArg Project.path h

/-- The row of a project, by its id. -/
def Project.isRow (i : Str) (P : Project) : Bool := P.envelope.any fun m => m.id == i

theorem isRow_of_bare {P : Project} {r : ProjectRow} (h : bare P = rowToProject r) (i : Str) :
    P.isRow i = (r.id == i) := by
  have he : (bare P).envelope = (rowToProject r).envelope := congrArg Project.envelope h
  change P.envelope = _ at he
  unfold Project.isRow
  rw [he]
  rfl

/-- One page of a walk: the store it was read from, the size asked for and the answer. -/
structure Page where
  store : Store
  size : Int
  response : ListProjectsResponse

/-- The projects that the pages of a walk brought, in the order they came. -/
def returned (pages : List Page) : List Project := pages.flatMap fun p => p.response.projects

/-- The walk reached an empty token. -/
def Ended (pages : List Page) : Prop := ∃ p, pages.getLast? = some p ∧ p.response.nextPageToken = []

theorem not_ended_single {p : Page} (h : p.response.nextPageToken ≠ []) : ¬ Ended [p] := by
  rintro ⟨p', hp, he⟩
  cases hp
  exact h he

/-- Every row's path is of the grammar. -/
def Spelled (s : Store) : Prop := ∀ r ∈ s.project, Grammatical r.path

theorem Spelled.ne_nil {s : Store} (h : Spelled s) (hr : r ∈ s.project) : r.path ≠ [] :=
  Grammatical.ne_nil (h r hr)

theorem Effect.spelled [UuidCrate] {s s' : Store} (he : Effect s s') (h : Spelled s) :
    Spelled s' := by
  intro r' hr'
  cases he with
  | nothing => exact h r' hr'
  | registered hc hreg =>
    obtain ⟨uuid, now, hrow⟩ := hreg.row
    rw [hrow] at hr'
    rcases List.mem_append.1 hr' with hr' | hr'
    · exact h r' hr'
    · cases List.mem_singleton.1 hr'
      exact (checked_ok hc).1
  | synced hw hconv _ =>
    rcases hconv.rows.mem_right hr' with ⟨r, hr, hset⟩ | ⟨d, hd, _, hm⟩
    · rw [hset.path_eq]
      exact h r hr
    · obtain ⟨p, hp, rfl⟩ := List.mem_map.1 hd
      rw [hm.org_row.2.1]
      exact (hw.row hp).grammar
  | touched _ =>
    obtain ⟨r, hr, rfl⟩ := mem_updateRows.1 hr'
    split
    · exact h r hr
    · exact h r hr

theorem ended_cons_cons {p p' : Page} : Ended (p :: p' :: pages) ↔ Ended (p' :: pages) := by
  rw [Ended, Ended, List.getLast?_cons_cons]

section
variable [ServerCollation] [UuidCrate] [Idem.Sha256] [Message RegisterProjectRequest]
  [Message RegisterProjectResponse]

/-- Pages read one after another from a token on, with whatever calls between them. -/
inductive Walk (req : ListProjectsRequest) : Store → Str → List Page → Prop
  | last {env : Nat → Tick} :
      ((list { req with pageSize := size, pageToken := token }).serve env s).1 = .ok response →
      Walk req s token [⟨s, size, response⟩]
  | next {env : Nat → Tick} (run : Run) :
      ((list { req with pageSize := size, pageToken := token }).serve env s).1 = .ok response →
      response.nextPageToken ≠ [] →
      Walk req (storeAfter s run) response.nextPageToken pages →
      Walk req s token (⟨s, size, response⟩ :: pages)

theorem storeAfter_spelled (run : Run) {s : Store} (hs : s.Schema) (h : Spelled s) :
    Spelled (storeAfter s run) := by
  induction run generalizing s with
  | nil => exact h
  | cons turn run ih =>
    exact ih (turn.1.served_schema turn.2 hs) ((turn.1.effect turn.2 hs).spelled h)

theorem storeAfter_append (s : Store) (run run' : Run) :
    storeAfter s (run ++ run') = storeAfter (storeAfter s run) run' := by
  induction run generalizing s with
  | nil => rfl
  | cons turn run ih => exact ih _

theorem Walk.strict {s : Store} (h : Walk req s token pages) (hs : s.Schema) (hg : Spelled s) :
    (∀ P ∈ returned pages, ∀ path ∈ present token, PathLt path P.path) ∧
      (returned pages).Pairwise fun P Q => PathLt P.path Q.path := by
  have hpage : ∀ {s token size response rows}, PageOf req s token size rows response →
      ∀ P ∈ response.projects, ∀ path ∈ present token, PathLt path P.path := by
    intro s token size response rows h P hP path hpath
    obtain ⟨r, hr, he⟩ := h.row_of_mem hP
    rw [path_of_bare he]
    exact ((h.mem r).1 (List.mem_of_mem_take hr)).2.2 path hpath
  induction h with
  | last hok =>
    obtain ⟨rows, h⟩ := serve_list_ok hs.path_key hok
    simp only [returned, List.flatMap_cons, List.flatMap_nil, List.append_nil]
    exact ⟨hpage h, h.strict⟩
  | @next size token s response pages env run hok hmore _ ih =>
    obtain ⟨rows, h⟩ := serve_list_ok hs.path_key hok
    obtain ⟨hbeyond, hstrict⟩ := ih (storeAfter_schema run hs) (storeAfter_spelled run hs hg)
    obtain ⟨last, hlast, htoken, _, hle, _⟩ := h.more hmore
    have htok : last.path ∈ present response.nextPageToken :=
      mem_present.2 ⟨htoken.symm, hmore⟩
    simp only [returned, List.flatMap_cons, List.mem_append, List.pairwise_append] at *
    refine ⟨?_, h.strict, hstrict, fun P hP Q hQ => ?_⟩
    · rintro P (hP | hQ) path hpath
      · exact hpage h P hP path hpath
      · have hlt := ((h.mem last).1 (List.mem_of_mem_take hlast)).2.2 path hpath
        exact hlt.trans (hbeyond P hQ last.path htok)
    · obtain ⟨r, hr, he⟩ := h.row_of_mem hP
      rw [path_of_bare he]
      exact (hle r hr).trans_lt (hbeyond Q hQ last.path htok)

theorem Walk.head {s : Store} (h : Walk req s token pages) :
    ∃ p rest, pages = p :: rest ∧ p.store = s := by
  cases h with
  | last hok => exact ⟨_, _, rfl, rfl⟩
  | next run hok hmore _ => exact ⟨_, _, rfl, rfl⟩

theorem Walk.reached {s : Store} (h : Walk req s token pages) :
    ∀ p ∈ pages, ∃ run, p.store = storeAfter s run := by
  induction h with
  | last hok =>
    intro p hp
    cases List.mem_singleton.1 hp
    exact ⟨[], rfl⟩
  | next run hok hmore _ ih =>
    intro p hp
    rcases List.mem_cons.1 hp with rfl | hp
    · exact ⟨[], rfl⟩
    · obtain ⟨run', he⟩ := ih p hp
      exact ⟨run ++ run', he.trans (storeAfter_append _ run run').symm⟩

theorem Walk.row_of_returned {s : Store} (h : Walk req s token pages) (hs : s.Schema) :
    ∀ P ∈ returned pages, ∃ p ∈ pages, ∃ r ∈ p.store.project, bare P = rowToProject r := by
  have hpage : ∀ {s token size response rows}, PageOf req s token size rows response →
      ∀ P ∈ response.projects, ∃ r ∈ s.project, bare P = rowToProject r := by
    intro s token size response rows h P hP
    obtain ⟨r, hr, he⟩ := h.row_of_mem hP
    exact ⟨r, ((h.mem r).1 (List.mem_of_mem_take hr)).1, he⟩
  induction h with
  | last hok =>
    obtain ⟨rows, h⟩ := serve_list_ok hs.path_key hok
    intro P hP
    simp only [returned, List.flatMap_cons, List.flatMap_nil, List.append_nil] at hP
    exact ⟨_, List.mem_cons_self, hpage h P hP⟩
  | next run hok hmore _ ih =>
    obtain ⟨rows, h⟩ := serve_list_ok hs.path_key hok
    intro P hP
    simp only [returned, List.flatMap_cons, List.mem_append] at hP
    rcases hP with hP | hP
    · exact ⟨_, List.mem_cons_self, hpage h P hP⟩
    · obtain ⟨p, hp, hrow⟩ := ih (storeAfter_schema run hs) P hP
      exact ⟨p, List.mem_cons_of_mem _ hp, hrow⟩

/-- A row that matches at every page, and lies beyond the token, is returned by the walk's end. -/
theorem Walk.complete {s : Store} (h : Walk req s token pages) (hs : s.Schema) (hg : Spelled s)
    (hend : Ended pages)
    (hall : ∀ p ∈ pages, ∃ r ∈ p.store.project, r.id = i ∧ r.path = q ∧ filtered req r = true)
    (htoken : ∀ path ∈ present token, PathLt path q) :
    ∃ P ∈ returned pages, P.isRow i = true := by
  induction h with
  | @last size token s response env hok =>
    obtain ⟨rows, h⟩ := serve_list_ok hs.path_key hok
    obtain ⟨r, hr, hid, rfl, hmatch⟩ := hall _ List.mem_cons_self
    have hnone : response.nextPageToken = [] := by
      by_contra hne
      exact not_ended_single hne hend
    have hrow : r ∈ rows := (h.mem r).2 ⟨hr, hmatch, htoken⟩
    rw [← h.complete (fun r hr => hg.ne_nil hr) hnone] at hrow
    obtain ⟨P, hP, he⟩ := h.mem_of_row hrow
    refine ⟨P, List.mem_flatMap.2 ⟨_, List.mem_cons_self, hP⟩, ?_⟩
    rw [isRow_of_bare he, hid, beq_self_eq_true]
  | @next size token s response pages env run hok hmore hw ih =>
    obtain ⟨rows, h⟩ := serve_list_ok hs.path_key hok
    obtain ⟨r, hr, hid, hpath, hmatch⟩ := hall _ List.mem_cons_self
    have hrow : r ∈ rows := (h.mem r).2 ⟨hr, hmatch, hpath ▸ htoken⟩
    rw [← List.take_append_drop (pageSize size).toNat rows] at hrow
    rcases List.mem_append.1 hrow with hrow | hrow
    · obtain ⟨P, hP, he⟩ := h.mem_of_row hrow
      refine ⟨P, List.mem_flatMap.2 ⟨_, List.mem_cons_self, hP⟩, ?_⟩
      rw [isRow_of_bare he, hid, beq_self_eq_true]
    · obtain ⟨last, _, hlast, _, _, hlt⟩ := h.more hmore
      have hend' : Ended pages := by
        obtain ⟨p, rest, rfl, _⟩ := hw.head
        exact ended_cons_cons.1 hend
      have hbeyond : ∀ path ∈ present response.nextPageToken, PathLt path q := by
        intro path hp
        rw [(mem_present.1 hp).1, hlast, ← hpath]
        exact hlt r hrow
      obtain ⟨P, hP, he⟩ := ih (storeAfter_schema run hs) (storeAfter_spelled run hs hg) hend'
        (fun p hp => hall p (List.mem_cons_of_mem _ hp)) hbeyond
      obtain ⟨p, hp, hP⟩ := List.mem_flatMap.1 hP
      exact ⟨P, List.mem_flatMap.2 ⟨p, List.mem_cons_of_mem _ hp, hP⟩, he⟩

theorem Walk.full {s : Store} (h : Walk req s token pages) (hs : s.Schema) :
    ∀ p ∈ pages, p.response.nextPageToken ≠ [] →
      p.response.projects.length = (pageSize p.size).toNat := by
  have hpage : ∀ {s token size response rows}, PageOf req s token size rows response →
      response.nextPageToken ≠ [] → response.projects.length = (pageSize size).toNat := by
    intro s token size response rows h hmore
    obtain ⟨_, _, _, hlt, _⟩ := h.more hmore
    rw [h.length_le, Nat.min_eq_left (Nat.le_of_lt hlt)]
  induction h with
  | last hok =>
    obtain ⟨rows, h⟩ := serve_list_ok hs.path_key hok
    intro p hp
    cases List.mem_singleton.1 hp
    exact hpage h
  | next run hok hmore _ ih =>
    obtain ⟨rows, h⟩ := serve_list_ok hs.path_key hok
    intro p hp
    rcases List.mem_cons.1 hp with rfl | hp
    · exact hpage h
    · exact ih (storeAfter_schema run hs) p hp

/-- The rows of a store that match beyond a token, in the order of their paths. -/
structure Left (req : ListProjectsRequest) (s : Store) (token : Str) (rows : List ProjectRow) :
    Prop where
  sorted : rows.Pairwise fun p q => PathLt p.path q.path
  mem : ∀ r, r ∈ rows ↔ r ∈ s.project ∧ filtered req r = true ∧
    ∀ path ∈ present token, PathLt path r.path

omit [ServerCollation] [UuidCrate] [Idem.Sha256] [Message RegisterProjectRequest]
  [Message RegisterProjectResponse] in
theorem Left.unique (h : Left req s token rows) (h' : Left req s token rows') : rows = rows' := by
  have hnodup : ∀ {rows}, Left req s token rows → rows.Nodup := fun h =>
    h.sorted.imp fun hlt he => hlt.ne (congrArg ProjectRow.path he)
  apply List.Perm.eq_of_pairwise _ h.sorted h'.sorted
  · rw [List.perm_ext_iff_of_nodup (hnodup h) (hnodup h')]
    exact fun r => (h.mem r).trans (h'.mem r).symm
  · intro p q _ _ hlt hgt
    exact absurd rfl (hlt.trans hgt).ne

omit [ServerCollation] [UuidCrate] [Idem.Sha256] [Message RegisterProjectRequest]
  [Message RegisterProjectResponse] in
theorem Read.PageOf.left (h : PageOf req s token size rows response) : Left req s token rows :=
  ⟨h.sorted, h.mem⟩

omit [ServerCollation] [UuidCrate] [Idem.Sha256] [Message RegisterProjectRequest]
  [Message RegisterProjectResponse] in
theorem Read.PageOf.rest (h : PageOf req s token size rows response)
    (hmore : response.nextPageToken ≠ []) :
    Left req s response.nextPageToken (rows.drop (pageSize size).toNat) := by
  obtain ⟨last, hlast, htoken, _, hle, hlt⟩ := h.more hmore
  refine ⟨h.sorted.sublist (List.drop_sublist _ _), fun r => ?_⟩
  constructor
  · intro hr
    obtain ⟨hproject, hmatch, _⟩ := (h.mem r).1 (List.mem_of_mem_drop hr)
    refine ⟨hproject, hmatch, fun path hp => ?_⟩
    rw [(mem_present.1 hp).1, htoken]
    exact hlt r hr
  · rintro ⟨hproject, hmatch, hbeyond⟩
    have hafter : PathLt last.path r.path := hbeyond _ (mem_present.2 ⟨htoken.symm, hmore⟩)
    have hrow : r ∈ rows := (h.mem r).2 ⟨hproject, hmatch, fun path hp =>
      (((h.mem last).1 (List.mem_of_mem_take hlast)).2.2 path hp).trans hafter⟩
    rw [← List.take_append_drop (pageSize size).toNat rows] at hrow
    rcases List.mem_append.1 hrow with hrow | hrow
    · exact absurd (hle r hrow) (not_pathLe.2 hafter)
    · exact hrow

/-- On an unchanging store a walk is bounded, and one that ended brought what there was. -/
theorem Walk.still {s : Store} (h : Walk req s token pages) (hs : s.Schema) (hg : Spelled s)
    (hstill : ∀ p ∈ pages, p.store = s) (hleft : Left req s token rows) :
    pages.length ≤ rows.length + 1 ∧
      (Ended pages → (returned pages).map bare = rows.map rowToProject ∧
        (rows ≠ [] → ∀ p ∈ pages, p.response.projects ≠ [])) := by
  induction h generalizing rows with
  | @last size token s response env hok =>
    obtain ⟨rows', h⟩ := serve_list_ok hs.path_key hok
    cases h.left.unique hleft
    refine ⟨Nat.succ_le_succ (Nat.zero_le _), fun hend => ?_⟩
    have hnone : response.nextPageToken = [] := by
      by_contra hne
      exact not_ended_single hne hend
    have hprojects := h.projects
    rw [h.complete (fun r hr => hg.ne_nil hr) hnone] at hprojects
    simp only [returned, List.flatMap_cons, List.flatMap_nil, List.append_nil]
    refine ⟨hprojects, fun hne p hp hnil => ?_⟩
    cases List.mem_singleton.1 hp
    rw [hnil] at hprojects
    exact hne (List.map_eq_nil_iff.1 hprojects.symm)
  | @next size token s response pages env run hok hmore hw ih =>
    obtain ⟨rows', h⟩ := serve_list_ok hs.path_key hok
    cases h.left.unique hleft
    obtain ⟨last, hlast, _, hlt, _⟩ := h.more hmore
    have hsame : storeAfter s run = s := by
      obtain ⟨p, rest, rfl, hp⟩ := hw.head
      rw [← hp]
      exact hstill p (List.mem_cons_of_mem _ List.mem_cons_self)
    rw [hsame] at ih
    obtain ⟨hlen, hdone⟩ := ih hs hg (fun p hp => hstill p (List.mem_cons_of_mem _ hp))
      (h.rest hmore)
    have hpos := pageSize_pos size
    rw [List.length_drop] at hlen
    refine ⟨by simp only [List.length_cons]; omega, fun hend => ?_⟩
    have hend' : Ended pages := by
      obtain ⟨p, rest, rfl, _⟩ := hw.head
      exact ended_cons_cons.1 hend
    obtain ⟨hreturned, hfilled⟩ := hdone hend'
    have hbare : (returned (⟨s, size, response⟩ :: pages)).map bare = rows.map rowToProject := by
      simp only [returned, List.flatMap_cons, List.map_append] at hreturned ⊢
      rw [h.projects, hreturned, ← List.map_append, List.take_append_drop]
    refine ⟨hbare, fun _ p hp => ?_⟩
    rcases List.mem_cons.1 hp with rfl | hp
    · obtain ⟨P, hP, _⟩ := h.mem_of_row hlast
      exact List.ne_nil_of_mem hP
    · apply hfilled _ p hp
      apply List.ne_nil_of_length_pos
      rw [List.length_drop]
      omega

theorem exists_walk {s : Store} (hs : s.Schema) (hl : Listable req) (hleft : Left req s token rows)
    (size : Nat → Int) : ∃ pages, Walk req s token pages ∧ (∀ p ∈ pages, p.store = s) ∧
      Ended pages ∧ pages.map Page.size = (List.range pages.length).map size := by
  induction hn : rows.length using Nat.strongRecOn generalizing rows token size with
  | ind n ih =>
    have hquiet : Faultless fun n => .quiet 0 n := fun _ => rfl
    obtain ⟨response, hserve⟩ := serve_list_answers hquiet s hl (size 0) token
    have hok := congrArg Prod.fst hserve
    obtain ⟨rows', h⟩ := serve_list_ok hs.path_key hok
    cases h.left.unique hleft
    by_cases hmore : response.nextPageToken = []
    · refine ⟨_, .last hok, fun p hp => ?_, ⟨_, rfl, hmore⟩, rfl⟩
      cases List.mem_singleton.1 hp
      rfl
    · obtain ⟨_, _, _, hlt, _⟩ := h.more hmore
      have hpos := pageSize_pos (size 0)
      have hshort : (rows.drop (pageSize (size 0)).toNat).length < n := by
        rw [List.length_drop]
        omega
      obtain ⟨pages, hw, hstill, hend, hsizes⟩ :=
        ih _ hshort (h.rest hmore) (fun n => size (n + 1)) rfl
      refine ⟨⟨s, size 0, response⟩ :: pages, .next [] hok hmore hw, fun p hp => ?_, ?_, ?_⟩
      · rcases List.mem_cons.1 hp with rfl | hp
        · rfl
        · exact hstill p hp
      · obtain ⟨p, rest, rfl, _⟩ := hw.head
        exact ended_cons_cons.2 hend
      · rw [List.map_cons, List.length_cons, List.range_succ_eq_map, List.map_cons, List.map_map,
          hsizes]
        rfl

theorem Walk.path_fixed {s : Store} (h : Walk req s token pages) (hs : s.Schema)
    (hr₀ : r₀ ∈ s.project) :
    ∀ p ∈ pages, ∀ r ∈ p.store.project, r.id = r₀.id → r.path = r₀.path := by
  intro p hp r hr hid
  obtain ⟨run, he⟩ := h.reached p hp
  obtain ⟨r', hr', hid', hpath'⟩ := storeAfter_keeps run hs hr₀
  rw [he] at hr
  rw [← hpath',
    List.inj_on_of_nodup_map (storeAfter_schema run hs).id_key hr hr' (hid.trans hid'.symm)]

omit [ServerCollation] [UuidCrate] [Idem.Sha256] [Message RegisterProjectRequest]
  [Message RegisterProjectResponse] in
theorem length_le_one {R : α → α → Prop} {l : List α} (h : l.Pairwise R)
    (hno : ∀ a ∈ l, ∀ b ∈ l, ¬ R a b) : l.length ≤ 1 := by
  cases l with
  | nil => exact Nat.zero_le 1
  | cons a l =>
    cases l with
    | nil => exact Nat.le_refl 1
    | cons b l =>
      have hab := List.rel_of_pairwise_cons h List.mem_cons_self
      exact absurd hab (hno a List.mem_cons_self b (List.mem_cons_of_mem _ List.mem_cons_self))

theorem Walk.once {s : Store} (h : Walk req s [] pages) (hs : s.Schema) (hg : Spelled s)
    (hend : Ended pages)
    (hall : ∀ p ∈ pages, ∃ r ∈ p.store.project, r.id = i ∧ filtered req r = true) :
    ((returned pages).filter (Project.isRow i)).length = 1 := by
  obtain ⟨p₀, rest, hpages, hstore⟩ := h.head
  obtain ⟨r₀, hr₀, hid₀, _⟩ := hall p₀ (hpages ▸ List.mem_cons_self)
  rw [hstore] at hr₀
  have hfixed := h.path_fixed hs hr₀
  have hall' : ∀ p ∈ pages, ∃ r ∈ p.store.project, r.id = i ∧ r.path = r₀.path ∧
      filtered req r = true := by
    intro p hp
    obtain ⟨r, hr, hid, hmatch⟩ := hall p hp
    exact ⟨r, hr, hid, hfixed p hp r hr (hid.trans hid₀.symm), hmatch⟩
  obtain ⟨P, hP, hrow⟩ := h.complete hs hg hend hall' fun path hp => by cases hp
  have hpos : 0 < ((returned pages).filter (Project.isRow i)).length :=
    List.length_pos_of_mem (List.mem_filter.2 ⟨hP, hrow⟩)
  have hpath : ∀ P ∈ (returned pages).filter (Project.isRow i), P.path = r₀.path := by
    intro P hP
    obtain ⟨hP, hrow⟩ := List.mem_filter.1 hP
    obtain ⟨p, hp, r, hr, he⟩ := h.row_of_returned hs P hP
    rw [isRow_of_bare he, beq_iff_eq] at hrow
    rw [path_of_bare he]
    exact hfixed p hp r hr (hrow.trans hid₀.symm)
  have hle := length_le_one ((h.strict hs hg).2.sublist List.filter_sublist) (l :=
    (returned pages).filter (Project.isRow i)) fun P hP Q hQ hlt =>
      hlt.ne ((hpath P hP).trans (hpath Q hQ).symm)
  omega

/-- A paged walk neither skips nor repeats a row. -/
theorem walk_neither_skips_nor_repeats {s : Store} (hs : s.Schema) (hg : Spelled s)
    (req : ListProjectsRequest) :
    (∀ pages, Walk req s [] pages →
      ((returned pages).Pairwise fun P Q => PathLt P.path Q.path) ∧
      (Ended pages → ∀ i,
        (∀ p ∈ pages, ∃ r ∈ p.store.project, r.id = i ∧ filtered req r = true) →
          ((returned pages).filter (Project.isRow i)).length = 1) ∧
      ∀ p ∈ pages, p.response.nextPageToken ≠ [] →
        p.response.projects.length = (pageSize p.size).toNat) ∧
    ∃ rows : List ProjectRow, (rows.Pairwise fun p q => PathLt p.path q.path) ∧
      (∀ r, r ∈ rows ↔ r ∈ s.project ∧ filtered req r = true) ∧
      (∀ pages, Walk req s [] pages → (∀ p ∈ pages, p.store = s) →
        pages.length ≤ rows.length + 1 ∧
        (Ended pages → (returned pages).map bare = rows.map rowToProject ∧
          (rows ≠ [] → ∀ p ∈ pages, p.response.projects ≠ []))) ∧
      (Listable req → ∀ size : Nat → Int, ∃ pages, Walk req s [] pages ∧
        (∀ p ∈ pages, p.store = s) ∧ Ended pages ∧
        pages.map Page.size = (List.range pages.length).map size) := by
  refine ⟨fun pages h => ⟨(h.strict hs hg).2, fun hend i hall => h.once hs hg hend hall,
    h.full hs⟩, ?_⟩
  have hleft : Left req s [] (sortedRows (.quiet 0 0) s req []) :=
    ⟨sortedRows_strict hs.path_key, fun r => mem_sortedRows⟩
  refine ⟨_, hleft.sorted, fun r => ?_, fun pages h hstill => h.still hs hg hstill hleft,
    fun hl size => exists_walk hs hl hleft size⟩
  rw [hleft.mem]
  exact and_congr_right fun _ => ⟨And.left, fun h => ⟨h, fun path hp => by cases hp⟩⟩

end

section
open scoped Reference

/-- Every project, one a page. -/
def everyProject : ListProjectsRequest := ⟨[], none, 1, []⟩

theorem walk_neither_skips_nor_repeats_renamed :
    ∃ pages, Walk everyProject Read.renamed [] pages ∧ Ended pages ∧
      ((returned pages).filter (Project.isRow "1".toList)).length = 1 := by
  have hspelled : Spelled Read.renamed := by
    intro r hr
    cases List.mem_singleton.1 hr
    exact (validate_ok_iff "" _).1 (by decide)
  obtain ⟨hwalk, _, _, _, _, hexists⟩ :=
    walk_neither_skips_nor_repeats renamed_schema hspelled everyProject
  obtain ⟨pages, hw, hstill, hend, _⟩ := hexists ⟨⟨none, rfl⟩, .inl rfl⟩ fun _ => 1
  refine ⟨pages, hw, hend, (hwalk pages hw).2.1 hend _ fun p hp => ?_⟩
  rw [hstill p hp]
  exact ⟨Read.acmeRoot, List.mem_cons_self, rfl, rfl⟩

end

end ProjectDb

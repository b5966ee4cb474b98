import ProjectDb.Reading

namespace ProjectDb
open Text ProjectDb.Path
set_option autoImplicit true

theorem weight_eq_iff {a b : Str} : weight a = weight b ↔ FoldsOnto a b := by
  have hlower : ∀ s, toAsciiLowercase (weight s) = toAsciiLowercase s := fun s =>
    List.map_map.trans (List.map_congr_left fun c _ => toLower_toUpper c)
  have hupper : ∀ s, weight (toAsciiLowercase s) = weight s := fun s =>
    List.map_map.trans (List.map_congr_left fun c _ => toUpper_toLower c)
  constructor
  · intro h
    rw [FoldsOnto, ← hlower a, ← hlower b, h]
  · intro h
    rw [← hupper a, ← hupper b, h]

/-- The order of the path columns, strictly. -/
def PathLt (a b : Str) : Prop := weight a < weight b

theorem PathLt.trans (h : PathLt a b) (h' : PathLt b c) : PathLt a c := lt_trans h h'

theorem PathLt.ne (h : PathLt a b) : a ≠ b := by
  rintro rfl
  exact lt_irrefl _ h

theorem not_pathLe {a b : Str} : ¬ PathLe a b ↔ PathLt b a := not_le

theorem PathLe.lt (h : PathLe a b) (hne : ¬ FoldsOnto a b) : PathLt a b :=
  lt_of_le_of_ne h (mt weight_eq_iff.1 hne)

instance : Std.Total fun p q : ProjectRow => PathLe p.path q.path where
  total p q := le_total (weight p.path) (weight q.path)

instance : IsTrans ProjectRow fun p q : ProjectRow => PathLe p.path q.path where
  trans _ _ _ h h' := le_trans h h'

namespace Read
open Mvcc

/-- A project without what other tables say of it. -/
def bare (p : Project) : Project := { p with aliases := [], grants := [] }

/-- The filter of a request, as its statement puts it. -/
def filtered (req : ListProjectsRequest) (r : ProjectRow) : Bool :=
  onPage ((present req.underPath).map fun path => (path, subtree path)) req.status none r

theorem onPage_iff {req : ListProjectsRequest} {after : Option Str} {r : ProjectRow} :
    onPage ((present req.underPath).map fun path => (path, subtree path)) req.status after r =
        true ↔
      filtered req r = true ∧ ∀ path ∈ after, PathLt path r.path := by
  simp only [filtered, onPage, Option.all_none, Bool.and_true, Bool.and_eq_true]
  apply and_congr_right
  intro _
  cases after with
  | none => exact iff_of_true rfl fun status h => absurd h (Option.not_mem_none status)
  | some path =>
    rw [Option.all_some, Bool.not_eq_true', decide_eq_false_iff_not, not_pathLe]
    exact ⟨fun h _ he => Option.some.inj he ▸ h, fun h => h path rfl⟩

theorem like_literal {c : Char} {p s : Str} (hc : c ≠ '%' ∧ c ≠ '_' ∧ c ≠ '\\') :
    like (c :: p) s = (s.head?.any (fun d => d.toLower == c.toLower) && like p s.tail) := by
  rw [like]
  · exact hc.1
  · exact hc.2.1
  · exact fun _ _ h _ => hc.2.2 h

theorem like_any (s : Str) : like ['%'] s = true := by
  change s.tails.any (like []) = true
  exact List.any_eq_true.2 ⟨[], (List.mem_tails _ _).2 List.nil_suffix, rfl⟩

/-- One character of an escaped pattern stands for itself, whatever it is. -/
theorem like_likeEscape_cons (c : Char) (p q s : Str) : like (likeEscape (c :: p) ++ q) s =
    (s.head?.any (fun d => d.toLower == c.toLower) && like (likeEscape p ++ q) s.tail) := by
  unfold likeEscape
  rw [List.flatMap_cons]
  by_cases hc : c = '\\' ∨ c = '%' ∨ c = '_'
  · rw [if_pos hc]
    rfl
  · rw [if_neg hc]
    push Not at hc
    exact like_literal ⟨hc.2.1, hc.2.2, hc.1⟩

/-- The pattern of a subtree matches what lies strictly beneath its root, and nothing else. -/
theorem like_subtree (root path : Str) : like (subtree root) path = true ↔
    ∃ rest, FoldsOnto path (root ++ '/' :: rest) := by
  unfold subtree
  induction root generalizing path with
  | nil =>
    change like ['/', '%'] path = true ↔ _
    rw [like_literal (by decide), like_any, Bool.and_true]
    cases path with
    | nil => exact iff_of_false (fun h => nomatch h) fun ⟨_, h⟩ => nomatch h
    | cons d path =>
      rw [List.head?_cons, Option.any_some, beq_iff_eq]
      exact ⟨fun h => ⟨path, congrArg (· :: toAsciiLowercase path) h⟩,
        fun ⟨_, h⟩ => (List.cons.inj h).1⟩
  | cons c root ih =>
    rw [like_likeEscape_cons, Bool.and_eq_true, ih]
    cases path with
    | nil => exact iff_of_false (fun h => nomatch h.1) fun ⟨_, h⟩ => nomatch h
    | cons d path =>
      rw [List.head?_cons, Option.any_some, beq_iff_eq, List.tail_cons, ← exists_and_left]
      apply exists_congr
      intro rest
      change _ ↔ d.toLower :: toAsciiLowercase path =
        c.toLower :: toAsciiLowercase (root ++ '/' :: rest)
      rw [List.cons.injEq]
      exact Iff.rfl

theorem filtered_iff {req : ListProjectsRequest} {r : ProjectRow} : filtered req r = true ↔
    (req.underPath = [] ∨ FoldsOnto r.path req.underPath ∨
      ∃ rest, FoldsOnto r.path (req.underPath ++ '/' :: rest)) ∧
    ∀ status ∈ req.status, r.status = status := by
  simp only [filtered, onPage, Option.all_none, Bool.and_true, Bool.and_eq_true]
  apply and_congr
  · unfold present
    cases hu : req.underPath with
    | nil => exact iff_of_true rfl (.inl rfl)
    | cons c cs =>
      simp only [List.isEmpty_cons, Bool.false_eq_true, ↓reduceIte, Option.map_some,
        Option.all_some, Bool.or_eq_true, eqIgnoreAsciiCase_iff, like_subtree, reduceCtorEq,
        false_or]
  · cases req.status with
    | none => exact iff_of_true rfl fun status h => absurd h (Option.not_mem_none status)
    | some status =>
      rw [Option.all_some, beq_iff_eq]
      exact ⟨fun h _ he => h.trans (Option.some.inj he), fun h => h status rfl⟩

theorem foldsOnto_append {path u rest : Str} (h : FoldsOnto path (u ++ rest)) :
    ∃ q t, path = q ++ t ∧ FoldsOnto q u ∧ FoldsOnto t rest := by
  have hmap : path.map Char.toLower = u.map Char.toLower ++ rest.map Char.toLower :=
    Eq.trans h List.map_append
  exact List.map_eq_append_iff.1 hmap

/-- A path folds onto another or beneath it exactly when one of its ancestors folds onto it. -/
theorem ancestor_iff (u path : Str) : (∃ q ∈ ancestors path, FoldsOnto q u) ↔
    FoldsOnto path u ∨ ∃ rest, FoldsOnto path (u ++ '/' :: rest) := by
  simp only [mem_ancestors_iff]
  constructor
  · intro ⟨q, hq, h⟩
    rcases hq with rfl | ⟨rest, rfl⟩
    · exact .inl h
    · refine .inr ⟨rest, ?_⟩
      rw [FoldsOnto, toAsciiLowercase_append, toAsciiLowercase_append, h]
  · intro h
    rcases h with h | ⟨rest, h⟩
    · exact ⟨path, .inl rfl, h⟩
    · obtain ⟨q, t, rfl, hq, ht⟩ := foldsOnto_append h
      cases t with
      | nil => cases ht
      | cons c t =>
        obtain ⟨hc, _⟩ := List.cons.inj ht
        rw [toLower_eq_slash.1 hc]
        exact ⟨q, .inr ⟨t, rfl⟩, hq⟩

/-- What a page is to be: the first rows of those that match beyond the token, in order. -/
structure PageOf (req : ListProjectsRequest) (s : Store) (token : Str) (size : Int)
    (rows : List ProjectRow) (response : ListProjectsResponse) : Prop where
  sorted : rows.Pairwise fun p q => PathLt p.path q.path
  mem : ∀ r, r ∈ rows ↔ r ∈ s.project ∧ filtered req r = true ∧
    ∀ path ∈ present token, PathLt path r.path
  projects : response.projects.map bare = (rows.take (pageSize size).toNat).map rowToProject
  next : response.nextPageToken = if rows.length ≤ (pageSize size).toNat then []
    else (((rows.take (pageSize size).toNat).getLast?).map ProjectRow.path).getD []

/-- The rows that match beyond a token, in order. -/
def sortedRows (t : Tick) (s : Store) (req : ListProjectsRequest) (token : Str) : List ProjectRow :=
  (t.order (s.project.filter (onPage ((present req.underPath).map fun path => (path, subtree path))
    req.status (present token)))).insertionSort fun p q => PathLe p.path q.path

theorem mem_sortedRows {t : Tick} {s : Store} {req : ListProjectsRequest} {token : Str} :
    r ∈ sortedRows t s req token ↔ r ∈ s.project ∧ filtered req r = true ∧
      ∀ path ∈ present token, PathLt path r.path := by
  rw [sortedRows, List.mem_insertionSort, (t.order_perm _).mem_iff, List.mem_filter, onPage_iff]

theorem sortedRows_strict {t : Tick} {s : Store} {req : ListProjectsRequest} {token : Str}
    (hpath : (s.project.map fun r => toAsciiLowercase r.path).Nodup) :
    (sortedRows t s req token).Pairwise fun p q => PathLt p.path q.path := by
  have hle : (sortedRows t s req token).Pairwise fun p q => PathLe p.path q.path :=
    List.pairwise_insertionSort (fun p q : ProjectRow => PathLe p.path q.path) _
  have hkeys : ((sortedRows t s req token).map fun r => toAsciiLowercase r.path).Nodup := by
    have hperm := ((List.perm_insertionSort (fun p q : ProjectRow => PathLe p.path q.path)
      (t.order (s.project.filter (onPage ((present req.underPath).map fun path =>
        (path, subtree path)) req.status (present token))))).trans (t.order_perm _)).map
          fun r => toAsciiLowercase r.path
    exact hperm.nodup_iff.2 (hpath.sublist (List.filter_sublist.map _))
  have hne := List.pairwise_map.1 hkeys
  exact (hle.and hne).imp fun ⟨h, hne⟩ => h.lt hne

@[simp] theorem bare_fillAliases (pairs : List AliasRow) (p : Project) :
    bare (fillAliases pairs p) = bare p := by
  unfold fillAliases
  split <;> rfl

@[simp] theorem bare_fillGrants (rows : List GrantRow) (p : Project) :
    bare (fillGrants rows p) = bare p := by
  unfold fillGrants
  split <;> rfl

theorem statusFilter_ok {requested : Option Int} (h : statusFilter requested = .ok status) :
    status.map ProjectStatus.toI8 = requested := by
  unfold statusFilter at h
  split at h
  · cases h
    rfl
  · rename_i value
    unfold ProjectStatus.tryFrom at h
    split_ifs at h with _ h₁ h₂
    · cases h
      exact congrArg some h₁.symm
    · cases h
      exact congrArg some h₂.symm

section
variable [ServerCollation] {env : Nat → Tick}

theorem eval_read_ok {q : Stmt} {s : Store} {a : q.Reply}
    (h : (Rpc.read q).eval env ⟨s, none, n⟩ = (.ok a, c)) :
    ∃ ws, q.exec (env n) s = .ok (a, ws) ∧ c = ⟨engine.patchAll ws s, none, n + 1⟩ := by
  change ((Op.exec (env n) (.sql q) s).1.mapError internal,
    (⟨engine.patchAll (Op.exec (env n) (.sql q) s).2 s, none, n + 1⟩ : Conn Store)) = _ at h
  simp only [Op.exec] at h
  cases hf : (env n).fault with
  | some f =>
    rw [hf] at h
    cases h
  | none =>
    rw [hf] at h
    cases hq : q.exec (env n) s with
    | error e =>
      rw [hq] at h
      cases h
    | ok r =>
      rw [hq] at h
      cases h
      exact ⟨r.2, rfl, rfl⟩

theorem selectPage_ok {s : Store} {under : Option (Str × Str)} {status : Option Int}
    {after : Option Str} {rows : List ProjectRow}
    (h : (Rpc.read (.selectPage under status after limit)).eval env ⟨s, none, n⟩ = (.ok rows, c)) :
    rows = pageOf (env n) s under status after limit ∧ c = ⟨s, none, n + 1⟩ := by
  obtain ⟨ws, hx, rfl⟩ := eval_read_ok h
  cases hx
  exact ⟨rfl, rfl⟩

theorem withAliases_ok {s : Store} {ps ps' : List Project}
    (h : (withAliases ps).eval env ⟨s, none, n⟩ = (.ok ps', c)) :
    ps'.map bare = ps.map bare ∧ ∃ m, c = ⟨s, none, m⟩ := by
  unfold withAliases at h
  split at h
  · cases h
    exact ⟨rfl, n, rfl⟩
  · rcases Rpc.eval_bind_cases h with ⟨e, c', _, he⟩ | ⟨pairs, c', hread, h⟩
    · cases he
    · obtain ⟨ws, hx, rfl⟩ := eval_read_ok hread
      cases hx
      cases h
      refine ⟨?_, n + 1, rfl⟩
      rw [List.map_map]
      exact List.map_congr_left fun p _ => bare_fillAliases _ p

theorem withGrants_ok {s : Store} {ps ps' : List Project}
    (h : (withGrants ps).eval env ⟨s, none, n⟩ = (.ok ps', c)) :
    ps'.map bare = ps.map bare ∧ ∃ m, c = ⟨s, none, m⟩ := by
  unfold withGrants at h
  split at h
  · cases h
    exact ⟨rfl, n, rfl⟩
  · rcases Rpc.eval_bind_cases h with ⟨e, c', _, he⟩ | ⟨rows, c', hread, h⟩
    · cases he
    · obtain ⟨ws, hx, rfl⟩ := eval_read_ok hread
      cases hx
      cases h
      refine ⟨?_, n + 1, rfl⟩
      rw [List.map_map]
      exact List.map_congr_left fun p _ => bare_fillGrants _ p

omit [ServerCollation] in
theorem getLast_path {ps : List Project} {rows : List ProjectRow}
    (h : ps.map bare = rows.map rowToProject) :
    ps.getLast?.map Project.path = rows.getLast?.map ProjectRow.path := by
  have hlast := congrArg List.getLast? h
  rw [List.getLast?_map, List.getLast?_map] at hlast
  have hpath := congrArg (Option.map Project.path) hlast
  rw [Option.map_map, Option.map_map] at hpath
  exact hpath

theorem page_ok {s : Store} {rows : List ProjectRow}
    (h : (page limit rows).eval env ⟨s, none, n⟩ = (.ok response, c)) :
    response.projects.map bare = (rows.take limit).map rowToProject ∧
    response.nextPageToken = (if rows.length ≤ limit then []
      else (((rows.take limit).getLast?).map ProjectRow.path).getD []) ∧ c.store = s := by
  rcases Rpc.eval_bind_cases h with ⟨e, c₁, _, he⟩ | ⟨ps₁, c₁, h₁, h⟩
  · cases he
  obtain ⟨hbare₁, m₁, rfl⟩ := withAliases_ok h₁
  rcases Rpc.eval_bind_cases h with ⟨e, c₂, _, he⟩ | ⟨ps₂, c₂, h₂, h⟩
  · cases he
  obtain ⟨hbare₂, m₂, rfl⟩ := withGrants_ok h₂
  cases h
  have hrows : ((rows.take limit).map rowToProject).map bare =
      (rows.take limit).map rowToProject := by
    rw [List.map_map]
    rfl
  have hbare := hbare₂.trans (hbare₁.trans hrows)
  refine ⟨hbare, ?_, rfl⟩
  have hlast := getLast_path hbare
  by_cases hmore : rows.length ≤ limit
  · have hfalse : decide (rows.length > limit) = false := decide_eq_false (Nat.not_lt.2 hmore)
    simp only [hfalse, if_pos hmore]
    split <;> rfl
  · have htrue : decide (rows.length > limit) = true := decide_eq_true (Nat.lt_of_not_le hmore)
    rw [if_neg hmore, ← hlast]
    simp only [htrue]
    cases ps₂.getLast? <;> rfl

theorem serve_list_ok {s : Store} {req : ListProjectsRequest}
    (hpath : (s.project.map fun r => toAsciiLowercase r.path).Nodup)
    (h : ((list { req with pageSize := size, pageToken := token }).serve env s).1 = .ok response) :
    ∃ rows, PageOf req s token size rows response := by
  rcases hr : (list { req with pageSize := size, pageToken := token }).eval env ⟨s, none, 0⟩ with
    ⟨answer, c⟩
  rw [Rpc.serve, hr] at h
  cases h
  rcases Rpc.eval_bind_cases hr with ⟨e, c₁, _, he⟩ | ⟨status, c₁, h₁, hr⟩
  · cases he
  rcases Rpc.eval_bind_cases hr with ⟨e, c₂, _, he⟩ | ⟨_, c₂, h₂, hr⟩
  · cases he
  rcases Rpc.eval_bind_cases hr with ⟨e, c₃, _, he⟩ | ⟨_, c₃, h₃, hr⟩
  · cases he
  rcases Rpc.eval_bind_cases hr with ⟨e, c₄, _, he⟩ | ⟨rows, c₄, h₄, hr⟩
  · cases he
  obtain ⟨hstatus, rfl⟩ := Prod.mk.inj h₁
  obtain ⟨_, rfl⟩ := Prod.mk.inj h₂
  have hc₃ := congrArg Prod.snd h₃
  rw [Rpc.eval_acquire_conn] at hc₃
  subst hc₃
  obtain ⟨hrows, rfl⟩ := selectPage_ok h₄
  rw [statusFilter_ok hstatus] at hrows
  change rows = (sortedRows (env 1) s req token).take ((pageSize size).toNat + 1) at hrows
  obtain ⟨hprojects, htoken, _⟩ := page_ok hr
  have htake : rows.take (pageSize size).toNat =
      (sortedRows (env 1) s req token).take (pageSize size).toNat := by
    rw [hrows, List.take_take, Nat.min_eq_left (Nat.le_succ _)]
  have hlen : rows.length ≤ (pageSize size).toNat ↔
      (sortedRows (env 1) s req token).length ≤ (pageSize size).toNat := by
    rw [hrows, List.length_take]
    omega
  refine ⟨sortedRows (env 1) s req token, sortedRows_strict hpath, fun r => mem_sortedRows, ?_, ?_⟩
  · rw [← htake]
    exact hprojects
  · rw [← htake, htoken]
    exact if_congr hlen rfl rfl

theorem page_answers (hf : Faultless env) (s : Store) (n limit : Nat) (rows : List ProjectRow) :
    ∃ response m, (page limit rows).eval env ⟨s, none, n⟩ = (.ok response, ⟨s, none, m⟩) := by
  apply Exists.elim (eval_fill hf s n (rows.take limit) _)
  rintro pairs ⟨grants, m, hfill⟩
  exact ⟨_, m, hfill⟩

/-- A request that a listing's checks let through. -/
def Listable (req : ListProjectsRequest) : Prop :=
  (∃ status, statusFilter req.status = .ok status) ∧
    (req.underPath = [] ∨ Grammatical req.underPath)

theorem serve_list_answers (hf : Faultless env) (s : Store) {req : ListProjectsRequest}
    (h : Listable req) (size : Int) (token : Str) :
    ∃ response, (list { req with pageSize := size, pageToken := token }).serve
      env s = (.ok response, s) := by
  obtain ⟨⟨status, hstatus⟩, hunder⟩ := h
  have hvalid : (if req.underPath.isEmpty then .ok ()
      else Path.validate "under_path" req.underPath) = .ok () := by
    rcases hunder with h | h
    · rw [h]
      rfl
    · rw [(validate_ok_iff "under_path" _).2 h, ite_self]
  have hread := eval_read (hf 1) (s := s) (q := .selectPage
    ((present req.underPath).map fun path => (path, subtree path))
    (status.map ProjectStatus.toI8) (present token) ((pageSize size).toNat + 1)) rfl
  unfold Rpc.serve list
  simp only [hstatus, hvalid]
  rw [Rpc.eval_bind_of_ok (Rpc.eval_ofExcept _ _), Rpc.eval_bind_of_ok (Rpc.eval_ofExcept _ _),
    Rpc.eval_bind_of_ok (Rpc.eval_acquire (hf 0)), Rpc.eval_bind_of_ok hread]
  obtain ⟨response, m, hpage⟩ := page_answers hf s 2 (pageSize size).toNat
    ((sortedRows (env 1) s { req with status := status.map ProjectStatus.toI8 } token).take
      ((pageSize size).toNat + 1))
  exact ⟨response, congrArg (fun r => (r.1, r.2.store)) hpage⟩

/-- The filter of a subtree is the inverse of the walk over the ancestors. -/
theorem under_path_inverts_ancestors :
    (∀ v s, like (subtree v) s = true ↔ ∃ rest, FoldsOnto s (v ++ '/' :: rest)) ∧
    (∀ u (r : ProjectRow), onPage (some (u, subtree u)) none none r = true ↔
      ∃ q ∈ ancestors r.path, FoldsOnto q u) ∧
    ∀ s : Store, s.Schema → ∀ req : ListProjectsRequest, Grammatical req.underPath →
      ∀ size token env response,
        ((list { req with pageSize := size, pageToken := token }).serve env s).1 = .ok response →
        ∃ rows, PageOf req s token size rows response ∧ ∀ r, r ∈ rows ↔ r ∈ s.project ∧
          (∃ q ∈ ancestors r.path, FoldsOnto q req.underPath) ∧
          (∀ status ∈ req.status, r.status = status) ∧
            ∀ path ∈ present token, PathLt path r.path := by
  refine ⟨like_subtree, fun u r => ?_, fun s hs req hu size token env response h => ?_⟩
  · rw [ancestor_iff, ← like_subtree]
    simp only [onPage, Option.all_some, Option.all_none, Bool.and_true, Bool.or_eq_true,
      eqIgnoreAsciiCase_iff]
  · obtain ⟨rows, hpage⟩ := serve_list_ok hs.path_key h
    refine ⟨rows, hpage, fun r => ?_⟩
    rw [hpage.mem, filtered_iff, ancestor_iff, or_iff_right hu.ne_nil, and_assoc]

end

end Read

end ProjectDb

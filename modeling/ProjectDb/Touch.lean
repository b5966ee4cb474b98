import ProjectDb.Handler

namespace ProjectDb.Touch
open Text ProjectDb.Path
set_option autoImplicit true

def maxTouch : Nat := 500

def minTimestampSeconds : Int := 1

def maxTimestampSeconds : Int := 2147483647

/-- The loop of `dedup_by`, with the element kept last. -/
def dedupFrom (same : τ → τ → Bool) (kept : τ) : List τ → List τ
  | [] => []
  | a :: rest => if same a kept then dedupFrom same kept rest else a :: dedupFrom same a rest

def dedupBy (same : τ → τ → Bool) : List τ → List τ
  | [] => []
  | a :: rest => a :: dedupFrom same a rest

/-- The order of `String`, which is that of its code points. -/
def strLe (a b : Str) : Bool := decide (a ≤ b)

def deduplicated (paths : List Str) : List Str :=
  dedupBy eqIgnoreAsciiCase
    (paths.mergeSort fun a b => strLe (toAsciiLowercase a) (toAsciiLowercase b))

/-- The checks made before a connection is taken: the seconds and the paths of the flush. -/
def checked (req : TouchProjectsRequest) : Except Status (Int × List Str) := do
  let _scope ← scopeOf req.scope
  match req.seenAt with
  | none =>
    .error (.invalidArgument ["seen_at is required. Substituting the server's clock would record ",
      "when the flush arrived rather than when anything was seen, and a delayed flush would then ",
      "look like recent activity"])
  | some seenAt =>
    if seenAt.seconds < minTimestampSeconds ∨ seenAt.seconds > maxTimestampSeconds then
      .error (.invalidArgument ["seen_at is ", .num seenAt.seconds, " seconds from the epoch, ",
        "which last_seen_at cannot hold: it is a TIMESTAMP, so the range is ",
        .num minTimestampSeconds, " to ", .num maxTimestampSeconds, " (1970-01-01T00:00:01Z to ",
        "2038-01-19T03:14:07Z). Outside it the engine stores NULL, which would erase the value ",
        "rather than advance it"])
    else if req.paths.isEmpty then
      .error (.invalidArgument ["paths is empty. An empty flush is a caller that has nothing to ",
        "say, and answering OK to it hides a bucket that is not filling"])
    else if req.paths.length > maxTouch then
      .error (.invalidArgument ["paths carries ", .num req.paths.length,
        " entries and the limit is ", .num maxTouch])
    else do
      req.paths.forM (Path.validate "paths")
      .ok (seenAt.seconds, deduplicated req.paths)

/-- The write first, so that no read view stands in front of it, and the count after. -/
def transact (seconds : Int) (paths : List Str) : Rpc Nat := do
  Rpc.ofExcept (← Rpc.inTxn (Txn.query (.updateLastSeen seconds paths)))
  let matched ← Rpc.ofExcept (← Rpc.inTxn (Txn.query (.countMatching paths)))
  Rpc.commit
  pure matched

/-- A flush, with whether it logs that some of its paths resolve to no project. -/
def touch (req : TouchProjectsRequest) : Rpc (TouchProjectsResponse × Bool) := do
  let (seconds, paths) ← Rpc.ofExcept (checked req)
  Rpc.acquire
  Rpc.begin
  let matched ← Rpc.closing (transact seconds paths)
  pure (⟨⟩, decide (matched < paths.length))

end ProjectDb.Touch

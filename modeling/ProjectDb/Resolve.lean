import ProjectDb.Handler

namespace ProjectDb.Read
open Text ProjectDb.Path
set_option autoImplicit true

/-- The ancestors a resolution looks for: the reserved segment is nobody's ancestor. -/
def chain (candidate : Str) : List Str :=
  (ancestors candidate).filter fun ancestor => !eqIgnoreAsciiCase ancestor reservedRoot

/-- The key `max_by_key` compares: the longer match, and a live path before an alias. -/
def rank (f : Found) : Nat × Int := (byteLen f.matched, -f.viaAlias)

def rankLe (a b : Nat × Int) : Bool := a.1 < b.1 || (a.1 == b.1 && a.2 ≤ b.2)

/-- `max_by_key`, which answers the last of the greatest elements. -/
def best : List Found → Option Found
  | [] => none
  | f :: rest =>
    match best rest with
    | none => some f
    | some g => if rankLe (rank f) (rank g) then some g else some f

def answer (candidate : Str) (found : List Found) : Except Status ResolveProjectResponse :=
  match best found with
  | none =>
    .error (.notFound ["no registered project matches ", .debug candidate, " or any ancestor of ",
      "it. Nothing is ever auto-created here: registration is an administrative act, through ",
      "GitOps or the CLI, and never an agent operation (D52). Register the path, or a parent of ",
      "it, and retry"])
  | some f =>
    let exact := eqIgnoreAsciiCase f.matched candidate
    .ok ⟨f.resolved, exact, exact && f.viaAlias == 1, f.status, f.sourceRepo.getD []⟩

def resolve (req : ResolveProjectRequest) : Rpc ResolveProjectResponse := do
  Rpc.ofExcept (Path.validate "candidate_path" req.candidatePath)
  Rpc.ofExcept (refuseReservedRoot "candidate_path" req.candidatePath)
  Rpc.acquire
  let found ← Rpc.read (.selectAncestors (chain req.candidatePath))
  Rpc.ofExcept (answer req.candidatePath found)

end ProjectDb.Read

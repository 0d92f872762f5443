/-!
# Policy and ledger

What the engine decides about formulas it writes into a ledger: each record says what
was decided, about which name and why. Records are added at the end and never changed.

The policy decides one thing itself: whether a formula may refer to series that do not
exist. A strict policy refuses, a hardened one accepts, and a caller may ask for
either.
-/

namespace SeriesAlgebra

/-- The mode of a policy. -/
inductive PolicyMode
  | strict
  | hardened
  deriving DecidableEq, Repr

/-- What was decided. -/
inductive Decision
  | allow
  | reject
  deriving DecidableEq, Repr

/-- What a decision was about. -/
inductive IssueKind
  | unknownOperator
  | unknownSeries
  | typeMismatch
  | timezoneMismatch
  | primaryConflict
  | renameConflict
  | malformedBinding
  | cycle
  | registered
  | renamed
  | deleted
  deriving DecidableEq, Repr

namespace PolicyMode

/-- The name of a mode. -/
def name : PolicyMode → String
  | strict => "strict"
  | hardened => "hardened"

/-- The mode of a name. -/
def ofName? (name : String) : Option PolicyMode :=
  match name with
  | "strict" => some strict
  | "hardened" => some hardened
  | _ => none

end PolicyMode

namespace Decision

/-- The name of a decision. -/
def name : Decision → String
  | allow => "allow"
  | reject => "reject"

/-- A decision as a title. -/
def title : Decision → String
  | allow => "Allow"
  | reject => "Reject"

end Decision

namespace IssueKind

/-- All kinds of issues. -/
def all : List IssueKind :=
  [unknownOperator, unknownSeries, typeMismatch, timezoneMismatch, primaryConflict, renameConflict,
   malformedBinding, cycle, registered, renamed, deleted]

/-- The name of a kind. -/
def name : IssueKind → String
  | unknownOperator => "unknown_operator"
  | unknownSeries => "unknown_series"
  | typeMismatch => "type_mismatch"
  | timezoneMismatch => "timezone_mismatch"
  | primaryConflict => "primary_conflict"
  | renameConflict => "rename_conflict"
  | malformedBinding => "malformed_binding"
  | cycle => "cycle"
  | registered => "registered"
  | renamed => "renamed"
  | deleted => "deleted"

/-- A kind as a title. -/
def title : IssueKind → String
  | unknownOperator => "UnknownOperator"
  | unknownSeries => "UnknownSeries"
  | typeMismatch => "TypeMismatch"
  | timezoneMismatch => "TimezoneMismatch"
  | primaryConflict => "PrimaryConflict"
  | renameConflict => "RenameConflict"
  | malformedBinding => "MalformedBinding"
  | cycle => "Cycle"
  | registered => "Registered"
  | renamed => "Renamed"
  | deleted => "Deleted"

/-- The kind of a name. -/
def ofName? (name : String) : Option IssueKind := all.find? fun kind => kind.name == name

end IssueKind

/-- A decision that was taken. -/
structure LedgerRecord where
  mode : PolicyMode
  decision : Decision
  kind : IssueKind
  subject : String
  detail : String
  deriving DecidableEq, Repr

namespace LedgerRecord

/-- A record in words. -/
def text (r : LedgerRecord) : String :=
  s!"[{r.subject}::{r.decision.title}] {r.kind.title}: {r.detail}"

end LedgerRecord

/-- The decisions taken so far, the latest last. -/
abbrev Ledger := List LedgerRecord

/-- How decisions are taken. -/
structure Policy where
  mode : PolicyMode
  /-- Whether formulas that refer to series that do not exist are refused. -/
  rejectsUnknown : Bool
  deriving DecidableEq, Repr

namespace Policy

/-- The policy that refuses unknown series. -/
def strict : Policy := ⟨.strict, true⟩

/-- The policy that accepts unknown series. -/
def hardened : Policy := ⟨.hardened, false⟩

/-- A record under a policy. -/
def record (p : Policy) (decision : Decision) (kind : IssueKind) (subject detail : String) :
    LedgerRecord :=
  ⟨p.mode, decision, kind, subject, detail⟩

/-- The decision on references to missing series; what the caller asks for counts before the
policy. -/
def decideUnknown (p : Policy) (asked : Option Bool) : Decision :=
  if asked.getD p.rejectsUnknown then .reject else .allow

/-- The record of that decision. -/
def recordUnknown (p : Policy) (subject : String) (missing : List String) (asked : Option Bool) :
    LedgerRecord :=
  p.record (p.decideUnknown asked) .unknownSeries subject ("missing=" ++ ",".intercalate missing)

end Policy

end SeriesAlgebra

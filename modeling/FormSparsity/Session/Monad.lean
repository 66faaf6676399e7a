import FormSparsity.Session.State

/-!
Computations in a session. What was found before a failure stays in the session.

| here | there |
| --- | --- |
| `openPass` | `EvalContext::new` with `ContextId::next` |
| `report` | the log calls behind `EvalContext::logs` |
-/
namespace FormSparsity

/-- A computation that changes a session and may fail. -/
abbrev SessionM (ε : Type) := ExceptT (Fault ε) (StateM Session)

/-- A computation in a session that may fail as an analysis does. -/
abbrev AnalysisM := SessionM AnalysisError

namespace Session

variable {ε α : Type}

/-- The result of a call that may be a misuse. -/
def checked : Except Misuse α → SessionM ε α
  | .ok a => pure a
  | .error m => throw (.misuse m)

/-- Opens a pass under a number of its own. There is always one, since numbers are taken as unbounded. -/
def openPass (domain : Domain) (computation : Computation) (verbosity : Verbosity) :
    SessionM ε Pass := do
  let id := (← get).passes
  modify fun s => { s with passes := id + 1 }
  return { id, domain, computation, verbosity }

/-- Adds a message of some level to the journal if it is open and the pass reports what is to be seen
from a verbosity on. Otherwise the message, which can be very long, is not put together at all. -/
def report (p : Pass) (threshold : Verbosity) (level : Level) (message : Unit → SessionM ε String) :
    SessionM ε Unit := do
  if (← get).journal.isOpen && p.reports threshold then
    let text ← message ()
    modify fun s =>
      { s with journal.records := s.journal.records.push { level, message := text } }

end Session

end FormSparsity

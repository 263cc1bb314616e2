import Mathlib.Data.List.Basic
import Mathlib.Logic.Function.Basic

/-!
# RePrime.Core.SemanticEdges

The lines of the ledger of an agent session's model requests (`semantic-edges.ts`).
-/

namespace RePrime
namespace Core
namespace SemanticEdges

inductive CompactionStatus where
  | completed | failed | cancelled
deriving DecidableEq, Repr

inductive LedgerEvent where
  | sessionRegistered (sessionId : String) (parentSessionId spawnedByRequestId : Option String)
  | requestStarted (requestId sessionId : String) (compactionId : Option String)
  | requestFinished (requestId : String)
  | requestFailed (requestId : String)
  | compactionBegun (compactionId sessionId : String)
  | compactionFinished (compactionId : String) (status : CompactionStatus)
  | childReturned (sessionId childSessionId requestId : String)
deriving DecidableEq, Repr

end SemanticEdges
end Core
end RePrime

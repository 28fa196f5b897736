import Moe.Browser.SqliteRuns

namespace Moe.Sqlite

/-- The answers that turn a call down, as against those that the storage or the memory failed. -/
def Code.refuses : Code → Bool
  | .busy | .misuse | .cantOpen | .ioerrShmLock | .unknownFile => true
  | .ok | .ioerrShmMap | .ioerrClose => false

namespace State

variable {s : State} {p q : Pointer} {file : Open}

end State

end Moe.Sqlite

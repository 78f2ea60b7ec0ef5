import Recurrence.Zone

/-!
# Moments

A moment is an instant together with the zone it is read in. Two moments are compared by their
instants alone.
-/

namespace Recurrence

/-- An instant, read in a zone. -/
structure Moment where
  instant : Instant
  zone : Zone
deriving DecidableEq, Repr

namespace Moment

/-- The offset in force at a moment, in seconds east of UTC. -/
def offset (m : Moment) : Int := m.zone.offsetAt m.instant

/-- What the clock on the wall shows at a moment. -/
def wallClock (m : Moment) : WallClock := m.zone.wallClock m.instant

end Moment

end Recurrence

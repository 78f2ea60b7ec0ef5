/-!
# Instants

An instant is a point of physical time, counted in nanoseconds since 1970-01-01T00:00:00 UTC. Only
whole seconds within a fixed range can be the answer of a search; `Instant.atSecond?` makes those.
-/

namespace Recurrence

/-- A point of time, in nanoseconds since 1970-01-01T00:00:00 UTC. -/
structure Instant where
  nanoseconds : Int
deriving DecidableEq, Repr

namespace Instant

instance : LT Instant := ⟨fun a b => a.nanoseconds < b.nanoseconds⟩

instance : LE Instant := ⟨fun a b => a.nanoseconds ≤ b.nanoseconds⟩

instance (a b : Instant) : Decidable (a < b) :=
  inferInstanceAs (Decidable (a.nanoseconds < b.nanoseconds))

instance (a b : Instant) : Decidable (a ≤ b) :=
  inferInstanceAs (Decidable (a.nanoseconds ≤ b.nanoseconds))

def perSecond : Int := 1000000000

def ofSeconds (seconds : Int) : Instant :=
  ⟨seconds * perSecond⟩

/-- The last whole second that is not after an instant. -/
def seconds (t : Instant) : Int :=
  t.nanoseconds / perSecond

/-- The first second of the range of instants, -9999-01-02T01:59:59 UTC. -/
def firstSecond : Int := -377705023201

/-- The last second of the range of instants, 9999-12-30T22:00:00 UTC. -/
def lastSecond : Int := 253402207200

/-- The instant at a whole second within the range. -/
def atSecond? (seconds : Int) : Option Instant :=
  if firstSecond ≤ seconds ∧ seconds ≤ lastSecond then some (ofSeconds seconds) else none

end Instant

end Recurrence

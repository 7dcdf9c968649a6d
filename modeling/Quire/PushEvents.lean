namespace Quire.PushEvents

-- A single ref update from a push.
structure PushRef where
  refName : String
  oldSha : String
  newSha : String
  deriving DecidableEq, Repr

-- `pushedAt` counts nanoseconds since the epoch.
structure PushEvent where
  eventType : String
  repo : String
  pushedAt : Int
  refs : List PushRef
  deriving DecidableEq, Repr

-- The new sha of a deletion.
def zeroSha : String := "0000000000000000000000000000000000000000"

def PushEvent.updatedRefs (self : PushEvent) : List PushRef := self.refs.filter fun pushRef => pushRef.newSha ≠ zeroSha

-- What `handle_event_connection` hands on to `ci::trigger` and then to
-- `mirror::trigger`. An event of another type is dropped.
def PushEvent.dispatched (self : PushEvent) : List PushRef := if self.eventType = "push" then self.updatedRefs else []

end Quire.PushEvents

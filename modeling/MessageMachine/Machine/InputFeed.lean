/-!
# The input feed

Events from outside wait in the feed until the machine drains it at a poll, oldest first.
-/

namespace MessageMachine

/-- Events from outside, oldest first. -/
structure InputFeed where
  events : Array Int := #[]
  deriving DecidableEq, Repr, Inhabited

namespace InputFeed

/-- Adds an event. -/
def push (f : InputFeed) (event : Int) : InputFeed := ⟨f.events.push event⟩

/-- Takes all events, oldest first. -/
def drain (f : InputFeed) : List Int × InputFeed := (f.events.toList, {})

/-- How many events wait. -/
def size (f : InputFeed) : Nat := f.events.size

/-- Whether no event waits. -/
def isEmpty (f : InputFeed) : Bool := f.events.isEmpty

end InputFeed

end MessageMachine

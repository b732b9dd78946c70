/-! Cancellation tokens.

A token belongs to one request, one call or one server, and hangs under the token
of what it is part of. Cancelling a token cancels everything under it and nothing
else. A token is the chain of numbers from its own to its topmost ancestor's;
which numbers were cancelled is kept in one place (`Tokens`). -/
namespace Switchboard

structure Token where
  own : Nat
  ancestors : List Nat
  deriving DecidableEq, Repr

/-- The numbers given out so far and those cancelled. -/
structure Tokens where
  next : Nat := 0
  cancelled : List Nat := []
  deriving Repr

namespace Tokens

/-- A new token that hangs under no other. -/
def root (s : Tokens) : Token × Tokens := (⟨s.next, []⟩, { s with next := s.next + 1 })

/-- A new token under `parent`. -/
def child (s : Tokens) (parent : Token) : Token × Tokens :=
  (⟨s.next, parent.own :: parent.ancestors⟩, { s with next := s.next + 1 })

def cancel (s : Tokens) (t : Token) : Tokens :=
  if t.own ∈ s.cancelled then s else { s with cancelled := t.own :: s.cancelled }

/-- Whether the token or one above it was cancelled. -/
def isCancelled (s : Tokens) (t : Token) : Bool :=
  (t.own :: t.ancestors).any fun n => decide (n ∈ s.cancelled)

end Tokens
end Switchboard

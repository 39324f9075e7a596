namespace TreeWalk

def defaultCalls : Int := 512

structure Limits where
  /-- The room for nesting. Every construct takes some of it for what stands inside: in a source that is
  read, in a tree that is printed or resolved, and in the trees under evaluation, those of all active
  calls together. -/
  nesting : Nat
  rounds : Nat := 1000000000000000

namespace Limits

def roomFor (calls : Int) : Nat := (24 * calls + 500).toNat

/-- Whether the room for a number of calls can be had at all: it is counted in 32 bits, one of them for
the sign. -/
def areFor (calls : Int) : Bool := roomFor calls < .pow 2 31

/-- The limits that go with a number of calls: the more there may be, the more room there is. -/
def forCalls (calls : Int) : Limits where
  nesting := max (roomFor defaultCalls) (roomFor calls)

end Limits

end TreeWalk

import TreeWalk.Proofs.Session.Course

namespace TreeWalk

def Run.Ends (r : Run) : Prop := r.ending ≠ .interrupted .endless

namespace Exec

variable {setup : Setup} {m m' : Machine} {i : Interrupt}

end Exec

namespace Session

open Exec

variable {setup : Setup} {sources : List String}

end Session

end TreeWalk

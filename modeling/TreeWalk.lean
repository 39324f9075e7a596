import TreeWalk.Main
import TreeWalk.Scope.Sharing
import TreeWalk.Proofs.Scope.Effect
import TreeWalk.Proofs.Tree.Regular
import TreeWalk.Proofs.Session.History
import TreeWalk.Proofs.Machine.Lies
import TreeWalk.Proofs.Session.Situated
import TreeWalk.Proofs.Session.Sound
import TreeWalk.Proofs.Session.Evaluation
import TreeWalk.Proofs.Session.Fits
import TreeWalk.Proofs.Scope.Program
import TreeWalk.Proofs.Session.Course
import TreeWalk.Proofs.Session.Distances
import TreeWalk.Proofs.Session.Outcome
import TreeWalk.Proofs.Grammar.Alike
import TreeWalk.Proofs.Token.Joined
import TreeWalk.Proofs.Scope.Alike
import TreeWalk.Proofs.Machine.Alike
import TreeWalk.Proofs.Machine.Lockstep
import TreeWalk.Proofs.Machine.Evaluation
import TreeWalk.Proofs.Session.Joined
import TreeWalk.Proofs.Machine.Truncation
import TreeWalk.Proofs.Session.Depth
import TreeWalk.Proofs.Token.Munch
import TreeWalk.Proofs.Token.Placed
import TreeWalk.Proofs.Grammar.Contained
import TreeWalk.Proofs.Tree.Renamed
import TreeWalk.Proofs.Tree.Respelled
import TreeWalk.Proofs.Tree.Marked
import TreeWalk.Proofs.Tree.Named
import TreeWalk.Proofs.Scope.Renamed
import TreeWalk.Proofs.Scope.Spelling
import TreeWalk.Proofs.Scope.Respelled
import TreeWalk.Proofs.Scope.Named
import TreeWalk.Proofs.Grammar.Halting
import TreeWalk.Proofs.Grammar.Traced
import TreeWalk.Proofs.Token.Respelled
import TreeWalk.Proofs.Machine.Operator
import TreeWalk.Proofs.Machine.Respelled
import TreeWalk.Proofs.Machine.Abreast
import TreeWalk.Proofs.Machine.Renaming
import TreeWalk.Proofs.Session.Renamed
import TreeWalk.Proofs.Machine.Pervasive
import TreeWalk.Proofs.Machine.Restoration
import TreeWalk.Proofs.Tree.Formed
import TreeWalk.Proofs.Machine.Upheld
import TreeWalk.Proofs.Machine.Steady
import TreeWalk.Proofs.Session.Spared
import TreeWalk.Proofs.Scope.Receiver
import TreeWalk.Proofs.Session.Receiver
import TreeWalk.Proofs.Scope.Violation
import TreeWalk.Proofs.Scope.Nesting
import TreeWalk.Proofs.Scope.Complaints
import TreeWalk.Proofs.Scope.Closed
import TreeWalk.Proofs.Machine.Pairing
import TreeWalk.Proofs.Machine.Mirror
import TreeWalk.Proofs.Machine.Closed
import TreeWalk.Proofs.Machine.Strand
import TreeWalk.Proofs.Session.Closures
import TreeWalk.Proofs.Session.Refused
import TreeWalk.Proofs.Session.Assignments
import TreeWalk.Proofs.Session.Globals
import TreeWalk.Proofs.Decimal.Interval
import TreeWalk.Proofs.Decimal.Shortest
import TreeWalk.Proofs.Decimal.Notation
import TreeWalk.Proofs.Tree.Form
import TreeWalk.Proofs.Tree.OfWords
import TreeWalk.Proofs.Grammar.OfWords
import TreeWalk.Proofs.Token.Spelled
import TreeWalk.Proofs.Tree.Printed
import TreeWalk.Proofs.Tree.Told
import TreeWalk.Proofs.Session.Printed
import TreeWalk.Proofs.Machine.Calls
import TreeWalk.Proofs.Machine.Genuine
import TreeWalk.Proofs.Session.Instances
import TreeWalk.Proofs.Machine.Activation
import TreeWalk.Proofs.Session.Returns
import TreeWalk.Proofs.Grammar.Unterminated
import TreeWalk.Proofs.Session.ForLoops
import TreeWalk.Proofs.Token.Layout
import TreeWalk.Proofs.Scope.Uses
import TreeWalk.Proofs.Scope.Separate
import TreeWalk.Proofs.Tree.Levels
import TreeWalk.Proofs.Machine.Forest
import TreeWalk.Proofs.Decimal.Nearest
import TreeWalk.Proofs.Decimal.Fewest
import TreeWalk.Proofs.Decimal.Reading
import TreeWalk.Proofs.Token.Numerals

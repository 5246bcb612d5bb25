import Lox.Main
import Lox.Token.Cursor
import Lox.Token.Scanner
import Lox.Store.Request
import Lox.Proofs.Token.Bytes
import Lox.Proofs.Token.Tiling
import Lox.Proofs.Token.Scanner
import Lox.Proofs.Token.Split
import Lox.Proofs.Token.Lexeme
import Lox.Proofs.Parse.Recovery
import Lox.Proofs.Parse.Sound
import Lox.Proofs.Parse.Bound
import Lox.Proofs.Parse.Complete
import Lox.Proofs.Parse.InStep
import Lox.Proofs.Parse.Productions
import Lox.Program.Grammar
import Lox.Proofs.Parse.Reading
import Lox.Program.Written
import Lox.Program.Relabel
import Lox.Proofs.Parse.RoundTrip
import Lox.Lexical.Eval
import Lox.Proofs.Scope.Formed
import Lox.Proofs.Scope.Worded
import Lox.Proofs.Scope.Linked
import Lox.Proofs.Scope.Checked
import Lox.Proofs.Scope.Exact
import Lox.Proofs.Lexical.Plan
import Lox.Proofs.Lexical.Related
import Lox.Proofs.Lexical.Agree
import Lox.Proofs.Lexical.Declare
import Lox.Proofs.Lexical.Matches
import Lox.Proofs.Lexical.Classes
import Lox.Proofs.Lexical.Simulation
import Lox.Proofs.Lexical.Sessions
import Lox.Proofs.Safety.Gate
import Lox.Proofs.Receiver.Kept
import Lox.Proofs.Receiver.Later
import Lox.Proofs.Receiver.Bound
import Lox.Proofs.Fuel
import Lox.Proofs.Rename.Relabelled
import Lox.Proofs.Rename.Renaming
import Lox.Proofs.Rename.Computations
import Lox.Proofs.Rename.Lockstep
import Lox.Proofs.Rename.Accepted
import Lox.Proofs.Rename.Sessions
import Lox.Proofs.Rename.Rejected
import Lox.Proofs.Rename.Joined
import Lox.Proofs.Rename.Counted
import Lox.Proofs.Memory.Confined
import Lox.Proofs.Output.Cut
import Lox.Proofs.Dispatch.Static
import Lox.Proofs.Respell.Sessions
import Lox.Proofs.Memory.Restored
import Lox.Proofs.Memory.Owner
import Lox.Proofs.Parse.Contained
import Lox.Proofs.Parse.Progress
import Lox.Proofs.Parse.Renumbered
import Lox.Proofs.Parse.Trees
import Lox.Proofs.Parse.ForLoop
import Lox.Proofs.Number.ReadBack
import Lox.Proofs.Print.Determined
import Lox.Proofs.Depth.Aligned

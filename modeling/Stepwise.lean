import Stepwise.Event
import Stepwise.Delay.Basic
import Stepwise.Delay.Lemmas
import Stepwise.Delay.Loop
import Stepwise.Cps.Basic
import Stepwise.Cps.Tower
import Stepwise.Cps.Plan
import Stepwise.ConsList.Basic
import Stepwise.ConsList.Cursor
import Stepwise.ConsList.Append
import Stepwise.ConsList.Text
import Stepwise.ConsList.Nested
import Stepwise.Tree.Basic
import Stepwise.Tree.Preorder
import Stepwise.Factorial
import Stepwise.Key.Bytes
import Stepwise.Text.Style
import Stepwise.Text.Layout
import Stepwise.Text.Form
import Stepwise.Proofs.Answers
import Stepwise.Proofs.Readings
import Stepwise.Proofs.Unwinding
import Stepwise.Proofs.Driving
import Stepwise.Proofs.FirstOverflow
import Stepwise.Proofs.Traversal
import Stepwise.Proofs.Unrolling
import Stepwise.Proofs.Recursions
import Stepwise.Proofs.Equality
import Stepwise.Proofs.KeySeparation
import Stepwise.Proofs.KeyPrefixes
import Stepwise.Proofs.Folding
import Stepwise.Proofs.Sequences
import Stepwise.Proofs.Fusion
import Stepwise.Proofs.ListDrives
import Stepwise.Proofs.LiftedMaps
import Stepwise.Proofs.OverflowReports
import Stepwise.Proofs.NodeCounts
import Stepwise.Proofs.Brackets
import Stepwise.Proofs.Numerals
import Stepwise.Proofs.Reading

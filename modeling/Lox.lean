import Lox.Main
import Lox.NodeTypes
import Lox.Proofs.Bindings
import Lox.Proofs.Brackets.Cut
import Lox.Proofs.CallDepth
import Lox.Proofs.Counting
import Lox.Proofs.Forgetting
import Lox.Proofs.Layout
import Lox.Proofs.LoopFree
import Lox.Proofs.Names
import Lox.Proofs.Number.Scanned
import Lox.Proofs.Parser.Range
import Lox.Proofs.Pieces
import Lox.Proofs.Receivers
import Lox.Proofs.Recovery
import Lox.Proofs.ScopeTree
import Lox.Proofs.Shell.Groups
import Lox.Proofs.Superclass
import Lox.Proofs.TreeDump
import Lox.Proofs.Shell.History
import Lox.Proofs.Chains
import Lox.Proofs.Parser.Tally

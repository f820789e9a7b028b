import CanonicalLR.Main
import CanonicalLR.Notice
import CanonicalLR.Proofs.Automaton.BreadthFirst
import CanonicalLR.Proofs.Automaton.Cut
import CanonicalLR.Proofs.Automaton.Lookaheads
import CanonicalLR.Proofs.Grammar.Naming
import CanonicalLR.Proofs.Grammar.Outcome
import CanonicalLR.Proofs.Grammar.Reachability
import CanonicalLR.Proofs.Grammar.Reading
import CanonicalLR.Proofs.Grammar.Refusals
import CanonicalLR.Proofs.Item.LeastClosure
import CanonicalLR.Proofs.Lookups.Pipeline
import CanonicalLR.Proofs.Renaming.Reordering
import CanonicalLR.Proofs.Restriction.Unreachable
import CanonicalLR.Proofs.Run.Ambiguity
import CanonicalLR.Proofs.Run.Discipline
import CanonicalLR.Proofs.Run.Prefix
import CanonicalLR.Proofs.Run.Recording
import CanonicalLR.Proofs.Run.Repeats
import CanonicalLR.Proofs.Run.Replay
import CanonicalLR.Proofs.Sets.Exactness
import CanonicalLR.Proofs.Sets.FollowExactness
import CanonicalLR.Proofs.Table.Demands
import CanonicalLR.Proofs.Worklist
import CanonicalLR.Tree

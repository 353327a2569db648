import GrammarNet.StackGraph.Stacks
import GrammarNet.StackGraph.Reach
import GrammarNet.Main
import GrammarNet.SymbolSet.Display
import GrammarNet.Network.Fragment
import GrammarNet.Network.Dot
import GrammarNet.Proofs.Positions
import GrammarNet.Proofs.Rounds
import GrammarNet.Proofs.WalkReach
import GrammarNet.Proofs.RuleClosed
import GrammarNet.Proofs.Configurations
import GrammarNet.Proofs.Shortening
import GrammarNet.Proofs.RuleEnd
import GrammarNet.Proofs.Completeness
import GrammarNet.Proofs.ExpectedTokens
import GrammarNet.Proofs.SafeWork
import GrammarNet.Proofs.Assembly
import GrammarNet.Proofs.CallSite
import GrammarNet.Proofs.LevelWalks
import GrammarNet.Proofs.SameTree
import GrammarNet.Proofs.MergeUnion
import GrammarNet.Proofs.Interning
import GrammarNet.Proofs.ContextRuns
import GrammarNet.Proofs.ContextLaws
import GrammarNet.Proofs.ReplacedNodes
import GrammarNet.Proofs.CarriedResults
import GrammarNet.Proofs.Histories
import GrammarNet.Proofs.Registries
import GrammarNet.Proofs.References
import GrammarNet.Proofs.QueryRuns
import GrammarNet.Proofs.RuleWords
import GrammarNet.Proofs.SettledPieces
import GrammarNet.Proofs.AddedEdges
import GrammarNet.Proofs.Drafts
import GrammarNet.Proofs.DraftSteps
import GrammarNet.Proofs.FragmentEdges
import GrammarNet.Proofs.SymbolSetRuns
import GrammarNet.Proofs.SymbolSetViews
import GrammarNet.Proofs.SymbolSetTexts
import GrammarNet.Proofs.DotReading
import GrammarNet.Proofs.Outcomes
import GrammarNet.Proofs.PredictionRuns
import GrammarNet.Proofs.ReturnEdges
import GrammarNet.Proofs.CallsInStep
import GrammarNet.Proofs.Refusals
import GrammarNet.Proofs.MergeIncluded
import GrammarNet.Proofs.TableContents
import GrammarNet.Proofs.UnfoldedTrees
import GrammarNet.Proofs.TableLookups
import GrammarNet.Proofs.WalkBounds
import GrammarNet.Lookahead.Recursive
import GrammarNet.Proofs.RecursiveWalk
import GrammarNet.Proofs.Encounters
import GrammarNet.Proofs.ActiveRules
import GrammarNet.Proofs.UnseenPredicates
import GrammarNet.Proofs.StoppedWalks
import GrammarNet.Proofs.BranchingStates
import GrammarNet.Proofs.DecidedAlternatives
import GrammarNet.Proofs.Expectations
import GrammarNet.Proofs.MergeOrder
import GrammarNet.Proofs.CanonicalOrder

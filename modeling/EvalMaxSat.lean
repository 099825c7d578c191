import EvalMaxSat.StepProgram
import EvalMaxSat.OrderedContainers
import EvalMaxSat.Literals
import EvalMaxSat.Weights
import EvalMaxSat.Totalizer
import EvalMaxSat.SatSolver
import EvalMaxSat.ReferenceBackEnd
import EvalMaxSat.Formula
import EvalMaxSat.AtMostOne
import EvalMaxSat.Solve
import EvalMaxSat.TotalizerShape
import EvalMaxSat.TotalizerGrowth
import EvalMaxSat.TotalizerMeaning
import EvalMaxSat.Cardinality
import EvalMaxSat.Ledger
import EvalMaxSat.Invariant
import EvalMaxSat.TotalizerSessions
import EvalMaxSat.Reweighing
import EvalMaxSat.Growing
import EvalMaxSat.Climbing
import EvalMaxSat.Levels
import EvalMaxSat.Relaxing
import EvalMaxSat.HardClauses
import EvalMaxSat.SoftClauses
import EvalMaxSat.Cores
import EvalMaxSat.Cliques
import EvalMaxSat.Steps
import EvalMaxSat.Passes
import EvalMaxSat.ExactPass
import EvalMaxSat.GraphEdges
import EvalMaxSat.Minimization
import EvalMaxSat.Strata
import EvalMaxSat.LocalOptimization
import EvalMaxSat.Rounds
import EvalMaxSat.Runs
import EvalMaxSat.Histories
import EvalMaxSat.Replays
import EvalMaxSat.SignedClauses
import EvalMaxSat.Bookkeeping
import EvalMaxSat.Disciplines
import EvalMaxSat.Rewriting
import EvalMaxSat.PassHistories
import EvalMaxSat.SafeHardening
import EvalMaxSat.Meaning
import EvalMaxSat.Optimality
import EvalMaxSat.FormulaCalls
import EvalMaxSat.FirstSolves
import EvalMaxSat.LaterSolves
import EvalMaxSat.Termination
import EvalMaxSat.MinimalCores
import EvalMaxSat.Stratification
import EvalMaxSat.BucketWalk
import EvalMaxSat.UnitWeights
import EvalMaxSat.VariableNumbers
import EvalMaxSat.Retention
import EvalMaxSat.StoredSolutions
import EvalMaxSat.StoredValues
import EvalMaxSat.InputStreams
import EvalMaxSat.ParseUtils
import EvalMaxSat.FileReading
import EvalMaxSat.Refills
import EvalMaxSat.Documents
import EvalMaxSat.WrittenFiles
import EvalMaxSat.LoadedFiles
import EvalMaxSat.LoaderAndChecker
import EvalMaxSat.WrittenNumbers
import EvalMaxSat.CheckedRuns
import EvalMaxSat.CliqueBounds
import EvalMaxSat.MaxClique
import EvalMaxSat.CliqueColoring
import EvalMaxSat.CliqueSearch
import EvalMaxSat.CliqueAnswers
import EvalMaxSat.CliqueAgreement
import EvalMaxSat.MainProgram
import EvalMaxSat.PrintedAnswers
import EvalMaxSat.CheckedFiles
import EvalMaxSat.SolvedFiles
import EvalMaxSat.PartialMachines
import EvalMaxSat.WordWeights
import EvalMaxSat.CadicalApi
import EvalMaxSat.CadicalRuns
import EvalMaxSat.CadicalReadings
import EvalMaxSat.FileVerdicts
import EvalMaxSat.ModelReconstruction
import EvalMaxSat.ExtensionStack
import EvalMaxSat.RestoredClauses
import EvalMaxSat.Inprocessing

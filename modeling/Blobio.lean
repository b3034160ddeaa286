import Blobio.EventRuns
import Blobio.BlobPaths
import Blobio.Arborist
import Blobio.ArboristRuns
import Blobio.RequestProcesses
import Blobio.RequestSteps
import Blobio.ContentAddresses
import Blobio.AcknowledgedPuts
import Blobio.UnrolledWraps
import Blobio.BrrLogger
import Blobio.FriskReads
import Blobio.LogAcceptance
import Blobio.ChunkedScans
import Blobio.RequestLines
import Blobio.TurnPrograms
import Blobio.RequestChild
import Blobio.RequestSpecs
import Blobio.RequestEnds
import Blobio.RequestOutcomes
import Blobio.ListenerCounters
import Blobio.WordCounters
import Blobio.ListenerRuns
import Blobio.LengthFrames
import Blobio.MessagePipes
import Blobio.GoTexts
import Blobio.FlowRecords
import Blobio.FlowAcceptance
import Blobio.BrrRecords
import Blobio.MarkedCuts
import Blobio.WrapRecords
import Blobio.GiveTakeProtocol
import Blobio.FlowWorkers
import Blobio.LockStepNetworks
import Blobio.LockStepRounds
import Blobio.LockStepRuns
import Blobio.TernaryLogic
import Blobio.WhenClauses
import Blobio.FlowOperators
import Blobio.FlowCompile
import Blobio.FlowDiscipline
import Blobio.FlowWiring
import Blobio.FlowNetworks
import Blobio.LockStepStalls
import Blobio.FlowCalm
import Blobio.FlowHandOvers
import Blobio.FlowLockStep
import Blobio.BoolNetworks
import Blobio.RecordMessages
import Blobio.WrapSets
import Blobio.PgUdigs
import Blobio.JaccardSets
import Blobio.RollStats
import Blobio.TrustedReads
import Blobio.LogTails
import Blobio.FsHistories
import Blobio.BlobSets
import Blobio.WallDurations
import Blobio.DigestChecks
import Blobio.WriteLoops
import Blobio.NetTimers
import Blobio.Bio4Client
import Blobio.BufferPieces
import Blobio.TmpMaps
import Blobio.QueryArgs
import Blobio.RollBlobs
import Blobio.WrapRolls
import Blobio.ExecVectors
import Blobio.WrapAnswers
import Blobio.FsPaths
import Blobio.AppendBrr
import Blobio.AppendXdr
import Blobio.FsBrrs
import Blobio.ArcOrders
import Blobio.Tsort
import Blobio.FlowLexer
import Blobio.FlowVectors
import Blobio.FlowCounts
import Blobio.FlowParser
import Blobio.FlowReferences
import Blobio.FlowFanOuts
import Blobio.FsRolls
import Blobio.CharArrays
import Blobio.WrapNames
import Blobio.LogMessages
import Blobio.TerseIntervals
import Blobio.FileRolls
import Blobio.FlowEvaluations
import Blobio.FlowComparisons
import Blobio.FlowSoundness
import Blobio.EarlyExits
import Blobio.ClientDigests
import Blobio.Bio4Sessions
import Blobio.Bio4Transfers
import Blobio.ClientServer
import Blobio.Bio4Puts
import Blobio.CommandLines
import Blobio.CliRuns
import Blobio.LastVerdicts
import Blobio.WrapWalks
import Blobio.WrapScans
import Blobio.WalkedRecords

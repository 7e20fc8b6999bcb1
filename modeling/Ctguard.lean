import Ctguard.InputStream
import Ctguard.LogfileDelivery
import Ctguard.ProcessLog
import Ctguard.ParseRules
import Ctguard.PlainHost
import Ctguard.RuleChain
import Ctguard.WalkTrace
import Ctguard.AcceptedRules
import Ctguard.GroupRule
import Ctguard.EventNames
import Ctguard.NormalReturn
import Ctguard.Inheritance
import Ctguard.SlidingWindow
import Ctguard.StateTask
import Ctguard.ActivationWindow
import Ctguard.ActivationReset
import Ctguard.WrittenConditions
import Ctguard.OneShotTimer
import Ctguard.UnlessAlerts
import Ctguard.StepRuns
import Ctguard.OutputTask
import Ctguard.ForwardingOrder
import Ctguard.InterventionDaemon
import Ctguard.BinaryFormat
import Ctguard.SocketMessages
import Ctguard.ProcessingTask
import Ctguard.CatchingUp
import Ctguard.StopMessage
import Ctguard.LogscanDaemon
import Ctguard.LogscanShutdown
import Ctguard.AlertTask
import Ctguard.ScanBatching
import Ctguard.PendingInserts
import Ctguard.ScanCycle
import Ctguard.FileDataFactory
import Ctguard.ObjectChanges
import Ctguard.RecordedContent
import Ctguard.DiskscanDaemon
import Ctguard.SnapshotOrder
import Ctguard.MailTask
import Ctguard.ResearchDaemon
import Ctguard.ResearchShutdown
import Ctguard.ResearchStopping
import Ctguard.ScanMarkers
import Ctguard.SingleRun
import Ctguard.SingleRunReturn
import Ctguard.SiblingOrder
import Ctguard.DotLines
import Ctguard.MailBody
import Ctguard.XMLParser
import Ctguard.RootElement
import Ctguard.RuleConditions
import Ctguard.RuleIds
import Ctguard.MailBatching
import Ctguard.PhaseTwoNames
import Ctguard.CommutingSteps
import Ctguard.ConfigReaders
import Ctguard.OwnSettings
import Ctguard.ProgramSettings
import Ctguard.ConfigLexer
import Ctguard.ConfigPieces
import Ctguard.ConfigParser
import Ctguard.ConfigTokens
import Ctguard.ConfigEntries
import Ctguard.ConfigPositions
import Ctguard.AcceptedConfigs
import Ctguard.TokenRoles
import Ctguard.QuotedTexts
import Ctguard.SendMail
import Ctguard.SystemdTask
import Ctguard.StateFile
import Ctguard.SeenTwice
import Ctguard.StoredValues
import Ctguard.FailedBatches
import Ctguard.LogfileTrace
import Ctguard.LogfileRuns
import Ctguard.FileMessages
import Ctguard.LogfileDescriptors
import Ctguard.QuotedReplacement
import Ctguard.QuotedBraces
import Ctguard.QuotedDuplicates
import Ctguard.RoleCounts
import Ctguard.QuotedOutcomes
import Ctguard.Numerals
import Ctguard.TrimmedLists
import Ctguard.DryRun
import Ctguard.ScanTree
import Ctguard.XMLComments
import Ctguard.XMLLineBreaks
import Ctguard.XMLPrint
import Ctguard.XMLReprint
import Ctguard.XMLLostMarks
import Ctguard.XMLRoundTrip
import Ctguard.EditGraph
import Ctguard.EditScripts
import Ctguard.ContentDiff
import Ctguard.DiffScripts
import Ctguard.DiffSearch
import Ctguard.UnifiedHunks
import Ctguard.UnifiedFormat
import Ctguard.ContentHistory
import Ctguard.BlockStream
import Ctguard.Sha256
import Ctguard.Sha256Digest
import Ctguard.Sha256Unrolled
import Ctguard.FileReading
import Ctguard.Simulation
import Ctguard.BlockedQueue
import Ctguard.QueueOperations
import Ctguard.QueueProgress
import Ctguard.DiskscanShutdown
import Ctguard.InterventionThreads
import Ctguard.InterventionStop

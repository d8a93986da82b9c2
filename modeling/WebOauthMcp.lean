import WebOauthMcp.CodePoints
import WebOauthMcp.Utf8Units
import WebOauthMcp.LineSplitting
import WebOauthMcp.FileTree
import WebOauthMcp.ExceptSteps
import WebOauthMcp.PatchGrammar
import WebOauthMcp.PatchPlanning
import WebOauthMcp.PatchExecution
import WebOauthMcp.PatchSequencing
import WebOauthMcp.PatchBytes
import WebOauthMcp.Tables
import WebOauthMcp.Words
import WebOauthMcp.OauthStore
import WebOauthMcp.OauthOperations
import WebOauthMcp.OauthSteps
import WebOauthMcp.OauthRuns
import WebOauthMcp.OauthCodes
import WebOauthMcp.OauthFamilies
import WebOauthMcp.OauthGrants
import WebOauthMcp.OauthProvenance
import WebOauthMcp.OauthUnreadable
import WebOauthMcp.ReadModifyWrite
import WebOauthMcp.OauthOverlap
import WebOauthMcp.AvoidedWords
import WebOauthMcp.JsonText
import WebOauthMcp.ResponseBudget
import WebOauthMcp.BudgetMetadata
import WebOauthMcp.TokenOctets
import WebOauthMcp.CapturedOutput
import WebOauthMcp.JobOutput
import WebOauthMcp.JobPaging
import WebOauthMcp.FileReplies
import WebOauthMcp.SearchPages
import WebOauthMcp.CommandReplies
import WebOauthMcp.ReplyRendering
import WebOauthMcp.UnicodeCodecs
import WebOauthMcp.TextScans
import WebOauthMcp.ContentIo
import WebOauthMcp.NewlineConvention
import WebOauthMcp.ReplaceRules
import WebOauthMcp.FaultyPrograms
import WebOauthMcp.ReplaceFiles
import WebOauthMcp.ReplaceAtomicity
import WebOauthMcp.LockedTransactions
import WebOauthMcp.ReplaceOverlap
import WebOauthMcp.HttpGate
import WebOauthMcp.JobRecord
import WebOauthMcp.JobStatusRuns
import WebOauthMcp.InterleavedPrograms
import WebOauthMcp.KillJob
import WebOauthMcp.KillAttribution
import WebOauthMcp.RelyGuarantee
import WebOauthMcp.CodexRuntimes
import WebOauthMcp.CodexCalls
import WebOauthMcp.CodexBindings
import WebOauthMcp.CodexSections
import WebOauthMcp.CodexDetachment
import WebOauthMcp.Registries
import WebOauthMcp.CodexEviction
import WebOauthMcp.RuntimeRegistry
import WebOauthMcp.RollingSupervisor
import WebOauthMcp.RollingReload
import WebOauthMcp.AppServerAdapter
import WebOauthMcp.AppServerCalls
import WebOauthMcp.AppServerParties
import WebOauthMcp.StrandedCallers
import WebOauthMcp.ThreadOwnership
import WebOauthMcp.ElicitationRouting
import WebOauthMcp.ElicitationApproval
import WebOauthMcp.JobListing
import WebOauthMcp.ExecutionState
import WebOauthMcp.OffsetPaging
import WebOauthMcp.ReplyOffsets
import WebOauthMcp.JobPages
import WebOauthMcp.ReadPaging
import WebOauthMcp.ReplyFields
import WebOauthMcp.SearchPaging
import WebOauthMcp.ListPaging
import WebOauthMcp.BatchSearch
import WebOauthMcp.UnifiedReader
import WebOauthMcp.BatchReading
import WebOauthMcp.CodeMapPaging
import WebOauthMcp.BoundedQueues
import WebOauthMcp.ContentSearch
import WebOauthMcp.BytePages
import WebOauthMcp.DiffPaging
import WebOauthMcp.NamedEncodings
import WebOauthMcp.ReplaceBudget
import WebOauthMcp.OauthUsability
import WebOauthMcp.OauthFailures
import WebOauthMcp.GitOutput
import WebOauthMcp.DiffSections
import WebOauthMcp.GitHistory
import WebOauthMcp.GitListings
import WebOauthMcp.AllowedPaths
import WebOauthMcp.LineNumbers
import WebOauthMcp.NumberedLists
import WebOauthMcp.SearchedFiles
import WebOauthMcp.StreamedContext
import WebOauthMcp.EventReading
import WebOauthMcp.CutStreams
import WebOauthMcp.PatchAcceptance
import WebOauthMcp.HunkInversion
import WebOauthMcp.PatchStatistics
import WebOauthMcp.StreamWindows
import WebOauthMcp.OutputCeiling
import WebOauthMcp.SettledEstimates
import WebOauthMcp.BatchOutcomes
import WebOauthMcp.JsonDecoding
import WebOauthMcp.BindingStore
import WebOauthMcp.BindingRuns
import WebOauthMcp.TmuxPanes
import WebOauthMcp.PaneRecovery
import WebOauthMcp.TmuxCapture
import WebOauthMcp.CaptureBounds
import WebOauthMcp.WaterFilling
import WebOauthMcp.UnitDecoding
import WebOauthMcp.EnvDiff
import WebOauthMcp.DiffPositions
import WebOauthMcp.AtomicWrites
import WebOauthMcp.DescriptorHygiene
import WebOauthMcp.FormEncoding
import WebOauthMcp.ConsentPage
import WebOauthMcp.OauthHttp
import WebOauthMcp.RedirectUrls
import WebOauthMcp.OauthSessions
import WebOauthMcp.SessionLiveness

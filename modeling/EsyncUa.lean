import EsyncUa.Workers
import EsyncUa.SequenceOrder
import EsyncUa.Redelivery
import EsyncUa.Delivery
import EsyncUa.CompletedDownloads
import EsyncUa.DownloadRecovery
import EsyncUa.Queries
import EsyncUa.QueryRetries
import EsyncUa.DeltaOrder
import EsyncUa.PlainDeltas
import EsyncUa.PackageControl
import EsyncUa.RollbackVersions
import EsyncUa.ReadyUpdateResults
import EsyncUa.Callbacks
import EsyncUa.Exclusion
import EsyncUa.ConsentReplies
import EsyncUa.DownloadContexts
import EsyncUa.LateConfirms
import EsyncUa.RetryBudget
import EsyncUa.RunMerging
import EsyncUa.PackageDigests
import EsyncUa.PackageManifests
import EsyncUa.BackupCleanup
import EsyncUa.FileWorlds
import EsyncUa.EntryLookups
import EsyncUa.Preparations
import EsyncUa.Backups
import EsyncUa.RebootRecords
import EsyncUa.Consents
import EsyncUa.PropertyLookups
import EsyncUa.FileCopies
import EsyncUa.Extraction
import EsyncUa.ExtractedFiles
import EsyncUa.Resumption
import EsyncUa.OffsetChanges
import EsyncUa.ArchiveWalks
import EsyncUa.PatchCommands
import EsyncUa.IncrementalFallbacks
import EsyncUa.RollbackTypeResets
import EsyncUa.TextBytes
import EsyncUa.ToolArguments
import EsyncUa.SquashOptions
import EsyncUa.DiffEntries
import EsyncUa.BackupTargets
import EsyncUa.CampaignPackages
import EsyncUa.VersionItems
import EsyncUa.Base64Strings
import EsyncUa.Presence
import EsyncUa.ScratchMemory
import EsyncUa.NewImageSizes
import EsyncUa.FileDescriptorCopies
import EsyncUa.DirectorySystems
import EsyncUa.DirectoryCreation
import EsyncUa.ReflectedCrc
import EsyncUa.ChecksumChunks
import EsyncUa.LabelledSystems
import EsyncUa.QueuedMessages
import EsyncUa.TablesInMemory
import EsyncUa.LinkedQueues
import EsyncUa.Deadlocks
import EsyncUa.ArchiveRoundTrips
import EsyncUa.DeltaTools
import EsyncUa.CallbackOrder

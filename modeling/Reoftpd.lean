import Reoftpd.Runs
import Reoftpd.Interleaving
import Reoftpd.Disk
import Reoftpd.PathText
import Reoftpd.Locations
import Reoftpd.Walk
import Reoftpd.FileTree
import Reoftpd.FileTreeFacts
import Reoftpd.MakeDirs
import Reoftpd.Append
import Reoftpd.StoreStream
import Reoftpd.Crypto
import Reoftpd.StoreEncrypted
import Reoftpd.TreeStores
import Reoftpd.StoreRace
import Reoftpd.Resume
import Reoftpd.EncryptedRace
import Reoftpd.NameRace
import Reoftpd.AssocMap
import Reoftpd.Limits
import Reoftpd.TrackerRuns
import Reoftpd.SessionSlots
import Reoftpd.Config
import Reoftpd.Scope
import Reoftpd.Paths
import Reoftpd.Account
import Reoftpd.Auth
import Reoftpd.Backend
import Reoftpd.JailWrites
import Reoftpd.StoredClips
import Reoftpd.EncryptedClips
import Reoftpd.ReadJail
import Reoftpd.LoginReload
import Reoftpd.Lexical
import Reoftpd.CameraJails
import Reoftpd.Retention
import Reoftpd.RetentionExact
import Reoftpd.Footage
import Reoftpd.HomesKept
import Reoftpd.AlikeHomes
import Reoftpd.Noninterference
import Reoftpd.Touches
import Reoftpd.WritesJailed
import Reoftpd.TouchesInside
import Reoftpd.DryRun
import Reoftpd.SweepSpares
import Reoftpd.Cleanup
import Reoftpd.ScopeExpansion
import Reoftpd.DirectoryViews
import Reoftpd.ViewerEntry
import Reoftpd.DanglingLinks
import Reoftpd.ResolveExact
import Reoftpd.FailedStores
import Reoftpd.ReloadRuns
import Reoftpd.Decrypt
import Reoftpd.FailedDecrypts
import Reoftpd.NestedQuarantine
import Reoftpd.DeletionReports
import Reoftpd.TomlTables
import Reoftpd.TomlStrings
import Reoftpd.TomlScalars
import Reoftpd.TomlReader
import Reoftpd.TomlTexts
import Reoftpd.TomlLines
import Reoftpd.ConfigText
import Reoftpd.AccountEntries
import Reoftpd.AddAccount
import Reoftpd.Unwinding
import Reoftpd.Effects
import Reoftpd.CamerasApart
import Reoftpd.SoloRuns
import Reoftpd.SameNames
import Reoftpd.ParallelUploads
import Reoftpd.TreeMirrors
import Reoftpd.TreeUploads
import Reoftpd.WriteOnce
import Reoftpd.Acknowledged
import Reoftpd.ArchiveRuns
import Reoftpd.Delivery
import Reoftpd.SweepCalls
import Reoftpd.SweepRace
import Reoftpd.Lockouts
import Reoftpd.CleanupTimes
import Reoftpd.PlainRetries
import Reoftpd.EncryptedRetries
import Reoftpd.SameFootage
import Reoftpd.ScopedViewers
import Reoftpd.Service
import Reoftpd.AddedAccounts
import Reoftpd.Offences
import Reoftpd.SealedService

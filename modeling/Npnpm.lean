import Npnpm.Library.Text
import Npnpm.Library.KeyedMap
import Npnpm.Library.ShellWords
import Npnpm.Library.ByteTexts
import Npnpm.Library.SwapRemove
import Npnpm.Library.Results
import Npnpm.Library.Run
import Npnpm.Library.Worklist
import Npnpm.Library.Serde
import Npnpm.Library.SerdeRoundTrip
import Npnpm.Library.DepthFirst
import Npnpm.Library.Path
import Npnpm.Library.FileTree
import Npnpm.Library.FileNames
import Npnpm.Library.TreeView
import Npnpm.Library.OneWay
import Npnpm.Library.ReorderedMaps
import Npnpm.Lockfile.Names
import Npnpm.Lockfile.VirtualStoreName
import Npnpm.Lockfile.Snapshot
import Npnpm.Lockfile.Deserialize
import Npnpm.Lockfile.CoreVersion
import Npnpm.Lockfile.RootSnapshot
import Npnpm.Lockfile.Serialize
import Npnpm.Lockfile.NameRoundTrip
import Npnpm.Lockfile.RoundTrip
import Npnpm.Lockfile.StoreNames
import Npnpm.Lockfile.Determinism
import Npnpm.Tarball.StoreDir
import Npnpm.Tarball.Extract
import Npnpm.Tarball.Containment
import Npnpm.Tarball.StorePaths
import Npnpm.Tarball.WarmPath
import Npnpm.Tarball.MemCache
import Npnpm.Tarball.MemCacheInvariant
import Npnpm.Tarball.MemCacheSafety
import Npnpm.Tarball.MemCacheProvenance
import Npnpm.Tarball.MemCacheOnce
import Npnpm.Tarball.WarmStore
import Npnpm.Tarball.Prune
import Npnpm.Fs.EnsureFile
import Npnpm.Fs.WholeFiles
import Npnpm.Registry.Package
import Npnpm.Registry.CoreRange
import Npnpm.Registry.Specifiers
import Npnpm.Registry.Caret
import Npnpm.Registry.DirectLookup
import Npnpm.Registry.Reordered
import Npnpm.PackageManifest.Bins
import Npnpm.PackageManifest.Dependencies
import Npnpm.PackageManifest.Edits
import Npnpm.PackageManifest.EntryOrder
import Npnpm.PackageManager.InstallPackageBySnapshot
import Npnpm.PackageManager.Fetch
import Npnpm.PackageManager.FetchSelection
import Npnpm.PackageManager.LinkPackages
import Npnpm.PackageManager.InstallFrozenLockfile
import Npnpm.PackageManager.InstallRun
import Npnpm.PackageManager.VirtualStoreLayout
import Npnpm.PackageManager.OwnDirectories
import Npnpm.PackageManager.LinkLayout
import Npnpm.PackageManager.DependencyLinks
import Npnpm.PackageManager.GenerateLockfile
import Npnpm.PackageManager.GenerateGraph
import Npnpm.PackageManager.GenerateTermination
import Npnpm.PackageManager.GenerateReach
import Npnpm.PackageManager.GenerateFlags
import Npnpm.PackageManager.SavedLockfile
import Npnpm.PackageManager.CreateBins
import Npnpm.PackageManager.InstallWithoutLockfile
import Npnpm.PackageManager.Install
import Npnpm.PackageManager.RegistryMetadataCache
import Npnpm.PackageManager.LockfileInSync
import Npnpm.PackageManager.GenerateEntries
import Npnpm.PackageManager.GenerateInstallable
import Npnpm.PackageManager.FrozenRun
import Npnpm.PackageManager.OfflineRun
import Npnpm.PackageManager.StepNames
import Npnpm.PackageManager.ProjectPlaces
import Npnpm.PackageManager.SyncLinks
import Npnpm.PackageManager.ManifestCommands
import Npnpm.PackageManager.SaveOrder
import Npnpm.PackageManager.RegistryReach
import Npnpm.PackageManager.RegistryLinks
import Npnpm.PackageManager.BinZone
import Npnpm.PackageManager.DirectLinks
import Npnpm.PackageManager.FetchReach
import Npnpm.PackageManager.ReferenceReaders
import Npnpm.PackageManager.KeyTexts
import Npnpm.PackageManager.StaleLinks
import Npnpm.Tarball.FailedRuns
import Npnpm.PackageManager.ImportRuns
import Npnpm.PackageManager.SyncSweep
import Npnpm.Tarball.StoreStatus
import Npnpm.Tarball.PruneExact
import Npnpm.Tarball.OneCall
import Npnpm.PackageManager.StoreAdd
import Npnpm.PackageManager.StoreAddReach
import Npnpm.PackageManager.StoreAddOffline
import Npnpm.PackageManager.RemoveOrder
import Npnpm.PackageManager.UpdateInPlace
import Npnpm.PackageManager.PackageSpecs
import Npnpm.PackageManager.RecordedRanges
import Npnpm.PackageManager.UpdateLatest
import Npnpm.PackageManager.LatestVersion
import Npnpm.Cli.RunScript
import Npnpm.PackageManager.BinContainment
import Npnpm.PackageManager.BinsExact
import Npnpm.PackageManager.UnreadableSpecifiers
import Npnpm.Tarball.MalformedArchives
import Npnpm.Tarball.StoreAddresses
import Npnpm.Npmrc.ProjectDirs
import Npnpm.Library.Semaphore
import Npnpm.Network.ThrottledClient
import Npnpm.Network.ThrottledRuns
import Npnpm.PackageManager.FreshRun
import Npnpm.PackageManager.ResolvedTree
import Npnpm.PackageManager.GenerateFaults
import Npnpm.PackageManager.GenerateReordered
import Npnpm.PackageManager.ReorderedLockfile
import Npnpm.PackageManager.FetchThenOffline
import Npnpm.Tarball.StoreSessions
import Npnpm.PackageManager.Reinstall
import Npnpm.Library.CellEdits
import Npnpm.PackageManager.ManifestTable
import Npnpm.PackageManager.CommandTables
import Npnpm.PackageManifest.Files
import Npnpm.Cli.ProjectSessions

import TribiosVfs.Lib.Prog
import TribiosVfs.Lib.Service
import TribiosVfs.Lib.PathMap
import TribiosVfs.Lib.PathSums
import TribiosVfs.Lib.Words
import TribiosVfs.Lib.Sha1
import TribiosVfs.Paths
import TribiosVfs.Host
import TribiosVfs.MetadataStore
import TribiosVfs.Calls
import TribiosVfs.EngineMonad
import TribiosVfs.WorkspaceEngine
import TribiosVfs.Recovery
import TribiosVfs.ControlServer
import TribiosVfs.Operations
import TribiosVfs.Lemmas.Calls
import TribiosVfs.Lemmas.Programs
import TribiosVfs.Lemmas.Walk
import TribiosVfs.Lemmas.HostSpecs
import TribiosVfs.Lemmas.Tombstones
import TribiosVfs.Theorems.RestartEquivalence
import TribiosVfs.Lemmas.Looks
import TribiosVfs.Lemmas.Listings
import TribiosVfs.Lemmas.Runs
import TribiosVfs.Lemmas.HostRuns
import TribiosVfs.Lemmas.Visible
import TribiosVfs.Theorems.ReadConfinement
import TribiosVfs.CapturePolicy
import TribiosVfs.BaseCapture
import TribiosVfs.Lemmas.Capture
import TribiosVfs.Lemmas.Extends
import TribiosVfs.Theorems.CheckIgnore
import TribiosVfs.Theorems.ConfigureIndependence
import TribiosVfs.ProjectManager
import TribiosVfs.Lib.Workers
import TribiosVfs.Lemmas.Triples
import TribiosVfs.Lifecycle
import TribiosVfs.Lemmas.Records
import TribiosVfs.Lemmas.LifecycleCalls
import TribiosVfs.Lemmas.RecordContracts
import TribiosVfs.Theorems.RecoverableRecords
import TribiosVfs.Theorems.BranchPreservation
import TribiosVfs.Lemmas.Frames
import TribiosVfs.Lemmas.Homes
import TribiosVfs.Theorems.AtomicFinish
import TribiosVfs.Protocol
import TribiosVfs.Theorems.ControlFraming
import TribiosVfs.Requests
import TribiosVfs.Theorems.CompleteRequests
import TribiosVfs.GitIndex
import TribiosVfs.FuseAdapter
import TribiosVfs.WorkspaceGitIndex
import TribiosVfs.Lemmas.GitIndex
import TribiosVfs.Theorems.SeededIndex
import TribiosVfs.Lemmas.CaptureFigures
import TribiosVfs.Theorems.ExactCapture
import TribiosVfs.Lemmas.Selection
import TribiosVfs.Theorems.CapturableProjects
import TribiosVfs.Lemmas.FailingCalls
import TribiosVfs.Lemmas.WorktreeRuns
import TribiosVfs.Theorems.CreationResidue
import TribiosVfs.Theorems.InodeNumbers
import TribiosVfs.Lemmas.Utf8
import TribiosVfs.Theorems.Utf8Validation
import TribiosVfs.Theorems.Sha1Digest
import TribiosVfs.Theorems.PathNormalization
import TribiosVfs.Theorems.DirectoryStreaming
import TribiosVfs.Theorems.HandleTable
import TribiosVfs.Lemmas.IndexParsing
import TribiosVfs.Theorems.IndexRewrite
import TribiosVfs.Lemmas.IndexFormat
import TribiosVfs.Theorems.IndexRoundTrip
import TribiosVfs.Lib.Glob
import TribiosVfs.Lemmas.GlobTokens
import TribiosVfs.Theorems.GlobMatching
import TribiosVfs.Theorems.LiteralPatterns
import TribiosVfs.Lib.Forest
import TribiosVfs.Lemmas.Alone
import TribiosVfs.Lemmas.Edits
import TribiosVfs.Lemmas.Publication
import TribiosVfs.Lemmas.View
import TribiosVfs.Lemmas.CopyUp
import TribiosVfs.Lemmas.Publishing
import TribiosVfs.Lemmas.Materialize
import TribiosVfs.Lemmas.Stages
import TribiosVfs.PlainTree
import TribiosVfs.Lemmas.Serving
import TribiosVfs.Lemmas.TreeOperations
import TribiosVfs.Lemmas.FileOperations
import TribiosVfs.Lemmas.Moving
import TribiosVfs.Theorems.CopyOnWrite
import TribiosVfs.Theorems.MergedView
import TribiosVfs.Theorems.CopiesOfTheView
import TribiosVfs.Theorems.WorkspaceIsolation

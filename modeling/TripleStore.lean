import TripleStore.Build
import TripleStore.Composite
import TripleStore.Composite.Builder
import TripleStore.Container.Assembly
import TripleStore.Container.Header
import TripleStore.Container.Layout
import TripleStore.Container.OffsetTable
import TripleStore.Container.Section
import TripleStore.Crc32
import TripleStore.Dictionary
import TripleStore.Dictionary.Builder
import TripleStore.Dictionary.Writer
import TripleStore.Disk
import TripleStore.Error
import TripleStore.FileTree
import TripleStore.Octets
import TripleStore.Path
import TripleStore.Result
import TripleStore.Settings
import TripleStore.Settings.Json
import TripleStore.Settings.Text
import TripleStore.Sorter
import TripleStore.Sorter.Merge
import TripleStore.Sorter.Record
import TripleStore.Store
import TripleStore.Store.Build
import TripleStore.Term.Code
import TripleStore.Term.Split
import TripleStore.Triple
import TripleStore.TripleIndex
import TripleStore.TripleIndex.Builder
import TripleStore.TripleIndex.Writer
import TripleStore.Width
import TripleStore.Workspace
import TripleStore.Proofs.Dictionary.Search
import TripleStore.Proofs.Term.Code
import TripleStore.Proofs.Composite.Lookup
import TripleStore.Proofs.Crc32
import TripleStore.Proofs.Outcome
import TripleStore.Proofs.Container.Bytes
import TripleStore.Proofs.Container.RoundTrip
import TripleStore.Proofs.Opening
import TripleStore.Proofs.Machine
import TripleStore.Proofs.Container.Runs
import TripleStore.Proofs.Dictionary.Safety
import TripleStore.Proofs.Dictionary.Runs
import TripleStore.Proofs.Corruption
import TripleStore.Proofs.Sorter.Order
import TripleStore.Proofs.Sorter.Record
import TripleStore.Proofs.FileTree.Lookup
import TripleStore.Proofs.FileTree.Change
import TripleStore.Proofs.Disk.Run
import TripleStore.Proofs.Disk.Directories
import TripleStore.Proofs.Disk.Publish
import TripleStore.Proofs.Workspace
import TripleStore.Proofs.Sorter.Runs
import TripleStore.Proofs.TripleIndex.Groups
import TripleStore.Proofs.TripleIndex.Reads
import TripleStore.Proofs.TripleIndex.Safety
import TripleStore.Proofs.TripleIndex.Runs
import TripleStore.Proofs.Safety
import TripleStore.Proofs.TripleIndex.Answers
import TripleStore.Proofs.TripleIndex.File
import TripleStore.Proofs.TripleIndex.Validate
import TripleStore.Proofs.TripleIndex.Writer
import TripleStore.Proofs.TripleIndex.Build
import TripleStore.Proofs.Dictionary.RoundTrip
import TripleStore.Proofs.Composite.Entries
import TripleStore.Proofs.Composite.Passes
import TripleStore.Proofs.Composite.Build
import TripleStore.Proofs.Staging
import TripleStore.Proofs.Store.Build
import TripleStore.Proofs.Store.Matching
import TripleStore.Proofs.Dictionary.Answers
import TripleStore.Proofs.Dictionary.Build
import TripleStore.Proofs.Canonical
import TripleStore.Proofs.Composite.Canonical
import TripleStore.Proofs.Disk.Effect
import TripleStore.Proofs.Disk.Outcome
import TripleStore.Proofs.Publication
import TripleStore.Proofs.Confinement
import TripleStore.Proofs.Builders
import TripleStore.Proofs.Store.Publication
import TripleStore.Proofs.Store.AllOrNothing
import TripleStore.Proofs.Truncation
import TripleStore.Proofs.Refusals
import TripleStore.Proofs.Composite.Coverage
import TripleStore.Proofs.Sorter.Shared
import TripleStore.Proofs.TripleIndex.Neighbours
import TripleStore.Proofs.Sorter.Sorting
import TripleStore.Proofs.Term.Splitting
import TripleStore.Proofs.Container.WellFormed
import TripleStore.Proofs.Container.Chunks
import TripleStore.Proofs.Dictionary.Validate
import TripleStore.Proofs.Sorter.Delimited
import TripleStore.Proofs.Sorter.Budget

import Patchwork.Archive.Extract
import Patchwork.Command.Run
import Patchwork.Config.Store
import Patchwork.Digest.Gate
import Patchwork.Glob.FilterSet
import Patchwork.Main
import Patchwork.Text.Blank
import Patchwork.Text.CodePage
import Patchwork.Tree.Diff
import Patchwork.Tree.Patch
import Patchwork.Volume.Revision
import Patchwork.Proofs.Edit.Spans
import Patchwork.Proofs.Edit.Compaction
import Patchwork.Proofs.Edit.Script
import Patchwork.Proofs.Patch.Groups
import Patchwork.Proofs.Patch.RoundTrip
import Patchwork.Proofs.Patch.Header
import Patchwork.Proofs.Patch.ParsePrint
import Patchwork.Proofs.Volume.Leads
import Patchwork.Proofs.Volume.Growth
import Patchwork.Proofs.Volume.Rename
import Patchwork.Proofs.Archive.Pending
import Patchwork.Proofs.Archive.Calls
import Patchwork.Proofs.Archive.Commit
import Patchwork.Proofs.Archive.Close
import Patchwork.Proofs.Volume.Descent
import Patchwork.Proofs.Volume.Chain
import Patchwork.Proofs.Volume.Clear
import Patchwork.Proofs.Volume.MakeDirs
import Patchwork.Proofs.Tree.Missing
import Patchwork.Proofs.Tree.Clearing
import Patchwork.Proofs.Tree.Stock
import Patchwork.Proofs.Tree.Listing
import Patchwork.Proofs.Tree.Filling
import Patchwork.Proofs.Patch.Produced
import Patchwork.Proofs.Tree.Naming
import Patchwork.Proofs.Tree.Diffing
import Patchwork.Proofs.Tree.Loading
import Patchwork.Proofs.Tree.Copying
import Patchwork.Proofs.Tree.Spared
import Patchwork.Proofs.Tree.Confined
import Patchwork.Proofs.Tree.Patching
import Patchwork.Proofs.Tree.Inputs
import Patchwork.Proofs.Tree.Room
import Patchwork.Proofs.Tree.Keeping
import Patchwork.Proofs.Tree.Patched
import Patchwork.Proofs.Tree.Targets
import Patchwork.Proofs.Tree.Rebuilding
import Patchwork.Proofs.Tree.Output
import Patchwork.Proofs.Archive.Advance
import Patchwork.Proofs.Archive.InUse
import Patchwork.Proofs.Archive.Isolation
import Patchwork.Proofs.Glob.Matching
import Patchwork.Proofs.Patch.Division
import Patchwork.Proofs.Volume.Replaced
import Patchwork.Proofs.Digest.Gate
import Patchwork.Proofs.Patch.Reverse
import Patchwork.Proofs.Patch.Reversal
import Patchwork.Proofs.Edit.Removal
import Patchwork.Proofs.Archive.Staged
import Patchwork.Proofs.Archive.Nesting
import Patchwork.Proofs.Archive.Beside
import Patchwork.Proofs.Archive.Transfer
import Patchwork.Proofs.Volume.Alike
import Patchwork.Proofs.Tree.Emptying
import Patchwork.Proofs.Archive.Unpacking
import Patchwork.Proofs.Archive.LaidOut
import Patchwork.Proofs.Archive.Extraction
import Patchwork.Proofs.Patch.Parsed
import Patchwork.Proofs.Tree.Packing
import Patchwork.Proofs.Tree.Rediffing
import Patchwork.Proofs.Archive.Selection
import Patchwork.Proofs.Archive.Fresh
import Patchwork.Proofs.Archive.Composition
import Patchwork.Proofs.Tree.Failing
import Patchwork.Proofs.Tree.Refusal
import Patchwork.Proofs.Archive.Source
import Patchwork.Proofs.Digest.Contents
import Patchwork.Proofs.Tree.Association
import Patchwork.Proofs.Zip.Inflating
import Patchwork.Proofs.Archive.ReadBack
import Patchwork.Proofs.Patch.Applying
import Patchwork.Proofs.Patch.Joining
import Patchwork.Proofs.Archive.Arrivals
import Patchwork.Proofs.Archive.Merging
import Patchwork.Proofs.Archive.Stripping
import Patchwork.Proofs.Edit.Alternation
import Patchwork.Proofs.Edit.Grouping
import Patchwork.Proofs.Patch.Survival
import Patchwork.Proofs.Patch.Noise
import Patchwork.Proofs.Patch.Tiling
import Patchwork.Proofs.Patch.Context
import Patchwork.Proofs.Text.ByteOrder
import Patchwork.Proofs.Archive.Walking
import Patchwork.Proofs.Archive.Access
import Patchwork.Proofs.Volume.Rewriting
import Patchwork.Proofs.Archive.Restripping
import Patchwork.Proofs.Volume.Visits
import Patchwork.Proofs.Tree.Linkless
import Patchwork.Proofs.Digest.Apart
import Patchwork.Proofs.Digest.Several
import Patchwork.Proofs.Tree.Resolving
import Patchwork.Proofs.Glob.AnyOf
import Patchwork.Proofs.Glob.Everything
import Patchwork.Proofs.Tree.Colliding

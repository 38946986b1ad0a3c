import IndexScan.Catalog
import IndexScan.Index.Stored
import IndexScan.KeyIndex
import IndexScan.Recursion.Member
import IndexScan.Schema.Draft
import IndexScan.Proofs.Index.Scan
import IndexScan.Proofs.KeyTree.Soundness
import IndexScan.Proofs.Index.Agreement
import IndexScan.Proofs.Value.Distinct
import IndexScan.Proofs.Recursion.Working
import IndexScan.Proofs.Recursion.Rounds
import IndexScan.Proofs.Recursion.FixedPoint
import IndexScan.Proofs.Recursion.RowWise
import IndexScan.Proofs.Recursion.Reachability
import IndexScan.Proofs.Recursion.Union
import IndexScan.Proofs.Recursion.Repeats
import IndexScan.Proofs.Index.Passage
import IndexScan.Proofs.Index.Restart
import IndexScan.Proofs.Index.Sharing
import IndexScan.Proofs.KeyIndex
import IndexScan.Proofs.Index.Hashed
import IndexScan.Proofs.Index.Consistency
import IndexScan.Proofs.Catalog.View
import IndexScan.Proofs.Index.Equality
import IndexScan.Proofs.Catalog.Alteration
import IndexScan.Proofs.Value.Denotation
import IndexScan.Proofs.Index.Ranges
import IndexScan.Proofs.KeyTree.Navigation
import IndexScan.Proofs.KeyTree.Height
import IndexScan.Proofs.Schema
import IndexScan.Proofs.Evaluation.Rewinding
import IndexScan.Proofs.Index.Reversal
import IndexScan.Proofs.Index.Counting
import IndexScan.Proofs.Hashing
import IndexScan.Proofs.Rendering

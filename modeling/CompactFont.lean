import CompactFont.Proofs.Charset.Extent
import CompactFont.Proofs.Charstring.Execution
import CompactFont.Proofs.Charstring.Slack
import CompactFont.Proofs.Charstring.Termination
import CompactFont.Proofs.Charstring.Trailing
import CompactFont.Proofs.Checked.Tables
import CompactFont.Proofs.Demands.Subset
import CompactFont.Proofs.Dict.Excerpt
import CompactFont.Proofs.Dict.Shortest
import CompactFont.Proofs.FdSelect.Assignment
import CompactFont.Proofs.Index.Canonical
import CompactFont.Proofs.Layout.Linking
import CompactFont.Proofs.Reader.Operations
import CompactFont.Proofs.Subset.Closure
import CompactFont.Proofs.Subset.Composition
import CompactFont.Proofs.Subset.Faithful
import CompactFont.Proofs.Subset.PassThrough
import CompactFont.Proofs.Subset.Preservation
import CompactFont.Proofs.Subset.Promotion
import CompactFont.Proofs.Subset.Rescan
import CompactFont.Proofs.Subset.Tiling
import CompactFont.Proofs.Subset.Trailing
import CompactFont.Proofs.Subset.Union
import CompactFont.Proofs.Subset.Unlimited
import CompactFont.Proofs.Table.Attribution
import CompactFont.Subset.Bytes
import CompactFont.Subset.Note

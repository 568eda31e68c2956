import RustScan.Main
import RustScan.Proofs.Comments
import RustScan.Proofs.Cuts
import RustScan.Proofs.Directives
import RustScan.Proofs.Ending
import RustScan.Proofs.Highlighting
import RustScan.Proofs.Lifetimes
import RustScan.Proofs.Listing
import RustScan.Proofs.Numbers
import RustScan.Proofs.QuotedLiterals
import RustScan.Proofs.RawStrings
import RustScan.Proofs.SourceLines
import RustScan.Proofs.Styling
import RustScan.Proofs.Symbols
import RustScan.Proofs.Vocabulary
import RustScan.Proofs.Diagnostics
import RustScan.Proofs.FilterHistory
import RustScan.Proofs.Configuration
import RustScan.Proofs.Interleaving
import RustScan.Proofs.JsonLines
import RustScan.Proofs.LogFiles
import RustScan.Proofs.Entries
import RustScan.Proofs.LineFeeds
import RustScan.Proofs.Rounds

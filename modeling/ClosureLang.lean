import ClosureLang.Main
import ClosureLang.Session
import ClosureLang.Proofs.Balance
import ClosureLang.Proofs.Binders
import ClosureLang.Proofs.Preservation
import ClosureLang.Proofs.Independence
import ClosureLang.Proofs.Grammar
import ClosureLang.Proofs.Reading
import ClosureLang.Proofs.Soundness
import ClosureLang.Proofs.Completeness
import ClosureLang.Proofs.Nesting
import ClosureLang.Proofs.Literals
import ClosureLang.Proofs.Printing
import ClosureLang.Proofs.Prospects
import ClosureLang.Proofs.Lines
import ClosureLang.Proofs.Places
import ClosureLang.Proofs.Unfinished
import ClosureLang.Proofs.Continuation
import ClosureLang.Proofs.Renaming
import ClosureLang.Proofs.Termination
import ClosureLang.Proofs.Attribution
import ClosureLang.Proofs.FrameEffects
import ClosureLang.Proofs.NextLine
import ClosureLang.Proofs.Rounding
import ClosureLang.Proofs.Lexemes
import ClosureLang.Proofs.LongestMatch
import ClosureLang.Proofs.NestedSpans
import ClosureLang.Proofs.DepthCounter
import ClosureLang.Proofs.Rejections
import ClosureLang.Proofs.Entries
import ClosureLang.Proofs.Reuse
import ClosureLang.Proofs.Rows
import ClosureLang.Proofs.Carets
import ClosureLang.Proofs.ListingRows
import ClosureLang.Proofs.ListedCode
import ClosureLang.Proofs.Listings
import ClosureLang.Proofs.FoldedTraces

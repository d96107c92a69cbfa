import AnnotationIndex.Interchange
import AnnotationIndex.Proofs.Agreement
import AnnotationIndex.Proofs.Annotating
import AnnotationIndex.Proofs.Annotation.Reordering
import AnnotationIndex.Proofs.Arrangement
import AnnotationIndex.Proofs.Casting
import AnnotationIndex.Proofs.Concatenation
import AnnotationIndex.Proofs.Definition.Completeness
import AnnotationIndex.Proofs.Definition.Conflict
import AnnotationIndex.Proofs.Definition.Declared
import AnnotationIndex.Proofs.Definition.Filled
import AnnotationIndex.Proofs.Definition.Fits
import AnnotationIndex.Proofs.Definition.Merged
import AnnotationIndex.Proofs.Definition.Insertion
import AnnotationIndex.Proofs.Definition.NaN
import AnnotationIndex.Proofs.Definition.Order
import AnnotationIndex.Proofs.Definition.PartialJoin
import AnnotationIndex.Proofs.Definition.Relink
import AnnotationIndex.Proofs.Element.Equality
import AnnotationIndex.Proofs.Element.Map
import AnnotationIndex.Proofs.Element.Prune
import AnnotationIndex.Proofs.Element.Slots
import AnnotationIndex.Proofs.Element.Sweep
import AnnotationIndex.Proofs.ErrorLine
import AnnotationIndex.Proofs.FirstMet
import AnnotationIndex.Proofs.FixedPoint
import AnnotationIndex.Proofs.Growth
import AnnotationIndex.Proofs.Merging
import AnnotationIndex.Proofs.Notes
import AnnotationIndex.Proofs.Numeral.Decimal
import AnnotationIndex.Proofs.Numeral.Digits
import AnnotationIndex.Proofs.Numeral.Rounding
import AnnotationIndex.Proofs.Placement
import AnnotationIndex.Proofs.Preservation
import AnnotationIndex.Proofs.Reached
import AnnotationIndex.Proofs.Reader.Annotation
import AnnotationIndex.Proofs.Reader.Basic
import AnnotationIndex.Proofs.Reader.CastType
import AnnotationIndex.Proofs.Reader.Definition
import AnnotationIndex.Proofs.Reader.Header
import AnnotationIndex.Proofs.Reader.Place
import AnnotationIndex.Proofs.Reader.Run
import AnnotationIndex.Proofs.Reader.Statement
import AnnotationIndex.Proofs.Reader.Value
import AnnotationIndex.Proofs.Reading
import AnnotationIndex.Proofs.Rendering
import AnnotationIndex.Proofs.Rereading
import AnnotationIndex.Proofs.RoundTrip
import AnnotationIndex.Proofs.Said
import AnnotationIndex.Proofs.Section
import AnnotationIndex.Proofs.Text.Escape
import AnnotationIndex.Proofs.Token.Spacing
import AnnotationIndex.Proofs.Writer
import AnnotationIndex.Transfer

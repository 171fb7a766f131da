import Classfile.Annotation.Copy
import Classfile.Annotation.Display
import Classfile.Catalog
import Classfile.Image.Binary
import Classfile.Outline.Draft
import Classfile.Proofs.Arena.Jumps
import Classfile.Proofs.Code.Rewriting
import Classfile.Proofs.Draft.NormalForm
import Classfile.Proofs.Draft.RoundTrip
import Classfile.Proofs.Image.Spelling
import Classfile.Proofs.Code.Refusal
import Classfile.Proofs.Code.Passes
import Classfile.Proofs.Pool.Requests
import Classfile.Proofs.Code.Order
import Classfile.Proofs.Draft.Steady
import Classfile.Proofs.Draft.Upkeep
import Classfile.Proofs.Pool.Refusals
import Classfile.Proofs.Pool.Slots
import Classfile.Proofs.Draft.Frame
import Classfile.Proofs.Draft.Usable
import Classfile.Proofs.Pool.Distinct
import Classfile.Proofs.Code.Renaming
import Classfile.Proofs.Image.Delimited
import Classfile.Proofs.Code.Shrinking
import Classfile.Proofs.Draft.Coverage
import Classfile.Proofs.Draft.Boundaries
import Classfile.Proofs.Text.Inverse
import Classfile.Proofs.Arena.Redirection
import Classfile.Proofs.Code.Landing
import Classfile.Proofs.Descriptor.Grammar
import Classfile.Proofs.Attribute.Codec
import Classfile.Proofs.Annotation.Entries
import Classfile.Proofs.Draft.Others
import Classfile.Proofs.Annotation.Places
import Classfile.Proofs.Annotation.Copy
import Classfile.Proofs.Draft.FieldEdits
import Classfile.Proofs.Draft.Interfaces
import Classfile.Proofs.Pool.Admission
import Classfile.Proofs.Code.Visit
import Classfile.Proofs.Code.Emission
import Classfile.Proofs.Code.Partition
import Classfile.Proofs.Pool.Grounded
import Classfile.Proofs.WidthSums

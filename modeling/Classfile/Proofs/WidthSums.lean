import Classfile.Code.Layout
import Classfile.Constant.Basic
import Classfile.Proofs.WidthTable

/-!
What a table answers, in terms of sums of widths. An element starts where the widths of those before
it add up to, and every offset is classified by how the starts of the elements lie to it, which is
what the binary search finds out if no element is without width.
-/
namespace Classfile

variable {α : Type} [Width α] {start offset i : Nat} {elements : List α} {a : α}

namespace Width

end Width

namespace WidthTable

open Width

variable {table : WidthTable α}

end WidthTable

end Classfile

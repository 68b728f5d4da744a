import HcnetCore.Medida.CKMS.Exact
import HcnetCore.Medida.CKMS.Ascending

/-! `get` is a pure query only on the exact path. From 500 values on, every call settles the
buffer and runs one more `compress` pass over the summary, and the next pass merges pairs the
last one kept apart: the answer to a repeated query can move. -/

namespace Medida.Stats.CKMS
variable {α : Type} [LinearOrder α] [Zero α]

end Medida.Stats.CKMS

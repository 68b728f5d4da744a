import HcnetCore.Overlay.TxAdvertQueue
import HcnetCore.Medida.CKMS.Defs
import HcnetCore.Medida.CKMS.Compress
import HcnetCore.Medida.CKMS.Batch
import HcnetCore.Medida.CKMS.Query
import HcnetCore.Medida.CKMS.Invariant
import HcnetCore.Medida.CKMS.Rank
import HcnetCore.Medida.CKMS.Ascending
import HcnetCore.Medida.CKMS.Exact
import HcnetCore.Medida.CKMS.Purity
import HcnetCore.Medida.CKMS.Monotone
import HcnetCore.Medida.CKMS.Accuracy
import HcnetCore.Medida.CKMS.RankBracket
import HcnetCore.Medida.CKMS.LowerRank
import HcnetCore.Medida.Snapshot
import HcnetCore.Medida.CKMSSample
import HcnetCore.Medida.SampleClock
import HcnetCore.Medida.MetricsRegistry

import Firebird.Sqz.Partial
import Firebird.Sqz.Damaged
import Firebird.Lock.Queue
import Firebird.Lock.Scan
import Firebird.Lock.Downgrade
import Firebird.Lock.Aggregates
import Firebird.Jrd.GlobalRWLockCalls
import Firebird.Jrd.PagReserved
import Firebird.Jrd.CchWriteable
import Firebird.Jrd.TpcRun
import Firebird.Jrd.DpmRun
import Firebird.Jrd.EventTold
import Firebird.Jrd.EventProbe
import Firebird.Jrd.EventBlock
import Firebird.Jrd.EventAlloc
import Firebird.Jrd.CvtRescale
import Firebird.Jrd.CvtTextReread
import Firebird.Jrd.NbakFailure
import Firebird.Jrd.NbakLocks
import Firebird.Jrd.UnicodeRoundTrip
import Firebird.Jrd.UnicodeSubstring
import Firebird.Jrd.SdlExecute
import Firebird.Jrd.VioSnapshot
import Firebird.Jrd.BtrJump
import Firebird.Jrd.TempRun
import Firebird.Jrd.SortRuns
import Firebird.Common.SparseWalk
import Firebird.Jrd.EvlStop
import Firebird.Common.TreeFail
import Firebird.Common.TreeRefines
import Firebird.Common.ClumpletEdit
import Firebird.Jrd.BtrInt64
import Firebird.Jrd.BtrRoot
import Firebird.Jrd.BtrTally
import Firebird.Jrd.BtrShrink
import Firebird.Jrd.SortKeyOrder
import Firebird.Jrd.SortDuplicates
import Firebird.Jrd.TraStartOldest
import Firebird.Jrd.TraOptionSafety
import Firebird.Jrd.DatetimeRoundTrip
import Firebird.Jrd.DatetimeGrammar
import Firebird.Jrd.RecordNumber
import Firebird.Jrd.BlbWellFormed
import Firebird.Remote.Xdr
import Firebird.Burp.Compress

import WebKit.Bmalloc.LargeHeapRuns
import WebKit.Bmalloc.LineHeapRuns
import WebKit.JSC.ARM64LogicalImmediateExact
import WebKit.JSC.CompactJITCodeMapRuns
import WebKit.JSC.DFGNaturalLoopsExact
import WebKit.JSC.Escape
import WebKit.JSC.ExpressionRangeInfo
import WebKit.JSC.JSRopeStringExact
import WebKit.JSC.MapDataIteratorRuns
import WebKit.JSC.PropertyTableRuns
import WebKit.JSC.StructureAbstractValueRuns
import WebKit.JSC.UnlinkedInstructionStreamRoundTrip
import WebKit.WTF.Base64RoundTrip
import WebKit.WTF.BitVectorRuns
import WebKit.WTF.CheckedExact
import WebKit.WTF.HashTableRuns
import WebKit.WTF.IntegerParsing
import WebKit.WTF.ListHashSetRuns
import WebKit.WTF.MediaTimeScale
import WebKit.WTF.MetaAllocatorRuns
import WebKit.WTF.SHA1Exact
import WebKit.WTF.StringBuilderRuns
import WebKit.WTF.UTF8InterningExact
import WebKit.WebCore.CryptoKeyRoundTrip
import WebKit.WebCore.HTMLEntitySearchExact
import WebKit.WebCore.IDBLevelDBBounds
import WebKit.WebCore.IDBLevelDBTotalOrder
import WebKit.WebCore.LayoutRectSnapping
import WebKit.WebCore.LayoutUnitExact
import WebKit.WebCore.LevelDBTransactionCommit
import WebKit.WebCore.PlatformTimeRangesCopy
import WebKit.WebCore.PlatformTimeRangesExact
import WebKit.WebCore.RegionRects
import WebKit.WebCore.StorageMapEnumeration
import WebKit.WebCore.WebSocketFrameExact
import WebKit.WebKit2.ArgumentCodersRoundTrip
import WebKit.WebKit2.ArgumentCodersSafety
import WebKit.WebKit2.ConnectionRuns
import WebKit.WebKit2.LocalStorageDatabaseRuns
import WebKit.WebKit2.StorageAreaMapAnswers
import WebKit.WebKit2.StorageAreaMapEvents
import WebKit.WebKit2.StorageAreaMapRuns
import WebKit.WebKit2.WebBackForwardListRuns
import WebKit.WebKit2.WebBackForwardListState
import WebKit.Yarr.YarrCharacterClasses
import WebKit.Yarr.YarrPatternTotal
import WebKit.Yarr.YarrQuantifiers
import WebKit.Yarr.YarrReparse

import Odyssey.Bmalloc.StrandedLines
import Odyssey.Bmalloc.XLargeObjects
import Odyssey.ContentExtensions.ContentExtension
import Odyssey.ContentExtensions.DFABytecodeJumps
import Odyssey.ContentExtensions.DFABytecodeMeaning
import Odyssey.ImageDecoders.GIFLZWCorrect
import Odyssey.ImageDecoders.GIFLZWMemory
import Odyssey.MediaSource.RemoveCodedFrames
import Odyssey.Network.Cookies.CookieLimit
import Odyssey.Network.Cookies.CookieMirror
import Odyssey.Network.Cookies.CookieDomains
import Odyssey.Network.Cookies.HttpOnlyCookies
import Odyssey.Network.DiskCache.CurlCacheReload
import Odyssey.Network.FormDataStream
import Odyssey.Network.MultipartHeaders
import Odyssey.Platform.DecimalDivide
import Odyssey.Platform.PlatformTimeRanges
import Odyssey.Platform.DecimalRounding
import Odyssey.Platform.SharedBufferCorrect
import Odyssey.Storage.StorageQuota
import Odyssey.WTF.Base64RoundTrip
import Odyssey.WTF.BitVectorCorrect
import Odyssey.WTF.CheckedArithmeticExact
import Odyssey.WTF.MediaTimeCompare
import Odyssey.WTF.MetaAllocator.Pages
import Odyssey.WTF.UTF16ToUTF8
import Odyssey.WTF.UTF8Hash
import Odyssey.Yarr.Quantifiers
import Odyssey.Yarr.Reparse
import Odyssey.WebSockets.WebSocketReceiveBuffer

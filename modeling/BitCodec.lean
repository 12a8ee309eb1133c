import BitCodec.MachineWord
import BitCodec.BitRange
import BitCodec.SignExtend
import BitCodec.Stream
import BitCodec.Buffers
import BitCodec.Extractor
import BitCodec.Writer
import BitCodec.RoundTrip
import BitCodec.Cursors
import BitCodec.CursorModel
import BitCodec.Builds
import BitCodec.CompactSize
import BitCodec.CompactRoundTrip

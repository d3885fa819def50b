import Afl.Async.CommunicationObject
import Afl.Async.Semaphore
import Afl.Async.Timer
import Afl.Async.Wait
import Afl.Base.Ptr
import Afl.Base.Raise
import Afl.Charset.CodepageCharset
import Afl.Charset.HexEncoding
import Afl.Charset.Utf8Index
import Afl.Checksums.Adler32
import Afl.Checksums.Incremental
import Afl.Container.Iterators
import Afl.Container.Sort
import Afl.Data.Hash
import Afl.Io.Archive.Directory
import Afl.Io.Archive.Members
import Afl.Io.Archive.Positions
import Afl.Io.FileSystem.Move
import Afl.Io.Json.RoundTrip
import Afl.Io.Resp.RoundTrip
import Afl.Io.Sinks
import Afl.Io.Stream.BufferedStream
import Afl.Io.Stream.LimitedStream
import Afl.Io.Stream.MultiplexableStream
import Afl.Io.Stream.SparseStream
import Afl.Io.Text.TextStream
import Afl.Io.Transform.Expansion
import Afl.Io.Transform.GzipFraming
import Afl.Io.Transform.ReadDelivery
import Afl.Io.Xml.Agreement
import Afl.Io.Xml.Cdata
import Afl.Io.Xml.Positions
import Afl.Io.Xml.Termination
import Afl.Lib.Paths
import Afl.Net.Http.CGIHandler
import Afl.Net.Http.Cancellation
import Afl.Net.Http.ChunkedTransfer
import Afl.Net.Http.ClientOutcomes
import Afl.Net.Http.ConnectionReuse
import Afl.Net.Http.CookieFile
import Afl.Net.Http.CookieHosts
import Afl.Net.Http.CookieOrigin
import Afl.Net.Http.FormParser
import Afl.Net.Http.Packets
import Afl.Net.Http.Pipelining
import Afl.Net.Http.ResponseNumbers
import Afl.Net.Http.Stranding
import Afl.Net.InternalStream.Conservation
import Afl.Net.InternalStream.Stalls
import Afl.Net.Mime.Boundaries
import Afl.Net.Mime.DotStuffing
import Afl.Net.Mime.EncodedWords
import Afl.Net.Redis.Batches
import Afl.Net.Redis.Client
import Afl.Net.Redis.Counters
import Afl.Net.Redis.Exact
import Afl.Net.Redis.Lists
import Afl.Net.Redis.Moves
import Afl.Net.Redis.SetAlgebra
import Afl.Net.Redis.SetKeys
import Afl.Net.Resp.Attribution
import Afl.Net.Resp.ProtocolHandler
import Afl.Net.Server.DeadConnections
import Afl.Net.Server.Drivers
import Afl.Net.Smtp.MailRequest
import Afl.Net.Tunnel.Socks5NetworkStack
import Afl.Net.Url.Arguments
import Afl.Net.Url.Merge
import Afl.Net.Url.Redirect
import Afl.Net.Url.Stability
import Afl.String.CaseCompare
import Afl.String.Conditionals
import Afl.String.FileNames
import Afl.String.Format
import Afl.String.Integers
import Afl.String.PosixFileNames
import Afl.String.Win32FileNames

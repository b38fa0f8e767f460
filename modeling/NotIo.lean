import NotIo.Lib.Loop
import NotIo.Core.Error
import NotIo.Core.Mem
import NotIo.Core.Traits
import NotIo.Core.Slices
import NotIo.Core.ImplsAlways
import NotIo.Lib.Utf8
import NotIo.Core.ImplsAlloc
import NotIo.Trace
import NotIo.ReadToEnd
import NotIo.ReadUntil
import NotIo.Strings
import NotIo.Lib.File
import NotIo.Sinks
import NotIo.WriteAll
import NotIo.Copy
import NotIo.Interrupts
import NotIo.Cursors
import NotIo.SeekableFile
import NotIo.Coherent
import NotIo.TakeView
import NotIo.Lib.History
import NotIo.Flexible.Pointer
import NotIo.Flexible.Wrapper
import NotIo.Flexible.Histories
import NotIo.Flexible.Windows
import NotIo.Flexible.Lifetimes
import NotIo.ReadExact
import NotIo.CursorReadExact
import NotIo.CursorsAgree
import NotIo.Lib.Mealy
import NotIo.TakeLimits
import NotIo.Chunks
import NotIo.Lines
import NotIo.Lib.Streams
import NotIo.TwoViews
import NotIo.Sources
import NotIo.Transfer
import NotIo.TakeSource
import NotIo.Sessions
import NotIo.FileReader
import NotIo.RoundTrip
import NotIo.Flexible.SkipString
import NotIo.Lib.Client
import NotIo.ErrorTypes
import NotIo.Configurations
import NotIo.Flexible.Dispatch
import NotIo.Flexible.SkipOneString
import NotIo.Flexible.ReadWithSkip

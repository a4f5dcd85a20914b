import PQL.Lib.Fields
import PQL.Lib.Delta
import PQL.Lib.Coverage
import PQL.Lib.CInt
import PQL.Steim.Memory
import PQL.Steim.Block
import PQL.Steim.Steim1
import PQL.Steim.Steim2
import PQL.Reftek.Packets
import PQL.Reftek.RT130
import PQL.Mseed.Group
import PQL.Mseed.Assembly
import PQL.Mseed.Data
import PQL.Mseed.Sizes
import PQL.Mseed.DataSizes
import PQL.Mseed.Index
import PQL.Mseed.Pluck
import PQL.Lib.Comparator
import PQL.Lib.Rounding
import PQL.Sort.DateTime
import PQL.Sort.Criteria
import PQL.Sort.ListSort
import PQL.Lib.Arrays
import PQL.Transform.Rotation
import PQL.Segy.Header
import PQL.Segy.ByteOrder
import PQL.Data.Excerpt
import PQL.Lib.Chunks
import PQL.Lib.Tally
import PQL.Reftek.Pages
import PQL.Reftek.RT125
import PQL.Reftek.DataPackets
import PQL.Reftek.Demux
import PQL.Reftek.Formats
import PQL.Reftek.RT125A
import PQL.Data.Blocks
import PQL.Lib.Runs
import PQL.Data.Readers
import PQL.Data.Ownership
import PQL.Data.Shots
import PQL.Lib.Extremes
import PQL.Magnify.Extrema
import PQL.Lib.Positions
import PQL.Time.Calendar
import PQL.Lib.CStrings
import PQL.Lib.Floats
import PQL.Sac.Header
import PQL.Sac.Names
import PQL.Sac.ByteOrder
import PQL.Display.Groups
import PQL.Display.Loads
import PQL.Lib.Latch
import PQL.Lib.Shares
import PQL.Threads.FileOrder
import PQL.Threads.TraceThreads
import PQL.Lib.Records
import PQL.Lib.Text
import PQL.Lib.Windows
import PQL.Settings.Defaults
import PQL.Transform.Spectra
import PQL.Mseed.FastPath
import PQL.Data.CopyBounds
import PQL.Data.ShotTimes
import PQL.Lib.Batches
import PQL.Lib.StableSort
import PQL.Mseed.Logs
import PQL.Sort.DirectSort
import PQL.Sort.TraceList
import PQL.Display.Gather
import PQL.Lib.While
import PQL.Plot.Decimated
import PQL.Magnify.Window
import PQL.Magnify.WindowRuns
import PQL.Lib.BitReversal
import PQL.Lib.Fourier
import PQL.Lib.LinearFit
import PQL.Plot.Magnified
import PQL.Plot.MagnifiedCovers
import PQL.Transform.Amplitudes
import PQL.Transform.Buffer
import PQL.Transform.Fft
import PQL.Transform.History
import PQL.Transform.RealFft
import PQL.Plot.MagnifiedStart
import PQL.Display.Pages
import PQL.Transform.Taper
import PQL.Plot.Spectrum
import PQL.Plot.Overlaps
import PQL.Magnify.Offset
import PQL.Plot.ReadOut
import PQL.Plot.PickReadOut
import PQL.Sac.StartTime
import PQL.Plot.Axis
import PQL.Plot.TimeAxis
import PQL.Reftek.HeaderTime
import PQL.Reftek.ChannelGain
import PQL.Reftek.CutPackets
import PQL.Reftek.CutPages
import PQL.Reftek.CutEvents
import PQL.Lib.Delimited
import PQL.Reftek.StateOfHealth
import PQL.Settings.Filters
import PQL.Steim.XFormat
import PQL.Lib.Recurrences
import PQL.Lib.Bilinear
import PQL.Transform.Design
import PQL.Transform.Butterworth
import PQL.Transform.SteadyState
import PQL.Transform.Acceptance
import PQL.Lib.Codecs
import PQL.Ah.Stream
import PQL.Ah.Header
import PQL.Ah.Records
import PQL.Ah.Reader
import PQL.Lib.SignedFields
import PQL.Mseed.SteimFrames
import PQL.Mseed.SteimFormats
import PQL.Mseed.SteimAgree
import PQL.Time.HpTime
import PQL.Mseed.StartTime
import PQL.Lib.BottomUp
import PQL.Lib.Neighbours
import PQL.Lib.Spans
import PQL.Mseed.TraceGroup
import PQL.Mseed.HealedGroup
import PQL.Mseed.PacketLoop
import PQL.Mseed.PluckedGroup
import PQL.Mseed.RecordHeader
import PQL.Mseed.SampleFormats
import PQL.Mseed.RecordUnpack
import PQL.Mseed.RecordFormat
import PQL.Mseed.FileReader
import PQL.Mseed.FileRecords

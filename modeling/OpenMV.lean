import OpenMV.Schemes.Run
import OpenMV.Schemes.MarkStack
import OpenMV.Schemes.Bytes
import OpenMV.Schemes.ScanFill
import OpenMV.Schemes.Components
import OpenMV.Schemes.PrefixCode
import OpenMV.Schemes.Reader
import OpenMV.Memory.FbAlloc
import OpenMV.Memory.FbAllocStack
import OpenMV.Memory.FbAllocPermanent
import OpenMV.Memory.FbAllocScripts
import OpenMV.Debug.Framebuffer
import OpenMV.Debug.UsbDbg
import OpenMV.Debug.Preview
import OpenMV.Debug.ScriptUpload
import OpenMV.Debug.Terminal
import OpenMV.Schemes.Bits
import OpenMV.Vision.Image
import OpenMV.Debug.IdeStream
import OpenMV.Vision.FloodFill
import OpenMV.Vision.FindBlobs
import OpenMV.Vision.BlobComponents
import OpenMV.Jpeg.Tables
import OpenMV.Jpeg.Encoder
import OpenMV.Jpeg.Buffer
import OpenMV.Jpeg.Entropy
import OpenMV.Jpeg.Geometry
import OpenMV.Jpeg.Quality
import OpenMV.Schemes.Walk
import OpenMV.Jpeg.GeometryEnds
import OpenMV.Sensor.Sensor
import OpenMV.Sensor.Consistency
import OpenMV.Sensor.Crop
import OpenMV.Io.File
import OpenMV.Schemes.Stores
import OpenMV.Io.Pixels
import OpenMV.Io.Bmp
import OpenMV.Io.BmpRead
import OpenMV.Io.BmpWrite
import OpenMV.Io.Ppm
import OpenMV.Io.PpmRead
import OpenMV.Io.ImageOperation
import OpenMV.Io.Windows
import OpenMV.Schemes.Riff
import OpenMV.Jpeg.Save
import OpenMV.Io.Mjpeg
import OpenMV.Io.Avi
import OpenMV.Schemes.Lzw
import OpenMV.Schemes.Gif
import OpenMV.Io.Gif
import OpenMV.Schemes.Threads
import OpenMV.Driver.DmaLock
import OpenMV.Driver.DmaUsers
import OpenMV.Schemes.Nor
import OpenMV.Driver.QspiFlash
import OpenMV.Driver.Ota
import OpenMV.Driver.FalUsers
import OpenMV.Memory.FbAllocFilters
import OpenMV.Memory.FbAllocDetect
import OpenMV.Debug.Accesses
import OpenMV.Io.Save
import OpenMV.Schemes.LinkedList
import OpenMV.Vision.Collections
import OpenMV.Vision.ListSequence
import OpenMV.Schemes.Fetch
import OpenMV.Jpeg.Mcu
import OpenMV.Jpeg.McuDepends
import OpenMV.Schemes.RowRing
import OpenMV.Schemes.Sliding
import OpenMV.Filters.Kernel
import OpenMV.Schemes.Histogram
import OpenMV.Filters.Mean
import OpenMV.Filters.Median
import OpenMV.Filters.Mode
import OpenMV.Filters.Midpoint
import OpenMV.Schemes.Area
import OpenMV.Vision.IntegralMw
import OpenMV.Vision.DetectObjects
import OpenMV.Vision.Bayer
import OpenMV.Vision.BayerLuma
import OpenMV.Vision.FloodFillMask
import OpenMV.Schemes.MergeLoop
import OpenMV.Vision.MergeBlobs
import OpenMV.Vision.MergeCorners
import OpenMV.Schemes.Sweep
import OpenMV.Draw.Setup
import OpenMV.Draw.Samples
import OpenMV.Draw.Image
import OpenMV.Draw.Mirror
import OpenMV.Draw.Cover
import OpenMV.Draw.Crop
import OpenMV.Draw.RowBuffer
import OpenMV.Draw.Area
import OpenMV.Draw.Constant
import OpenMV.Driver.Kpu
import OpenMV.Vision.Moments
import OpenMV.Schemes.Rebin
import OpenMV.Vision.BlobHistogram
import OpenMV.Vision.BlobPerimeter
import OpenMV.Filters.ErodeDilateMask
import OpenMV.Filters.OpenClose
import OpenMV.Vision.Integral
import OpenMV.Vision.Cascade
import OpenMV.Vision.Template
import OpenMV.Filters.Pool
import OpenMV.Vision.Similarity
import OpenMV.Vision.TheilSen
import OpenMV.Vision.Kmeans
import OpenMV.Filters.Replace
import OpenMV.Vision.Deviation
import OpenMV.Filters.Sepconv
import OpenMV.Vision.RectangleMerge
import OpenMV.Driver.RegionLayer
import OpenMV.Driver.I2s
import OpenMV.Driver.OtaErase
import OpenMV.Draw.Line
import OpenMV.Vision.FindLines
import OpenMV.Draw.ClipLine
import OpenMV.Vision.Lbp
import OpenMV.Schemes.Fields
import OpenMV.Schemes.TwoBest
import OpenMV.Vision.Popcount
import OpenMV.Vision.Orb
import OpenMV.Vision.OrbMatch
import OpenMV.Schemes.Subblocks
import OpenMV.Filters.Clahe
import OpenMV.Schemes.Refill
import OpenMV.Filters.ClipHistogram
import OpenMV.Vision.FindCircles
import OpenMV.Vision.MergeAlot
import OpenMV.Schemes.DisjointSet
import OpenMV.Vision.Segmentation
import OpenMV.Schemes.Numbering
import OpenMV.Vision.RegionNumbering
import OpenMV.Schemes.Contraction
import OpenMV.Vision.RegionAdjacency
import OpenMV.Vision.RegionGrouping
import OpenMV.Schemes.Ring
import OpenMV.Vision.Fifo
import OpenMV.Schemes.SortingNetwork
import OpenMV.Filters.Fsort
import OpenMV.Schemes.Moves
import OpenMV.Driver.Bitblt
import OpenMV.Schemes.Rearranging
import OpenMV.Vision.ArraySort
import OpenMV.Schemes.SegmentTest
import OpenMV.Schemes.Bisection
import OpenMV.Schemes.RasterWindow
import OpenMV.Vision.Corners
import OpenMV.Vision.SegmentCorners
import OpenMV.Vision.Fast
import OpenMV.Vision.Agast
import OpenMV.Schemes.KeyEquation
import OpenMV.Schemes.ErrorLocator
import OpenMV.Schemes.LogField
import OpenMV.Vision.Galois
import OpenMV.Vision.QrCorrect
import OpenMV.Schemes.ByteBits
import OpenMV.Vision.QrGrid
import OpenMV.Vision.QrFormat
import OpenMV.Vision.QrStream
import OpenMV.Vision.QrPayload
import OpenMV.Vision.QrSegments
import OpenMV.Vision.QrDecode

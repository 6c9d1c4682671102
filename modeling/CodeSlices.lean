import CodeSlices.Lib.Transition
import CodeSlices.Lib.WaitSet
import CodeSlices.ProducerConsumer.Model
import CodeSlices.ProducerConsumer.Step
import CodeSlices.ProducerConsumer.Conservation
import CodeSlices.ProducerConsumer.Phases
import CodeSlices.ProducerConsumer.Wakeup
import CodeSlices.ProducerConsumer.Shutdown
import CodeSlices.Lib.Ring
import CodeSlices.MultiThreadQueue.Memory
import CodeSlices.MultiThreadQueue.List
import CodeSlices.MultiThreadQueue.Queue
import CodeSlices.MultiThreadQueue.Run
import CodeSlices.MultiThreadQueue.Delivery
import CodeSlices.MultiThreadQueue.Program
import CodeSlices.MultiThreadQueue.Barrier
import CodeSlices.MultiThreadQueue.Join
import CodeSlices.MultiThreadQueue.Dump
import CodeSlices.Lib.Table
import CodeSlices.DnsRelay.Application
import CodeSlices.DnsRelay.Dns
import CodeSlices.DnsRelay.Cache
import CodeSlices.Lib.Batch
import CodeSlices.DnsRelay.Cron
import CodeSlices.DnsRelay.Concurrent
import CodeSlices.DnsRelay.Web
import CodeSlices.DnsRelay.Handler
import CodeSlices.DnsRelay.Served
import CodeSlices.DnsRelay.Visibility
import CodeSlices.DnsRelay.Hosts
import CodeSlices.DnsRelay.Hostname
import CodeSlices.DnsRelay.Lookupserver
import CodeSlices.DnsRelay.HostsText
import CodeSlices.Lib.Double
import CodeSlices.Lib.Except
import CodeSlices.Lib.Traversal
import CodeSlices.Lib.Contents
import CodeSlices.Fat.Image
import CodeSlices.Fat.Boot
import CodeSlices.Fat.RootDir
import CodeSlices.Fat.Dirty
import CodeSlices.Fat.Geometry
import CodeSlices.Fat.Table
import CodeSlices.Fat.LongName
import CodeSlices.Fat.Dir
import CodeSlices.Fat.Cycles
import CodeSlices.Fat.Tree
import CodeSlices.Lib.LittleEndian
import CodeSlices.Fat.Bytes
import CodeSlices.Adb.Framing
import CodeSlices.Mandelbrot.Render
import CodeSlices.Mandelbrot.Raster
import CodeSlices.Mandelbrot.Tiles
import CodeSlices.Mandelbrot.Viewer
import CodeSlices.Mandelbrot.Zoom
import CodeSlices.Lib.Logged
import CodeSlices.Lib.Search
import CodeSlices.StringFind.Program
import CodeSlices.StringFind.Search
import CodeSlices.StringFind.Compare
import CodeSlices.UeventView.Dump
import CodeSlices.UeventView.Layout
import CodeSlices.Rainbow.Gradient
import CodeSlices.Lib.Crc
import CodeSlices.Utils.Crc16
import CodeSlices.SevenSquare.Capture
import CodeSlices.SevenSquare.Close
import CodeSlices.SevenSquare.Frame
import CodeSlices.Adb.Query
import CodeSlices.Adb.Wait
import CodeSlices.ProjectEuler.Prime
import CodeSlices.ProjectEuler.MaxPrimeFactor
import CodeSlices.HexDec.Decode
import CodeSlices.HexDec.Chunks
import CodeSlices.OnlineTest.RotateString
import CodeSlices.Inotify.Watcher
import CodeSlices.Lib.Spans
import CodeSlices.DumpstateViewer.Sections
import CodeSlices.DumpstateViewer.Pane
import CodeSlices.Qqwry.Database
import CodeSlices.Inspect.Order
import CodeSlices.Asm.Args
import CodeSlices.ProjectEuler.SmallestMultiple
import CodeSlices.ProjectEuler.Sums
import CodeSlices.ProjectEuler.Palindrome
import CodeSlices.Inspect.Process

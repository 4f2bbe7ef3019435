import MyCppCode.MyServer.BufferFifo
import MyCppCode.MyServer.EventLoopWakeup
import MyCppCode.MyServer.EventLoopOrder
import MyCppCode.MyServer.EventLoopQuit
import MyCppCode.MyServer.EventLoopThread
import MyCppCode.MyServer.TimerQueueArmed
import MyCppCode.MyServer.TcpConnectionThreads
import MyCppCode.MyServer.TcpServerLifetime
import MyCppCode.MyServer.HttpServerChunks
import MyCppCode.MyServer.HttpContextGrammar
import MyCppCode.MyServer.HttpServerOnce
import MyCppCode.MyServer.HttpResponseDecoding
import MyCppCode.MyServer.EpollPollerRegistration
import MyCppCode.MyServer.TimerQueueRuns
import MyCppCode.MyServer.TcpConnectionClose
import MyCppCode.MyServer.SharedConnectionState
import MyCppCode.MyServer.SharedConnectionLifetime
import MyCppCode.MyServer.SharedConnectionStrings
import MyCppCode.MyServer.BufferSpace
import MyCppCode.MyServer.HttpContextLoop
import MyCppCode.MyServer.Logging
import MyCppCode.MyServer.EpollPollerPoll
import MyCppCode.CppConcurrency.ParallelFindResult
import MyCppCode.CppConcurrency.ParallelFindAsync
import MyCppCode.CppConcurrency.LockFreeStackHistory
import MyCppCode.CppConcurrency.ThreadPool
import MyCppCode.CppConcurrency.ParallelAccumulate
import MyCppCode.CppConcurrency.ParallelForEach
import MyCppCode.CppConcurrency.QuickSort
import MyCppCode.RssB.MainSchedule
import MyCppCode.RssB.MainStores
import MyCppCode.RssB.MainLinks
import MyCppCode.RssB.SourceGap
import MyCppCode.RssB.Column
import MyCppCode.RssB.Statement
import MyCppCode.CmdFfmpeg.CompressResult
import MyCppCode.ProfessionalCpp.NGrid
import MyCppCode.EncryptDecrypt.Main
import MyCppCode.Any.FileOperation
import MyCppCode.Any.CnWordIo
import MyCppCode.Any.FizzBuzz
import MyCppCode.Any.FooBar
import MyCppCode.Any.KmpFind
import MyCppCode.Any.KmpBorders
import MyCppCode.Any.FooBarClasses
import MyCppCode.CppConcurrency.LockFreeStackReclaim
import MyCppCode.CppConcurrency.LockFreeStackReclaimOwners
import MyCppCode.CppConcurrency.LockFreeStackReclaimRuns
import MyCppCode.CppConcurrency.TsQueue
import MyCppCode.MyServer.Main

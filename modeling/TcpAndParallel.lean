import TcpAndParallel.Chain
import TcpAndParallel.Runs
import TcpAndParallel.Extents
import TcpAndParallel.BestFitRuns
import TcpAndParallel.FitAgreement
import TcpAndParallel.QuickFit
import TcpAndParallel.WorkcrewLocks
import TcpAndParallel.WorkcrewJobs
import TcpAndParallel.WorkcrewNodes
import TcpAndParallel.WorkcrewShutdown
import TcpAndParallel.WorkcrewWakeups
import TcpAndParallel.Hide
import TcpAndParallel.ProducerConsumerFifo
import TcpAndParallel.ProducerConsumerWakeups
import TcpAndParallel.JobQueueCount
import TcpAndParallel.ConnectQueueService
import TcpAndParallel.CityListRemove
import TcpAndParallel.MovieBaseRoundTrip
import TcpAndParallel.MovieBaseCast
import TcpAndParallel.RealInversion
import TcpAndParallel.ComplexInversionCheck
import TcpAndParallel.BestFitChoice
import TcpAndParallel.Scoreboard
import TcpAndParallel.Adjacency
import TcpAndParallel.PipesLine
import TcpAndParallel.PathBranch
import TcpAndParallel.Jacobi
import TcpAndParallel.Schedule
import TcpAndParallel.JoinThreads
import TcpAndParallel.SelectLoop
import TcpAndParallel.TableProducts
import TcpAndParallel.Modulation
import TcpAndParallel.NodeSwap
import TcpAndParallel.ConfigList
import TcpAndParallel.AccepterLoop
import TcpAndParallel.TablePointers
import TcpAndParallel.TableAddition
import TcpAndParallel.SparseSor
import TcpAndParallel.ConjugateGradient
import TcpAndParallel.GaussSeidel
import TcpAndParallel.JacobiArrays
import TcpAndParallel.SorSweeps
import TcpAndParallel.ForkQueues
import TcpAndParallel.AddressList
import TcpAndParallel.ResponseCoding
import TcpAndParallel.TableRows
import TcpAndParallel.Headcount
import TcpAndParallel.ThreadPool
import TcpAndParallel.ThreadPoolRoll
import TcpAndParallel.ThreadPoolJobs
import TcpAndParallel.ThreadPoolWakeups
import TcpAndParallel.ThreadPoolDestroy
import TcpAndParallel.Circles
import TcpAndParallel.ThreadPoolList
import TcpAndParallel.FirstFitRuns
import TcpAndParallel.PageTree
import TcpAndParallel.PageAlloc
import TcpAndParallel.PageLists
import TcpAndParallel.PageListRuns
import TcpAndParallel.DmaTable
import TcpAndParallel.ChainAccuracy
import TcpAndParallel.SchedulePriorities
import TcpAndParallel.ScheduleKernel
import TcpAndParallel.TaskFarm
import TcpAndParallel.MatrixMultiply
import TcpAndParallel.DotProduct

import PorSe.Por.ThreadIdText
import PorSe.Por.Combinations
import PorSe.Por.CexDeadlock
import PorSe.Por.Commutation
import PorSe.Por.CexComplete
import PorSe.Por.Cutoffs
import PorSe.Por.Iteration
import PorSe.Por.Alternative
import PorSe.Por.AdequateOrder
import PorSe.Por.CsdLimit
import PorSe.Por.SweepBit
import PorSe.RaceDetection.SolverPath
import PorSe.Pseudoalloc.Delay
import PorSe.Pseudoalloc.Allocator
import PorSe.Expr.Meaning
import PorSe.Fingerprint.PrintedConstraints
import PorSe.Fingerprint.ParityImage
import PorSe.Memory.Forking
import PorSe.Fingerprint.Fragments
import PorSe.Memory.Resolution
import PorSe.Module.LiveRegister
import PorSe.Pthread.Once
import PorSe.Pthread.RwLock
import PorSe.Pthread.Barrier
import PorSe.Pthread.CondWait
import PorSe.Pthread.RobustMutex
import PorSe.Pthread.Key
import PorSe.Pthread.NamedSemaphore
import PorSe.Posix.KprList
import PorSe.Basic.KTest
import PorSe.Solver.BitwiseBounds

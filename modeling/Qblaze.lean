import Qblaze.Lib.System
import Qblaze.Lib.Memory
import Qblaze.Threading.TaskStack
import Qblaze.Arena
import Qblaze.Threading.Futex
import Qblaze.Threading.FutexInv
import Qblaze.Threading.FutexSafe
import Qblaze.Threading.FutexJobs
import Qblaze.Threading.FutexWake
import Qblaze.Angle
import Qblaze.Lib.Word
import Qblaze.Qubit
import Qblaze.Control
import Qblaze.QubitSet
import Qblaze.QubitSetData
import Qblaze.BitSet
import Qblaze.Complex
import Qblaze.U3
import Qblaze.Rotation
import Qblaze.Sfree.Compiler
import Qblaze.Sfree.Queue
import Qblaze.Sfree.Meaning
import Qblaze.Exact
import Qblaze.Lib.OneQubit
import Qblaze.Unitary
import Qblaze.Lib.Register
import Qblaze.Lib.Controlled
import Qblaze.Lib.Norm
import Qblaze.Sfree.Elements
import Qblaze.Sfree.Operator
import Qblaze.Sfree.Guarded
import Qblaze.Util
import Qblaze.Statevector.Basic
import Qblaze.Statevector.Planning
import Qblaze.Buffer
import Qblaze.Statevector.Ops
import Qblaze.Statevector.Repartition
import Qblaze.Statevector.Gate
import Qblaze.Statevector.Program
import Qblaze.Statevector.Measure
import Qblaze.Statevector.Ket
import Qblaze.Statevector.Writers
import Qblaze.Statevector.Nonzero
import Qblaze.Lib.Run
import Qblaze.Simulator.Basic
import Qblaze.Simulator.Outcome
import Qblaze.Simulator.Rules
import Qblaze.Simulator.Bookkeeping
import Qblaze.Simulator.Controls
import Qblaze.Simulator.Range
import Qblaze.Simulator.Nonzero
import Qblaze.Simulator.Error
import Qblaze.Simulator.Logical
import Qblaze.Simulator.Preflush
import Qblaze.Simulator.Lazy
import Qblaze.CApi
import Qblaze.Threading.PoolMap
import Qblaze.SortCode
import Qblaze.Statevector.Export
import Qblaze.Simulator.Transfer
import Qblaze.Simulator.LazyMeasure
import Qblaze.Lib.Born
import Qblaze.Lib.Session
import Qblaze.Lib.Refusal
import Qblaze.Lib.AddressSpace
import Qblaze.Simulator.Register
import Qblaze.Simulator.Session
import Qblaze.Simulator.Readout
import Qblaze.Simulator.Refusal
import Qblaze.Simulator.CSession
import Qblaze.RawBuf
import Qblaze.Buffers
import Qblaze.Threading.Pool
import Qblaze.Threading.Spin
import Qblaze.Threading.Condvar
import Qblaze.Threading.CondvarHalts
import Qblaze.Threading.FutexPool

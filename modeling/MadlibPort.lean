import MadlibPort.Uda.Values
import MadlibPort.Uda.Scalar
import MadlibPort.Uda.DistinctEstimate
import MadlibPort.Uda.Heap
import MadlibPort.Uda.MinSpec
import MadlibPort.Uda.MinState
import MadlibPort.Uda.MinContext
import MadlibPort.Uda.MinQuery
import MadlibPort.Uda.MinMachine
import MadlibPort.Uda.MinMemory
import MadlibPort.Allocator.Block
import MadlibPort.Allocator.Array

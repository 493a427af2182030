import NostalgiaConv.TriangularSolve
import NostalgiaConv.Cipher
import NostalgiaConv.BitField
import NostalgiaConv.Opcodes
import NostalgiaConv.Instr
import NostalgiaConv.SetList
import NostalgiaConv.ByteMem
import NostalgiaConv.Host
import NostalgiaConv.HostOver
import NostalgiaConv.Value
import NostalgiaConv.Transpile
import NostalgiaConv.Segments
import NostalgiaConv.Tables
import NostalgiaConv.ProtoTree
import NostalgiaConv.BumpHost
import NostalgiaConv.HostRecord
import NostalgiaConv.HostTree
import NostalgiaConv.ConstTable
import NostalgiaConv.EncodeKey
import NostalgiaConv.ScriptQueue
import NostalgiaConv.Interpreter
import NostalgiaConv.Lvm
import NostalgiaConv.Clvm
import NostalgiaConv.Encoding
import NostalgiaConv.Simulation
import NostalgiaConv.Hoare
import NostalgiaConv.HostCalls
import NostalgiaConv.ConstantReads
import NostalgiaConv.TableHost
import NostalgiaConv.Lockstep
import NostalgiaConv.RegisterUse
import NostalgiaConv.StaleStack
import NostalgiaConv.LinearScan
import NostalgiaConv.SlowCipher
import NostalgiaConv.SavedPc
import NostalgiaConv.HostTop
import NostalgiaConv.FrameSlots
import NostalgiaConv.Conversion
import NostalgiaConv.Launches
import NostalgiaConv.ConversionExits
import NostalgiaConv.Threads
import NostalgiaConv.YieldTest
import NostalgiaConv.ResultCount
import NostalgiaConv.Resumption
import NostalgiaConv.CallFrames
import NostalgiaConv.CluaCall
import NostalgiaConv.CodeCheck
import NostalgiaConv.Undump
import NostalgiaConv.TableAccess
import NostalgiaConv.UpvalueSlots
import NostalgiaConv.Streams
import NostalgiaConv.Chunk
import NostalgiaConv.ChunkInput
import NostalgiaConv.CodeFlow
import NostalgiaConv.Chains
import NostalgiaConv.JumpLists
import NostalgiaConv.JumpRuns
import NostalgiaConv.ExpValues
import NostalgiaConv.StringTable
import NostalgiaConv.HashTable
import NostalgiaConv.TableMap
import NostalgiaConv.TableKeys
import NostalgiaConv.TableRuns
import NostalgiaConv.Tracing
import NostalgiaConv.GcObjects
import NostalgiaConv.GcMark
import NostalgiaConv.GcTrace
import NostalgiaConv.GcAtomic

import Godson.Service
import Godson.Arrival
import Godson.Order
import Godson.InOrder
import Godson.SpecMemory
import Godson.Split
import Godson.LoadOrder
import Godson.Forwarding
import Godson.Dependences
import Godson.Unaligned
import Godson.Eventq
import Godson.Backend
import Godson.FrontQueues
import Godson.Accesses
import Godson.Arguments
import Godson.Chains
import Godson.FreeList
import Godson.Matching
import Godson.Replacement
import Godson.Rotation
import Godson.Wavefront
import Godson.Depth
import Godson.RegisterZero
import Godson.Switch
import Godson.WormArbiter
import Godson.WormRun
import Godson.Coherent
import Godson.Divider
import Godson.Traps
import Godson.PagedArch
import Godson.Alternating
import Godson.Conservation
import Godson.ProgramOrder
import Godson.Cycles

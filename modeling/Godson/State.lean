import Godson.Types
import Godson.EventQueue

/-! The data of one simulated processor and of the whole machine. Directories
and intervention vectors are indexed by kind (`true` for instruction) and core,
where the source has a `data_` and an `inst_` array. Fields that only feed
statistics are left out. -/
namespace Godson

/-- A bit for each kind of level one cache and each core. -/
abbrev Vector2 := Bool → Nat → Bool

def setBit (d : Vector2) (inst : Bool) (i : Nat) (b : Bool) : Vector2 :=
  Function.update d inst (Function.update (d inst) i b)

/-- Set and way of a block, where the source keeps a pointer to it. -/
structure BlkRef where
  set : Nat
  way : Nat
  deriving DecidableEq, Repr

/-- `struct cache_blk`. -/
structure CacheBlk where
  tag : Nat
  set : Nat := 0
  directory : Vector2 := fun _ _ => false
  status : Status := .invalid
  dirty : Bool := false

/-- `struct cache`. -/
structure Cache where
  blks : BlkRef → CacheBlk := fun r => { tag := r.way }
  replacePaddr : Nat := 0
  refillSet : Nat := 0
  refillWay : Nat := 0
  refillBitmap : Nat → Bool := fun _ => false
  refillBlk : Option BlkRef := none
  refillNewStatus : Status := .untouched

/-- `struct miss_queue`. -/
structure MissEntry where
  state : MissState := .empty
  paddr : Nat := 0
  inst : Bool := false
  memcnt : Nat := 0
  cachecnt : Nat := 0
  cpuid : Nat := 0
  req : Req := .noReq
  ack : Req := .noReq
  cacheStatus : Status := .untouched
  qid : Nat := 0
  directory : Vector2 := fun _ _ => false
  interventionSent : Vector2 := fun _ _ => false
  ackReceived : Vector2 := fun _ _ => false
  interventionType : Req := .noReq
  l2ChangedBlk : Option BlkRef := none
  l2ReplaceBlk : Option BlkRef := none
  l2ReplacePaddr : Nat := 0
  l2ReplaceWay : Nat := 0
  waitForReissue : Bool := false
  waitForResponse : Nat := 0
  invnMatchI1 : Option Nat := none
  invnMatchI2 : Option Nat := none
  readLocalL2 : Bool := false
  modifyL1 : Bool := false
  wtbkqChecked : Bool := false
  conflictChecked : Bool := false
  memreadSent : Bool := false
  memwriteSent : Bool := false
  scacheRefilled : Bool := false

/-- `struct writeback_queue`. -/
structure WtbkEntry where
  valid : Bool := false
  cacheStatus : Status := .untouched
  paddr : Nat := 0
  cpuid : Nat := 0
  req : Req := .noReq
  inst : Bool := false
  intervention : Bool := false
  deriving DecidableEq, Repr

/-- `struct refill_packet`: an operation on its way through the data cache pipeline. -/
structure RefillPacket where
  replace : Bool := false
  intervention : Bool := false
  paddr : Nat := 0
  cnt : Nat := 0
  req : Req := .noReq
  missqid : Nat := 0
  ack : Req := .noReq
  cacheStatus : Status := .untouched
  blk : Option BlkRef := none
  deriving DecidableEq, Repr

/-- `struct memory_queue`. -/
structure MemqEntry where
  read : Bool
  qid : Nat
  count : Nat
  deriving DecidableEq, Repr

/-- `struct load_store_queue`, without the instruction it belongs to. -/
structure LsqEntry where
  state : LsqState := .empty
  op : MemOp := .mfc1
  addr : Nat := 0
  paddr : Nat := 0
  blk : Option BlkRef := none
  req : Req := .noReq
  ex : Bool := false
  byterdy : BitVec 8 := 0
  bytemask : BitVec 8 := 0
  fetching : Bool := false
  loadspec : Bool := false
  deriving DecidableEq, Repr

def LsqEntry.opLoad (l : LsqEntry) : Bool := l.op.isLoad

def LsqEntry.opStore (l : LsqEntry) : Bool := l.op.isStore

/-- `struct ireplace_buf`. -/
structure IrepBuf where
  state : IrepState := .empty
  set : Nat := 0xffffffff
  way : Nat := 0
  paddr : Nat := 0
  bitmap : Nat → Bool := fun _ => false

/-- The part of `struct godson2_cpu` below the pipeline, and what decides whether
the core goes on. The three credits are those of the router towards the home port. -/
structure Cpu where
  active : Bool
  simPopInsn : Nat := 0
  sdbbp : Bool := false
  missq : Nat → MissEntry := fun _ => {}
  missqNum : Int := 0
  lasti : MissState → Nat := fun _ => 0
  wtbkq : Nat → WtbkEntry := fun _ => {}
  wtbkqNum : Int := 0
  wtbkqLasti : Nat := 0
  wtbkqReplacei : Nat := 0
  memq : List MemqEntry := []
  memqNum : Nat := 0
  refilltag : Bool := false
  refilli : Nat := 0
  refillDelay : Nat := 0
  replaceDelay : Nat := 0
  lsq : Nat → LsqEntry := fun _ => {}
  lsqHead1 : Nat := 0
  lsqHead : Nat := 0
  lsqTail : Nat := 0
  lsqNum : Nat := 0
  lsqIssuei : Option Nat := none
  lsqDcachei : Option Nat := none
  lsqDtagcmpi : Option Nat := none
  lsqMissi : Option Nat := none
  lsqWtbki : Option Nat := none
  lsqRefill : Option RefillPacket := none
  lsqDcacheRefill : Option RefillPacket := none
  lsqDtagcmpRefill : Option RefillPacket := none
  irepbuf : IrepBuf := {}
  cacheStall : Bool := false
  refillStall : Bool := false
  branchStall : Bool := false
  icache : Cache := {}
  dcache : Cache := {}
  l2 : Cache := {}
  creditReq : Int
  creditInvn : Int
  creditWtbk : Int

/-- A packet of the network, `struct inputbuffer` without its place in a router. -/
structure Packet where
  chan : Chan
  dest : Nat
  req : Req
  cacheStatus : Status
  qid : Nat
  cpuid : Nat
  paddr : Nat
  inst : Bool
  deriving DecidableEq, Repr

/-- The events below the pipeline. -/
inductive Event
  | cpuExecute (cpuid : Nat)
  | scacheProbe (cpuid : Nat) (req : Req) (qid paddr : Nat)
  | scacheRefill (cpuid qid : Nat)
  | scacheWriteback (cpuid requestCpuid : Nat) (req : Req) (paddr : Nat) (inst : Bool)
  | updateCredit (cpuid : Nat) (chan : Chan)
  deriving DecidableEq, Repr

/-- The event is an activation of a core. -/
def Event.isExecute : Event → Bool
  | .cpuExecute _ => true
  | _ => false

/-- The places between the calls of one `cpu_execute`, in program order. -/
inductive Phase
  | pipeline | memq | flitReq | flitInvn | flitWtbk | flitResp
  | select | accept | issue | reprobe | modifyL1 | l2Miss | memref | refillL2
  | wtbk | extrdy | refill | delay
  | lsqSelect | dcachewrite | dtagcmp | drain | dcache | memaddr | front
  deriving DecidableEq, Repr

/-- The local variables of `cache2mem` and `lsq_stage` that outlive one section. -/
structure Locals where
  emptyi : Option Nat := none
  l1Missi : Option Nat := none
  readL2i : Option Nat := none
  modifyL1i : Option Nat := none
  replaceL1i : Option Nat := none
  extrdyi : Option Nat := none
  l2Missi : Option Nat := none
  memrefi : Option Nat := none
  refillL2i : Option Nat := none
  missqHasDelay1 : Bool := false
  exitMissq : Bool := false
  scachePortOccupied : Bool := false
  wtbkqHasTwoEmpty : Bool := false
  dcachewriteValid : Bool := false

/-- A core in the middle of its `cpu_execute`. -/
structure Frame where
  cpu : Nat
  phase : Phase
  loc : Locals := {}

/-- The machine: every core, the packets the network still has to deliver, the
pending events sorted by time, and the activation under way. -/
structure Sys where
  simCycle : Nat := 0
  cpus : Nat → Cpu
  net : List Packet := []
  pending : List (Nat × Event)
  frame : Option Frame := none

namespace Sys

/-- Change one core. -/
def modCpu (s : Sys) (k : Nat) (f : Cpu → Cpu) : Sys :=
  { s with cpus := Function.update s.cpus k (f (s.cpus k)) }

end Sys

namespace Cpu

def modMissq (c : Cpu) (q : Nat) (f : MissEntry → MissEntry) : Cpu :=
  { c with missq := Function.update c.missq q (f (c.missq q)) }

def modWtbkq (c : Cpu) (i : Nat) (f : WtbkEntry → WtbkEntry) : Cpu :=
  { c with wtbkq := Function.update c.wtbkq i (f (c.wtbkq i)) }

def modLsq (c : Cpu) (i : Nat) (f : LsqEntry → LsqEntry) : Cpu :=
  { c with lsq := Function.update c.lsq i (f (c.lsq i)) }

/-- The level one cache of one kind. -/
def l1 (c : Cpu) (inst : Bool) : Cache := if inst then c.icache else c.dcache

def setL1 (c : Cpu) (inst : Bool) (cp : Cache) : Cpu :=
  if inst then { c with icache := cp } else { c with dcache := cp }

end Cpu

/-- Change one block. -/
def Cache.modBlk (cp : Cache) (r : BlkRef) (f : CacheBlk → CacheBlk) : Cache :=
  { cp with blks := Function.update cp.blks r (f (cp.blks r)) }

/-- `__QUEUE_EVENT`: behind every event that is not later for an activation of a
core, in front of every event that is not earlier for the others. -/
def queueEvent (time : Nat) (ev : Event) (q : List (Nat × Event)) : List (Nat × Event) :=
  EventQueue.insert ev.isExecute time ev q

/-- `eventq_queue_callback` at `sim_cycle + delay`. -/
def Sys.queue (s : Sys) (delay : Nat) (ev : Event) : Sys :=
  { s with pending := queueEvent (s.simCycle + delay) ev s.pending }

end Godson

import Mathlib.Logic.Function.Basic
import Godson.Ring

/-! Sizes, addresses and enumerations of the memory system (`cache.h`,
`godson2_cpu.h`, `noc.h`). The model is the shipped build: MESI, the `noc`
router, no DVFS, so every core has period one. -/
namespace Godson

/-- The states of a cache line. The value 6 has no name in the source, it is
what `status |= DIRTY` makes of a SHARED line. -/
inductive Status
  | untouched | invalid | shared | exclusive | dirty | dirtyInvalid | dirtyShared | modified
  deriving DecidableEq, Repr

namespace Status

/-- `status | DIRTY`. -/
def orDirty : Status → Status
  | untouched => dirty
  | invalid => dirtyInvalid
  | shared => dirtyShared
  | exclusive => modified
  | s => s

/-- `status & DIRTY`, as a truth value. -/
def isDirty : Status → Bool
  | dirty | dirtyInvalid | dirtyShared | modified => true
  | _ => false

end Status

/-- Request and response types. -/
inductive Req
  | noReq | readShd | readEx | upgrade | writeback | eliminate
  | interventionShd | interventionExc | invalidate | ack | ackData | nack
  deriving DecidableEq, Repr

/-- The three external coherence requests. -/
def Req.isIntervention : Req → Bool
  | .interventionShd | .interventionExc | .invalidate => true
  | _ => false

/-- The three miss requests. -/
def Req.isMiss : Req → Bool
  | .readShd | .readEx | .upgrade => true
  | _ => false

/-- `enum miss_state`. -/
inductive MissState
  | empty | l1Miss | readL2 | modifyL1 | replaceL1 | extrdy | refillL1
  | l2Miss | memref | refillL2 | delay1 | delay2 | delay3
  deriving DecidableEq, Repr

/-- `state > MQ_L1_MISS`. -/
def MissState.issued : MissState → Bool
  | .empty | .l1Miss => false
  | _ => true

/-- `enum lsq_state`. -/
inductive LsqState
  | empty | enter | issue | dcache | dtagcmp | readcache | writeback | commit | delay1
  deriving DecidableEq, Repr

/-- The memory operations of `mips.def`; those of the coprocessor move data
between register files and have neither `F_LOAD` nor `F_STORE`. -/
inductive MemOp
  | lb | lbu | lh | lhu | lw | ll | lwl | lwr | lwc1 | ldc1
  | sb | sh | sw | sc | swl | swr | swc1 | sdc1
  | mfc1 | dmfc1 | cfc1 | mtc1 | dmtc1 | ctc1
  deriving DecidableEq, Repr

namespace MemOp

/-- `F_LOAD`. -/
def isLoad : MemOp → Bool
  | lb | lbu | lh | lhu | lw | ll | lwl | lwr | lwc1 | ldc1 => true
  | _ => false

/-- `F_STORE`. -/
def isStore : MemOp → Bool
  | sb | sh | sw | sc | swl | swr | swc1 | sdc1 => true
  | _ => false

end MemOp

/-- `state >= LSQ_READCACHE`. -/
def LsqState.compared : LsqState → Bool
  | .readcache | .writeback | .commit | .delay1 => true
  | _ => false

/-- `state < LSQ_WRITEBACK`. -/
def LsqState.beforeWriteback : LsqState → Bool
  | .writeback | .commit | .delay1 => false
  | _ => true

/-- States of the instruction replacement buffer. -/
inductive IrepState
  | empty | miss | refill
  deriving DecidableEq, Repr

/-- Channel types of the network. -/
inductive Chan
  | req | invn | wtbk | resp
  deriving DecidableEq, Repr

/-- The channel types in the order of their numbers. -/
def Chan.all : List Chan := [.req, .invn, .wtbk, .resp]

/-- Shape of one cache: `2 ^ setBits` sets of `assoc` ways, 32 byte blocks. -/
structure Geometry where
  setBits : Nat
  assoc : Nat
  assoc_pos : 0 < assoc

/-- `CACHE_SET`. -/
def Geometry.setOf (g : Geometry) (addr : Nat) : Nat := addr / 32 % 2 ^ g.setBits

/-- `CACHE_TAG`. -/
def Geometry.tagOf (g : Geometry) (addr : Nat) : Nat := addr / 32 / 2 ^ g.setBits

/-- Address of the block with this tag in this set. -/
def Geometry.addr (g : Geometry) (tag set : Nat) : Nat := (tag * 2 ^ g.setBits + set) * 32

/-- The way list of a set: every new way was linked in at the head. -/
def Geometry.ways (g : Geometry) : List Nat := (List.range g.assoc).reverse

/-- `PADDR_OWNER` among `2 ^ cpuBits` cores, with `MD_LOG_MEM_SIZE` 31. -/
def ownerOf (cpuBits paddr : Nat) : Nat := (paddr >>> (31 - cpuBits)) % 2 ^ cpuBits

/-- The command line. `log_base2` panics unless the number of CPUs is a power of
two, and the directories have room for sixteen. The first `programs` cores have a
program to run; `optMaxInsts` of 0 is no limit. -/
structure Config where
  cpuBits : Nat
  cpuBits_le : cpuBits ≤ 4
  missqIfqSize : Nat
  missq_pos : 0 < missqIfqSize
  wtbkqIfqSize : Nat
  wtbkq_pos : 0 < wtbkqIfqSize
  lsqIfqSize : Nat
  lsq_pos : 0 < lsqIfqSize
  memqIfqSize : Nat
  memReadFirstDelay : Nat
  memReadIntervalDelay : Nat
  memWriteDelay : Nat
  icache : Geometry
  dcache : Geometry
  l2 : Geometry
  isSplash : Bool
  programs : Nat
  optMaxInsts : Nat

namespace Config

def totalCpus (cfg : Config) : Nat := 2 ^ cfg.cpuBits

/-- `PADDR_OWNER`. -/
def paddrOwner (cfg : Config) (paddr : Nat) : Nat := ownerOf cfg.cpuBits paddr

/-- `itlb_probe` and `dtlb_probe`, which always hit. -/
def translate (cfg : Config) (cpuid addr : Nat) : Nat :=
  if cfg.isSplash then addr % 2 ^ 32 else (addr + cpuid * (2 ^ 31 / cfg.totalCpus)) % 2 ^ 32

/-- The level one cache of one kind: instruction cache when `inst`. -/
def l1 (cfg : Config) (inst : Bool) : Geometry := if inst then cfg.icache else cfg.dcache

end Config

/-- `VALID_PADDR`. -/
def validPaddr (paddr : Nat) : Bool := paddr < 2 ^ 31

/-- `BLOCK_MATCH`. -/
def blockMatch (a b : Nat) : Bool := a / 32 == b / 32

/-- `DWORD_MATCH`. -/
def dwordMatch (a b : Nat) : Bool := a / 8 == b / 8

def l2ProbeDelay : Nat := 4
def l2WriteDelay : Nat := 4

/-- Index of the next entry of a queue, as the round robin scans step. -/
def nextIndex (size i : Nat) : Nat := (i + 1) % size

end Godson

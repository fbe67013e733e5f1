import Godson.State

/-! Operations on one cache (`cache.c`) and the three external coherence
operations on the data cache (`cache2mem.c`). -/
namespace Godson

namespace CacheBlk

/-- Valid with this tag, the hit test of every lookup of the coherence code. -/
def hit (b : CacheBlk) (tag : Nat) : Bool := b.tag == tag && b.status != .invalid

end CacheBlk

namespace Cache

/-- The first way of a set, in way list order, whose block satisfies `p`. -/
def findWay (cp : Cache) (g : Geometry) (set : Nat) (p : CacheBlk → Bool) : Option BlkRef :=
  (g.ways.map (BlkRef.mk set)).find? fun r => p (cp.blks r)

/-- The block of `paddr` in the cache. -/
def lookup (cp : Cache) (g : Geometry) (paddr : Nat) : Option BlkRef :=
  cp.findWay g (g.setOf paddr) fun b => b.hit (g.tagOf paddr)

end Cache

/-- What an external coherence operation found and did. -/
structure Intervened where
  dcache : Cache
  blk : Option BlkRef
  ack : Req
  cacheStatus : Status

/-- The common body of `intervention_shared`, `intervention_exclusive` and
`invalidate`: the block, if present, goes to `next`. -/
def intervene (g : Geometry) (cp : Cache) (paddr : Nat) (next : Status) : Intervened :=
  match cp.lookup g paddr with
  | none => ⟨cp, none, .ack, .invalid⟩
  | some r =>
    let old := (cp.blks r).status
    ⟨cp.modBlk r fun b => { b with status := next }, some r,
      if old = .modified then .ackData else .ack, old⟩

def interventionShared (g : Geometry) (cp : Cache) (paddr : Nat) : Intervened :=
  intervene g cp paddr .shared

def interventionExclusive (g : Geometry) (cp : Cache) (paddr : Nat) : Intervened :=
  intervene g cp paddr .invalid

/-- `invalidate` asserts that it finds no EXCLUSIVE or MODIFIED block, and its
caller always answers ACK. -/
def invalidateBlk (g : Geometry) (cp : Cache) (paddr : Nat) : Option Intervened :=
  let r := intervene g cp paddr .invalid
  if r.cacheStatus = .exclusive ∨ r.cacheStatus = .modified then none
  else some { r with ack := .ack }

/-- `cache_probe`: the cache after the probe, the block on a hit, the request on a miss. -/
def cacheProbe (g : Geometry) (cp : Cache) (isDcache isStore : Bool) (addr paddr : Nat) :
    Cache × Option BlkRef × Req :=
  let tag := g.tagOf paddr
  let set := g.setOf addr
  match cp.findWay g set fun b => b.hit tag && b.status != .dirtyInvalid with
  | some r =>
    match (cp.blks r).status, isStore with
    | .exclusive, true => (cp.modBlk r fun b => { b with status := .modified }, some r, .noReq)
    | .shared, true => (cp, none, .upgrade)
    | _, _ => (cp, some r, .noReq)
  | none =>
    let request := if isStore then Req.readEx else Req.readShd
    match cp.refillBlk with
    | some r =>
      -- hit on the part of the block that has been refilled
      if cp.refillSet = set ∧ (cp.blks r).tag = tag ∧ cp.refillBitmap (addr / 8 % 4) = true then
        if isDcache ∧ cp.refillNewStatus = .shared ∧ isStore then (cp, none, .upgrade)
        else (cp, some r, request)
      else (cp, none, request)
    | none => (cp, none, request)

/-- `mark_valid`. -/
def markValid (cp : Cache) (mode : Status) : Cache :=
  match cp.refillBlk with
  | none => cp
  | some r => cp.modBlk r fun b =>
      { b with status := if b.status.isDirty then mode.orDirty else mode }

/-- `mark_bitmap`. -/
def markBitmap (cp : Cache) (b : Nat) : Cache :=
  { cp with refillBitmap := Function.update cp.refillBitmap b true }

/-- `wtbkq_enter`; `none` is the assertion that the entry found is free. -/
def wtbkqEnter (cfg : Config) (c : Cpu) (requestCpuid : Nat) (req : Req) (paddr : Nat)
    (inst : Bool) (cacheStatus : Status) (intervention : Bool) : Option Cpu :=
  (Ring.scanFrom cfg.wtbkqIfqSize c.wtbkqReplacei fun i => !(c.wtbkq i).valid).map fun i =>
    { c with
      wtbkq := Function.update c.wtbkq i
        ⟨true, cacheStatus, paddr, requestCpuid, req, inst, intervention⟩
      wtbkqReplacei := nextIndex cfg.wtbkqIfqSize i }

/-- The way `replace_block` takes: a SHARED block with the same tag, else the
given way, else one chosen by the cycle that spares the last refilled way. -/
def replaceVictim (g : Geometry) (cp : Cache) (simCycle : Nat) (bindex : Option Nat)
    (paddr : Nat) : BlkRef × Nat :=
  let set := g.setOf paddr
  let way := bindex.getD
    (if set = cp.refillSet then g.assoc - 1 - cp.refillWay else simCycle &&& (g.assoc - 1))
  -- the source keeps the last match of its scan
  match ((g.ways.map (BlkRef.mk set)).reverse.find? fun r =>
      (cp.blks r).tag == g.tagOf paddr && (cp.blks r).status == .shared) with
  | some r => (r, way)
  | none => (⟨set, way⟩, way)

/-- The notice `replace_block` enters into the writeback queue, if any: what it
found on an intervention, else the valid block it evicts. -/
def replaceNotice (g : Geometry) (cp : Cache) (r : BlkRef) (paddr : Nat) (intervention : Bool) :
    Option (Req × Nat × Status) :=
  let b := cp.blks r
  if intervention then
    some (.eliminate, paddr, if b.tag = g.tagOf paddr then b.status else .invalid)
  else if b.status != .invalid then
    some (if b.status = .modified then .writeback else .eliminate,
      g.addr b.tag (g.setOf paddr), b.status)
  else none

/-- The cache after `replace_block`. -/
def replaceUpdate (g : Geometry) (cp : Cache) (r : BlkRef) (way paddr : Nat) (req : Req)
    (inst intervention : Bool) (newStatus : Status) : Cache :=
  let tag := g.tagOf paddr
  let set := g.setOf paddr
  let b := cp.blks r
  let cp' := if !intervention || b.tag == tag then
    cp.modBlk r fun b => { b with tag := tag, set := set, status := .invalid } else cp
  if intervention then cp' else
    { cp' with
      replacePaddr := if b.status != .invalid then g.addr b.tag set else 0
      refillSet := set
      refillWay := way
      refillBlk := some r
      refillBitmap := fun _ => false
      refillNewStatus :=
        if req = .noReq then cp.refillNewStatus
        else if !inst && req = .readShd then newStatus
        else if req = .readShd then .shared else .exclusive }

/-- `replace_block` on the instruction or data cache of core `k`. The caller has
reserved an entry of the writeback queue; it is given back when nothing is entered. -/
def replaceBlock (cfg : Config) (s : Sys) (k : Nat) (inst : Bool) (bindex : Option Nat)
    (paddr : Nat) (req : Req) (intervention : Bool) (newStatus : Status) :
    Option (Sys × BlkRef) :=
  let g := cfg.l1 inst
  let c := s.cpus k
  let cp := c.l1 inst
  let (r, way) := replaceVictim g cp s.simCycle bindex paddr
  if (cp.blks r).status = .dirtyInvalid then none
  else
    let cp' := replaceUpdate g cp r way paddr req inst intervention newStatus
    match replaceNotice g cp r paddr intervention with
    | some (wreq, waddr, wstatus) =>
      (wtbkqEnter cfg c k wreq waddr inst wstatus intervention).map fun c' =>
        (s.modCpu k fun _ => c'.setL1 inst cp', r)
    | none =>
      some ((s.modCpu k fun c => { c.setL1 inst cp' with wtbkqNum := c.wtbkqNum - 1 }).queue 0
        (.updateCredit k .wtbk), r)

end Godson

import Godson.Cache

/-! The directory at the home node: `missq_change_state`, `scache_probe`,
`scache_refill` and `scache_writeback` (`cache2mem.c`). -/
namespace Godson

/-- `missq_change_state`. Leaving EMPTY takes a credit of both request channels,
entering it clears the entry. -/
def missqChangeState (c : Cpu) (qid : Nat) (next : MissState) : Cpu :=
  let c := if (c.missq qid).state = .empty then
    { c with creditReq := c.creditReq - 1, creditInvn := c.creditInvn - 1 } else c
  let c := if next = .empty then c.modMissq qid fun _ => {} else c
  { c with
    lasti := Function.update c.lasti (c.missq qid).state qid
    missq := Function.update c.missq qid { c.missq qid with state := next } }

/-- Number of cores with a bit in one row of a directory. -/
def dirCount (cfg : Config) (row : Nat → Bool) : Nat :=
  ((List.range cfg.totalCpus).filter row).length

/-- The request waits: the directory still shows a copy at the requester. -/
def MissEntry.wait (e : MissEntry) : MissEntry :=
  { e with waitForResponse := 1, readLocalL2 := false }

/-- What a hit that needs other caches modified leaves in the missq entry: the
directory to work through, the requester excepted, and nothing sent yet. The
instruction directory is only copied from a SHARED block. -/
def MissEntry.startModify (e : MissEntry) (b : CacheBlk) (r : BlkRef) (type : Req) : MissEntry :=
  { e with
    directory := fun inst i =>
      if i = e.cpuid then false else if inst && b.status != .shared then false
      else b.directory inst i
    interventionSent := fun _ _ => false
    ackReceived := fun _ _ => false
    interventionType := type
    waitForResponse := 0
    l2ChangedBlk := some r }

/-- READ_SHD hits an EXCLUSIVE block: its owners are asked to share. -/
def probeExclusiveRead (cfg : Config) (c : Cpu) (qid : Nat) (r : BlkRef) : Cpu :=
  let b := c.l2.blks r
  let e := c.missq qid
  if b.directory e.inst e.cpuid then c.modMissq qid MissEntry.wait
  else
    (missqChangeState c qid .modifyL1).modMissq qid fun e =>
      let e' := e.startModify b r .interventionShd
      { e' with
        readLocalL2 := false
        cacheStatus :=
          if e.inst then .shared
          else if dirCount cfg (e'.directory false) = 0 then .exclusive else .shared }

/-- READ_EX or UPGRADE hits an EXCLUSIVE block: its owners are invalidated. -/
def probeExclusiveWrite (c : Cpu) (qid : Nat) (r : BlkRef) : Option Cpu :=
  let b := c.l2.blks r
  let e := c.missq qid
  if e.inst then none
  else if b.directory false e.cpuid then some (c.modMissq qid MissEntry.wait)
  else some ((missqChangeState c qid .modifyL1).modMissq qid fun e =>
    { e.startModify b r .interventionExc with readLocalL2 := false })

/-- READ_SHD hits a SHARED block: the data is granted at once, and a data
request that turns out to be the only sharer is promoted to EXCLUSIVE. -/
def probeSharedRead (cfg : Config) (c : Cpu) (k qid : Nat) (r : BlkRef) : Cpu :=
  let b := c.l2.blks r
  let e := c.missq qid
  if b.directory e.inst e.cpuid then c.modMissq qid MissEntry.wait
  else
    let dir := setBit b.directory e.inst e.cpuid true
    let status := if dirCount cfg (dir false) = 1 then Status.exclusive else .shared
    let c := missqChangeState c qid (if k = e.cpuid then .replaceL1 else .extrdy)
    let c := c.modMissq qid fun e =>
      { e with
        memcnt := 4, readLocalL2 := false, l2ChangedBlk := none, waitForResponse := 0
        cacheStatus := if e.inst then e.cacheStatus else status }
    { c with l2 := c.l2.modBlk r fun b =>
        { b with directory := dir, status := if e.inst then b.status else status } }

/-- READ_EX hits a SHARED block. -/
def probeSharedWrite (c : Cpu) (qid : Nat) (r : BlkRef) : Option Cpu :=
  let b := c.l2.blks r
  let e := c.missq qid
  if e.inst then none
  else if b.directory false e.cpuid then some (c.modMissq qid MissEntry.wait)
  else some ((missqChangeState c qid .modifyL1).modMissq qid fun e =>
    { e.startModify b r .invalidate with readLocalL2 := false })

/-- UPGRADE hits a SHARED block. Unlike its siblings this branch does not look
at the directory bit of the requester. -/
def probeSharedUpgrade (c : Cpu) (qid : Nat) (r : BlkRef) : Option Cpu :=
  let b := c.l2.blks r
  let e := c.missq qid
  if e.inst then none
  else some ((missqChangeState c qid .modifyL1).modMissq qid fun e =>
    e.startModify b r .invalidate)

/-- The way an L2 miss will replace. -/
def scacheVictim (cfg : Config) (c : Cpu) (simCycle paddr : Nat) : BlkRef :=
  let set := cfg.l2.setOf paddr
  let way := if set = c.l2.refillSet then cfg.l2.assoc - 1 - c.l2.refillWay
    else simCycle &&& (cfg.l2.assoc - 1)
  ⟨set, way⟩

/-- L2 miss: remember the victim and the level one copies it still has. -/
def probeMiss (cfg : Config) (c : Cpu) (simCycle qid paddr : Nat) : Cpu :=
  let r := scacheVictim cfg c simCycle paddr
  let b := c.l2.blks r
  (missqChangeState c qid .l2Miss).modMissq qid fun e =>
    { e with
      directory := b.directory
      interventionSent := fun _ _ => false
      ackReceived := fun _ _ => false
      interventionType := .interventionExc
      l2ReplaceBlk := some r
      l2ChangedBlk := some r
      l2ReplacePaddr := cfg.l2.addr b.tag b.set }

/-- `scache_probe`, at the home `k`. -/
def scacheProbe (cfg : Config) (simCycle k : Nat) (req : Req) (qid paddr : Nat) (c : Cpu) :
    Option Cpu :=
  match c.l2.lookup cfg.l2 paddr with
  | none => some (probeMiss cfg c simCycle qid paddr)
  | some r =>
    match (c.l2.blks r).status, req with
    | .exclusive, .readShd => some (probeExclusiveRead cfg c qid r)
    | .exclusive, .readEx => probeExclusiveWrite c qid r
    | .exclusive, .upgrade => probeExclusiveWrite c qid r
    | .shared, .readShd => some (probeSharedRead cfg c k qid r)
    | .shared, .readEx => probeSharedWrite c qid r
    | .shared, .upgrade => probeSharedUpgrade c qid r
    | _, _ => some c

/-- `scache_refill`: the block read from memory takes the place of the victim. -/
def scacheRefill (cfg : Config) (k qid : Nat) (c : Cpu) : Option Cpu :=
  let e := c.missq qid
  e.l2ReplaceBlk.map fun r =>
    let l2 := c.l2.modBlk r fun _ =>
      { tag := cfg.l2.tagOf e.paddr
        set := cfg.l2.setOf e.paddr
        status := if e.inst then .shared else .exclusive
        dirty := false
        directory := fun inst i => i == e.cpuid && inst == e.inst }
    let c := { c with
      l2 := { l2 with
        refillSet := cfg.l2.setOf e.paddr
        refillWay := e.l2ReplaceWay
        refillBlk := some r
        refillBitmap := fun _ => false } }
    let c := c.modMissq qid fun e =>
      { e with cacheStatus := if e.inst then e.cacheStatus else .exclusive }
    missqChangeState c qid (if e.cpuid = k then .replaceL1 else .extrdy)

/-- What a notice does to a block it hits: the level one cache of that kind no
longer holds it, and a dirty notice makes it dirty. -/
def CacheBlk.absorb (b : CacheBlk) (requestCpuid : Nat) (req : Req) (inst : Bool) : CacheBlk :=
  { b with
    directory := setBit b.directory inst requestCpuid false
    dirty := b.dirty || req == .writeback }

/-- `scache_writeback`. -/
def scacheWriteback (cfg : Config) (requestCpuid : Nat) (req : Req) (paddr : Nat) (inst : Bool)
    (c : Cpu) : Option Cpu :=
  let blks := fun r : BlkRef =>
    if r.set = cfg.l2.setOf paddr ∧ r.way < cfg.l2.assoc ∧
        (c.l2.blks r).hit (cfg.l2.tagOf paddr) then
      (c.l2.blks r).absorb requestCpuid req inst
    else c.l2.blks r
  if req = .writeback ∨ req = .eliminate then some { c with l2 := { c.l2 with blks := blks } }
  else none

end Godson

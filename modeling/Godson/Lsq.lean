import Godson.Noc

/-! The load/store queue and the data cache pipeline (`lsq.c`), section by
section, and the instruction cache part of `fetch_stage`. -/
namespace Godson

variable (cfg : Config) (k : Nat)

/-- `get_bytemask`. -/
def getBytemask (op : MemOp) (offset : Nat) : BitVec 8 :=
  match op with
  | .sb | .lb | .lbu => 1#8 <<< offset
  | .sh | .lh | .lhu => 3#8 <<< offset
  | .sw | .sc | .ll | .lw | .lwc1 | .swc1 => 15#8 <<< offset
  | .swl | .lwl => ((1#8 <<< (offset % 4 + 1)) - 1#8) <<< (offset / 4 * 4)
  | .lwr | .swr => ((1#8 <<< (4 - offset % 4)) - 1#8) <<< offset
  | .ldc1 | .sdc1 => 0xff#8
  | .mtc1 | .mfc1 | .dmtc1 | .dmfc1 | .ctc1 | .cfc1 => 0#8

/-- The entries from `i` up to, not including, `stop`; all of them when both are equal. -/
def ring (size i stop : Nat) : List Nat :=
  (List.range ((stop + size - i - 1) % size + 1)).map fun j => (i + j) % size

/-- The entries before `i` down to `first`. -/
def ringBefore (size i first : Nat) : List Nat :=
  (List.range ((i + size - first) % size)).map fun j => (i + size - (j + 1)) % size

/-- The entries after `i` up to, not including, `stop`. -/
def ringAfter (size i stop : Nat) : List Nat :=
  (List.range ((stop + size - i - 1) % size)).map fun j => (i + (j + 1)) % size

/-- `BANKI`. -/
def banki (addr : Nat) : Nat := addr % 32 / 8

/-- `cache_miss`. -/
def LsqEntry.cacheMiss (l : LsqEntry) : Bool :=
  !l.fetching && !l.ex && l.byterdy != 0xff &&
    ((l.opLoad && l.state == .readcache) ||
      (l.opStore && (l.state == .readcache || l.state == .writeback || l.state == .commit)))

/-- `load_match`. -/
def loadMatch (l x : LsqEntry) : Bool :=
  x.opLoad && x.state.compared && dwordMatch l.paddr x.paddr

/-- `store_match`. -/
def storeMatch (l x : LsqEntry) : Bool :=
  x.opStore && x.state.compared && dwordMatch l.paddr x.paddr

/-- The entries a selection scans: at least the head, and no further than the
first empty one. -/
def lsqScan (c : Cpu) : List Nat :=
  match ring cfg.lsqIfqSize c.lsqHead c.lsqTail with
  | [] => []
  | i :: is => i :: is.takeWhile fun i => (c.lsq i).state != .empty

/-- Select the entry to write back and the miss to issue. -/
def lsqSelect (c : Cpu) : Cpu :=
  { c with
    lsqWtbki := (lsqScan cfg c).find? fun i =>
      let l := c.lsq i
      l.state == .readcache && c.lsqWtbki != some i && (!l.opLoad || l.byterdy == 0xff)
    lsqMissi := (lsqScan cfg c).find? fun i => (c.lsq i).cacheMiss }

/-- `status |= DIRTY` for the store at the head of the queue. -/
def dcachewrite (loc : Locals) (c : Cpu) : Option (Cpu × Locals) :=
  let l := c.lsq c.lsqHead
  let ready := l.state == .commit && l.opStore && l.byterdy == 0xff
  let conflict := match c.lsqIssuei with
    | some i => (c.lsq i).opLoad && banki (c.lsq i).addr == banki l.addr
    | none => false
  if ready && !(c.lsqRefill.isSome || c.replaceDelay > 0) && !conflict then
    l.blk.map fun r =>
      ({ c with dcache := c.dcache.modBlk r fun b => { b with status := b.status.orDirty } },
        { loc with dcachewriteValid := true })
  else some (c, { loc with dcachewriteValid := false })

/-! ### Tag compare -/

/-- Apply `f` to every entry between head and tail. -/
def mapRing (f : Nat → LsqEntry → LsqEntry) (c : Cpu) : Cpu :=
  (ring cfg.lsqIfqSize c.lsqHead c.lsqTail).foldl (fun c i => c.modLsq i (f i)) c

/-- The entry has to fetch its block again. -/
def LsqEntry.reset (l : LsqEntry) (req : Req) : LsqEntry :=
  { l with byterdy := ~~~l.bytemask, fetching := false, blk := none, req := req }

/-- A speculative load whose block goes away is marked for exception. -/
def LsqEntry.mispec (l : LsqEntry) (paddr : Nat) : LsqEntry :=
  if l.opLoad ∧ l.loadspec ∧ l.state = .writeback ∧ blockMatch l.paddr paddr then
    { l with ex := true } else l

/-- What the replacement of the block at `paddr` does to an entry. -/
def LsqEntry.onReplace (paddr : Nat) (l : LsqEntry) : LsqEntry :=
  if l.opStore ∧ l.state.compared ∧ blockMatch l.paddr paddr then l.reset .readEx
  else l.mispec paddr

/-- What an intervention does to an entry; `kept` tells that the block is still valid. -/
def LsqEntry.onIntervention (paddr : Nat) (kept : Bool) (l : LsqEntry) : LsqEntry :=
  if l.opStore ∧ l.state.compared ∧ blockMatch l.paddr paddr then
    l.reset (if kept then .upgrade else .readEx)
  else if l.opLoad ∧ l.fetching ∧ l.state = .readcache ∧ blockMatch l.paddr paddr then
    l.reset .readShd
  else l.mispec paddr

/-- The status a refill leaves in the data cache. -/
def RefillPacket.mode (p : RefillPacket) : Status :=
  if p.req = .readShd then p.cacheStatus else .exclusive

/-- The entry waits for the double word a refill delivers. -/
def LsqEntry.refillMatch (p : RefillPacket) (l : LsqEntry) : Bool :=
  (l.opLoad || l.opStore) && l.state.compared && dwordMatch l.paddr p.paddr

/-- What a refill does to an entry: a store that is only granted SHARED has to upgrade. -/
def LsqEntry.onRefill (p : RefillPacket) (l : LsqEntry) : LsqEntry :=
  if l.refillMatch p then
    if l.opStore ∧ p.mode = .shared then { l with req := .upgrade }
    else { l with byterdy := 0xff, fetching := false, blk := p.blk }
  else l

/-- A refilled entry is no longer selected as a miss. -/
def refillMissi (p : RefillPacket) (c : Cpu) : Option Nat :=
  c.lsqMissi.filter fun i =>
    let l := c.lsq i
    !((ring cfg.lsqIfqSize c.lsqHead c.lsqTail).contains i && l.refillMatch p &&
      !(l.opStore && p.mode == .shared))

/-- Tell the entry that asked how the data cache answered an intervention. -/
def interventionAnswer (p : RefillPacket) (c : Cpu) : Option Cpu :=
  let q := p.missqid
  let e := c.missq q
  if e.req.isIntervention then
    some (c.modMissq q fun e => { e with ack := p.ack, cacheStatus := p.cacheStatus, state := .extrdy })
  else if e.state = .modifyL1 then answerModify false k p.cacheStatus q c
  else if e.state = .l2Miss then answerMiss false k p.cacheStatus q c
  else some c

/-- A replacement, intervention or refill reaches the tag compare stage. -/
def dtagcmpRefill (p : RefillPacket) (c : Cpu) : Option Cpu :=
  let c? :=
    if p.replace then some (mapRing cfg (fun _ => LsqEntry.onReplace c.dcache.replacePaddr) c)
    else if p.intervention then
      let kept := match p.blk with
        | some r => (c.dcache.blks r).status != .invalid
        | none => false
      interventionAnswer k p (mapRing cfg (fun _ => LsqEntry.onIntervention p.paddr kept) c)
    else
      some { mapRing cfg (fun _ => LsqEntry.onRefill p) c with lsqMissi := refillMissi cfg p c }
  c?.map fun c => { c with lsqDtagcmpRefill := none }

/-- Bytes of the load `i` that no older store in the queue covers. -/
def notFoundMask (c : Cpu) (i : Nat) (bytemask : BitVec 8) : BitVec 8 :=
  (ringBefore cfg.lsqIfqSize i c.lsqHead1).foldl (fun nf j =>
    let m := (c.lsq j).bytemask &&& bytemask &&& nf
    if m ≠ 0 ∧ storeMatch (c.lsq i) (c.lsq j) then nf &&& ~~~m else nf) 0xff

/-- A load passes the tag compare: forward from older stores, and mark the
nearest older load that has not written back. -/
def compareLoad (i : Nat) (c : Cpu) : Cpu :=
  let l := c.lsq i
  let nf := notFoundMask cfg c i l.bytemask
  let older := (ringBefore cfg.lsqIfqSize i c.lsqHead1).find? fun j =>
    (c.lsq j).opLoad && (c.lsq j).state.beforeWriteback
  let c := match older with
    | some j => c.modLsq j fun l => { l with loadspec := true }
    | none => c
  c.modLsq i fun l =>
    { l with byterdy := if l.blk.isSome then 0xff else ~~~l.bytemask ||| ~~~nf }

/-- One younger entry a store forwards to. A load that has already written back
is marked for exception, another store covers its bytes. -/
def forwardStep (i : Nat) (bytemask : BitVec 8) (st : Cpu × BitVec 8) (j : Nat) :
    Cpu × BitVec 8 :=
  let (c, nf) := st
  let m := (c.lsq j).bytemask &&& bytemask &&& nf
  if m = 0 then (c, nf)
  else
    let c' := if loadMatch (c.lsq i) (c.lsq j) then
      c.modLsq j fun x =>
        { x with byterdy := x.byterdy ||| m
                 ex := x.ex || x.state == .writeback || c.lsqWtbki == some j }
      else c
    (c', if storeMatch (c.lsq i) (c.lsq j) then nf &&& ~~~m else nf)

/-- A store passes the tag compare. -/
def compareStore (i : Nat) (c : Cpu) : Cpu :=
  let (c, _) := (ringAfter cfg.lsqIfqSize i c.lsqTail).foldl
    (forwardStep i (c.lsq i).bytemask) (c, 0xff)
  c.modLsq i fun l => { l with byterdy := if l.blk.isSome then 0xff else ~~~l.bytemask }

/-- An operation reaches the tag compare stage. -/
def dtagcmpOp (i : Nat) (c : Cpu) : Cpu :=
  let c := c.modLsq i fun l =>
    { l with state := .readcache, fetching := false
             bytemask := getBytemask l.op (l.addr % 8) }
  let l := c.lsq i
  let c := { c with
    lsqDtagcmpi := none
    lsqWtbki := if l.opLoad ∧ l.ex = false ∧ l.blk.isSome then some i else c.lsqWtbki }
  if l.opLoad then compareLoad cfg i c
  else if l.opStore then compareStore cfg i c
  else c.modLsq i fun l => { l with byterdy := 0xff }

def dtagcmp (c : Cpu) : Option Cpu :=
  match c.lsqDtagcmpRefill, c.lsqDtagcmpi with
  | some p, _ => dtagcmpRefill cfg k p c
  | none, some i => some (dtagcmpOp cfg i c)
  | none, none => some c

/-! ### Drain -/

/-- Free the entries that are done. -/
def freeDone (c : Cpu) : Cpu :=
  let done := ((List.range cfg.lsqIfqSize).map fun j => (c.lsqHead1 + j) % cfg.lsqIfqSize).takeWhile
    fun i => (c.lsq i).state == .delay1
  { done.foldl (fun c i => c.modLsq i fun l => { l with state := .empty }) c with
    lsqNum := c.lsqNum - done.length
    lsqHead1 := (c.lsqHead1 + done.length) % cfg.lsqIfqSize }

/-- At most `j` further committed loads leave behind the head. -/
def drainLoads : Nat → Nat → Cpu → Cpu
  | 0, i, c => { c with lsqHead := i }
  | j + 1, i, c =>
    if (c.lsq i).state = .commit ∧ (c.lsq i).opLoad then
      drainLoads j (nextIndex cfg.lsqIfqSize i) (c.modLsq i fun l => { l with state := .delay1 })
    else { c with lsqHead := i }

def drain (loc : Locals) (c : Cpu) : Cpu :=
  let c := freeDone cfg c
  let l := c.lsq c.lsqHead
  if loc.dcachewriteValid || (!l.opStore && l.state == .commit) then
    drainLoads cfg 3 (nextIndex cfg.lsqIfqSize c.lsqHead)
      (c.modLsq c.lsqHead fun l => { l with state := .delay1 })
  else c

/-! ### Data cache -/

/-- The external coherence operation a packet asks for. -/
def carryOut (p : RefillPacket) (c : Cpu) : Option Intervened :=
  match p.req with
  | .interventionShd => some (interventionShared cfg.dcache c.dcache p.paddr)
  | .interventionExc => some (interventionExclusive cfg.dcache c.dcache p.paddr)
  | .invalidate => invalidateBlk cfg.dcache c.dcache p.paddr
  | _ => none

/-- A replacement, intervention or refill reaches the data cache. -/
def dcacheRefill (p : RefillPacket) (s : Sys) : Option Sys :=
  if p.replace then
    (replaceBlock cfg s k false none p.paddr p.req false p.cacheStatus).map fun (s, r) =>
      s.modCpu k fun c => { c with
        replaceDelay := 2
        lsqDtagcmpRefill := some { p with blk := some r }
        lsqDcacheRefill := none }
  else if p.intervention then
    (carryOut cfg p (s.cpus k)).map fun i => s.modCpu k fun c => { c with
      dcache := i.dcache
      replaceDelay := 2
      lsqDtagcmpRefill := some { p with blk := i.blk, ack := i.ack, cacheStatus := i.cacheStatus }
      lsqDcacheRefill := none }
  else
    some (s.modCpu k fun c =>
      let cp := markBitmap c.dcache (p.paddr % 32 / 8)
      { c with
        dcache := if p.cnt = 4 then { markValid cp p.mode with refillBlk := none } else cp
        lsqDtagcmpRefill := some { p with blk := c.dcache.refillBlk }
        lsqDcacheRefill := none })

/-- An operation probes the data cache. -/
def dcacheOp (i : Nat) (c : Cpu) : Cpu :=
  let l := c.lsq i
  let paddr := cfg.translate k l.addr
  let (cp, blk, req) := cacheProbe cfg.dcache c.dcache true l.opStore l.addr paddr
  { c.modLsq i fun l => { l with state := .dtagcmp, paddr := paddr, blk := blk, req := req } with
    dcache := cp
    lsqDtagcmpi := some i
    lsqDcachei := none }

def dcacheStage (s : Sys) : Option Sys :=
  let s := s.modCpu k fun c => { c with replaceDelay := c.replaceDelay - 1 }
  let c := s.cpus k
  match c.lsqDcacheRefill, c.lsqDcachei with
  | some p, _ => dcacheRefill cfg k p s
  | none, some i => some (s.modCpu k (dcacheOp cfg k i))
  | none, none => some s

/-- What waits at address calculation moves on to the data cache. -/
def memaddr (c : Cpu) : Cpu :=
  match c.lsqRefill, c.lsqIssuei with
  | some p, _ => { c with lsqDcacheRefill := some p, lsqRefill := none }
  | none, some i =>
    { c.modLsq i fun l => { l with state := .dcache } with
      lsqDcachei := some i
      lsqIssuei := none }
  | none, none => c

/-! ### Operations of the pipeline -/

/-- `lsq_enqueue`. -/
def lsqEnqueue (op : MemOp) (addr : Nat) (c : Cpu) : Option Cpu :=
  if c.lsqNum < cfg.lsqIfqSize then
    some { c.modLsq c.lsqTail fun l =>
        { l with op := op, state := .enter, addr := addr, ex := false, loadspec := false } with
      lsqNum := c.lsqNum + 1
      lsqTail := nextIndex cfg.lsqIfqSize c.lsqTail }
  else none

/-- `lsq_issue`. -/
def lsqIssue (i : Nat) (c : Cpu) : Option Cpu :=
  if (c.lsq i).state = .enter ∧ c.lsqIssuei = none ∧ i < cfg.lsqIfqSize then
    some { c.modLsq i fun l => { l with state := .issue } with lsqIssuei := some i }
  else none

/-- The event `lsq_stage` queued in the cycle before reaches `writeback_stage`. -/
def lsqWriteback (c : Cpu) : Option Cpu :=
  c.lsqWtbki.bind fun i =>
    if (c.lsq i).state = .readcache then
      some (c.modLsq i fun l => { l with state := .writeback })
    else none

/-- `commit_stage` retires the oldest operation it has not yet retired. -/
def lsqCommit (c : Cpu) : Option Cpu :=
  ((ring cfg.lsqIfqSize c.lsqHead c.lsqTail).find? fun i => (c.lsq i).state != .commit).bind fun i =>
    if (c.lsq i).state = .writeback ∧ (c.lsq i).ex = false then
      some (c.modLsq i fun l => { l with state := .commit })
    else none

/-- `lsq_cancel_one` on the youngest operation. -/
def lsqCancel (c : Cpu) : Option Cpu :=
  let i := (c.lsqTail + cfg.lsqIfqSize - 1) % cfg.lsqIfqSize
  let l := c.lsq i
  if l.state = .empty ∨ l.state = .commit ∨ l.state = .delay1 then none
  else
    let c := match l.state with
      | .issue => { c with lsqIssuei := none }
      | .dcache => { c with lsqDcachei := none }
      | .dtagcmp => { c with lsqDtagcmpi := none }
      | _ => if c.lsqMissi = some i then { c with lsqMissi := none } else c
    some { c.modLsq i fun l => { l with state := .empty } with
      lsqNum := c.lsqNum - 1
      lsqTail := i }

/-- `fetch_stage` at `addr`: a stall of the cycle before is worked off first. -/
def fetchStage (simCycle addr : Nat) (c : Cpu) : Cpu :=
  let g := cfg.icache
  if c.cacheStall || c.refillStall || c.branchStall then
    { c with
      irepbuf := if c.cacheStall ∧ c.irepbuf.state = .empty
        then { c.irepbuf with state := .miss } else c.irepbuf
      cacheStall := false, refillStall := false, branchStall := false }
  else if c.irepbuf.state = .empty ∨ g.setOf addr ≠ c.irepbuf.set then
    let paddr := cfg.translate k addr
    let (cp, blk, _) := cacheProbe g c.icache false false addr paddr
    let c := { c with icache := cp }
    if blk.isNone ∧ c.irepbuf.state = .empty then
      { c with
        irepbuf := { c.irepbuf with
          way := if g.setOf addr = c.irepbuf.set then (c.irepbuf.way + 1) % g.assoc
            else simCycle % g.assoc
          set := g.setOf addr
          paddr := paddr
          bitmap := fun _ => false }
        cacheStall := true }
    else c
  else c

/-- `tracer_recover` withdraws an instruction miss that has not been accepted. -/
def cancelFetch (c : Cpu) : Cpu :=
  if c.irepbuf.state = .miss then { c with irepbuf := { c.irepbuf with state := .empty } } else c

end Godson

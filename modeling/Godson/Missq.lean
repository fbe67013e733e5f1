import Godson.Directory

/-! The miss queue and the writeback queue: the sections of `cache2mem`, each a
function of the core it runs on, in the order of the source. `room` tells
whether the network accepts a packet in that section, `none` is a failed
assertion. -/
namespace Godson

variable (cfg : Config) (k : Nat)

/-- `noc_request` at core `k`; the home of `paddr` gets requests and writebacks,
the core `target` gets interventions and responses. -/
def nocRequest (s : Sys) (chan : Chan) (req : Req) (cacheStatus : Status) (qid target paddr : Nat)
    (inst : Bool) : Sys :=
  let dest := match chan with
    | .invn | .resp => target
    | .req | .wtbk => cfg.paddrOwner paddr
  { s with net := s.net ++ [⟨chan, dest, req, cacheStatus, qid, k, paddr, inst⟩] }

/-! ### Selection and acceptance of level one misses -/

/-- The entry the round robin of `cache2mem` picks for one state. -/
def current (c : Cpu) (state : MissState) : Option Nat :=
  Ring.scanFrom cfg.missqIfqSize (nextIndex cfg.missqIfqSize (c.lasti state)) fun i =>
    (c.missq i).state == state

def select (c : Cpu) : Locals where
  emptyi := current cfg c .empty
  l1Missi := current cfg c .l1Miss
  readL2i := current cfg c .readL2
  modifyL1i := current cfg c .modifyL1
  replaceL1i := current cfg c .replaceL1
  extrdyi := current cfg c .extrdy
  l2Missi := current cfg c .l2Miss
  memrefi := current cfg c .memref
  refillL2i := current cfg c .refillL2
  missqHasDelay1 := (List.range cfg.missqIfqSize).any fun i => (c.missq i).state == .delay1

/-- Look for an entry the miss of LSQ entry `li` can join. The last component
tells that the scan was left early, the one before it that a read has already
been issued and the miss has become an UPGRADE. -/
def mergeScan (li : Nat) : List Nat → Cpu → Bool → Cpu × Bool × Bool
  | [], c, up => (c, up, false)
  | i :: is, c, up =>
    let e := c.missq i
    let l := c.lsq li
    if e.cpuid = k ∧ e.state ≠ .empty ∧ e.inst = false ∧ blockMatch e.paddr l.paddr then
      if e.state.issued ∧ e.req = .readShd ∧ (l.req = .readEx ∨ l.req = .upgrade) then
        mergeScan li is (c.modLsq li fun l => { l with req := .upgrade }) true
      else if e.state = .l1Miss ∧ e.req = .readShd ∧ l.req = .readEx then
        (c.modMissq i fun e => { e with req := .readEx }, up, true)
      else if (e.req = .readEx ∨ e.req = .upgrade) ∧ l.req.isMiss then (c, false, true)
      else (c, up, true)
    else mergeScan li is c up

/-- A new entry for a miss of the core itself. -/
def missEnter (c : Cpu) (q : Nat) (inst : Bool) (req : Req) (paddr : Nat) : Cpu :=
  let c := (missqChangeState c q .l1Miss).modMissq q fun e =>
    { e with
      inst := inst, req := req, ack := .noReq, cpuid := k, paddr := paddr
      memcnt := 0, cachecnt := 0
      waitForReissue := false, waitForResponse := 0, memreadSent := false }
  { c with missqNum := c.missqNum + 1 }

/-- Accept the pending miss of the load/store queue. -/
def acceptData (q li : Nat) (c : Cpu) : Cpu :=
  let (c, up, left) := mergeScan k li (List.range cfg.missqIfqSize) c false
  let l := c.lsq li
  -- an invalid address is accepted without an entry
  let c := if (!left || up) && validPaddr l.paddr then missEnter k c q false l.req l.paddr else c
  { c.modLsq li fun l => { l with fetching := true } with lsqMissi := none }

/-- Accept the pending miss of the instruction cache. -/
def acceptInst (q : Nat) (c : Cpu) : Cpu :=
  let c := if validPaddr c.irepbuf.paddr then missEnter k c q true .readShd c.irepbuf.paddr else c
  { c with irepbuf := { c.irepbuf with state := .refill } }

def accept (loc : Locals) (c : Cpu) : Cpu :=
  match loc.emptyi with
  | none => c
  | some q =>
    if c.missqNum < (cfg.missqIfqSize : Int) - 2 then
      match c.lsqMissi with
      | some li => acceptData cfg k q li c
      | none => if c.irepbuf.state = .miss then acceptInst k q c else c
    else c

/-! ### Issue -/

/-- An entry beyond MQ_L1_MISS for the same set of the same home. -/
def sameSet (e x : MissEntry) : Bool :=
  x.state.issued && cfg.l2.setOf x.paddr == cfg.l2.setOf e.paddr &&
    cfg.paddrOwner x.paddr == cfg.paddrOwner e.paddr

/-- An UPGRADE waits for a read of the same block. -/
def contention (e x : MissEntry) : Bool :=
  x.cpuid == k && e.cpuid == k && x.state != .empty && blockMatch x.paddr e.paddr &&
    x.req == .readShd && e.req == .upgrade

/-- Issue entry `q` to the local directory. -/
def issueLocal (q : Nat) (s : Sys) : Sys :=
  let e := (s.cpus k).missq q
  (s.modCpu k fun c => (missqChangeState c q .readL2).modMissq q fun e =>
      { e with readLocalL2 := true }).queue l2ProbeDelay (.scacheProbe k e.req q e.paddr)

/-- Issue entry `q` to a remote home. -/
def issueRemote (q : Nat) (s : Sys) : Sys :=
  let e := (s.cpus k).missq q
  (nocRequest cfg k s .req e.req .untouched q k e.paddr e.inst).modCpu k fun c =>
    (missqChangeState c q .readL2).modMissq q fun e => { e with readLocalL2 := false }

def issue (room : Bool) (loc : Locals) (s : Sys) : Option (Sys × Locals) :=
  match loc.l1Missi with
  | none => some (s, loc)
  | some q =>
    let c := s.cpus k
    let e := c.missq q
    if e.waitForReissue then some (s, loc)
    else if e.cpuid ≠ k ∧ cfg.paddrOwner e.paddr ≠ k then none
    else
      let others := (List.range cfg.missqIfqSize).filter fun i => i != q
      let waits := others.filter fun i => contention k e (c.missq i)
      let next := fun lasti : MissState → Nat =>
        Function.update lasti .l1Miss (nextIndex cfg.missqIfqSize (lasti .l1Miss))
      let s := s.modCpu k fun c => { c with lasti := waits.foldl (fun lasti _ => next lasti) c.lasti }
      if (others.any fun i => sameSet cfg e (c.missq i)) || !waits.isEmpty then some (s, loc)
      else if cfg.paddrOwner e.paddr = k then
        some (issueLocal k q s, { loc with scachePortOccupied := true })
      else if room then some (issueRemote cfg k q s, loc)
      else some (s, loc)

/-- The notice a request waited for has arrived: probe again. -/
def reprobe (loc : Locals) (s : Sys) : Option (Sys × Locals) :=
  match loc.readL2i with
  | none => some (s, loc)
  | some q =>
    let c := s.cpus k
    let e := c.missq q
    if e.waitForResponse = 2 then
      (scacheProbe cfg s.simCycle k e.req q e.paddr c).map fun c => (s.modCpu k fun _ => c, loc)
    else some (s, loc)

/-! ### Modification of level one caches -/

/-- Entries of the core that an external intervention `q` finds not yet issued
have to wait; two of them are remembered. -/
def conflictCheck (q : Nat) (c : Cpu) : Cpu :=
  let c := c.modMissq q fun e => { e with invnMatchI1 := none, invnMatchI2 := none }
  let c := (List.range cfg.missqIfqSize).foldl (fun c i =>
    if i ≠ q ∧ (c.missq i).state = .l1Miss ∧ blockMatch (c.missq i).paddr (c.missq q).paddr then
      (c.modMissq i fun e => { e with waitForReissue := true }).modMissq q fun e =>
        if e.invnMatchI1 = none then { e with invnMatchI1 := some i }
        else { e with invnMatchI2 := some i }
    else c) c
  c.modMissq q fun e => { e with conflictChecked := true }

/-- Give up entry `i` of the writeback queue. -/
def releaseWtbk (i : Nat) (s : Sys) : Sys :=
  (s.modCpu k fun c =>
    { c.modWtbkq i fun w => { w with valid := false } with wtbkqNum := c.wtbkqNum - 1 }).queue 0
      (.updateCredit k .wtbk)

/-- A notice that has not left yet answers the external intervention `q`. It
stays in the queue when the block is only shared. -/
def wtbkqAnswer (q i : Nat) (s : Sys) : Sys :=
  let w := (s.cpus k).wtbkq i
  let e := (s.cpus k).missq q
  let s := s.modCpu k fun c => c.modMissq q fun e =>
    { e with
      ack := if w.req = .writeback then .ackData else .ack
      cacheStatus := w.cacheStatus }
  let s := if e.req = .interventionShd ∧ (w.cacheStatus = .exclusive ∨ w.cacheStatus = .modified)
    then s else releaseWtbk k i s
  s.modCpu k fun c => missqChangeState c q .extrdy

/-- The notice in the writeback queue that conflicts with an external intervention. -/
def wtbkqConflict (e : MissEntry) (c : Cpu) : Option Nat :=
  (List.range cfg.wtbkqIfqSize).find? fun i =>
    (c.wtbkq i).valid && blockMatch (c.wtbkq i).paddr e.paddr && (c.wtbkq i).inst == e.inst

/-- The two checks made for an external intervention before it is carried out. -/
def checkExternal (q : Nat) (loc : Locals) (s : Sys) : Sys × Locals :=
  let s := if ((s.cpus k).missq q).conflictChecked then s
    else s.modCpu k (conflictCheck cfg q)
  if ((s.cpus k).missq q).wtbkqChecked then (s, loc)
  else
    let conflict := wtbkqConflict cfg ((s.cpus k).missq q) (s.cpus k)
    let s' := match conflict with
      | some i => wtbkqAnswer k q i s
      | none => s
    (s'.modCpu k fun c => c.modMissq q fun e => { e with wtbkqChecked := true },
      { loc with exitMissq := loc.exitMissq || conflict.isSome })

/-- The first core, data cache before instruction cache, that an entry still has
to send an intervention to over the network. -/
def interventionTarget (e : MissEntry) (shared : Bool) : Option (Nat × Bool) :=
  ((List.range cfg.totalCpus).flatMap fun i => [(i, false), (i, true)]).find? fun (i, inst) =>
    i != k && e.directory inst i && !e.interventionSent inst i && (!inst || shared)

/-- Record that entry `q` has sent its intervention to one cache. -/
def MissEntry.markSent (e : MissEntry) (inst : Bool) (i : Nat) : MissEntry :=
  { e with interventionSent := setBit e.interventionSent inst i true }

def sendIntervention (q : Nat) (type : Req) (paddr : Nat) (target : Nat × Bool) (s : Sys) : Sys :=
  (nocRequest cfg k s .invn type .untouched q target.1 paddr target.2).modCpu k fun c =>
    c.modMissq q fun e => e.markSent target.2 target.1

/-- `ack_all_received`. -/
def ackAll (e : MissEntry) : Bool :=
  (List.range cfg.totalCpus).all fun i => [false, true].all fun inst =>
    (!e.directory inst i || e.ackReceived inst i) &&
      e.interventionSent inst i == e.ackReceived inst i

/-- The state and directory of the L2 block once every cache has answered. -/
def CacheBlk.afterModify (b : CacheBlk) (e : MissEntry) : CacheBlk :=
  if e.req = .readShd then
    { b with
      directory := setBit e.directory e.inst e.cpuid true
      status := if e.inst then .shared else e.cacheStatus }
  else
    { b with
      directory := fun inst i => !inst && i == e.cpuid
      status := .exclusive }

/-- All caches have answered: update the directory and hand the data on. -/
def modifyDone (q : Nat) (r : BlkRef) (c : Cpu) : Cpu :=
  let e := c.missq q
  let c := { c with l2 := c.l2.modBlk r fun b => b.afterModify e }
  (missqChangeState c q (if e.cpuid = k then .replaceL1 else .extrdy)).modMissq q fun e =>
    { e with memcnt := 4 }

/-- A miss of this home works through the other caches. -/
def modifyHome (room : Bool) (q : Nat) (s : Sys) : Option Sys :=
  let e := (s.cpus k).missq q
  e.l2ChangedBlk.map fun r =>
    let shared := ((s.cpus k).l2.blks r).status == .shared
    let s := match interventionTarget cfg k e shared with
      | some target => if room then sendIntervention cfg k q e.interventionType e.paddr target s else s
      | none => s
    if ackAll cfg ((s.cpus k).missq q) then s.modCpu k (modifyDone k q r) else s

def modifyL1 (room : Bool) (loc : Locals) (s : Sys) : Option (Sys × Locals) :=
  match loc.modifyL1i with
  | none => some (s, loc)
  | some q =>
    let done : Sys × Locals → Sys × Locals := fun (s, loc) =>
      (s.modCpu k fun c => { c with lasti := Function.update c.lasti .modifyL1 q }, loc)
    if ((s.cpus k).missq q).req.isIntervention then some (done (checkExternal cfg k q loc s))
    else (modifyHome cfg k room q s).map fun s => done (s, loc)

/-! ### L2 misses -/

/-- `memq_enter`. -/
def memqEnter (c : Cpu) (read : Bool) (qid : Nat) : Cpu × Bool :=
  if c.memqNum ≥ cfg.memqIfqSize then (c, false)
  else ({ c with memq := ⟨read, qid, 0⟩ :: c.memq, memqNum := c.memqNum + 1 }, true)

/-- Ask the memory for the missing block, once. -/
def memread (q : Nat) (c : Cpu) : Cpu :=
  if (c.missq q).memreadSent then c
  else
    let (c, sent) := memqEnter cfg c true q
    c.modMissq q fun e => { e with memreadSent := sent }

def l2Miss (room : Bool) (loc : Locals) (s : Sys) : Option (Sys × Locals) :=
  match loc.l2Missi with
  | none => some (s, loc)
  | some q =>
    let e := (s.cpus k).missq q
    e.l2ReplaceBlk.map fun r =>
      let status := ((s.cpus k).l2.blks r).status
      let s := match interventionTarget cfg k e (status == Status.shared) with
        | some target =>
          if room && status != Status.invalid then
            sendIntervention cfg k q .interventionExc e.l2ReplacePaddr target s
          else s
        | none => s
      let acked := ackAll cfg ((s.cpus k).missq q)
      let s := s.modCpu k (memread cfg q)
      let s := if acked && ((s.cpus k).missq q).memreadSent then
        s.modCpu k fun c => missqChangeState c q .memref else s
      (s, loc)

def memref (loc : Locals) (s : Sys) : Sys :=
  match loc.memrefi with
  | none => s
  | some q =>
    if ((s.cpus k).missq q).memcnt = 4 then
      s.modCpu k fun c => (missqChangeState c q .refillL2).modMissq q fun e =>
        { e with scacheRefilled := false, memwriteSent := false }
    else s

/-- Write the victim back if it is dirty, then schedule the refill. -/
def refillL2 (loc : Locals) (s : Sys) : Option Sys :=
  match loc.refillL2i with
  | none => some s
  | some q =>
    let e := (s.cpus k).missq q
    e.l2ReplaceBlk.map fun r =>
      if e.memwriteSent || !((s.cpus k).l2.blks r).dirty then
        if e.scacheRefilled then s
        else (s.modCpu k fun c => c.modMissq q fun e => { e with scacheRefilled := true }).queue
          l2WriteDelay (.scacheRefill k q)
      else s.modCpu k fun c =>
        let (c, sent) := memqEnter cfg c false q
        c.modMissq q fun e => { e with memwriteSent := sent }

/-! ### Writeback queue -/

/-- A missq entry that a notice for `paddr` has to be delivered to. -/
def wtbkMatch (e : MissEntry) (paddr : Nat) : Bool :=
  (e.state == .modifyL1 && blockMatch e.paddr paddr) ||
  (e.state == .l2Miss && blockMatch e.l2ReplacePaddr paddr) ||
  (e.state == .readL2 && blockMatch e.paddr paddr)

/-- What the answer of the local instruction cache does to the entry that asked. -/
def MissEntry.instAnswer (e : MissEntry) (w : WtbkEntry) : Option MissEntry :=
  if w.inst = false then none
  else if w.cacheStatus = .shared then
    some { e with ackReceived := setBit e.ackReceived true w.cpuid true }
  else if w.cacheStatus = .invalid then
    some { e with interventionSent := setBit e.interventionSent true w.cpuid false }
  else none

/-- An entry that is modifying caches takes a notice: the copy it knows of is gone. -/
def MissEntry.absorb (e : MissEntry) (w : WtbkEntry) : MissEntry :=
  { e with directory := setBit e.directory w.inst w.cpuid false }

/-- Deliver notice `i` of the writeback queue to the matching entry `q`. -/
def wtbkDeliver (i q : Nat) (s : Sys) : Option Sys :=
  let c := s.cpus k
  let w := c.wtbkq i
  let e := c.missq q
  if e.state = .readL2 then
    if e.readLocalL2 then some s
    else if e.waitForResponse = 1 ∨ e.waitForResponse = 2 then
      let c := if e.cpuid = w.cpuid then c.modMissq q fun e => { e with waitForResponse := 2 } else c
      (scacheWriteback cfg w.cpuid w.req w.paddr w.inst c).map fun c =>
        releaseWtbk k i (s.modCpu k fun _ => c)
    else none
  else if w.intervention then
    (e.instAnswer w).map fun e => releaseWtbk k i (s.modCpu k fun c => c.modMissq q fun _ => e)
  else some (releaseWtbk k i (s.modCpu k fun c => c.modMissq q fun e => e.absorb w))

/-- A notice for this home: deliver it to the entries it matches, else write it
to the L2 cache unless a probe of the same set is under way. -/
def wtbkLocal (i : Nat) (loc : Locals) (s : Sys) : Option (Sys × Locals) :=
  let c := s.cpus k
  let paddr := (c.wtbkq i).paddr
  let matching := (List.range cfg.missqIfqSize).filter fun q => wtbkMatch (c.missq q) paddr
  if matching.isEmpty then
    let blocked := (List.range cfg.missqIfqSize).any fun q =>
      let e := c.missq q
      e.state == .readL2 && e.readLocalL2 && cfg.l2.setOf e.paddr == cfg.l2.setOf paddr
    if blocked || loc.scachePortOccupied then some (s, loc)
    else
      let w := c.wtbkq i
      let s := (releaseWtbk k i s).queue l2WriteDelay
        (.scacheWriteback k w.cpuid w.req w.paddr w.inst)
      some (s, { loc with scachePortOccupied := true })
  else (matching.foldlM (fun s q => wtbkDeliver cfg k i q s) s).map fun s => (s, loc)

/-- The answer of the instruction cache to an external intervention: every entry
in MODIFY_L1 for the block takes it. -/
def wtbkExternal (i : Nat) (s : Sys) : Option Sys :=
  let c := s.cpus k
  let w := c.wtbkq i
  let found := (List.range cfg.missqIfqSize).filter fun q =>
    (c.missq q).state == .modifyL1 && blockMatch (c.missq q).paddr w.paddr
  if found.isEmpty then none
  else
    let s := s.modCpu k fun c => found.foldl (fun c q => missqChangeState (c.modMissq q fun e =>
      { e with
        ack := if w.cacheStatus = .modified then .ackData else .ack
        cacheStatus := w.cacheStatus }) q .extrdy) c
    some (releaseWtbk k i s)

def wtbk (room : Bool) (loc : Locals) (s : Sys) : Option (Sys × Locals) :=
  let c := s.cpus k
  let loc := { loc with wtbkqHasTwoEmpty := decide (c.wtbkqNum < (cfg.wtbkqIfqSize : Int) - 1) }
  -- the scan steps `i` but tests entry `j`: the lowest valid entry is taken
  let dirtyi := (List.range cfg.wtbkqIfqSize).find? fun j => (c.wtbkq j).valid
  let s := s.modCpu k fun c =>
    { c with wtbkqLasti := nextIndex cfg.wtbkqIfqSize c.wtbkqLasti }
  match dirtyi with
  | none => some (s, loc)
  | some i =>
    let w := c.wtbkq i
    if cfg.paddrOwner w.paddr = k then wtbkLocal cfg k i loc s
    else if w.intervention then (wtbkExternal cfg k i s).map fun s => (s, loc)
    else if room then
      some (releaseWtbk k i (nocRequest cfg k s .wtbk w.req .untouched i k w.paddr w.inst), loc)
    else some (s, loc)

/-! ### Responses -/

/-- Free entry `q` and return a credit of the request channels. -/
def freeEntry (q : Nat) (s : Sys) : Sys :=
  (s.modCpu k fun c =>
    { missqChangeState c q .empty with missqNum := c.missqNum - 1 }).queue 0 (.updateCredit k .req)

def extrdy (room : Bool) (loc : Locals) (s : Sys) : Option Sys :=
  match loc.extrdyi with
  | none => some s
  | some q =>
    let e := (s.cpus k).missq q
    if e.req.isIntervention then
      if e.ack = .noReq then none
      else if room then
        some (freeEntry k q
          (nocRequest cfg k s .resp e.ack e.cacheStatus e.qid e.cpuid e.paddr e.inst))
      else some s
    else if room then
      some (freeEntry k q
        (nocRequest cfg k s .resp .ackData e.cacheStatus e.qid e.cpuid e.paddr e.inst))
    else some s

/-! ### Replacement and refill of the level one caches -/

/-- Reserve an entry of the writeback queue. -/
def reserveWtbk (c : Cpu) : Cpu :=
  { c with wtbkqNum := c.wtbkqNum + 1, creditWtbk := c.creditWtbk - 1 }

/-- Send an operation into the data cache pipeline. -/
def toDcache (p : RefillPacket) (c : Cpu) : Cpu := { c with lsqRefill := some p }

/-- One double word of the refill under way. -/
def refillStep (c : Cpu) : Cpu :=
  let q := c.refilli
  let e := c.missq q
  if e.cachecnt < e.memcnt then
    let b := e.cachecnt ^^^ (e.paddr / 8 % 4)
    let cnt := e.cachecnt + 1
    let c := c.modMissq q fun e => { e with cachecnt := cnt }
    let c := if e.inst then
        let c := { c with
          refillStall := true
          irepbuf := { c.irepbuf with bitmap := Function.update c.irepbuf.bitmap b true } }
        if cnt = 4 then
          { c with
            icache := { markValid c.icache .shared with refillBlk := none }
            irepbuf := { c.irepbuf with state := .empty } }
        else c
      else
        toDcache { paddr := e.paddr / 32 * 32 + b * 8, cnt := cnt, req := e.req,
                   cacheStatus := e.cacheStatus } c
    if cnt = 4 then
      missqChangeState { c with refilltag := false, refillDelay := 4 } q .delay1
    else c
  else c

/-- A remembered entry that still is an unissued miss for the block is given up. -/
def killMatch (paddr : Nat) (i : Option Nat) (c : Cpu) : Cpu :=
  match i with
  | some i =>
    if (c.missq i).state = .l1Miss ∧ blockMatch paddr (c.missq i).paddr then
      c.modMissq i fun e => { e with state := .delay1 }
    else c
  | none => c

/-- Carry out external intervention `q` on the data cache. -/
def externalData (q : Nat) (c : Cpu) : Cpu :=
  let e := c.missq q
  let c := killMatch e.paddr e.invnMatchI2 (killMatch e.paddr e.invnMatchI1 c)
  (toDcache { intervention := true, req := e.req, paddr := e.paddr, missqid := q } c).modMissq q
    fun e => { e with modifyL1 := false }

/-- Empty a remembered entry. Unlike its sibling for the data cache this does not
look at what the entry holds by now. -/
def emptyMatch (i : Option Nat) (s : Sys) : Sys :=
  match i with
  | some i =>
    (s.modCpu k fun c =>
      { c.modMissq i fun e => { e with state := .empty } with missqNum := c.missqNum - 1 }).queue 0
        (.updateCredit k .invn)
  | none => s

/-- `replace_block` on the instruction cache on behalf of an intervention. -/
def interveneInst (paddr : Nat) (s : Sys) : Option Sys :=
  let s := s.modCpu k reserveWtbk
  (replaceBlock cfg s k true (some (s.cpus k).irepbuf.way) paddr .noReq true .untouched).map
    fun (s, _) => s.modCpu k fun c => { c with refillStall := true }

/-- Carry out external intervention `q` on the instruction cache. -/
def externalInst (q : Nat) (s : Sys) : Option Sys :=
  let e := (s.cpus k).missq q
  (interveneInst cfg k e.paddr s).map fun s =>
    let s := s.modCpu k fun c => c.modMissq q fun e => { e with modifyL1 := false }
    emptyMatch k e.invnMatchI2 (emptyMatch k e.invnMatchI1 s)

/-- Intervene at the caches of the home itself: instruction cache first. -/
def interveneLocal (q : Nat) (type : Req) (paddr : Nat) (s : Sys) : Option Sys :=
  let c := s.cpus k
  let e := c.missq q
  if e.directory true k && !e.interventionSent true k then
    (interveneInst cfg k paddr s).map fun s =>
      s.modCpu k fun c => c.modMissq q fun e => e.markSent true k
  else if e.directory false k && !e.interventionSent false k && c.refillDelay == 0 then
    some (s.modCpu k fun c =>
      (toDcache { intervention := true, req := type, paddr := paddr, missqid := q } c).modMissq q
        fun e => e.markSent false k)
  else some s

/-- A read that was granted EXCLUSIVE removes the writes queued behind it. -/
def mesiKill (q : Nat) (s : Sys) : Option Sys :=
  let s := s.modCpu k fun c => c.modMissq q fun e => { e with req := .readEx }
  (List.range cfg.missqIfqSize).foldlM (fun s i =>
    let c := s.cpus k
    let e := c.missq q
    let x := c.missq i
    if i ≠ q ∧ x.state ≠ .empty ∧ x.cpuid = e.cpuid ∧ blockMatch x.paddr e.paddr then
      -- otherwise the trap instruction is executed
      if (x.req = .readEx ∨ x.req = .upgrade) ∧ x.state = .l1Miss then
        some ((s.modCpu k fun c =>
          { c.modMissq i fun e => { e with state := .empty } with
            missqNum := c.missqNum - 1 }).queue 0 (.updateCredit k .req))
      else none
    else some s) s

/-- Start the replacement for entry `q`. -/
def replaceL1 (q : Nat) (s : Sys) : Option Sys :=
  let s := s.modCpu k fun c => reserveWtbk { c with refilltag := true, refilli := q }
  let e := (s.cpus k).missq q
  let s? := if e.inst then
      (replaceBlock cfg s k true (some (s.cpus k).irepbuf.way) e.paddr .noReq false
        .untouched).map fun (s, _) => s.modCpu k fun c => { c with refillStall := true }
    else
      let s? := if e.req = .readShd ∧ e.cacheStatus = .exclusive then mesiKill cfg k q s else some s
      s?.map fun s => s.modCpu k
        (toDcache { replace := true, paddr := e.paddr, req := e.req, cacheStatus := e.cacheStatus })
  s?.map fun s => s.modCpu k fun c => missqChangeState c q .refillL1

/-- The one operation of this cycle on the level one caches. -/
def refill (loc : Locals) (s : Sys) : Option Sys :=
  let s := s.modCpu k fun c => { c with refillDelay := c.refillDelay - 1 }
  let c := s.cpus k
  let free := loc.wtbkqHasTwoEmpty && !loc.missqHasDelay1
  let external := loc.modifyL1i.filter fun q =>
    free && (c.missq q).req.isIntervention && (c.missq q).modifyL1
  let home := loc.modifyL1i.filter fun q =>
    free && [false, true].any fun inst =>
      (c.missq q).directory inst k && !(c.missq q).interventionSent inst k
  if c.refilltag then some (s.modCpu k refillStep)
  else match external, home, loc.replaceL1i.filter fun _ => free, loc.l2Missi.filter fun _ => free with
  | some q, _, _, _ =>
    let e := c.missq q
    if c.refillDelay = 0 ∧ e.wtbkqChecked ∧ loc.exitMissq = false then
      if e.inst then externalInst cfg k q s else some (s.modCpu k (externalData q))
    else some s
  | none, some q, _, _ =>
    let e := c.missq q
    (e.l2ChangedBlk).bind fun r =>
      if (c.l2.blks r).status ≠ .invalid then interveneLocal cfg k q e.interventionType e.paddr s
      else some s
  | none, none, some q, _ => replaceL1 cfg k q s
  | none, none, none, some q =>
    let e := c.missq q
    (e.l2ReplaceBlk).bind fun r =>
      if (c.l2.blks r).status ≠ .invalid then
        interveneLocal cfg k q e.interventionType e.l2ReplacePaddr s
      else some s
  | none, none, none, none => some s

/-- Entries that are done stay for three cycles. -/
def delay (s : Sys) : Sys :=
  (List.range cfg.missqIfqSize).foldl (fun s q =>
    match ((s.cpus k).missq q).state with
    | .delay3 =>
      (s.modCpu k fun c =>
        { c.modMissq q fun e => { e with state := .empty } with missqNum := c.missqNum - 1 }).queue 0
          (.updateCredit k .req)
    | .delay2 => s.modCpu k fun c => c.modMissq q fun e => { e with state := .delay3 }
    | .delay1 => s.modCpu k fun c => c.modMissq q fun e => { e with state := .delay2 }
    | _ => s) s

/-! ### Memory -/

/-- One item of `check_memq`: its count advances, a read delivers the next
quarter of the block when it is due, and a finished item is not put back. -/
def checkMemqItem (c : Cpu) (m : MemqEntry) : Cpu :=
  let m := { m with count := m.count + 1 }
  let keep : Cpu → Cpu := fun c => { c with memq := m :: c.memq }
  let drop : Cpu → Cpu := fun c => { c with memqNum := c.memqNum - 1 }
  if m.read then
    if m.count ≥ cfg.memReadFirstDelay + (c.missq m.qid).memcnt * cfg.memReadIntervalDelay then
      let c := c.modMissq m.qid fun e => { e with memcnt := e.memcnt + 1 }
      if (c.missq m.qid).memcnt = 4 then drop c else keep c
    else keep c
  else if m.count = cfg.memWriteDelay then drop c
  else keep c

/-- `check_memq`. -/
def checkMemq (c : Cpu) : Cpu :=
  if c.memqNum = 0 then c else c.memq.foldl (checkMemqItem cfg) { c with memq := [] }

end Godson

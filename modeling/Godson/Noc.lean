import Godson.Missq

/-! What a packet does at the node it is delivered to (`noc.c`). The network
itself delivers each packet once, at its destination, in any order. -/
namespace Godson

variable (cfg : Config) (k : Nat)

/-! ### Answers to interventions -/

/-- Record an accepted answer. -/
def MissEntry.markAcked (e : MissEntry) (inst : Bool) (i : Nat) : MissEntry :=
  { e with ackReceived := setBit e.ackReceived inst i true }

/-- A refused answer: the intervention has to be sent again. -/
def MissEntry.unsend (e : MissEntry) (inst : Bool) (i : Nat) : MissEntry :=
  { e with interventionSent := setBit e.interventionSent inst i false }

def Status.isExclusive : Status → Bool
  | .exclusive | .modified => true
  | _ => false

/-- An entry in MODIFY_L1 accepts the answer: the cache held the block as the
L2 status says. -/
def acceptsModify (type : Req) (l2 l1 : Status) : Bool :=
  match type with
  | .interventionShd => l1.isExclusive
  | .interventionExc => l2 == l1 || (l2 == .exclusive && l1 == .modified)
  | _ => l2 == l1

/-- The assertion made about a refused answer. -/
def refusesModify (type : Req) (l2 l1 : Status) : Bool :=
  match type with
  | .interventionShd => l2 != .invalid && l2 != .shared
  | .interventionExc => l2 != .invalid && !(l2 == .shared && l1.isExclusive)
  | _ => l2 != .invalid && l2 != .exclusive && !(l2 == .shared && l1.isExclusive)

/-- The dirty bit of an L2 block after an answer. -/
def CacheBlk.takeDirty (b : CacheBlk) (l1 : Status) : CacheBlk :=
  { b with dirty := b.dirty || l1 == .modified }

/-- An answer of core `cpuid` reaches entry `q` in MODIFY_L1. An answer to
INTERVENTION_SHD always counts for the data cache. -/
def answerModify (inst : Bool) (cpuid : Nat) (l1 : Status) (q : Nat) (c : Cpu) : Option Cpu :=
  let e := c.missq q
  e.l2ChangedBlk.bind fun r =>
    let type := e.interventionType
    let l2 := (c.l2.blks r).status
    let inst := inst && type != .interventionShd
    if !type.isIntervention then some c
    else if acceptsModify type l2 l1 then
      let c := c.modMissq q fun e => e.markAcked inst cpuid
      if type = .invalidate then some c
      else some { c with l2 := c.l2.modBlk r fun b => b.takeDirty l1 }
    else if refusesModify type l2 l1 then some (c.modMissq q fun e => e.unsend inst cpuid)
    else none

/-- An answer of core `cpuid` reaches entry `q` in L2_MISS. -/
def answerMiss (inst : Bool) (cpuid : Nat) (l1 : Status) (q : Nat) (c : Cpu) : Option Cpu :=
  (c.missq q).l2ReplaceBlk.bind fun r =>
    let l2 := (c.l2.blks r).status
    if l2 = .invalid ∨ (l2 = .shared ∧ l1.isExclusive) then none
    else
      let c := c.modMissq q fun e =>
        if l2 = l1 ∨ (l2 = .exclusive ∧ l1.isExclusive) then e.markAcked inst cpuid
        else e.unsend inst cpuid
      some { c with l2 := c.l2.modBlk r fun b => b.takeDirty l1 }

/-! ### Delivery -/

/-- `find_missq_empty_entry`. -/
def findMissqEmptyEntry (c : Cpu) : Option Nat := current cfg c .empty

/-- `find_missq_two_empty_entry`. -/
def findMissqTwoEmptyEntry (c : Cpu) : Option Nat :=
  if c.missqNum < (cfg.missqIfqSize : Int) - 1 then current cfg c .empty else none

/-- A remote miss enters the miss queue of the home. -/
def enterRequest (p : Packet) (c : Cpu) : Option Cpu :=
  (findMissqTwoEmptyEntry cfg c).map fun q =>
    let c := (missqChangeState c q .l1Miss).modMissq q fun e =>
      { e with
        req := p.req, ack := .noReq, qid := p.qid, cpuid := p.cpuid, paddr := p.paddr
        inst := p.inst
        memcnt := 0, cachecnt := 0
        waitForReissue := false, waitForResponse := 0, memreadSent := false }
    { c with missqNum := c.missqNum + 1 }

/-- An intervention enters the miss queue of the core it is sent to. -/
def enterIntervention (p : Packet) (c : Cpu) : Option Cpu :=
  (findMissqEmptyEntry cfg c).map fun q =>
    let c := (missqChangeState c q .modifyL1).modMissq q fun e =>
      { e with
        modifyL1 := true
        req := p.req, ack := .noReq, qid := p.qid, cpuid := p.cpuid, paddr := p.paddr
        inst := p.inst
        wtbkqChecked := false, conflictChecked := false
        waitForReissue := false, waitForResponse := 0, memreadSent := false }
    { c with missqNum := c.missqNum + 1 }

/-- A notice enters the writeback queue of the home. -/
def enterNotice (p : Packet) (c : Cpu) : Option Cpu :=
  wtbkqEnter cfg (reserveWtbk c) p.cpuid p.req p.paddr p.inst
    (if p.req = .writeback then .invalid else .untouched) false

/-- A response enters: the answer to an intervention, or the data of a miss. -/
def enterResponse (p : Packet) (c : Cpu) : Option Cpu :=
  let e := c.missq p.qid
  if e.state = .modifyL1 ∧ blockMatch e.paddr p.paddr then
    answerModify p.inst p.cpuid p.cacheStatus p.qid c
  else if e.state = .readL2 ∧ blockMatch e.paddr p.paddr then
    some (missqChangeState (c.modMissq p.qid fun e =>
      { e with memcnt := 4, cacheStatus := p.cacheStatus }) p.qid .replaceL1)
  else if e.state = .l2Miss ∧ blockMatch e.l2ReplacePaddr p.paddr then
    answerMiss p.inst p.cpuid p.cacheStatus p.qid c
  else some c

/-- `home_enter`. -/
def homeEnter (p : Packet) (c : Cpu) : Option Cpu :=
  match p.req with
  | .readShd | .readEx | .upgrade => enterRequest cfg p c
  | .writeback | .eliminate => enterNotice cfg p c
  | .interventionShd | .interventionExc | .invalidate => enterIntervention cfg p c
  | .ack | .ackData => enterResponse p c
  | .noReq | .nack => some c

/-- `update_credit` of the home port. -/
def updateCredit (chan : Chan) (c : Cpu) : Cpu :=
  match chan with
  | .req | .invn => { c with creditReq := c.creditReq + 1, creditInvn := c.creditInvn + 1 }
  | .wtbk => { c with creditWtbk := c.creditWtbk + 1 }
  | .resp => c

end Godson

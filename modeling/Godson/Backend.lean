import Godson.EventQueue
import Godson.Operands
import Godson.Types

/-! The out-of-order part of a core: descriptors and their free list, register renaming
with one create vector a speculation level, the reorder, branch and load/store queues,
the ready queues of the function units and the event queue, stage by stage. What the
instructions compute is left to the environment: it answers which word is fetched, whether
a prediction was wrong, and how an operation passes the data cache. -/
namespace Godson

open Mips

/-- The options the pipeline reads, with their defaults. `sim_check_options` demands of the
fetch queue that its size is a power of two; the mask in `decode_stage` presupposes it of the
decode queue too. -/
structure BackendConfig where
  fetchIfqSize : Nat := 4
  fetchWidth : Nat := 4
  fetchSpeed : Nat := 1
  decodeWidth : Nat := 4
  decodeSpeed : Nat := 1
  decodeIfqSize : Nat := 4
  mapWidth : Nat := 4
  roqIfqSize : Nat := 64
  brqIfqSize : Nat := 8
  lsqIfqSize : Nat := 32
  intIssueIfqSize : Nat := 16
  fpIssueIfqSize : Nat := 16
  intRenameRegSize : Nat := 29
  fpRenameRegSize : Nat := 32
  commitWidth : Nat := 4
  simHasBypass : Bool := false
  fetch_size : 1 ≤ fetchIfqSize ∧ fetchIfqSize &&& (fetchIfqSize - 1) = 0 := by decide
  decode_size : 1 ≤ decodeIfqSize ∧ decodeIfqSize &&& (decodeIfqSize - 1) = 0 := by decide

/-- `FETCH_FREE_LIST_SIZE` -/
def fetchFreeListSize : Nat := 80

/-- `MAX_RS_LINKS` -/
def maxRsLinks : Nat := 4096

/-- An `RS_link` in use. Its `x` (a time, a sequence number or an operand number) stands
beside it in the lists; `made` is the sequence number of the instruction it was made for,
which the program does not keep. It keeps `tag` modulo `2 ^ 32`. -/
structure RsLink where
  id : Nat
  rs : Nat
  tag : Nat
  made : Nat
  deriving DecidableEq

/-- `inst_descript`. `seq` and `tag` do not wrap: the program keeps `inst_seq`, and `tag` modulo
`2 ^ 32`. -/
structure Descript where
  ir : Word := 0
  op : Op := .na
  trap : Bool := false
  seq : Nat := 0
  bd : Bool := false
  misPredict : Bool := false
  specLevel : Nat := 0
  divDelay : Nat := 0
  roqid : Nat := 0
  lsqid : Nat := 0
  brqid : Nat := 0
  usedIntRenameReg : Nat := 0
  usedFpRenameReg : Nat := 0
  fu : Fu := ⟨0, .na⟩
  mapped : Bool := false
  queued : Bool := false
  issued : Bool := false
  completed : Bool := false
  brcompleted : Bool := false
  tag : Nat := 0
  inIntq : Bool := false
  ins : Nat → Nat := fun _ => 0
  onames : Nat → Nat := fun _ => 0
  odepList : Nat → List (Nat × RsLink) := fun _ => []
  idepReady : Nat → Bool := fun _ => false

namespace Descript

def ctrl (d : Descript) : Bool := d.op.has .ctrl
def likely (d : Descript) : Bool := d.op.has .ctrlLikely
def mem (d : Descript) : Bool := d.op.has .mem

/-- `inst_seq` -/
@[simp] def instSeq (d : Descript) : Nat := d.seq % 2 ^ 32

/-- `OPERANDS_READY` -/
def operandsReady (d : Descript) : Bool := d.idepReady 0 && d.idepReady 1 && d.idepReady 2

end Descript

/-- An entry of the load/store queue, as far as the pipeline looks at it. -/
structure LsqItem where
  rs : Nat := 0
  state : LsqState := .empty
  op : Op := .na
  ex : Bool := false

/-- The state of the pipeline. Descriptors and links are named by numbers; the fetch and
decode queues and the linked lists give their elements from the head on. `entered` records
each entry into a ready queue with `OPERANDS_READY` at that moment, and `retired` the
committed instructions; the program keeps neither. -/
structure Backend where
  simCycle : Nat := 0
  instSeq : Nat := 0
  fresh : Nat := 0
  desc : Nat → Descript := fun _ => {}
  freeList : List Nat := []
  fetchData : List Nat := []
  decodeData : List Nat := []
  roq : Nat → Option Nat := fun _ => none
  roqHead : Nat := 0
  roqTail : Nat := 0
  roqNum : Int := 0
  brq : Nat → Option Nat := fun _ => none
  brqHead : Nat := 0
  brqTail : Nat := 0
  brqNum : Int := 0
  lsq : Nat → LsqItem := fun _ => {}
  lsqHead1 : Nat := 0
  lsqHead : Nat := 0
  lsqTail : Nat := 0
  lsqNum : Int := 0
  lsqIssuei : Option Nat := none
  lsqDcachei : Option Nat := none
  lsqDtagcmpi : Option Nat := none
  lsqWtbki : Option Nat := none
  intRenameRegNum : Int := 0
  fpRenameRegNum : Int := 0
  intIssueNum : Int := 0
  fpIssueNum : Int := 0
  rslinkFreeList : List Nat := (List.range maxRsLinks).reverse
  readyQueue : Nat → List (Nat × RsLink) := fun _ => []
  nextIssueItem : Nat → Option RsLink := fun _ => none
  eventQueue : List (Nat × RsLink) := []
  createVector : Nat → Nat → Option (Nat × Nat) := fun _ _ => none
  specLevel : Nat := 0
  lastIsBranch : Bool := false
  enteringSpec : Bool := false
  needToCorrectPc : Bool := false
  unitBusy : Nat → Nat := fun _ => 0
  fuBusy : Fu → Bool := fun _ => false
  allocStamp : Nat → Nat := fun _ => 0
  nextStamp : Nat := 0
  entered : List (Nat × Bool) := []
  retired : List Nat := []

namespace Backend

variable (cfg : BackendConfig)

/-- Change one descriptor. -/
def modDesc (s : Backend) (d : Nat) (f : Descript → Descript) : Backend :=
  { s with desc := Function.update s.desc d (f (s.desc d)) }

def modLsq (s : Backend) (i : Nat) (f : LsqItem → LsqItem) : Backend :=
  { s with lsq := Function.update s.lsq i (f (s.lsq i)) }

section Links

/-- `RSLINK_VALID`, on tags that do not wrap. -/
def rslinkValid (s : Backend) (l : RsLink) : Bool := l.tag == (s.desc l.rs).tag

/-- `RSLINK_VALID` on tags of 32 bits, as the program keeps them. -/
def rslinkValid32 (s : Backend) (l : RsLink) : Bool :=
  BitVec.ofNat 32 l.tag == BitVec.ofNat 32 (s.desc l.rs).tag

/-- `RSLINK_NEW`; the program stops when the pool is empty. -/
def rslinkNew (rs : Nat) (s : Backend) : Option (RsLink × Backend) :=
  match s.rslinkFreeList with
  | [] => none
  | id :: rest =>
    some (⟨id, rs, (s.desc rs).tag, (s.desc rs).seq⟩, { s with rslinkFreeList := rest })

/-- `RSLINK_FREE` -/
def rslinkFree (l : RsLink) (s : Backend) : Backend :=
  { s with rslinkFreeList := l.id :: s.rslinkFreeList }

/-- `RSLINK_FREE_LIST` -/
def rslinkFreeAll (ls : List (Nat × RsLink)) (s : Backend) : Backend :=
  ls.foldl (fun s x => s.rslinkFree x.2) s

end Links

section FreeList

/-- `fetch_get_from_free_list` -/
def getFromFreeList (s : Backend) : Nat × Backend :=
  match s.freeList with
  | d :: rest => (d, { s with freeList := rest })
  | [] =>
    let top := s.fresh + fetchFreeListSize - 1
    (top, { s with fresh := s.fresh + fetchFreeListSize
                   freeList := ((List.range (fetchFreeListSize - 1)).map (s.fresh + ·)).reverse })

/-- `fetch_return_to_free_list`. The descriptor is linked behind the tail; when the list
has run empty the tail is a descriptor in use, and the head does not lead there. -/
def returnToFreeList (d : Nat) (s : Backend) : Backend :=
  { s with freeList := if s.freeList = [] then [] else s.freeList ++ [d] }

end FreeList

section Issue

/-- `readyq_enqueue` -/
def readyqEnqueue (rs : Nat) (s : Backend) : Option Backend :=
  (s.rslinkNew rs).map fun (l, s) =>
    let d := s.desc rs
    { s.modDesc rs fun d => { d with queued := true } with
      readyQueue := Function.update s.readyQueue d.fu.unit
        (EventQueue.insert false d.instSeq l (s.readyQueue d.fu.unit))
      entered := s.entered ++ [(d.seq, d.operandsReady)] }

/-- `eventq_queue_event` -/
def eventqQueueEvent (rs time : Nat) (s : Backend) : Option Backend :=
  if (s.desc rs).completed || time ≤ s.simCycle then none
  else (s.rslinkNew rs).map fun (l, s) =>
    { s with eventQueue := EventQueue.insert false time l s.eventQueue }

/-- One more or one less in the issue queue of an instruction. -/
def countIssue (inIntq : Bool) (n : Int) (s : Backend) : Backend :=
  if inIntq then { s with intIssueNum := s.intIssueNum + n }
  else { s with fpIssueNum := s.fpIssueNum + n }

/-- `issue_enqueue` -/
def issueEnqueue (rs : Nat) (s : Backend) : Option Backend :=
  let s := s.modDesc rs fun d => { d with queued := true }
  let s := s.countIssue (s.desc rs).inIntq 1
  if (s.desc rs).operandsReady then s.readyqEnqueue rs else some s

/-- `next_valid_node` from the head of a ready queue. -/
def nextValidNode (fu : Nat) (s : Backend) : Backend :=
  let dead := (s.readyQueue fu).takeWhile fun x => !s.rslinkValid x.2
  let q := (s.readyQueue fu).dropWhile fun x => !s.rslinkValid x.2
  { s.rslinkFreeAll dead with readyQueue := Function.update s.readyQueue fu q }

/-- `delete_node` -/
def deleteNode (l : RsLink) (fu : Nat) (s : Backend) : Option Backend :=
  if (s.readyQueue fu).any fun x => x.2.id == l.id then
    some ({ s with
      readyQueue := Function.update s.readyQueue fu
        ((s.readyQueue fu).eraseP fun x => x.2.id == l.id) }.rslinkFree l)
  else none

/-- `lsq_issue` -/
def lsqIssue (rs : Nat) (s : Backend) : Option Backend :=
  let i := (s.desc rs).lsqid
  if (s.lsq i).rs = rs ∧ (s.lsq i).state = .enter ∧ s.lsqIssuei = none then
    some { s.modLsq i fun l => { l with state := .issue } with lsqIssuei := some i }
  else none

/-- An instruction goes to its function unit. The divider is busy until it is done, the
other units take one instruction a cycle. -/
def issueInst (l : RsLink) (s : Backend) : Option Backend :=
  let rs := l.rs
  let fu := (s.desc rs).fu
  let s := s.modDesc rs fun d => { d with issued := true, queued := false }
  let s : Backend := { s with
    fuBusy := if fu.cls = .intDIV then Function.update s.fuBusy fu true else s.fuBusy
    unitBusy := Function.update s.unitBusy fu.unit 1 }
  let oplat := if fu.cls = .intDIV then (s.desc rs).divDelay + 1 else fu.cls.oplat
  (if (s.desc rs).mem then s.lsqIssue rs else s.eventqQueueEvent rs (s.simCycle + oplat)).bind
    fun s => (s.countIssue (s.desc rs).inIntq (-1)).deleteNode l fu.unit

/-- The instruction a unit has chosen, unless it was cancelled. -/
def chosen (fu : Nat) (s : Backend) : Option RsLink :=
  if cfg.simHasBypass then (s.readyQueue fu).head?.map Prod.snd
  else (s.nextIssueItem fu).filter s.rslinkValid

/-- The panics of `issue_stage`. -/
def issuable (d : Descript) : Bool := d.operandsReady && d.queued && !d.issued && !d.completed

/-- One unit in `issue_stage`. -/
def issueUnit (fu : Nat) (s : Backend) : Option Backend :=
  let s := if cfg.simHasBypass then s.nextValidNode fu else s
  let s? := match s.chosen cfg fu with
    | none => some s
    | some l =>
      let d := s.desc l.rs
      if !issuable d then none
      else if s.unitBusy d.fu.unit ≠ 0 ∨ s.fuBusy d.fu then some s
      else if d.fu.unit ≠ fu then none
      else s.issueInst l
  s?.map fun s =>
    if cfg.simHasBypass then s
    else
      let s := s.nextValidNode fu
      { s with nextIssueItem :=
          Function.update s.nextIssueItem fu ((s.readyQueue fu).head?.map Prod.snd) }

/-- `issue_stage` -/
def issueStage (s : Backend) : Option Backend :=
  (List.range numFu).foldlM (fun s fu => s.issueUnit cfg fu) s

end Issue

section Map

/-- `lsq_enqueue` -/
def lsqEnqueue (rs : Nat) (s : Backend) : Backend :=
  let s := s.modDesc rs fun d => { d with lsqid := s.lsqTail }
  { s.modLsq s.lsqTail fun _ => { rs, state := .enter, op := (s.desc rs).op } with
    lsqNum := s.lsqNum + 1
    lsqTail := (s.lsqTail + 1) % cfg.lsqIfqSize }

/-- `res_alloc`: of the units of a class the one that was allocated longest ago. -/
def resAlloc (cls : FuClass) (s : Backend) : Fu × Backend :=
  let unit := match cls.units with
    | [] => 0
    | u :: us => us.foldl (fun u v => if s.allocStamp v < s.allocStamp u then v else u) u
  (⟨unit, cls⟩, { s with allocStamp := Function.update s.allocStamp unit s.nextStamp
                         nextStamp := (s.nextStamp + 1) % 2 ^ 32 })

/-- The integer rename registers that the outputs of an instruction take. -/
def intRegs (d : Descript) : Nat :=
  (if d.onames 0 ≠ 0 ∧ (d.onames 0 < 32 ∨ d.onames 0 = dhi) then 1 else 0) +
    (if d.onames 1 ≠ 0 ∧ (d.onames 1 < 32 ∨ d.onames 1 = dlo) then 1 else 0)

/-- The floating-point rename registers that the outputs take. -/
def fpRegs (d : Descript) : Nat :=
  (if d.onames 0 ≠ 0 ∧ ¬(d.onames 0 < 32 ∨ d.onames 0 = dhi) then 1 else 0) +
    (if d.onames 1 ≠ 0 ∧ ¬(d.onames 1 < 32 ∨ d.onames 1 = dlo) then 1 else 0)

/-- Rename registers and a place in the reorder queue. -/
def enterRoq (rs : Nat) (s : Backend) : Backend :=
  let d := s.desc rs
  let s := s.modDesc rs fun d =>
    { d with usedIntRenameReg := intRegs d, usedFpRenameReg := fpRegs d, roqid := s.roqTail }
  { s with
    intRenameRegNum := s.intRenameRegNum + intRegs d
    fpRenameRegNum := s.fpRenameRegNum + fpRegs d
    roq := Function.update s.roq s.roqTail (some rs)
    roqTail := (s.roqTail + 1) % cfg.roqIfqSize
    roqNum := s.roqNum + 1 }

/-- A branch enters the branch queue. -/
def enterBrq (rs : Nat) (s : Backend) : Backend :=
  let s := s.modDesc rs fun d => { d with brqid := s.brqTail }
  if (s.desc rs).ctrl then
    { s with
      brq := Function.update s.brq s.brqTail (some rs)
      brqTail := (s.brqTail + 1) % cfg.brqIfqSize
      brqNum := s.brqNum + 1 }
  else s

/-- The function unit of an instruction. -/
def allocFu (rs : Nat) (s : Backend) : Backend :=
  let d := s.desc rs
  let cls := if !d.trap && d.op.fuClass != .na then d.op.fuClass else .intALU
  let (fu, s) := s.resAlloc cls
  s.modDesc rs fun d => { d with fu, inIntq := d.op.isIntq }

/-- A memory operation enters the load/store queue. -/
def enterLsq (rs : Nat) (s : Backend) : Backend :=
  if (s.desc rs).mem then s.lsqEnqueue cfg rs
  else s.modDesc rs fun d => { d with lsqid := s.lsqTail }

/-- One round of the loop of `map_stage`. A trap is not enqueued. -/
def mapInst (s : Backend) : Option Backend :=
  match s.decodeData with
  | [] => some s
  | rs :: rest =>
    let s := ((s.enterRoq cfg rs).enterBrq cfg rs).allocFu rs
    (if (s.desc rs).trap then some s
      else (s.issueEnqueue rs).map fun s => s.enterLsq cfg rs).map fun s =>
      { s.modDesc rs fun d => { d with mapped := true } with decodeData := rest }

/-- `n` rounds of the loop. -/
def mapLoop : Nat → Backend → Option Backend
  | 0, s => some s
  | n + 1, s => (s.mapInst cfg).bind (mapLoop n)

/-- The check of `map_stage` for resources. -/
def mapFull (s : Backend) : Bool :=
  decide (s.roqNum + cfg.mapWidth > cfg.roqIfqSize) ||
  decide (s.brqNum ≥ (cfg.brqIfqSize : Int) - 1) ||
  decide (s.lsqNum + cfg.mapWidth > cfg.lsqIfqSize) ||
  decide (s.intIssueNum + cfg.mapWidth > cfg.intIssueIfqSize) ||
  decide (s.fpIssueNum + cfg.mapWidth > cfg.fpIssueIfqSize) ||
  decide (s.intRenameRegNum + cfg.mapWidth > cfg.intRenameRegSize) ||
  decide (s.fpRenameRegNum + cfg.mapWidth > cfg.fpRenameRegSize)

/-- `map_stage` -/
def mapStage (s : Backend) : Option Backend :=
  if s.mapFull cfg then some s else s.mapLoop cfg (min cfg.mapWidth s.decodeData.length)

end Map

section Squash

/-- What happens to an instruction in a queue that is squashed: its consumers are
forgotten and its tag changes. -/
def squash (rs : Nat) (s : Backend) : Backend :=
  let d := s.desc rs
  (rslinkFreeAll (d.odepList 1) (s.rslinkFreeAll (d.odepList 0))).modDesc rs fun d =>
    { d with odepList := fun _ => [], tag := d.tag + 1 }

/-- `lsq_cancel_one` -/
def lsqCancelOne (i : Nat) (s : Backend) : Option Backend :=
  let s? := match (s.lsq i).state with
    | .empty => none
    | .issue => some { s with lsqIssuei := none }
    | .dcache => some { s with lsqDcachei := none }
    | .dtagcmp => some { s with lsqDtagcmpi := none }
    | _ => some s
  s?.map fun s =>
    { s.modLsq i fun l => { l with state := .empty } with lsqNum := s.lsqNum - 1, lsqTail := i }

/-- A squashed branch leaves the branch queue. -/
def leaveBrq (d : Descript) (s : Backend) : Backend :=
  if d.ctrl then
    { s with
      brq := Function.update s.brq d.brqid none
      brqTail := (s.brqTail + cfg.brqIfqSize - 1) % cfg.brqIfqSize
      brqNum := s.brqNum - 1 }
  else s

/-- Rename registers are given back. -/
def freeRegs (d : Descript) (s : Backend) : Backend :=
  { s with intRenameRegNum := s.intRenameRegNum - d.usedIntRenameReg
           fpRenameRegNum := s.fpRenameRegNum - d.usedFpRenameReg }

/-- One round of the loops of `brerr_recover` and `pipeline_flush`: the youngest
instruction of the reorder queue is squashed. The tail follows each round. -/
def squashLast (s : Backend) : Option Backend :=
  let i := (s.roqTail + cfg.roqIfqSize - 1) % cfg.roqIfqSize
  (s.roq i).bind fun rs =>
    let d := s.desc rs
    let s := s.squash rs
    let s := leaveBrq cfg d { s with fuBusy := Function.update s.fuBusy d.fu false }
    (if d.mem then s.lsqCancelOne d.lsqid else some s).map fun s =>
      let s := s.freeRegs d
      let s := if d.queued then s.countIssue d.inIntq (-1) else s
      { s.returnToFreeList rs with
        roq := Function.update s.roq i none
        roqTail := i
        roqNum := s.roqNum - 1 }

/-- The loop of `brerr_recover`, down to the entry `roqid`. -/
def squashTo (roqid : Nat) : Nat → Backend → Option Backend
  | 0, _ => none
  | n + 1, s =>
    let i := (s.roqTail + cfg.roqIfqSize - 1) % cfg.roqIfqSize
    if i = roqid then some s
    else if s.roqNum = 0 ∨ i = s.roqHead then none
    else (s.squashLast cfg).bind (squashTo roqid n)

/-- The loop of `pipeline_flush`. -/
def squashAll : Nat → Backend → Option Backend
  | 0, s => some s
  | n + 1, s => (s.squashLast cfg).bind (squashAll n)

/-- A fetched instruction is dropped by `tracer_recover`. -/
def dropFetched (s : Backend) (rs : Nat) : Backend :=
  (s.returnToFreeList rs).modDesc rs fun d => { d with tag := d.tag + 1 }

/-- A decoded instruction is squashed by `tracer_recover`. -/
def squashDecoded (s : Backend) (rs : Nat) : Backend := (s.squash rs).returnToFreeList rs

/-- `tracer_recover`. The decode queue is squashed from its tail on. -/
def tracerRecover (level : Nat) (s : Backend) : Backend :=
  let s := s.fetchData.foldl dropFetched { s with specLevel := level }
  let s := s.decodeData.reverse.foldl squashDecoded s
  { s with fetchData := [], decodeData := []
           needToCorrectPc := false, enteringSpec := false, lastIsBranch := false }

/-- `clear_create_vector` -/
def clearCreateVector (s : Backend) : Backend :=
  { s with createVector := Function.update s.createVector 0 fun _ => none }

/-- `pipeline_flush` -/
def pipelineFlush (s : Backend) : Option Backend :=
  let s := s.tracerRecover 0
  (s.squashAll cfg s.roqNum.toNat).map fun s =>
    { s with roqHead := 0, roqTail := 0 }.clearCreateVector

/-- `brerr_recover`. The delay slot of the branch stays, unless it is annulled. -/
def brerrRecover (rs : Nat) (s : Backend) : Option Backend :=
  let d := s.desc rs
  let roqid := if !d.trap && !d.likely then (d.roqid + 1) % cfg.roqIfqSize else d.roqid
  (s.squashTo cfg roqid (s.roqNum.toNat + 1)).map (tracerRecover d.specLevel)

end Squash

section Commit

/-- The oldest instruction leaves the queues. -/
def retire (rs : Nat) (s : Backend) : Option Backend :=
  let d := s.desc rs
  let s := if d.mem then s.modLsq d.lsqid fun l => { l with state := .commit } else s
  if d.ctrl ∧ s.brqHead ≠ d.brqid then none
  else
    let s := if d.ctrl then
      { s with brq := Function.update s.brq s.brqHead none
               brqHead := (s.brqHead + 1) % cfg.brqIfqSize
               brqNum := s.brqNum - 1 }
      else s
    let s := s.freeRegs d
    let s := { s with roq := Function.update s.roq s.roqHead none
                      roqHead := (s.roqHead + 1) % cfg.roqIfqSize
                      roqNum := s.roqNum - 1
                      retired := s.retired ++ [d.seq] }
    if d.odepList 0 ≠ [] ∨ d.odepList 1 ≠ [] then none
    else some (if d.mem then s else s.returnToFreeList rs)

/-- One round of the loop of `commit_stage`; the flag tells whether it goes on. -/
def commitInst (s : Backend) : Option (Backend × Bool) :=
  (s.roq s.roqHead).bind fun rs =>
    let d := s.desc rs
    if d.trap then none
    else if !d.completed then some (s, false)
    else
      let s := s.modDesc rs fun d => { d with tag := d.tag + 1 }
      if d.mem && (s.lsq d.lsqid).ex then (s.pipelineFlush cfg).map (·, false)
      else (s.retire cfg rs).map (·, d.ir != 0x7000003f)

/-- At most `n` rounds of the loop. -/
def commitLoop : Nat → Backend → Option Backend
  | 0, s => some s
  | n + 1, s =>
    if s.roqNum > 0 then
      (s.commitInst cfg).bind fun (s, more) => if more then commitLoop n s else some s
    else some s

/-- `commit_stage` -/
def commitStage (s : Backend) : Option Backend := s.commitLoop cfg cfg.commitWidth

end Commit

section Writeback

/-- The levels above `level`, as many as `n`, lose the entry of an output, up to the first
that has another. -/
def clearLevels (rs out name : Nat) : Nat → Nat → Backend → Backend
  | 0, _, s => s
  | n + 1, level, s =>
    if s.createVector level name = some (rs, out) then
      clearLevels rs out name n (level + 1)
        { s with createVector := Function.update s.createVector level
                                  (Function.update (s.createVector level) name none) }
    else s

/-- The part of `update_create_vector` for one output. -/
def updateOutput (rs : Nat) (s : Backend) (out : Nat) : Backend :=
  let d := s.desc rs
  if d.onames out = 0 then s
  else s.clearLevels rs out (d.onames out) (s.specLevel - d.specLevel + 1) d.specLevel

/-- `update_create_vector` -/
def updateCreateVector (rs : Nat) (s : Backend) : Backend :=
  [0, 1].foldl (updateOutput rs) s

/-- A link of the output chain of a completing instruction is followed and freed. -/
def wakeOne (s : Backend) (x : Nat × RsLink) : Option Backend :=
  let rs := x.2.rs
  (if s.rslinkValid x.2 then
    if (s.desc rs).idepReady x.1 then none
    else
      let s := s.modDesc rs fun d => { d with idepReady := Function.update d.idepReady x.1 true }
      if (s.desc rs).operandsReady && (s.desc rs).mapped then s.readyqEnqueue rs else some s
  else some s).map (rslinkFree x.2)

/-- The consumers of one output are woken up. -/
def broadcast (rs : Nat) (s : Backend) (out : Nat) : Option Backend :=
  if (s.desc rs).onames out = 0 then some s
  else
    let s := s.updateCreateVector rs
    (((s.desc rs).odepList out).foldlM wakeOne s).map fun s =>
      s.modDesc rs fun d => { d with odepList := Function.update d.odepList out [] }

/-- An instruction has left its function unit. -/
def finish (rs : Nat) (s : Backend) : Option Backend :=
  let d := s.desc rs
  let s := { s with fuBusy := Function.update s.fuBusy d.fu false }
  if !d.operandsReady || d.queued || !d.issued || d.completed then none
  else
    let s := s.modDesc rs fun d =>
      if d.ctrl then { d with brcompleted := true } else { d with completed := true }
    let s := if d.mem then s.modLsq d.lsqid fun l => { l with state := .writeback } else s
    [0, 1].foldlM (broadcast rs) s

/-- At most `n` rounds of the loop of `writeback_stage`. -/
def writebackLoop : Nat → Backend → Option Backend
  | 0, s => some s
  | n + 1, s =>
    match s.eventQueue with
    | [] => some s
    | (time, l) :: rest =>
      if time ≤ s.simCycle then
        let valid := s.rslinkValid l
        let s := { s with eventQueue := rest }.rslinkFree l
        (if valid then s.finish l.rs else some s).bind (writebackLoop n)
      else some s

/-- `writeback_stage` -/
def writebackStage (s : Backend) : Option Backend := s.writebackLoop s.eventQueue.length

/-- The scan of `check_brq`: the slot it stops at, unless it meets an empty one. -/
def brqScan (s : Backend) : Nat → Nat → Option Nat
  | 0, j => some j
  | n + 1, j =>
    match s.brq j with
    | none => none
    | some rs => if (s.desc rs).brcompleted then some j else brqScan s n ((j + 1) % cfg.brqIfqSize)

/-- The delay slot of a branch has reached the reorder queue. -/
def delaySlotIn (s : Backend) (d : Descript) : Bool :=
  let next := (d.roqid + 1) % cfg.roqIfqSize
  (s.roq next).isSome && next != s.roqHead

/-- `check_brq` -/
def checkBrq (s : Backend) : Option Backend :=
  match s.brqScan cfg (s.brqNum + 1).toNat s.brqHead with
  | none => some s
  | some j =>
    (s.brq j).bind fun rs =>
      let d := s.desc rs
      if d.brcompleted && (!d.misPredict || s.delaySlotIn cfg d) then
        let s := s.modDesc rs fun d => { d with brcompleted := false, completed := true }
        if d.misPredict then s.brerrRecover cfg rs else some s
      else some s

end Writeback

section Lsq

/-- How the memory operations pass the data cache in a cycle: which entries have all their
bytes, which loads are marked for exception, whether the load at tag compare hits, whether
the store at the head may write, and which stages a refill occupies. -/
structure LsqAnswer where
  rdy : Nat → Bool := fun _ => true
  ex : Nat → Bool := fun _ => false
  hit : Bool := false
  write : Bool := true
  tagRefill : Bool := false
  dcacheRefill : Bool := false
  refill : Bool := false

/-- The entry to write back: the first that is done, in a scan from the head. -/
def lsqSelect (a : LsqAnswer) (s : Backend) : Option Nat :=
  let ring := (List.range cfg.lsqIfqSize).map fun j => (s.lsqHead + j) % cfg.lsqIfqSize
  let scan := match ring with
    | [] => []
    | i :: is => i :: is.takeWhile fun i => i != s.lsqTail && (s.lsq i).state != LsqState.empty
  scan.find? fun i =>
    (s.lsq i).state == LsqState.readcache && s.lsqWtbki != some i &&
      (!(s.lsq i).op.has .load || a.rdy i)

/-- A load is marked for exception. -/
def markEx (a : LsqAnswer) (s : Backend) : Backend :=
  { s with lsq := fun i =>
      { s.lsq i with ex := (s.lsq i).ex || (s.lsq i).op.has .load && a.ex i } }

/-- Tag compare. -/
def dtagcmp (a : LsqAnswer) (s : Backend) : Backend :=
  match a.tagRefill, s.lsqDtagcmpi with
  | false, some i =>
    let s := s.modLsq i fun l => { l with state := .readcache }
    { s with
      lsqDtagcmpi := none
      lsqWtbki := if (s.lsq i).op.has .load && !(s.lsq i).ex && a.hit then some i
        else s.lsqWtbki }
  | _, _ => s

/-- The entries that are done are freed, at most `n` of them. -/
def freeDone : Nat → Backend → Backend
  | 0, s => s
  | n + 1, s =>
    if (s.lsq s.lsqHead1).state = .delay1 then
      let s := (s.returnToFreeList (s.lsq s.lsqHead1).rs).modLsq s.lsqHead1 fun l =>
        { l with state := .empty }
      freeDone n { s with lsqNum := s.lsqNum - 1, lsqHead1 := (s.lsqHead1 + 1) % cfg.lsqIfqSize }
    else s

/-- At most `n` further committed loads leave behind the head. -/
def drainLoads : Nat → Backend → Backend
  | 0, s => s
  | n + 1, s =>
    if (s.lsq s.lsqHead).state = .commit ∧ (s.lsq s.lsqHead).op.has .load then
      let s := s.modLsq s.lsqHead fun l => { l with state := .delay1 }
      drainLoads n { s with lsqHead := (s.lsqHead + 1) % cfg.lsqIfqSize }
    else s

/-- The part of `lsq_stage` behind the comment "commit insts". -/
def drain (written : Bool) (s : Backend) : Backend :=
  let s := s.freeDone cfg cfg.lsqIfqSize
  let l := s.lsq s.lsqHead
  if written || !l.op.has .store && l.state == .commit then
    let s := s.modLsq s.lsqHead fun l => { l with state := .delay1 }
    drainLoads cfg 3 { s with lsqHead := (s.lsqHead + 1) % cfg.lsqIfqSize }
  else s

/-- Data cache and address calculation. An operation that has to wait keeps its port. -/
def dcache (a : LsqAnswer) (s : Backend) : Backend :=
  let s := match a.dcacheRefill, s.lsqDcachei with
    | false, some i =>
      { s.modLsq i fun l => { l with state := .dtagcmp } with
        lsqDtagcmpi := some i, lsqDcachei := none }
    | _, _ => s
  match a.refill, s.lsqIssuei with
  | false, some i =>
    { s.modLsq i fun l => { l with state := .dcache } with
      lsqDcachei := some i, lsqIssuei := none }
  | true, some i =>
    { s with unitBusy := Function.update s.unitBusy (s.desc (s.lsq i).rs).fu.unit 1 }
  | _, none => s

/-- `lsq_stage` -/
def lsqStage (a : LsqAnswer) (s : Backend) : Option Backend :=
  let s : Backend := { s with lsqWtbki := s.lsqSelect cfg a }
  let l := s.lsq s.lsqHead
  let written := l.state == LsqState.commit && l.op.has .store && a.rdy s.lsqHead && a.write
  let s := (s.dtagcmp a).markEx a
  let s? := match s.lsqWtbki with
    | some i => s.eventqQueueEvent (s.lsq i).rs (s.simCycle + 1)
    | none => some s
  s?.map fun s => (s.drain cfg written).dcache a

end Lsq

section Decode

/-- What the execution of an instruction shows: whether the prediction was wrong and
whether it was a jump, and the latency of a division. -/
structure Outcome where
  wrong : Bool := false
  taken : Bool := false
  divDelay : Nat := 1

/-- `roq_link_idep` -/
def roqLinkIdep (rs num name : Nat) (s : Backend) : Option Backend :=
  let set (b : Bool) (s : Backend) := s.modDesc rs fun d =>
    { d with idepReady := Function.update d.idepReady num b }
  if name = 0 then some (set true s)
  else match s.createVector s.specLevel name with
    | none => some (set true s)
    | some (p, out) =>
      ((set false s).rslinkNew rs).map fun (l, s) => s.modDesc p fun d =>
        { d with odepList := Function.update d.odepList out ((num, l) :: d.odepList out) }

/-- `roq_install_odep` -/
def roqInstallOdep (rs num name : Nat) (s : Backend) : Backend :=
  let s := s.modDesc rs fun d =>
    { d with onames := Function.update d.onames num name
             odepList := Function.update d.odepList num [] }
  if name = 0 then s
  else { s with createVector := Function.update s.createVector s.specLevel
                  (Function.update (s.createVector s.specLevel) name (some (rs, num))) }

/-- `prepare_level` and the step to the next level. There are `brq_ifq_size + 1` copies of
the create vector; nothing is said about a write behind them. -/
def enterLevel (s : Backend) : Option Backend :=
  if s.specLevel + 1 ≤ cfg.brqIfqSize then
    some { s with
      createVector := Function.update s.createVector (s.specLevel + 1)
        (s.createVector s.specLevel)
      specLevel := s.specLevel + 1 }
  else none

/-- The registers of an instruction are renamed. -/
def rename (rs : Nat) (s : Backend) : Option Backend :=
  let n := (s.desc rs).op.names (s.desc rs).ir
  let s := s.modDesc rs fun d => { d with ins := fun i =>
    if i = 0 then n.in1 else if i = 1 then n.in2 else if i = 2 then n.in3 else 0 }
  (s.roqLinkIdep rs 0 n.in1).bind fun s =>
    (s.roqLinkIdep rs 1 n.in2).bind fun s =>
      (s.roqLinkIdep rs 2 n.in3).map fun s =>
        (s.roqInstallOdep rs 0 n.out1).roqInstallOdep rs 1 n.out2

/-- The first instruction of the fetch queue is marked when it is a delay slot. A branch
there is fatal on the right path, and becomes a `nop` on a wrong one. -/
def markSlot (rs : Nat) (s : Backend) : Option Backend :=
  if !s.lastIsBranch then some s
  else if (s.desc rs).ctrl ∧ s.specLevel = 0 then none
  else
    let s := s.modDesc rs fun d =>
      if d.ctrl then { d with ir := nopInst, op := mdSetOpcode nopInst, bd := true }
      else { d with bd := true }
    some { s with lastIsBranch := false }

/-- The fetch unit is redirected behind the delay slot of a branch that is predicted taken:
the rest of the fetch queue goes back to the free list. -/
def redirect (o : Outcome) (rs : Nat) (s : Backend) : Backend :=
  if s.needToCorrectPc then
    { s.fetchData.tail.foldl (fun s d => s.returnToFreeList d) s with
      fetchData := s.fetchData.take 1, needToCorrectPc := false }
  else if (s.desc rs).ctrl && o.taken then { s with needToCorrectPc := true }
  else s

/-- The level of an instruction, and the step to a deeper one. -/
def enterSpec (o : Outcome) (rs : Nat) (s : Backend) : Option Backend :=
  let s := s.modDesc rs fun d => { d with specLevel := s.specLevel, misPredict := false }
  if s.enteringSpec then (s.enterLevel cfg).map fun s => { s with enteringSpec := false }
  else if (s.desc rs).ctrl && o.wrong then
    let s := s.modDesc rs fun d => { d with misPredict := true }
    if (s.desc rs).likely then s.enterLevel cfg else some { s with enteringSpec := true }
  else some s

/-- An instruction is executed and decoded. -/
def decodeNext (o : Outcome) (rs : Nat) (s : Backend) : Option Backend :=
  let s := s.modDesc rs fun d => { d with divDelay := o.divDelay }
  (s.rename rs).bind fun s =>
    let s := if (s.desc rs).ctrl then { s with lastIsBranch := true } else s
    ((s.redirect o rs).enterSpec cfg o rs).map fun s =>
      { s with decodeData := s.decodeData ++ [rs], fetchData := s.fetchData.tail }

/-- One round of the loop of `decode_stage`. A trap instruction waits until the reorder
queue is empty; the flag tells whether the loop goes on. -/
def decodeInst (o : Nat → Outcome) (s : Backend) : Option (Backend × Bool) :=
  match s.fetchData with
  | [] => some (s, false)
  | rs :: _ =>
    (s.markSlot rs).bind fun s =>
      if (s.desc rs).op.has .trap ∧ s.roqNum ≠ 0 then some (s, false)
      else if (s.desc rs).op.has .trap ∧ s.specLevel ≠ 0 then none
      else (s.decodeNext cfg (o (s.desc rs).seq) rs).map (·, true)

/-- At most `n` rounds of the loop, with `cnt` delay slots so far. -/
def decodeLoop (o : Nat → Outcome) : Nat → Nat → Backend → Option Backend
  | 0, _, s => some s
  | n + 1, cnt, s =>
    if s.fetchData ≠ [] ∧ s.decodeData.length < cfg.decodeIfqSize ∧ cnt < cfg.decodeSpeed then
      let cnt := if s.lastIsBranch then cnt + 1 else cnt
      (s.decodeInst cfg o).bind fun (s, more) => if more then decodeLoop o n cnt s else some s
    else some s

/-- `decode_stage` -/
def decodeStage (o : Nat → Outcome) (s : Backend) : Option Backend :=
  if s.decodeData.length + cfg.decodeWidth > cfg.decodeIfqSize then some s
  else s.decodeLoop cfg o s.fetchData.length 0

end Decode

section Fetch

/-- A fetched word: the fetch PC was valid or not. -/
structure Fetched where
  ir : Word
  valid : Bool := true

/-- A descriptor enters the fetch queue. In a full queue it takes the slot of the head. -/
def fetchPush (rs : Nat) (s : Backend) : Backend :=
  { s with fetchData :=
      (if s.fetchData.length < cfg.fetchIfqSize then s.fetchData else s.fetchData.set 0 rs)
        ++ [rs] }

/-- A descriptor is made ready for an instruction. -/
def newInst (rs : Nat) (ir : Word) (op : Op) (trap : Bool) (s : Backend) : Backend :=
  let s' := s.modDesc rs fun d =>
    { d with ir, op, trap, seq := s.instSeq, bd := false, mapped := false, queued := false
             issued := false, completed := false, brcompleted := false }
  { s' with instSeq := s.instSeq + 1 }

/-- One round of the loop of `fetch_stage`; the flag tells whether it goes on. An invalid
fetch PC yields a `nop` that traps, a multiplication or division two descriptors. -/
def fetchInst (f : Fetched) (s : Backend) : Backend × Bool :=
  let (rs, s) := s.getFromFreeList
  let ir := if f.valid then f.ir else nopInst
  let op := mdSetOpcode ir
  if op.isSplit && s.fetchData.length + 1 == cfg.fetchWidth then (s.returnToFreeList rs, false)
  else
    let s := (s.newInst rs ir op (!f.valid)).fetchPush cfg rs
    if op.isSplit then
      let half := if op == .mult || op == .multu then Op.splitmul else Op.splitdiv
      let (rs, s) := s.getFromFreeList
      ((s.newInst rs ir half false).fetchPush cfg rs, true)
    else (s, true)

/-- The loop of `fetch_stage` over the words that a cycle delivers. -/
def fetchLoop : List Fetched → Backend → Backend
  | [], s => s
  | f :: fs, s =>
    if s.fetchData.length < cfg.fetchIfqSize then
      let (s, more) := s.fetchInst cfg f
      if more then fetchLoop fs s else s
    else s

/-- `fetch_stage` -/
def fetchStage (fs : List Fetched) (s : Backend) : Backend :=
  if s.fetchData.length + cfg.fetchWidth > cfg.fetchIfqSize then s
  else s.fetchLoop cfg (fs.take (cfg.fetchWidth * cfg.fetchSpeed))

end Fetch

/-- `release_fu` -/
def releaseFu (s : Backend) : Backend := { s with unitBusy := fun u => s.unitBusy u - 1 }

/-- The stages of a core, as `cpu_execute` calls them. -/
inductive Stage
  | tick
  | commit
  | releaseFu
  | checkBrq
  | writeback
  | lsq (a : LsqAnswer)
  | issue
  | map
  | decode (o : Nat → Outcome)
  | fetch (fs : List Fetched)

/-- A stage runs. There is no next state when the simulator stops with an error. -/
def stage (s : Backend) : Stage → Option Backend
  | .tick => some { s with simCycle := s.simCycle + 1 }
  | .commit => s.commitStage cfg
  | .releaseFu => some s.releaseFu
  | .checkBrq => s.checkBrq cfg
  | .writeback => s.writebackStage
  | .lsq a => s.lsqStage cfg a
  | .issue => s.issueStage cfg
  | .map => s.mapStage cfg
  | .decode o => s.decodeStage cfg o
  | .fetch fs => some (s.fetchStage cfg fs)

/-- The pipeline behind `fetch_stage_init` and its fellows. -/
def start : Backend := (({} : Backend).getFromFreeList).2 |> fun s =>
  { s with freeList := (fetchFreeListSize - 1) :: s.freeList }

/-- The states that any sequence of stages reaches. -/
inductive Reachable (fits : Backend → Stage → Prop) : Backend → Prop
  | start : Reachable fits start
  | step {s t : Backend} {a : Stage} : Reachable fits s → fits s a → s.stage cfg a = some t →
      Reachable fits t

end Backend

end Godson

import Godson.MipsDef

/-! One core as its front end and reorder queue see it. Instructions execute at decode:
on the architectural state, leaving saves behind, or on a layer of speculative state
behind a mispredicted branch. What the predictor answers and when instructions complete
is left to the environment. -/
namespace Godson

open Mips UndoLog

/-- The part of the configuration and of the loaded program that the front end reads. -/
structure CoreConfig where
  fpu : Fpu
  predPerfect : Bool := false
  ldTextBase : Word
  ldTextSize : Word
  ldDataBase : Word
  ldStackBase : Word
  ldProgEntry : Word

/-- `inst_descript`. The number `ti` of saves is the length of `tempSave`; `ex` is the
exception mark of the instruction's entry in the load/store queue. `before` is the
architectural state just before the instruction executed; the program does not keep it. -/
structure InstDescript where
  ir : Word
  pc : Word
  op : Op
  predPC : Word
  predTaken : Bool := false
  trap : Bool := false
  bd : Bool := false
  tempSave : List Save := []
  specLevel : Nat := 0
  misPredict : Bool := false
  recoverPC : Word := 0
  writtenBack : Bool := false
  brcompleted : Bool := false
  completed : Bool := false
  ex : Bool := false
  before : Arch := {}

namespace InstDescript

variable (d : InstDescript)

def ctrl : Bool := d.op.has .ctrl
def likely : Bool := d.op.has .ctrlLikely

/-- The second half of a multiplication or division has the word of the first. -/
def half : Bool := mdSetOpcode d.ir != d.op

/-- `recover_data` -/
def recoverData (a : Arch) : Arch := if d.specLevel ≠ 0 then a else a.restoreAll d.tempSave

/-- `recover_data` if its copies of floating-point registers were exact. -/
def takeBack (a : Arch) : Arch := if d.specLevel ≠ 0 then a else a.takeBack d.before d.tempSave

end InstDescript

/-- `spec_mem_ent`, with the word of its data that accesses of up to four bytes use. -/
structure SpecMemEnt where
  addr : Word
  level : Nat
  data : Word := 0

/-- The state of a core. The queues list their entries from the head to the tail;
`retired` is the committed stream. The branch queue holds the control instructions of the
reorder queue. -/
structure Core where
  arch : Arch := {}
  specLevel : Nat := 0
  specRegs : Nat → Regs := fun _ => {}
  storeHtable : List SpecMemEnt := []
  fetchRegPC : Word
  fetchData : List InstDescript := []
  decodeData : List InstDescript := []
  roq : List InstDescript := []
  lastIsBranch : Bool := false
  needToCorrectPc : Bool := false
  correctPC : Word := 0
  enteringSpec : Bool := false
  recoverPC : Word := 0
  targetPC : Word := 0
  retired : List InstDescript := []

namespace Core

/-- The instructions in flight, oldest first. -/
def live (s : Core) : List InstDescript := s.roq ++ s.decodeData

section SpecMem

variable (cfg : CoreConfig)

def inText (addr : Word) : Bool :=
  decide (cfg.ldTextBase ≤ addr) && decide (addr < cfg.ldTextBase + cfg.ldTextSize)

/-- `MD_VALID_ADDR` -/
def validAddr (addr : Word) : Bool :=
  inText cfg addr || decide (cfg.ldDataBase ≤ addr) && decide (addr < cfg.ldStackBase)

def SpecMemEnt.holds (addr : Word) (e : SpecMemEnt) : Bool := e.addr == addr && decide (0 < e.level)

/-- The search for the newest entry of an address. The level it compares with is set
back to zero for each entry, so the last match of the chain stays. -/
def newestEnt (l : List SpecMemEnt) (addr : Word) : Option SpecMemEnt :=
  (l.filter (SpecMemEnt.holds addr)).getLast?

/-- Write into the entry that the search finds. -/
def writeNewest (addr : Word) (f : SpecMemEnt → SpecMemEnt) :
    List SpecMemEnt → Option (List SpecMemEnt)
  | [] => none
  | e :: l =>
    match writeNewest addr f l with
    | some l' => some (e :: l')
    | none => if SpecMemEnt.holds addr e then some (f e :: l) else none

def truncWord : Width → Word → Word
  | .byte, x => (x.setWidth 8).setWidth 32
  | .half, x => (x.setWidth 16).setWidth 32
  | .word, x => x

/-- Overwrite the low bytes of the data of an entry. -/
def putData (w : Width) (v : Word) (e : SpecMemEnt) : SpecMemEnt :=
  { e with data := (e.data &&& ~~~truncWord w 0xffffffff) ||| truncWord w v }

/-- `spec_mem_access` with `Read`. -/
def specRead (s : Core) (w : Width) (addr : Word) : Word :=
  if !w.aligned addr || !validAddr cfg addr then 0
  else match newestEnt s.storeHtable addr with
    | some e => truncWord w e.data
    | none => readMem s.arch.mem w addr

/-- `spec_mem_access` with `Write`. -/
def specStore (s : Core) (w : Width) (addr v : Word) : Core :=
  if !w.aligned addr || !validAddr cfg addr then s
  else match writeNewest addr (putData w v) s.storeHtable with
    | some l => { s with storeHtable := l }
    | none => { s with storeHtable := putData w v { addr, level := s.specLevel } :: s.storeHtable }

/-- A write in speculative mode goes to the layer of the current level. -/
def specPut (s : Core) : Write → Core
  | .store w addr v => s.specStore cfg w addr v
  | w => { s with specRegs := Function.update s.specRegs s.specLevel
                                ((s.specRegs s.specLevel).put w) }

/-- What the accessor macros see at the current level. -/
def view (s : Core) : View :=
  if s.specLevel = 0 then
    { regs := s.arch.regs
      read := fun w a => if w.aligned a then .ok (readMem s.arch.mem w a) else .error .alignment
      writeFault := fun w a => if w.aligned a then none else some .alignment }
  else
    { regs := s.specRegs s.specLevel
      read := fun w a => .ok (s.specRead cfg w a)
      writeFault := fun _ _ => none }

end SpecMem

/-- `prepare_level` and the step to the next level. -/
def enterLevel (s : Core) : Core :=
  let regs := if s.specLevel = 0 then s.arch.regs else s.specRegs s.specLevel
  { s with specRegs := Function.update s.specRegs (s.specLevel + 1) regs
           specLevel := s.specLevel + 1 }

/-- `tracer_recover`. The entries of the decode queue are undone from its tail on. -/
def tracerRecover (s : Core) (level : Nat) (recoverPC : Word) : Core :=
  { s with specLevel := level
           storeHtable := (s.storeHtable.filter fun e => decide (e.level < level)).reverse
           fetchData := []
           fetchRegPC := recoverPC
           arch := unwind InstDescript.recoverData s.decodeData s.arch
           decodeData := []
           needToCorrectPc := false
           enteringSpec := false
           lastIsBranch := false }

/-- `pipeline_flush` -/
def pipelineFlush (s : Core) (rs : InstDescript) : Core :=
  let s := s.tracerRecover 0 (if rs.bd then rs.pc - 4 else rs.pc)
  { s with arch := unwind InstDescript.recoverData s.roq s.arch, roq := [] }

/-- One round of the loop of `commit_stage`. -/
def commit (s : Core) : Option Core :=
  match s.roq with
  | [] => some s
  | rs :: roq =>
    if rs.trap then none
    else if !rs.completed then some s
    else if rs.op.has .mem && rs.ex then some (s.pipelineFlush rs)
    else some { s with roq, retired := s.retired ++ [rs] }

/-- `brerr_recover` for the branch `rs`, which has the instructions `older` in front of it
and `younger` behind it. Its delay slot stays, unless it is annulled. -/
def brerrRecover (s : Core) (older : List InstDescript) (rs : InstDescript)
    (younger : List InstDescript) : Core :=
  let kept := if !rs.trap && !rs.likely then younger.take 1 else []
  { s with roq := older ++ rs :: kept }.tracerRecover rs.specLevel rs.recoverPC

/-- A branch leaves the branch queue's attention and completes. -/
def resolve (d : InstDescript) : InstDescript := { d with brcompleted := false, completed := true }

def waiting (d : InstDescript) : Bool := !(d.ctrl && d.brcompleted)

/-- `check_brq`: the oldest completed branch is resolved, a mispredicted one only when
the next instruction has reached the reorder queue. -/
def checkBrq (s : Core) : Core :=
  let older := s.roq.takeWhile waiting
  match s.roq.dropWhile waiting with
  | [] => s
  | rs :: younger =>
    if !rs.misPredict || !younger.isEmpty then
      let s := { s with roq := older ++ resolve rs :: younger }
      if rs.misPredict then s.brerrRecover older (resolve rs) younger else s
    else s

/-- `writeback_stage` for an instruction that leaves its function unit. -/
def finish (d : InstDescript) : InstDescript :=
  if d.ctrl then { d with writtenBack := true, brcompleted := true }
  else { d with writtenBack := true, completed := true }

def writeOne (d : InstDescript) : InstDescript :=
  if d.writtenBack || d.trap then d else finish d

def writeback (s : Core) (i : Nat) : Core := { s with roq := s.roq.modify i writeOne }

/-- The load/store queue marks a load for exception. -/
def raiseEx (d : InstDescript) : InstDescript := { d with ex := d.ex || d.op.has .load }

def markEx (s : Core) (i : Nat) : Core := { s with roq := s.roq.modify i raiseEx }

/-- One round of the loop of `map_stage`. -/
def mapInst (s : Core) : Core :=
  match s.decodeData with
  | [] => s
  | d :: rest => { s with decodeData := rest, roq := s.roq ++ [d] }

/-- What the predictor and the sampling mode answer for one instruction. -/
structure Prediction where
  taken : Bool := false
  btb : Word := 0
  ras : Option Word := none
  draining : Bool := false

section Fetch

variable (cfg : CoreConfig)

/-- The instruction at the fetch PC; an invalid address yields a `nop` that traps. -/
def fetched (p : Prediction) (s : Core) : InstDescript :=
  let pc := s.fetchRegPC
  let valid := inText cfg pc && pc.toNat % 4 == 0
  let ir := if valid then readWord s.arch.mem pc else nopInst
  let op := mdSetOpcode ir
  { ir, pc, op, trap := !valid, predTaken := p.taken
    predPC := if op == .jr || op == .jalr then p.btb else pc + 4 }

/-- The second half of a multiplication or division. -/
def secondHalf (d : InstDescript) : InstDescript :=
  { ir := d.ir, pc := d.pc, predPC := d.pc + 4
    op := if d.op == .mult || d.op == .multu then .splitmul else .splitdiv }

/-- One round of the loop of `fetch_stage`, for an instruction that is in the cache. -/
def fetchInst (p : Prediction) (s : Core) : Core :=
  let d := fetched cfg p s
  { s with fetchRegPC := s.fetchRegPC + 4
           fetchData := s.fetchData ++ d :: if d.op.isSplit then [secondHalf d] else [] }

end Fetch

section Decode

variable (cfg : CoreConfig)

/-- An instruction at decode, after its execution: the next PC and the jump. -/
structure Executed where
  core : Core
  inst : InstDescript
  npc : Word
  isJump : Bool

/-- The outcome of an instruction at the current level, with register 0 clear. -/
def effect (s : Core) (d : InstDescript) : Effect :=
  impl cfg.fpu d.ir d.pc (view cfg { s with arch := s.arch.clearZero }) d.op

/-- Execute an instruction. A fault on the right path is fatal, as is a third save. -/
def execute (s : Core) (d : InstDescript) : Option Executed :=
  let e := effect cfg s d
  let s := { s with arch := s.arch.clearZero, targetPC := e.target.getD s.targetPC }
  let d := { d with before := s.arch, specLevel := s.specLevel }
  let npc := if e.isJump then s.targetPC else d.pc + 4
  if s.specLevel = 0 then
    let (arch, saves) := s.arch.putAll e.writes
    if e.fault.isSome || 3 ≤ saves.length then none
    else some { core := { s with arch }, inst := { d with tempSave := saves }
                npc, isJump := e.isJump }
  else
    some { core := e.writes.foldl (specPut cfg) s, inst := { d with tempSave := [] }
           npc, isJump := e.isJump }

/-- The predicted direction of a control instruction, after decode has corrected it. -/
def direction (p : Prediction) (x : Executed) : Bool :=
  if p.draining || cfg.predPerfect then x.isJump
  else x.inst.op.has .uncond || x.inst.likely || x.inst.predTaken

/-- `MD_IS_RETURN` -/
def isReturn (d : InstDescript) : Bool := d.op == .jr && rs d.ir == 31

/-- The predicted target. -/
def prediction (p : Prediction) (x : Executed) : Word :=
  if !x.inst.ctrl then x.inst.predPC
  else if p.draining || x.inst.op.has .dirjmp || cfg.predPerfect then
    if direction cfg p x then x.core.targetPC else x.inst.pc + 4
  else if isReturn x.inst then p.ras.getD x.inst.predPC
  else x.inst.predPC

/-- Where the instruction stream goes on behind a branch and its delay slot. -/
def afterSlot (x : Executed) : Word := if x.isJump then x.core.targetPC else x.inst.pc + 8

/-- The redirection of the fetch unit; it is scheduled by a branch that is predicted
taken and done behind its delay slot. -/
def correctPc (p : Prediction) (x : Executed) : Core × Word :=
  let s := x.core
  let predPC := prediction cfg p x
  if s.needToCorrectPc then
    ({ s with fetchRegPC := s.correctPC, fetchData := s.fetchData.take 1
              needToCorrectPc := false }, predPC)
  else if predPC != x.npc && cfg.predPerfect || x.inst.ctrl && direction cfg p x then
    if cfg.predPerfect then
      ({ s with needToCorrectPc := true, correctPC := afterSlot x }, x.npc)
    else ({ s with needToCorrectPc := true, correctPC := predPC }, predPC)
  else (s, predPC)

/-- The step to a deeper speculation level, behind the delay slot of a mispredicted
branch, or at once when the delay slot is annulled. -/
def enterSpec (x : Executed) (s : Core) (predPC : Word) : Core × InstDescript :=
  if s.enteringSpec then
    ({ s.enterLevel with enteringSpec := false }, { x.inst with recoverPC := s.recoverPC })
  else if x.inst.ctrl && predPC != x.npc then
    let s := { s with recoverPC := afterSlot x }
    let d := { x.inst with misPredict := true, recoverPC := afterSlot x }
    if d.likely then (s.enterLevel, d) else ({ s with enteringSpec := true }, d)
  else (s, x.inst)

/-- The rest of a round of `decode_stage`, behind the execution of the instruction. -/
def enqueue (p : Prediction) (x : Executed) : Core :=
  let x := if x.inst.ctrl then { x with core := { x.core with lastIsBranch := true } } else x
  let (s, predPC) := correctPc cfg p x
  let (s, d) := enterSpec x s predPC
  { s with fetchData := s.fetchData.tail, decodeData := s.decodeData ++ [d] }

/-- An instruction behind a branch is its delay slot. A branch there is fatal on the right
path, and becomes a `nop` on a wrong one. -/
def delaySlot (s : Core) (d : InstDescript) : Option InstDescript :=
  if !s.lastIsBranch then some d
  else if !d.ctrl then some { d with bd := true }
  else if s.specLevel = 0 then none
  else some { d with ir := nopInst, op := mdSetOpcode nopInst, bd := true }

/-- The delay-slot mark is in the descriptor now. -/
def atDecode (s : Core) (d : InstDescript) (rest : List InstDescript) : Core :=
  { s with lastIsBranch := false, fetchData := d :: rest }

/-- One round of the loop of `decode_stage`. A trap instruction waits until the reorder
queue is empty. -/
def decodeInst (p : Prediction) (s : Core) : Option Core :=
  match s.fetchData with
  | [] => some s
  | d :: rest =>
    match s.delaySlot d with
    | none => none
    | some d =>
      let s := s.atDecode d rest
      if d.op.has .trap && !s.roq.isEmpty then some s
      else if d.op.has .trap && s.specLevel != 0 then none
      else (execute cfg s d).map (enqueue cfg p)

end Decode

/-- The steps of the stages of a core. A cycle of `cpu_execute` is a list of them: each
stage repeats its round as often as its width, its resources and the caches allow. -/
inductive Act
  | commit
  | checkBrq
  | writeback (i : Nat)
  | markEx (i : Nat)
  | mapInst
  | decode (p : Prediction)
  | fetch (p : Prediction)

/-- A step. There is no next state when the simulator stops with an error. -/
def act (cfg : CoreConfig) (s : Core) : Act → Option Core
  | .commit => s.commit
  | .checkBrq => some s.checkBrq
  | .writeback i => some (s.writeback i)
  | .markEx i => some (s.markEx i)
  | .mapInst => some s.mapInst
  | .decode p => s.decodeInst cfg p
  | .fetch p => some (s.fetchInst cfg p)

def start (cfg : CoreConfig) (arch : Arch) : Core := { arch, fetchRegPC := cfg.ldProgEntry }

def run (cfg : CoreConfig) (arch : Arch) (acts : List Act) : Option Core :=
  acts.foldlM (act cfg) (start cfg arch)

end Core

end Godson

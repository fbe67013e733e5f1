import Godson.Lsq

/-! The machine: `eventq_service_events` runs the pending events in order, and an
activation of a core runs the sections of `cpu_execute` one by one. What the
model leaves to the environment (instruction stream, routing delays) is a choice
made at every step. -/
namespace Godson

/-- An operation of the pipeline. `commit_stage` counts an instruction it retires,
unless it is one half of a split one, and notices the stop instruction; all other
operations are on the memory system. -/
inductive PipeOp
  | retire (counted stop : Bool)
  | writeback
  | commit
  | cancel
  | recover
  | branchStall
  | enqueue (op : MemOp) (addr : Nat)
  | issue (i : Nat)
  | fetch (addr : Nat)
  deriving DecidableEq, Repr

/-- The choices of the environment in one step: the packet that arrives, whether
the router takes a packet, and the next operation of the pipeline. -/
structure Choice where
  deliver : Option Nat := none
  room : Bool := true
  op : Option PipeOp := none
  deriving Repr

/-- The section that follows. `front` is the last one. -/
def Phase.next : Phase → Option Phase
  | .pipeline => some .memq
  | .memq => some .flitReq
  | .flitReq => some .flitInvn
  | .flitInvn => some .flitWtbk
  | .flitWtbk => some .flitResp
  | .flitResp => some .select
  | .select => some .accept
  | .accept => some .issue
  | .issue => some .reprobe
  | .reprobe => some .modifyL1
  | .modifyL1 => some .l2Miss
  | .l2Miss => some .memref
  | .memref => some .refillL2
  | .refillL2 => some .wtbk
  | .wtbk => some .extrdy
  | .extrdy => some .refill
  | .refill => some .delay
  | .delay => some .lsqSelect
  | .lsqSelect => some .dcachewrite
  | .dcachewrite => some .dtagcmp
  | .dtagcmp => some .drain
  | .drain => some .dcache
  | .dcache => some .memaddr
  | .memaddr => some .front
  | .front => none

/-- `cpu_execute` returns early: the core has reached its instruction limit or
committed its stop instruction. -/
def Cpu.finished (cfg : Config) (c : Cpu) : Bool :=
  c.active && (cfg.optMaxInsts != 0 && decide (c.simPopInsn ≥ cfg.optMaxInsts) || c.sdbbp)

namespace Machine

variable (cfg : Config)

/-- Run a section that only touches the core. -/
def onCpu (k : Nat) (f : Cpu → Option Cpu) (s : Sys) : Option Sys :=
  (f (s.cpus k)).map fun c => s.modCpu k fun _ => c

/-- `flit_traverse` of one message type: hand the chosen packet to the home port. -/
def deliver (k : Nat) (chan : Chan) (choice : Option Nat) (s : Sys) : Option Sys :=
  match choice with
  | none => some s
  | some i => s.net[i]?.bind fun p =>
    if p.chan = chan ∧ p.dest = k then
      onCpu k (homeEnter cfg p) { s with net := s.net.eraseIdx i }
    else none

/-- Commit, misprediction recovery and writeback. -/
def pipeline (op : PipeOp) (c : Cpu) : Option Cpu :=
  match op with
  | .retire counted stop => some { c with
      simPopInsn := if counted then c.simPopInsn + 1 else c.simPopInsn
      sdbbp := c.sdbbp || stop }
  | .writeback => lsqWriteback c
  | .commit => lsqCommit cfg c
  | .cancel => lsqCancel cfg c
  | .recover => some (cancelFetch c)
  | .branchStall => some { c with branchStall := true }
  | .enqueue _ _ | .issue _ | .fetch _ => none

/-- Issue, map, decode and fetch. -/
def front (k simCycle : Nat) (op : PipeOp) (c : Cpu) : Option Cpu :=
  match op with
  | .enqueue op addr => lsqEnqueue cfg op addr c
  | .issue i => lsqIssue cfg i c
  | .cancel => lsqCancel cfg c
  | .recover => some (cancelFetch c)
  | .branchStall => some { c with branchStall := true }
  | .fetch addr => some (fetchStage cfg k simCycle addr c)
  | .retire _ _ | .writeback | .commit => none

/-- The pipeline of a core runs only while the core has a program. -/
def ifActive (f : Cpu → Option Cpu) (c : Cpu) : Option Cpu := if c.active then f c else none

/-- One section of an activation. -/
def runPhase (ch : Choice) (k : Nat) (phase : Phase) (loc : Locals) (s : Sys) :
    Option (Sys × Locals) :=
  let keep : Option Sys → Option (Sys × Locals) := fun s? => s?.map fun s => (s, loc)
  match phase with
  | .pipeline => match ch.op with
    | none => some (s, loc)
    | some op => keep (onCpu k (ifActive (pipeline cfg op)) s)
  | .memq => some (s.modCpu k (checkMemq cfg), loc)
  | .flitReq => keep (deliver cfg k .req ch.deliver s)
  | .flitInvn => keep (deliver cfg k .invn ch.deliver s)
  | .flitWtbk => keep (deliver cfg k .wtbk ch.deliver s)
  | .flitResp => keep (deliver cfg k .resp ch.deliver s)
  | .select => some (s, Godson.select cfg (s.cpus k))
  | .accept => some (s.modCpu k (accept cfg k loc), loc)
  | .issue => issue cfg k ch.room loc s
  | .reprobe => reprobe cfg k loc s
  | .modifyL1 => modifyL1 cfg k ch.room loc s
  | .l2Miss => l2Miss cfg k ch.room loc s
  | .memref => some (memref k loc s, loc)
  | .refillL2 => keep (refillL2 cfg k loc s)
  | .wtbk => wtbk cfg k ch.room loc s
  | .extrdy => keep (extrdy cfg k ch.room loc s)
  | .refill => keep (refill cfg k loc s)
  | .delay => some (delay cfg k s, loc)
  | .lsqSelect => some (s.modCpu k (lsqSelect cfg), loc)
  | .dcachewrite => (dcachewrite loc (s.cpus k)).map fun (c, loc) => (s.modCpu k fun _ => c, loc)
  | .dtagcmp => keep (onCpu k (dtagcmp cfg k) s)
  | .drain => some (s.modCpu k (drain cfg loc), loc)
  | .dcache => keep (dcacheStage cfg k s)
  | .memaddr => some (s.modCpu k memaddr, loc)
  | .front => match ch.op with
    | none => some (s, loc)
    | some op => keep (onCpu k (ifActive (front cfg k s.simCycle op)) s)

/-- The pipeline sections run once for every operation and once without. -/
def repeats (ch : Choice) (phase : Phase) : Bool :=
  (phase == .pipeline || phase == .front) && ch.op.isSome

/-- Where an activation goes on; the core queues itself for the next cycle unless
it returns early. -/
def advance (ch : Choice) (k : Nat) (phase : Phase) (loc : Locals) (s : Sys) : Sys :=
  if repeats ch phase then { s with frame := some ⟨k, phase, loc⟩ }
  else match phase.next with
    | some phase => { s with frame := some ⟨k, phase, loc⟩ }
    | none =>
      let s := { s with frame := none }
      if (s.cpus k).finished cfg then s else s.queue 1 (.cpuExecute k)

/-- Run one event other than an activation. -/
def runEvent (ev : Event) (s : Sys) : Option Sys :=
  match ev with
  | .cpuExecute k => some { s with frame := some ⟨k, .pipeline, {}⟩ }
  | .scacheProbe k req qid paddr => onCpu k (scacheProbe cfg s.simCycle k req qid paddr) s
  | .scacheRefill k qid => onCpu k (scacheRefill cfg k qid) s
  | .scacheWriteback k cpuid req paddr inst =>
    onCpu k (scacheWriteback cfg cpuid req paddr inst) s
  | .updateCredit k chan => onCpu k (fun c => some (updateCredit chan c)) s

/-- One step: the next section of the activation under way, else the next event. -/
def step (ch : Choice) (s : Sys) : Option Sys :=
  match s.frame with
  | some fr => (runPhase cfg ch fr.cpu fr.phase fr.loc s).map fun (s, loc) =>
      advance cfg ch fr.cpu fr.phase loc s
  | none =>
    match s.pending with
    | [] => none
    | (t, ev) :: rest => runEvent cfg ev { s with simCycle := t, pending := rest }

/-- The machine `sim_main` starts. -/
def initial : Sys where
  cpus k := {
    active := decide (k < cfg.programs)
    creditReq := cfg.missqIfqSize
    creditInvn := cfg.missqIfqSize
    creditWtbk := cfg.wtbkqIfqSize }
  pending := (List.range cfg.totalCpus).map fun k => (0, .cpuExecute k)

/-- The states of a run all of whose steps meet a condition. -/
inductive RunWith (ok : Sys → Choice → Prop) : Sys → Prop
  | initial : RunWith ok (initial cfg)
  | step {s s' : Sys} {ch : Choice} : RunWith ok s → ok s ch → step cfg ch s = some s' →
      RunWith ok s'

/-- The states of any run. -/
def Reachable : Sys → Prop := RunWith cfg fun _ _ => True

/-- Take one step for each choice. -/
def run : List Choice → Sys → Option Sys
  | [], s => some s
  | ch :: chs, s => (step cfg ch s).bind (run chs)

theorem RunWith.mono {ok ok' : Sys → Choice → Prop} (h : ∀ s ch, ok s ch → ok' s ch) {s : Sys}
    (hs : RunWith cfg ok s) : RunWith cfg ok' s := by
  induction hs with
  | initial => exact .initial
  | step _ hok hstep ih => exact .step ih (h _ _ hok) hstep

/-- An invariant of one step holds in every state of a run. -/
theorem RunWith.invariant {ok : Sys → Choice → Prop} {inv : Sys → Prop}
    (hinit : inv (Machine.initial cfg))
    (hstep : ∀ s ch s', inv s → ok s ch → Machine.step cfg ch s = some s' → inv s') {s : Sys}
    (hs : RunWith cfg ok s) : inv s := by
  induction hs with
  | initial => exact hinit
  | step _ hok h ih => exact hstep _ _ _ ih hok h

theorem reachable_run {chs : List Choice} {s s' : Sys} (hs : Reachable cfg s)
    (h : run cfg chs s = some s') : Reachable cfg s' := by
  induction chs generalizing s with
  | nil =>
    simp only [run, Option.some.injEq] at h
    exact h ▸ hs
  | cons ch chs ih =>
    obtain ⟨t, ht, hrun⟩ := Option.bind_eq_some_iff.mp h
    exact ih (.step hs trivial ht) hrun

end Machine

end Godson

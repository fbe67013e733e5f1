import Godson.Router

/-! The mesh of routers: `noc_request`, `flit_traverse`, `noc_stage` and the
event loop around them. Packets accepted and packets handed to `home_enter` are
recorded, which the source does only in its statistics. -/
namespace Godson

/-- The events of the network, and the activations of the nodes. -/
inductive MeshEvent
  | cpuExecute (k : Nat)
  | flitArrive (p : Flit) (x y : Nat) (type : Chan) (d : Direction)
  | updateCredit (x y : Nat) (type : Chan) (d : Direction)
  deriving DecidableEq, Repr

/-- The event is an activation of a node. -/
def MeshEvent.isExecute : MeshEvent → Bool
  | .cpuExecute _ => true
  | _ => false

/-- A packet as its sender and its receiver know it: its number and its contents. -/
abbrev Letter := Nat × Packet

def Flit.letter (p : Flit) : Letter := (p.id, p.packet)

/-- The routers, the pending events, and the history of the network: what was
accepted, and what was handed to which node. -/
structure Mesh where
  simCycle : Nat := 0
  routers : Nat → Router
  pending : List (Nat × MeshEvent)
  accepted : List Letter := []
  delivered : List (Nat × Letter) := []

/-- The arguments of one call of `noc_request`. -/
structure Request (totalCpus : Nat) where
  chan : Chan
  req : Req
  cacheStatus : Status
  qid : Nat
  target : Fin totalCpus
  paddr : Nat
  inst : Bool

/-- The choices of the memory system in one step: the calls of `noc_request` the
node makes, the credit it leaves at its home port, and whether it goes on. -/
structure MeshChoice (totalCpus : Nat) where
  requests : List (Request totalCpus) := []
  homeCredit : Chan → Nat := fun _ => 0
  halt : Bool := false

namespace Mesh

variable (cfg : MeshConfig)

def modRouter (m : Mesh) (k : Nat) (f : Router → Router) : Mesh :=
  { m with routers := Function.update m.routers k (f (m.routers k)) }

/-- Run a function of one router that may fail an assertion. -/
def onRouter (m : Mesh) (k : Nat) (f : Router → Except Fault Router) : Except Fault Mesh :=
  (f (m.routers k)).map fun r => { m with routers := Function.update m.routers k r }

/-- `eventq_queue_callback4`, with `wire_delay` 1 for everything but activations. -/
def queue (m : Mesh) (ev : MeshEvent) : Mesh :=
  { m with pending := EventQueue.insert ev.isExecute (m.simCycle + 1) ev m.pending }

/-- The packet `noc_request` makes at node `k`. -/
def packetOf (k : Nat) (r : Request cfg.totalCpus) : Packet where
  chan := r.chan
  dest := match r.chan with
    | .invn | .resp => r.target
    | .req | .wtbk => cfg.owner r.paddr
  req := r.req
  cacheStatus := r.cacheStatus
  qid := r.qid
  cpuid := k
  paddr := r.paddr
  inst := r.inst

/-- `noc_request` at node `k`. A full input buffer refuses. -/
def nocRequest (k : Nat) (r : Request cfg.totalCpus) (m : Mesh) : Except Fault Mesh :=
  if (m.routers k).ingressNum r.chan .home ≥ cfg.routerIfqSize then .ok m
  else
    let packet := packetOf cfg k r
    let p : Flit := {
      id := m.accepted.length
      sourceChannel := .home
      index := 0
      destX := packet.dest % cfg.meshWidth
      destY := packet.dest / cfg.meshWidth
      packet := packet }
    onRouter { m with accepted := m.accepted ++ [p.letter] } k fun rt =>
      (rt.store cfg.routerIfqSize p r.chan .home).countIn cfg.routerIfqSize r.chan .home

/-- `SEND_CREDIT` for a flit that came in from `d`: the neighbour there gets a
credit, after the assertion that there is one. -/
def sendCredit (x y : Nat) (type : Chan) (d : Direction) (m : Mesh) : Except Fault Mesh :=
  match d with
  | .home => .ok m
  | .up => if y ≥ 1 then .ok (m.queue (.updateCredit x (y - 1) type .down)) else .error .neighbour
  | .down =>
    if y + 1 < cfg.meshHeight then .ok (m.queue (.updateCredit x (y + 1) type .up))
    else .error .neighbour
  | .left => if x ≥ 1 then .ok (m.queue (.updateCredit (x - 1) y type .right)) else .error .neighbour
  | .right =>
    if x + 1 < cfg.meshWidth then .ok (m.queue (.updateCredit (x + 1) y type .left))
    else .error .neighbour

/-- The test `flit_traverse` makes on its own position before it uses an output. -/
def mayLeave (x y : Nat) (out : Direction) : Bool :=
  match out with
  | .home => true
  | .up => decide (y > 0)
  | .down => decide (y < cfg.meshHeight)
  | .left => decide (x > 0)
  | .right => decide (x < cfg.meshWidth)

/-- The flit goes on its way: to the home port, which checks its destination, or
onto the wire to the next router. -/
def launch (k : Nat) (p : Flit) (type : Chan) (out : Direction) (m : Mesh) : Except Fault Mesh :=
  let x := cfg.homeX k
  let y := cfg.homeY k
  match out with
  | .home =>
    if p.destX = x ∧ p.destY = y then .ok { m with delivered := m.delivered ++ [(k, p.letter)] }
    else .error .homeEnter
  | .up => .ok (m.queue (.flitArrive p x (y - 1) type .down))
  | .down => .ok (m.queue (.flitArrive p x (y + 1) type .up))
  | .left => .ok (m.queue (.flitArrive p (x - 1) y type .right))
  | .right => .ok (m.queue (.flitArrive p (x + 1) y type .left))

/-- One output of `flit_traverse`. No credit goes back the way the flit leaves. -/
def sendFlit (k : Nat) (type : Chan) (out : Direction) (m : Mesh) : Except Fault Mesh :=
  match (m.routers k).egressGrant type out with
  | none => .ok m
  | some p =>
    if mayLeave cfg (cfg.homeX k) (cfg.homeY k) out then do
      let m ← launch cfg k p type out m
      let m ← m.onRouter k (Router.packetDepart cfg.routerIfqSize p type out)
      if p.sourceChannel = out then .ok m
      else sendCredit cfg (cfg.homeX k) (cfg.homeY k) type p.sourceChannel m
    else .ok m

/-- The outputs in the order `flit_traverse` works through them. -/
def outputs : List (Chan × Direction) :=
  Chan.all.flatMap fun type => Direction.all.map fun out => (type, out)

/-- `flit_traverse`. -/
def flitTraverse (k : Nat) (m : Mesh) : Except Fault Mesh :=
  outputs.foldlM (fun m (type, out) => sendFlit cfg k type out m) m

/-- The credits of the home port are kept by the memory system. -/
def setHomeCredit (k : Nat) (credit : Chan → Nat) (m : Mesh) : Mesh :=
  m.modRouter k (Router.setHomeCredit credit)

/-- `noc_stage`. -/
def nocStage (k : Nat) (m : Mesh) : Except Fault Mesh := do
  let m ← flitTraverse cfg k m
  return m.modRouter k (Router.arbitrate (cfg.homeX k) (cfg.homeY k))

/-- The part of `cpu_execute` that concerns the network. -/
def cpuExecute (ch : MeshChoice cfg.totalCpus) (k : Nat) (m : Mesh) : Except Fault Mesh := do
  let m ← nocStage cfg k (setHomeCredit k ch.homeCredit m)
  let m ← ch.requests.foldlM (fun m r => nocRequest cfg k r m) m
  return if ch.halt then m else m.queue (.cpuExecute k)

/-- Run one event. -/
def runEvent (ch : MeshChoice cfg.totalCpus) (ev : MeshEvent) (m : Mesh) : Except Fault Mesh :=
  match ev with
  | .cpuExecute k => cpuExecute cfg ch k m
  | .flitArrive p x y type d =>
    m.onRouter (cfg.cpuid x y) (Router.flitArrive cfg.routerIfqSize p type d)
  | .updateCredit x y type d =>
    m.onRouter (cfg.cpuid x y) (Router.updateCredit cfg.routerIfqSize type d)

/-- One step: the next event of the queue. -/
def step (ch : MeshChoice cfg.totalCpus) (m : Mesh) : Except Fault Mesh :=
  match m.pending with
  | [] => .ok m
  | (t, ev) :: rest => runEvent cfg ch ev { m with simCycle := t, pending := rest }

/-- `noc_init`, and the first activation of every node. -/
def initial : Mesh where
  routers _ := { egressCredit := fun _ d => if d = .home then 1 else cfg.routerIfqSize }
  pending := (List.range cfg.totalCpus).map fun k => (0, .cpuExecute k)

/-- The states the network can reach. -/
inductive Reachable : Mesh → Prop
  | initial : Reachable (initial cfg)
  | step {m m' : Mesh} {ch : MeshChoice cfg.totalCpus} : Reachable m → step cfg ch m = .ok m' →
      Reachable m'

/-- The run that makes these choices, one in each step. -/
def run (chs : List (MeshChoice cfg.totalCpus)) (m : Mesh) : Except Fault Mesh :=
  chs.foldlM (fun m ch => step cfg ch m) m

theorem Reachable.run {chs : List (MeshChoice cfg.totalCpus)} {m m' : Mesh}
    (h : Reachable cfg m) (hrun : Mesh.run cfg chs m = .ok m') : Reachable cfg m' := by
  induction chs generalizing m with
  | nil =>
    obtain rfl : m = m' := Except.ok.inj hrun
    exact h
  | cons ch chs ih =>
    rw [Mesh.run, List.foldlM_cons] at hrun
    cases hstep : Mesh.step cfg ch m with
    | error f =>
      rw [hstep] at hrun
      exact absurd hrun (by simp [bind, Except.bind])
    | ok m₁ =>
      rw [hstep] at hrun
      exact ih (h.step hstep) hrun

end Mesh

/-- Two nodes side by side. -/
def MeshConfig.pair : MeshConfig := .ofCpus 1 2 2 (by decide)

/-- Node 0 asks node 1 for two blocks, and both requests get there. -/
def pairRun : List (MeshChoice MeshConfig.pair.totalCpus) :=
  let request (paddr : Nat) : Request MeshConfig.pair.totalCpus := {
    chan := .req
    req := .readShd
    cacheStatus := .invalid
    qid := 0
    target := ⟨0, by decide⟩
    paddr := paddr
    inst := false }
  { requests := [request 0x40000020, request 0x40000060], homeCredit := fun _ => 2 } ::
    List.replicate 14 { homeCredit := fun _ => 2 }

theorem Mesh.pairRun_delivers : ∃ m, Reachable .pair m ∧
    m.delivered.map (fun e : Nat × Letter => (e.1, e.2.1)) = [(1, 0), (1, 1)] := by
  have h : (run .pair pairRun (initial .pair)).map
      (fun m => m.delivered.map fun e : Nat × Letter => (e.1, e.2.1)) = .ok [(1, 0), (1, 1)] := by
    decide +kernel
  cases hrun : run .pair pairRun (initial .pair) with
  | error f =>
    rw [hrun] at h
    exact absurd h (by simp [Except.map])
  | ok m =>
    rw [hrun] at h
    exact ⟨m, Reachable.initial.run .pair hrun, Except.ok.inj h⟩

end Godson

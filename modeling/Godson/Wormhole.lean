import Godson.Order

/-! The router `noc_worm.c`, which sends the flits of a packet one behind the other. Its
input buffers, credits and events are those of `noc.c`; the injection of a packet, the
arbiter and the departure of a flit are its own. -/
namespace Godson.Worm

/-- The kinds of flits. -/
inductive FlitType
  | head | body | tail
  deriving DecidableEq, Repr

/-- `PACK_SIZE`. -/
structure PackSize where
  size : Nat
  positive : 0 < size

/-- The kind that `noc_request` gives to flit `j` of a packet. -/
def PackSize.flitType (pack : PackSize) (j : Nat) : FlitType :=
  if 1 < pack.size ∧ j = pack.size - 1 then .tail
  else if j = 0 then .head
  else .body

/-- The ways to stop: an assertion of the network, an output in use by no input, and a
slot without a flit where one is expected. -/
inductive Fault
  | network (fault : Godson.Fault)
  | inputDirec
  | emptySlot
  deriving DecidableEq, Repr

/-- The fields of `struct router_t` by which a packet keeps an output. -/
structure Ports where
  used : Chan → Direction → Bool := fun _ _ => false
  inputdirec : Chan → Direction → Option Direction := fun _ _ => none

/-- The network. `flitType` is the field `flit_type` of a flit, by its number. `sent` is
history: the flits that have left through an output. -/
structure Net where
  mesh : Mesh
  ports : Nat → Ports := fun _ => {}
  flitType : Nat → FlitType := fun _ => .head
  sent : Nat → Chan → Direction → List Letter := fun _ _ _ => []

section Arbiter

variable (pack : PackSize) (flitType : Nat → FlitType) (x y : Nat) (type : Chan)
  (out : Direction) (r : Router) (s : Ports)

/-- The test on a flit for an output that is free. The right output takes any kind. -/
def asks (p : Flit) : Bool :=
  (out == .right || flitType p.id == .head) && p.wants x y out

/-- The input that gets a free output: the first one after the last that got it. -/
def winner : Option Direction :=
  ((List.range 5).map fun i => Direction.all.getD ((r.egressLastGrant type out + (i + 1)) % 5)
    .home).find? fun d => (r.ingressFirst type d).any (asks flitType x y out)

/-- Some input holds a flit of the type, and the output has a credit. -/
def active : Bool :=
  Direction.all.any (fun d => decide (r.ingressNum type d > 0)) && r.hasCredit type out

/-- What the arbiter leaves for one output. -/
structure Service where
  grant : Option Flit
  lastGrant : Nat
  used : Bool
  inputdirec : Option Direction

/-- The output stays as it is, without a grant. -/
def idle : Service where
  grant := none
  lastGrant := r.egressLastGrant type out
  used := s.used type out
  inputdirec := s.inputdirec type out

/-- The block of `arbitrate_worm` for one output. -/
def serve : Service :=
  if active type out r then
    if s.used type out then
      match s.inputdirec type out with
      | none => idle type out r s
      | some d =>
        match r.ingressFirst type d with
        | none => idle type out r s
        | some p =>
          if flitType p.id = .tail then ⟨some p, d.number, false, none⟩
          else ⟨some p, d.number, true, some d⟩
    else
      match winner flitType x y type out r with
      | none => idle type out r s
      | some d => ⟨r.ingressFirst type d, d.number, decide (1 < pack.size), some d⟩
  else idle type out r s

/-- `fatal("input direc wrong")`. -/
def lost : Bool :=
  active type out r && s.used type out && (s.inputdirec type out).isNone

/-- `arbitrate_worm`. -/
def arbitrateWorm : Except Fault (Router × Ports) :=
  if Mesh.outputs.any fun (type, out) => lost type out r s then .error .inputDirec
  else .ok
    ({ r with
      egressGrant := fun type out => (serve pack flitType x y type out r s).grant
      egressLastGrant := fun type out => (serve pack flitType x y type out r s).lastGrant },
    { used := fun type out => (serve pack flitType x y type out r s).used
      inputdirec := fun type out => (serve pack flitType x y type out r s).inputdirec })

end Arbiter

section Router

variable (size : Nat) (r : Router)

/-- Write a field of a flit, for all pointers to it. -/
def assign (id : Nat) (f : Flit → Flit) : Router :=
  let write := Option.map fun p : Flit => if p.id = id then f p else p
  { r with
    ingress := fun type d i => write (r.ingress type d i)
    egressGrant := fun type out => write (r.egressGrant type out) }

/-- Let a slot of a buffer point to a flit. -/
def setSlot (type : Chan) (d : Direction) (i : Nat) (p : Flit) : Router :=
  { r with ingress := update2 r.ingress type d (Function.update (r.ingress type d) i (some p)) }

/-- `flit_traverse` changes a granted flit that is not at the head of its buffer with the
one that is, which it takes to come next. -/
def moveToHead (p : Flit) (type : Chan) : Except Fault (Flit × Router) :=
  let d := p.sourceChannel
  let head := r.ingressHead type d
  if p.index ≠ head then
    let secp := (head + 1) % size
    match r.ingress type d head with
    | none => .error .emptySlot
    | some just =>
      let r := assign r just.id fun q => { q with index := secp }
      let r := setSlot r type d secp { just with index := secp }
      let r := assign r p.id fun q => { q with index := head }
      .ok ({ p with index := head }, setSlot r type d head { p with index := head })
  else .ok (p, r)

/-- The end of `noc_request`: the flits of a packet are counted together. -/
def countPacket (pack : PackSize) (type : Chan) (d : Direction) : Except Fault Router :=
  let num := r.ingressNum type d + pack.size
  if num ≤ size then .ok { r with ingressNum := update2 r.ingressNum type d num }
  else .error (.network .ingressNum)

end Router

section Network

variable (cfg : MeshConfig) (pack : PackSize)

/-- Go on with the mesh that a function of the network leaves. -/
def Net.onMesh (w : Net) (m : Except Godson.Fault Mesh) : Except Fault Net :=
  (m.mapError Fault.network).map fun mesh => { w with mesh }

/-- Flit `j` of a packet. -/
def flitOf (n : Nat) (packet : Packet) (j : Nat) : Flit where
  id := n + j
  sourceChannel := .home
  index := 0
  destX := packet.dest % cfg.meshWidth
  destY := packet.dest / cfg.meshWidth
  packet := packet

/-- `noc_request` at node `k`. An input buffer without room for a whole packet refuses. -/
def nocRequest (k : Nat) (q : Request cfg.totalCpus) (w : Net) : Except Fault Net :=
  if (w.mesh.routers k).ingressNum q.chan .home > (cfg.routerIfqSize : Int) - pack.size then .ok w
  else do
    let n := w.mesh.accepted.length
    let flits := (List.range pack.size).map (flitOf cfg n (Mesh.packetOf cfg k q))
    let r := flits.foldl (fun r p => Router.store cfg.routerIfqSize p q.chan .home r)
      (w.mesh.routers k)
    let r ← countPacket cfg.routerIfqSize r pack q.chan .home
    return { w with
      mesh := { w.mesh with accepted := w.mesh.accepted ++ flits.map Flit.letter }.setRouter k r
      flitType := fun id =>
        if n ≤ id ∧ id < n + pack.size then pack.flitType (id - n) else w.flitType id }

/-- The flit goes on its way. At the home port only the last flit of a packet is looked at. -/
def launch (flitType : Nat → FlitType) (k : Nat) (p : Flit) (type : Chan) (out : Direction)
    (m : Mesh) : Except Godson.Fault Mesh :=
  if out = .home ∧ ¬ (flitType p.id = .tail ∨ pack.size = 1) then
    .ok { m with delivered := m.delivered ++ [(k, p.letter)] }
  else m.launch cfg k p type out

/-- One output of `flit_traverse`. -/
def sendFlit (k : Nat) (type : Chan) (out : Direction) (w : Net) : Except Fault Net :=
  match (w.mesh.routers k).egressGrant type out with
  | none => .ok w
  | some p =>
    if Mesh.mayLeave cfg (cfg.homeX k) (cfg.homeY k) out then do
      let (p, r) ← moveToHead cfg.routerIfqSize (w.mesh.routers k) p type
      let w ← w.onMesh (launch cfg pack w.flitType k p type out (w.mesh.setRouter k r))
      let w ← w.onMesh (w.mesh.onRouter k (Router.packetDepart cfg.routerIfqSize p type out))
      let w ← if p.sourceChannel = out then .ok w
        else w.onMesh (w.mesh.sendCredit cfg (cfg.homeX k) (cfg.homeY k) type p.sourceChannel)
      return { w with
        sent := Function.update w.sent k
          (update2 (w.sent k) type out (w.sent k type out ++ [p.letter])) }
    else .ok w

/-- `flit_traverse`. -/
def flitTraverse (k : Nat) (w : Net) : Except Fault Net :=
  Mesh.outputs.foldlM (fun w (type, out) => sendFlit cfg pack k type out w) w

/-- `noc_stage`. -/
def nocStage (k : Nat) (w : Net) : Except Fault Net := do
  let w ← flitTraverse cfg pack k w
  let (r, s) ← arbitrateWorm pack w.flitType (cfg.homeX k) (cfg.homeY k) (w.mesh.routers k)
    (w.ports k)
  return { w with mesh := w.mesh.setRouter k r, ports := Function.update w.ports k s }

/-- The part of `cpu_execute` that concerns the network. -/
def cpuExecute (ch : MeshChoice cfg.totalCpus) (k : Nat) (w : Net) : Except Fault Net := do
  let w ← nocStage cfg pack k { w with mesh := w.mesh.setHomeCredit k ch.homeCredit }
  let w ← ch.requests.foldlM (fun w q => nocRequest cfg pack k q w) w
  return if ch.halt then w else { w with mesh := w.mesh.queue (.cpuExecute k) }

/-- Run one event. -/
def runEvent (ch : MeshChoice cfg.totalCpus) (ev : MeshEvent) (w : Net) : Except Fault Net :=
  match ev with
  | .cpuExecute k => cpuExecute cfg pack ch k w
  | _ => w.onMesh (w.mesh.runEvent cfg ch ev)

/-- One step: the next event of the queue. -/
def step (ch : MeshChoice cfg.totalCpus) (w : Net) : Except Fault Net :=
  match w.mesh.pending with
  | [] => .ok w
  | (t, ev) :: rest =>
    runEvent cfg pack ch ev { w with mesh := { w.mesh with simCycle := t, pending := rest } }

/-- `noc_init`, and the first activation of every node. -/
def initial : Net where
  mesh := .initial cfg

/-- The run that makes these choices, one in each step. -/
def run (chs : List (MeshChoice cfg.totalCpus)) (w : Net) : Except Fault Net :=
  chs.foldlM (fun w ch => step cfg pack ch w) w

/-- The states the network can reach. -/
inductive Reachable : Net → Prop
  | initial : Reachable (initial cfg)
  | step {w w' : Net} {ch : MeshChoice cfg.totalCpus} : Reachable w →
      step cfg pack ch w = .ok w' → Reachable w'

end Network

end Godson.Worm

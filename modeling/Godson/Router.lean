import Mathlib.Data.Fintype.Basic
import Mathlib.Data.Finset.Insert
import Godson.State

/-! The router of one node (`noc.c` with the round robin arbiter `noc_rr.c`) and
the mesh it belongs to. The network is modelled apart from the memory system,
which sees it only through the packets it injects and receives. -/
namespace Godson

/-- Channel direction. -/
inductive Direction
  | home | up | down | left | right
  deriving DecidableEq, Repr

namespace Direction

/-- The directions in the order of their numbers. -/
def all : List Direction := [home, up, down, left, right]

instance : Fintype Direction where
  elems := {home, up, down, left, right}
  complete d := by cases d <;> decide

/-- The number of a direction. -/
def number : Direction → Nat
  | home => 0
  | up => 1
  | down => 2
  | left => 3
  | right => 4

/-- The direction a flit sent this way arrives from. -/
def opposite : Direction → Direction
  | home => home
  | up => down
  | down => up
  | left => right
  | right => left

end Direction

instance : Fintype Chan where
  elems := {.req, .invn, .wtbk, .resp}
  complete c := by cases c <;> decide

/-- The mesh. `owner` is `PADDR_OWNER`, the home node of an address. -/
structure MeshConfig where
  meshWidth : Nat
  meshHeight : Nat
  meshWidth_pos : 0 < meshWidth
  owner : Nat → Nat
  owner_lt (paddr : Nat) : owner paddr < meshWidth * meshHeight
  routerIfqSize : Nat

namespace MeshConfig

/-- The mesh `noc_init` makes for `2 ^ cpuBits` cores. -/
def ofCpus (cpuBits meshWidth routerIfqSize : Nat) (h : meshWidth ∣ 2 ^ cpuBits) : MeshConfig where
  meshWidth := meshWidth
  meshHeight := 2 ^ cpuBits / meshWidth
  meshWidth_pos := Nat.pos_of_dvd_of_pos h (Nat.two_pow_pos _)
  owner := ownerOf cpuBits
  owner_lt paddr := by
    rw [Nat.mul_div_cancel' h]
    exact Nat.mod_lt _ (Nat.two_pow_pos _)
  routerIfqSize := routerIfqSize

variable (cfg : MeshConfig)

def totalCpus : Nat := cfg.meshWidth * cfg.meshHeight

/-- `home_x` of a node. -/
def homeX (k : Nat) : Nat := k % cfg.meshWidth

/-- `home_y` of a node. -/
def homeY (k : Nat) : Nat := k / cfg.meshWidth

/-- `home_x + home_y * mesh_width`. -/
def cpuid (x y : Nat) : Nat := x + y * cfg.meshWidth

end MeshConfig

/-- `struct inputbuffer`. The source tells packets apart by their address: `id`
is the number of the `malloc` call that made it. -/
structure Flit where
  id : Nat
  sourceChannel : Direction
  index : Nat
  destX : Nat
  destY : Nat
  packet : Packet
  deriving DecidableEq, Repr

/-- `struct router_t`. -/
structure Router where
  ingress : Chan → Direction → Nat → Option Flit := fun _ _ _ => none
  ingressHead : Chan → Direction → Nat := fun _ _ => 0
  ingressNum : Chan → Direction → Int := fun _ _ => 0
  egressCredit : Chan → Direction → Int
  egressLastGrant : Chan → Direction → Nat := fun _ _ => 6
  egressGrant : Chan → Direction → Option Flit := fun _ _ => none

/-- Change the value for one message type and direction. -/
def update2 {β : Type} (f : Chan → Direction → β) (type : Chan) (d : Direction) (b : β) :
    Chan → Direction → β :=
  Function.update f type (Function.update (f type) d b)

/-- The assertions of the network. -/
inductive Fault
  | homeEnter | ingressNum | egressCredit | neighbour
  deriving DecidableEq, Repr

namespace Router

variable (size : Nat)

/-- Put a flit into the first free slot behind the head. A full buffer drops it. -/
def store (p : Flit) (type : Chan) (d : Direction) (r : Router) : Router :=
  match Ring.scanFrom size (r.ingressHead type d) fun i => (r.ingress type d i).isNone with
  | some pos =>
    { r with ingress := update2 r.ingress type d (Function.update (r.ingress type d) pos
        (some { p with sourceChannel := d, index := pos })) }
  | none => r

/-- One more flit in a buffer. -/
def countIn (type : Chan) (d : Direction) (r : Router) : Except Fault Router :=
  let num := r.ingressNum type d + 1
  if num ≤ size then .ok { r with ingressNum := update2 r.ingressNum type d num }
  else .error .ingressNum

/-- `flit_arrive` at this router. -/
def flitArrive (p : Flit) (type : Chan) (d : Direction) (r : Router) : Except Fault Router :=
  countIn size type d (store size p type d r)

/-- `update_ingress_head`. -/
def updateIngressHead (type : Chan) (d : Direction) (r : Router) : Router :=
  match Ring.scanFrom size (r.ingressHead type d) fun i => (r.ingress type d i).isSome with
  | some pos => { r with ingressHead := update2 r.ingressHead type d pos }
  | none => r

/-- `packet_depart`. -/
def packetDepart (p : Flit) (type : Chan) (out : Direction) (r : Router) : Except Fault Router :=
  let d := p.sourceChannel
  let r := updateIngressHead size type d
    { r with ingress := update2 r.ingress type d (Function.update (r.ingress type d) p.index none) }
  let num := r.ingressNum type d - 1
  let credit := r.egressCredit type out - if out = .home then 0 else 1
  if num < 0 ∨ size < num then .error .ingressNum
  else if credit < 0 then .error .egressCredit
  else .ok { r with
    ingressNum := update2 r.ingressNum type d num
    egressCredit := update2 r.egressCredit type out credit }

/-- `update_credit` of a link. -/
def updateCredit (type : Chan) (d : Direction) (r : Router) : Except Fault Router :=
  let credit := r.egressCredit type d + 1
  if credit ≤ size then .ok { r with egressCredit := update2 r.egressCredit type d credit }
  else .error .egressCredit

/-- The credits of the home port are those the memory system says. -/
def setHomeCredit (credit : Chan → Nat) (r : Router) : Router :=
  { r with egressCredit := fun type d => if d = .home then credit type else r.egressCredit type d }

/-- The credit `arbitrate` wants to see before it grants an output. -/
def hasCredit (type : Chan) (out : Direction) (r : Router) : Bool :=
  if out = .home then r.egressCredit type .home > (if type = .req then 1 else 0) || type == .resp
  else r.egressCredit type out > 0

/-- The flit at the head of an input buffer that is not empty. -/
def ingressFirst (type : Chan) (d : Direction) (r : Router) : Option Flit :=
  if r.ingressNum type d > 0 then r.ingress type d (r.ingressHead type d) else none

end Router

/-- The five tests of `arbitrate`: does the flit want this output of the router at `(x, y)`? -/
def Flit.wants (p : Flit) (x y : Nat) : Direction → Bool
  | .home => p.destX == x && p.destY == y
  | .up => p.destX == x && decide (p.destY < y)
  | .down => p.destX == x && decide (p.destY > y)
  | .left => decide (p.destX < x)
  | .right => decide (p.destX > x)

/-- `select_dest_channel` of the wave front router `noc_wf.c`. -/
def Flit.selectDestChannel (p : Flit) (x y : Nat) : Direction :=
  if p.destX = x then
    if p.destY = y then .home
    else if p.destY > y then .down
    else .up
  else if p.destX < x then .left
  else .right

namespace Router

/-- The input that gets an output: the first one after the last that got it. -/
def winner (x y : Nat) (type : Chan) (out : Direction) (r : Router) : Option Direction :=
  if r.hasCredit type out then
    ((List.range 5).map fun i => Direction.all.getD ((r.egressLastGrant type out + (i + 1)) % 5)
      .home).find? fun d => ((r.ingressFirst type d).any fun p => p.wants x y out)
  else none

/-- `arbitrate`. -/
def arbitrate (x y : Nat) (r : Router) : Router :=
  { r with
    egressGrant := fun type out => (winner x y type out r).bind fun d => r.ingressFirst type d
    egressLastGrant := fun type out => match winner x y type out r with
      | some d => d.number
      | none => r.egressLastGrant type out }

end Router

end Godson

import Godson.MeshStep

/-! What the invariant of the network says about single links: credits are
conserved, nothing overflows, and no cycle of input buffers can wait for each other. -/
namespace Godson

namespace Router

/-- Number of slots of an input buffer that hold a flit with property `f`. -/
def occupied (size : Nat) (r : Router) (type : Chan) (d : Direction) (f : Flit → Bool) : Nat :=
  (List.range size).countP fun i => (r.ingress type d i).any f

theorem Wf.occupied_eq {size : Nat} {r : Router} (h : r.Wf size) (type : Chan) (d : Direction)
    (f : Flit → Bool) : r.occupied size type d f = (r.buf size type d).countP f :=
  (h.holds type d).countP_slots f

end Router

namespace Mesh

variable {cfg : MeshConfig} {m : Mesh}

/-- Every link accounts for all its credits: those of the sender, the flits on
the wire, the occupied slots of the receiver and the credits on their way back.
So no credit is negative, `ingress_num` is the number of occupied slots, an
arriving flit finds a free slot, and no assertion of the network fails. -/
theorem link_credits_conserved (h : Reachable cfg m) :
    (∀ k < cfg.totalCpus, ∀ type d j, cfg.hop k d = some j →
      (m.routers k).egressCredit type d + m.wires cfg j type d.opposite +
        (m.routers j).occupied cfg.routerIfqSize type d.opposite (fun _ => true) +
        m.returns cfg k type d = cfg.routerIfqSize) ∧
    (∀ k < cfg.totalCpus, ∀ type d, 0 ≤ (m.routers k).egressCredit type d) ∧
    (∀ k < cfg.totalCpus, ∀ type d, (m.routers k).ingressNum type d =
      (m.routers k).occupied cfg.routerIfqSize type d fun _ => true) ∧
    (∀ t p x y type d, (t, MeshEvent.flitArrive p x y type d) ∈ m.pending →
      (Ring.scanFrom cfg.routerIfqSize ((m.routers (cfg.cpuid x y)).ingressHead type d) fun i =>
        ((m.routers (cfg.cpuid x y)).ingress type d i).isNone).isSome) ∧
    ∀ ch, ∃ m', step cfg ch m = .ok m' := by
  have hs := h.inv.sound
  have hocc : ∀ k type d, (m.routers k).occupied cfg.routerIfqSize type d (fun _ => true) =
      (m.buf cfg k type d).length := fun k type d => by
    rw [(hs.wf k).occupied_eq, List.countP_true]
    rfl
  refine ⟨fun k hk type d j hj => ?_, fun k hk type d => hs.credit k hk type d,
    fun k _ type d => ?_, fun t p x y type d he => ?_, fun ch => ?_⟩
  · rw [hocc]
    exact hs.link k hk type d j hj
  · rw [hocc]
    exact (hs.wf k).num type d
  · obtain ⟨hx, hy, hd, hfit⟩ := hs.event _ he
    have hwires : 0 < m.wires cfg (cfg.cpuid x y) type d :=
      List.countP_pos_iff.mpr ⟨_, he, by simp [MeshEvent.isFlitTo]⟩
    have hinto := hs.link_into type (cfg.cpuid_lt hx hy) (hfit.entered hd)
    rw [buf] at hinto
    rw [((hs.wf _).holds type d).scan_free (by omega)]
    rfl
  · obtain ⟨m', hok, -⟩ := step_spec ch h.inv
    exact ⟨m', hok⟩

theorem link_credits_conserved_pair : ∃ m : Mesh, m.delivered.length = 2 ∧
    ((m.routers 0).egressCredit .req .right + m.wires .pair 1 .req .left +
      (m.routers 1).occupied MeshConfig.pair.routerIfqSize .req .left (fun _ => true) +
      m.returns .pair 0 .req .right = 2) := by
  obtain ⟨m, hm, hdel⟩ := pairRun_delivers
  refine ⟨m, by simpa using congrArg List.length hdel, ?_⟩
  exact (link_credits_conserved hm).1 0 (by decide) .req .right 1 (by decide)

/-- An input buffer of a node of the mesh. -/
structure Channel where
  node : Nat
  input : Direction

/-- One input buffer waits for another: in some state of the network the flit at
the head of the first wants an output that leads to the second. -/
def WaitsFor (cfg : MeshConfig) (c c' : Channel) : Prop :=
  ∃ m type p out, Reachable cfg m ∧ c.node < cfg.totalCpus ∧
    (m.routers c.node).ingressFirst type c.input = some p ∧
    p.wants (cfg.homeX c.node) (cfg.homeY c.node) out ∧ out ≠ .home ∧
    cfg.hop c.node out = some c'.node ∧ c'.input = out.opposite

/-- The round robin router cannot deadlock: a rank falls along every requested
hop, and every requested hop leads to a node of the mesh. The wave front router
computes the same outputs. -/
theorem routing_deadlock_free (cfg : MeshConfig) :
    (∃ rank : Channel → Nat, ∀ c c', WaitsFor cfg c c' → rank c' < rank c) ∧
    (∀ m k type d p out, Reachable cfg m → k < cfg.totalCpus →
      (m.routers k).ingressFirst type d = some p →
      p.wants (cfg.homeX k) (cfg.homeY k) out → out ≠ .home → (cfg.hop k out).isSome) ∧
    ∀ (p : Flit) x y out, p.wants x y out = true ↔ out = p.selectDestChannel x y := by
  have hfits : ∀ m k type d p, Reachable cfg m → k < cfg.totalCpus →
      (m.routers k).ingressFirst type d = some p → p.Fits cfg k type d := by
    intro m k type d p hm hk hp
    rw [(hm.inv.sound.wf k).ingressFirst_eq] at hp
    exact hm.inv.sound.fits k hk type d p (List.mem_of_head? hp)
  refine ⟨⟨fun c => cfg.rank c.node c.input, ?_⟩, ?_, Flit.wants_iff⟩
  · rintro c c' ⟨m, type, p, out, hm, hk, hp, hw, hout, hhop, hin⟩
    obtain ⟨j, hj, -, -, -, hrank⟩ :=
      (hfits m c.node type c.input p hm hk hp).hop_onRoute hk hw hout
    obtain rfl : c'.node = j := Option.some.inj (hhop.symm.trans hj)
    simpa only [hin] using hrank
  · intro m k type d p out hm hk hp hw hout
    obtain ⟨j, hj, -⟩ := (hfits m k type d p hm hk hp).hop_onRoute hk hw hout
    rw [hj]
    rfl

end Mesh

end Godson

import Godson.Buffer

/-! What one event does to the mesh, as a few moves, and the invariant every move
keeps: buffers are queues of flits that fit, and every link accounts for its credits. -/
namespace Godson

namespace MeshEvent

variable (cfg : MeshConfig)

/-- A flit on the wire to an input buffer. -/
def isFlitTo (k : Nat) (type : Chan) (d : Direction) : MeshEvent → Bool
  | flitArrive _ x y t e => cfg.cpuid x y == k && t == type && e == d
  | _ => false

/-- A credit on its way back to an output. -/
def isCreditTo (k : Nat) (type : Chan) (d : Direction) : MeshEvent → Bool
  | updateCredit x y t e => cfg.cpuid x y == k && t == type && e == d
  | _ => false

/-- Events name nodes of the mesh, and links that exist. -/
def Ok : MeshEvent → Prop
  | cpuExecute k => k < cfg.totalCpus
  | flitArrive p x y t d => x < cfg.meshWidth ∧ y < cfg.meshHeight ∧ d ≠ .home ∧
      p.Fits cfg (cfg.cpuid x y) t d
  | updateCredit x y _ d => x < cfg.meshWidth ∧ y < cfg.meshHeight ∧
      (cfg.hop (cfg.cpuid x y) d).isSome

end MeshEvent

namespace Mesh

variable (cfg : MeshConfig) (m : Mesh)

/-- The flits in an input buffer of a node. -/
def buf (k : Nat) (type : Chan) (d : Direction) : List Flit :=
  (m.routers k).buf cfg.routerIfqSize type d

/-- Number of flits on the wire to an input buffer. -/
def wires (k : Nat) (type : Chan) (d : Direction) : Nat :=
  m.pending.countP fun e => e.2.isFlitTo cfg k type d

/-- Number of credits on their way back to an output. -/
def returns (k : Nat) (type : Chan) (d : Direction) : Nat :=
  m.pending.countP fun e => e.2.isCreditTo cfg k type d

/-- Everything the link from output `d` of node `k` to node `j` accounts for. -/
def load (k : Nat) (type : Chan) (d : Direction) (j : Nat) : Int :=
  (m.routers k).egressCredit type d + m.wires cfg j type d.opposite +
    (m.buf cfg j type d.opposite).length + m.returns cfg k type d

/-- The invariant of the network, apart from the grants. -/
structure Sound : Prop where
  wf : ∀ k, (m.routers k).Wf cfg.routerIfqSize
  fits : ∀ k < cfg.totalCpus, ∀ type d, ∀ p ∈ m.buf cfg k type d, p.Fits cfg k type d
  event : ∀ e ∈ m.pending, e.2.Ok cfg
  credit : ∀ k < cfg.totalCpus, ∀ type d, 0 ≤ (m.routers k).egressCredit type d
  link : ∀ k < cfg.totalCpus, ∀ type d j, cfg.hop k d = some j →
    m.load cfg k type d j = cfg.routerIfqSize

/-- Return a credit to the node a flit came from. -/
def giveBack (k : Nat) (type : Chan) (d : Direction) : Mesh :=
  match cfg.hop k d with
  | some i => m.queue (.updateCredit (cfg.homeX i) (cfg.homeY i) type d.opposite)
  | none => m

def setRouter (k : Nat) (r : Router) : Mesh :=
  { m with routers := Function.update m.routers k r }

/-- The moves of the network. -/
inductive Move : Mesh → Mesh → Prop
  | accept {m : Mesh} {k : Nat} {type : Chan} {p : Flit} {r : Router} :
      k < cfg.totalCpus → p.Fits cfg k type .home → p.id = m.accepted.length →
      p.packet.cpuid = k →
      (m.buf cfg k type .home).length < cfg.routerIfqSize →
      (m.routers k).flitArrive cfg.routerIfqSize p type .home = .ok r →
      Move m ({ m with accepted := m.accepted ++ [p.letter] }.setRouter k r)
  | deliver {m : Mesh} {k : Nat} {type : Chan} {p : Flit} {l : List Flit} {r : Router} :
      k < cfg.totalCpus → m.buf cfg k type p.sourceChannel = p :: l →
      p.wants (cfg.homeX k) (cfg.homeY k) .home →
      (m.routers k).packetDepart cfg.routerIfqSize p type .home = .ok r →
      Move m (({ m with delivered := m.delivered ++ [(k, p.letter)] }.setRouter k r).giveBack cfg
        k type p.sourceChannel)
  | depart {m : Mesh} {k j : Nat} {type : Chan} {out : Direction} {p : Flit} {l : List Flit}
      {r : Router} :
      k < cfg.totalCpus → m.buf cfg k type p.sourceChannel = p :: l →
      p.wants (cfg.homeX k) (cfg.homeY k) out → cfg.hop k out = some j →
      m.wires cfg j type out.opposite = 0 → 0 < (m.routers k).egressCredit type out →
      (m.routers k).packetDepart cfg.routerIfqSize p type out = .ok r →
      Move m (((m.queue (.flitArrive p (cfg.homeX j) (cfg.homeY j) type out.opposite)).setRouter
        k r).giveBack cfg k type p.sourceChannel)
  | arrive {m : Mesh} {t : Nat} {p : Flit} {x y : Nat} {type : Chan} {d : Direction}
      {rest : List (Nat × MeshEvent)} {r : Router} :
      m.pending = (t, .flitArrive p x y type d) :: rest →
      (m.routers (cfg.cpuid x y)).flitArrive cfg.routerIfqSize p type d = .ok r →
      Move m ({ m with simCycle := t, pending := rest }.setRouter (cfg.cpuid x y) r)
  | credit {m : Mesh} {t x y : Nat} {type : Chan} {d : Direction}
      {rest : List (Nat × MeshEvent)} {r : Router} :
      m.pending = (t, .updateCredit x y type d) :: rest →
      (m.routers (cfg.cpuid x y)).updateCredit cfg.routerIfqSize type d = .ok r →
      Move m ({ m with simCycle := t, pending := rest }.setRouter (cfg.cpuid x y) r)
  | activate {m : Mesh} {t k : Nat} {rest : List (Nat × MeshEvent)} :
      m.pending = (t, .cpuExecute k) :: rest →
      Move m { m with simCycle := t, pending := rest }
  | requeue {m : Mesh} {k : Nat} : k < cfg.totalCpus → Move m (m.queue (.cpuExecute k))
  | internal {m : Mesh} {k : Nat} {r : Router} :
      r.ingress = (m.routers k).ingress → r.ingressHead = (m.routers k).ingressHead →
      r.ingressNum = (m.routers k).ingressNum →
      (∀ type d, d ≠ .home → r.egressCredit type d = (m.routers k).egressCredit type d) →
      (∀ type, 0 ≤ r.egressCredit type .home) →
      Move m (m.setRouter k r)

variable {cfg m}

/-! ### What the moves do to the views -/

@[simp] theorem routers_queue (ev : MeshEvent) : (m.queue ev).routers = m.routers := rfl

@[simp] theorem buf_queue (ev : MeshEvent) : (m.queue ev).buf cfg = m.buf cfg := rfl

@[simp] theorem routers_giveBack (k : Nat) (type : Chan) (d : Direction) :
    (m.giveBack cfg k type d).routers = m.routers := by
  unfold giveBack
  split <;> rfl

theorem routers_setRouter (k i : Nat) (r : Router) :
    (m.setRouter k r).routers i = if i = k then r else m.routers i := by
  by_cases h : i = k
  · subst h
    simp [setRouter]
  · simp [setRouter, h]

@[simp] theorem pending_setRouter (k : Nat) (r : Router) :
    (m.setRouter k r).pending = m.pending := rfl

@[simp] theorem wires_setRouter (k : Nat) (r : Router) :
    (m.setRouter k r).wires cfg = m.wires cfg := rfl

@[simp] theorem returns_setRouter (k : Nat) (r : Router) :
    (m.setRouter k r).returns cfg = m.returns cfg := rfl

theorem wires_queue (ev : MeshEvent) (k : Nat) (type : Chan) (d : Direction) :
    (m.queue ev).wires cfg k type d =
      m.wires cfg k type d + if ev.isFlitTo cfg k type d then 1 else 0 := by
  simp [wires, queue]

theorem returns_queue (ev : MeshEvent) (k : Nat) (type : Chan) (d : Direction) :
    (m.queue ev).returns cfg k type d =
      m.returns cfg k type d + if ev.isCreditTo cfg k type d then 1 else 0 := by
  simp [returns, queue]

@[simp] theorem wires_giveBack (k i : Nat) (type t : Chan) (d e : Direction) :
    (m.giveBack cfg k type d).wires cfg i t e = m.wires cfg i t e := by
  unfold giveBack
  split
  · simp [wires_queue, MeshEvent.isFlitTo]
  · rfl

theorem returns_giveBack (k i : Nat) (type t : Chan) (d e : Direction) :
    (m.giveBack cfg k type d).returns cfg i t e =
      m.returns cfg i t e + if cfg.hop k d = some i ∧ type = t ∧ d.opposite = e then 1 else 0 := by
  unfold giveBack
  cases h : cfg.hop k d with
  | none => simp
  | some j =>
    simp only [returns_queue, MeshEvent.isCreditTo, MeshConfig.cpuid_home, Bool.and_eq_true,
      beq_iff_eq, Option.some.injEq, and_assoc]

/-- What is counted on a wire is there. -/
theorem exists_wire {k : Nat} {type : Chan} {d : Direction} (h : m.wires cfg k type d ≠ 0) :
    ∃ t p x y, (t, .flitArrive p x y type d) ∈ m.pending ∧ cfg.cpuid x y = k := by
  obtain ⟨⟨t, ev⟩, he, hflit⟩ := List.countP_pos_iff.mp (Nat.pos_of_ne_zero h)
  cases ev with
  | flitArrive p x y ty e =>
    simp only [MeshEvent.isFlitTo, Bool.and_eq_true, beq_iff_eq] at hflit
    obtain ⟨⟨hnode, rfl⟩, rfl⟩ := hflit
    exact ⟨t, p, x, y, he, hnode⟩
  | cpuExecute i => simp [MeshEvent.isFlitTo] at hflit
  | updateCredit x y ty e => simp [MeshEvent.isFlitTo] at hflit

theorem exists_return {k : Nat} {type : Chan} {d : Direction} (h : m.returns cfg k type d ≠ 0) :
    ∃ t x y, (t, .updateCredit x y type d) ∈ m.pending ∧ cfg.cpuid x y = k := by
  obtain ⟨⟨t, ev⟩, he, hcredit⟩ := List.countP_pos_iff.mp (Nat.pos_of_ne_zero h)
  cases ev with
  | updateCredit x y ty e =>
    simp only [MeshEvent.isCreditTo, Bool.and_eq_true, beq_iff_eq] at hcredit
    obtain ⟨⟨hnode, rfl⟩, rfl⟩ := hcredit
    exact ⟨t, x, y, he, hnode⟩
  | cpuExecute i => simp [MeshEvent.isCreditTo] at hcredit
  | flitArrive p x y ty e => simp [MeshEvent.isCreditTo] at hcredit

theorem load_congr {m' : Mesh} {k j : Nat} {type : Chan} {d : Direction}
    (hc : (m'.routers k).egressCredit type d = (m.routers k).egressCredit type d)
    (hw : m'.wires cfg j type d.opposite = m.wires cfg j type d.opposite)
    (hb : m'.buf cfg j type d.opposite = m.buf cfg j type d.opposite)
    (hr : m'.returns cfg k type d = m.returns cfg k type d) :
    m'.load cfg k type d j = m.load cfg k type d j := by
  simp only [load, hc, hw, hb, hr]

theorem wires_pop {t : Nat} {ev : MeshEvent} {rest : List (Nat × MeshEvent)}
    (h : m.pending = (t, ev) :: rest) (k : Nat) (type : Chan) (d : Direction) :
    m.wires cfg k type d = { m with simCycle := t, pending := rest }.wires cfg k type d +
      if ev.isFlitTo cfg k type d then 1 else 0 := by
  simp [wires, h, List.countP_cons]

theorem returns_pop {t : Nat} {ev : MeshEvent} {rest : List (Nat × MeshEvent)}
    (h : m.pending = (t, ev) :: rest) (k : Nat) (type : Chan) (d : Direction) :
    m.returns cfg k type d = { m with simCycle := t, pending := rest }.returns cfg k type d +
      if ev.isCreditTo cfg k type d then 1 else 0 := by
  simp [returns, h, List.countP_cons]

theorem buf_setRouter (k i : Nat) (r : Router) :
    (m.setRouter k r).buf cfg i = if i = k then r.buf cfg.routerIfqSize else m.buf cfg i := by
  funext type d
  simp only [buf, routers_setRouter]
  split_ifs <;> rfl

@[simp] theorem buf_giveBack (k : Nat) (type : Chan) (d : Direction) :
    (m.giveBack cfg k type d).buf cfg = m.buf cfg := by
  funext i t e
  simp only [buf, routers_giveBack]

theorem mem_giveBack {k : Nat} {type : Chan} {d : Direction} {e : Nat × MeshEvent}
    (h : e ∈ (m.giveBack cfg k type d).pending) :
    e ∈ m.pending ∨ ∃ i, cfg.hop k d = some i ∧
      e.2 = .updateCredit (cfg.homeX i) (cfg.homeY i) type d.opposite := by
  unfold giveBack at h
  split at h
  · rename_i i hi
    rcases EventQueue.mem_insert.mp h with rfl | h
    · exact .inr ⟨i, hi, rfl⟩
    · exact .inl h
  · exact .inl h

/-- The event that returns a credit is in order. -/
theorem ok_giveBack {k i : Nat} {type : Chan} {d : Direction} (hk : k < cfg.totalCpus)
    (h : cfg.hop k d = some i) :
    (MeshEvent.updateCredit (cfg.homeX i) (cfg.homeY i) type d.opposite).Ok cfg := by
  obtain ⟨hi, hback⟩ := cfg.hop_back hk h
  exact ⟨cfg.homeX_lt i, cfg.homeY_lt hi, by rw [cfg.cpuid_home, hback]; rfl⟩

/-- No link ends in a home port. -/
theorem hop_ne_home {k j : Nat} {d : Direction} (h : cfg.hop k d = some j) : d ≠ .home := by
  rintro rfl
  simp [MeshConfig.hop] at h

/-- The load of a link does not change when its parts change by amounts that cancel out. -/
theorem load_shift {m' : Mesh} {k j : Nat} {type : Chan} {d : Direction} (a b c e : Int)
    (hc : (m'.routers k).egressCredit type d = (m.routers k).egressCredit type d + a)
    (hw : (m'.wires cfg j type d.opposite : Int) = m.wires cfg j type d.opposite + b)
    (hb : ((m'.buf cfg j type d.opposite).length : Int) =
      (m.buf cfg j type d.opposite).length + c)
    (hr : (m'.returns cfg k type d : Int) = m.returns cfg k type d + e) (hsum : a + b + c + e = 0) :
    m'.load cfg k type d j = m.load cfg k type d j := by
  simp only [load, hc, hw, hb, hr]
  omega

theorem credit_setRouter (k i : Nat) (r : Router) (type : Chan) (d : Direction) :
    ((m.setRouter k r).routers i).egressCredit type d =
      if i = k then r.egressCredit type d else (m.routers i).egressCredit type d := by
  rw [routers_setRouter]
  split_ifs <;> rfl

/-- The number of flits in a buffer of a router of which one buffer has changed. -/
theorem length_buf_setRouter {k : Nat} {r : Router} {type : Chan} {d : Direction} {l : List Flit}
    {n : Int} (hr : r.buf cfg.routerIfqSize = update2 (m.buf cfg k) type d l)
    (hl : (l.length : Int) = (m.buf cfg k type d).length + n) (i : Nat) (t : Chan) (e : Direction) :
    (((m.setRouter k r).buf cfg i t e).length : Int) =
      (m.buf cfg i t e).length + if i = k ∧ t = type ∧ e = d then n else 0 := by
  rw [buf_setRouter]
  by_cases hik : i = k
  · subst hik
    rw [if_pos rfl, hr, update2_apply]
    split_ifs with h₁ h₂ h₂
    · rw [hl, h₁.1, h₁.2]
    · exact absurd ⟨rfl, h₁⟩ h₂
    · exact absurd h₂.2 h₁
    · omega
  · rw [if_neg hik, if_neg fun h => hik h.1]
    omega

/-- Whether a link starts at output `out` of node `k`, seen from both ends. -/
theorem link_out {i j k : Nat} {e : Direction} (out : Direction) (hi : i < cfg.totalCpus)
    (hk : k < cfg.totalCpus) (h : cfg.hop i e = some j) :
    (i = k ∧ e = out) ↔ (cfg.hop k out = some j ∧ e.opposite = out.opposite) := by
  constructor
  · rintro ⟨rfl, rfl⟩
    exact ⟨h, rfl⟩
  · rintro ⟨hout, hopp⟩
    obtain rfl : e = out := by
      rw [← Direction.opposite_opposite e, hopp, Direction.opposite_opposite]
    exact ⟨cfg.hop_injective hi hk h hout, rfl⟩

/-- Whether a link ends in input `d` of node `k`, seen from both ends. -/
theorem link_in {i j k : Nat} {e : Direction} (d : Direction) (hi : i < cfg.totalCpus)
    (hk : k < cfg.totalCpus) (h : cfg.hop i e = some j) :
    (j = k ∧ e.opposite = d) ↔ (cfg.hop k d = some i ∧ d.opposite = e) := by
  constructor
  · rintro ⟨rfl, rfl⟩
    exact ⟨(cfg.hop_back hi h).2, Direction.opposite_opposite e⟩
  · rintro ⟨hd, rfl⟩
    have := (cfg.hop_back hk hd).2
    exact ⟨Option.some.inj (h.symm.trans this), Direction.opposite_opposite d⟩

/-! ### Every move keeps the network sound -/

/-- The link that ends in input `d` of node `k` accounts for at least what is on
its wire and in the buffer. -/
theorem Sound.link_into (h : m.Sound cfg) {k : Nat} {d : Direction} (type : Chan)
    (hk : k < cfg.totalCpus) (hd : (cfg.hop k d).isSome) :
    m.wires cfg k type d + (m.buf cfg k type d).length ≤ cfg.routerIfqSize := by
  obtain ⟨j, hj⟩ := Option.isSome_iff_exists.mp hd
  obtain ⟨hjlt, hback⟩ := cfg.hop_back hk hj
  have hload := h.link j hjlt type d.opposite k hback
  have hcredit := h.credit j hjlt type d.opposite
  simp only [load, Direction.opposite_opposite] at hload
  omega

/-- One router has changed, and with it perhaps the events under way. -/
theorem Sound.of_router {m' : Mesh} {k : Nat} {r : Router} (h : m.Sound cfg)
    (hrouters : m'.routers = (m.setRouter k r).routers) (hevent : ∀ e ∈ m'.pending, e.2.Ok cfg)
    (hwf : r.Wf cfg.routerIfqSize)
    (hfits : k < cfg.totalCpus → ∀ type d, ∀ p ∈ r.buf cfg.routerIfqSize type d,
      p.Fits cfg k type d)
    (hcredit : k < cfg.totalCpus → ∀ type d, 0 ≤ r.egressCredit type d)
    (hlink : ∀ i < cfg.totalCpus, ∀ type d j, cfg.hop i d = some j →
      m'.load cfg i type d j = m.load cfg i type d j) : m'.Sound cfg := by
  refine ⟨fun i => ?_, fun i hi t d q hq => ?_, hevent, fun i hi t d => ?_, fun i hi t d j hj => ?_⟩
  · rw [hrouters, routers_setRouter]
    split_ifs
    · exact hwf
    · exact h.wf i
  · have hbuf : m'.buf cfg i = (m.setRouter k r).buf cfg i := by
      funext t e
      simp only [buf, hrouters]
    rw [hbuf, buf_setRouter] at hq
    split_ifs at hq with hik
    · exact hik ▸ hfits (hik ▸ hi) t d q hq
    · exact h.fits i hi t d q hq
  · rw [hrouters, credit_setRouter]
    split_ifs with hik
    · exact hcredit (hik ▸ hi) t d
    · exact h.credit i hi t d
  · rw [hlink i hi t d j hj]
    exact h.link i hi t d j hj

/-- The flits of a buffer that has stored one more. -/
theorem fits_stored {k : Nat} {type t : Chan} {d e : Direction} {p q : Flit} {pos : Nat}
    {b : Chan → Direction → List Flit} (hfits : ∀ type d, ∀ p ∈ b type d, p.Fits cfg k type d)
    (hp : p.Fits cfg k type d)
    (hq : q ∈ update2 b type d (b type d ++ [{ p with sourceChannel := d, index := pos }]) t e) :
    q.Fits cfg k t e := by
  rw [update2_apply] at hq
  split_ifs at hq with hte
  · obtain ⟨rfl, rfl⟩ := hte
    rcases List.mem_append.mp hq with hq | hq
    · exact hfits t e q hq
    · obtain rfl := List.mem_singleton.mp hq
      have hroute : Flit.OnRoute { p with sourceChannel := e, index := pos } (cfg.homeX k)
          (cfg.homeY k) e := by
        have := hp.onRoute
        cases e <;> exact this
      exact ⟨⟨hp.addressed.1, hp.addressed.2, hp.addressed.3⟩, hroute, hp.chan, hp.entered⟩
  · exact hfits t e q hq

theorem Sound.accept {k : Nat} {type : Chan} {p : Flit} {r : Router} (h : m.Sound cfg)
    (hfit : p.Fits cfg k type .home)
    (hroom : (m.buf cfg k type .home).length < cfg.routerIfqSize)
    (harr : (m.routers k).flitArrive cfg.routerIfqSize p type .home = .ok r) :
    ({ m with accepted := m.accepted ++ [p.letter] }.setRouter k r).Sound cfg := by
  obtain ⟨pos, r', hr', hwf, hbuf, hcredit, -⟩ := (h.wf k).flitArrive p hroom
  obtain rfl : r' = r := Except.ok.inj (hr'.symm.trans harr)
  refine h.of_router rfl h.event hwf (fun hk t d q hq => ?_) (fun hk t d => ?_)
    fun i hi t d j hj => load_congr ?_ rfl ?_ rfl
  · rw [hbuf] at hq
    exact fits_stored (h.fits k hk) hfit hq
  · rw [hcredit]
    exact h.credit k hk t d
  · rw [routers_setRouter]
    split_ifs with hik
    · rw [hcredit, hik]
    · rfl
  · rw [buf_setRouter]
    split_ifs with hjk
    · rw [hbuf, update2_of_ne fun hh => hop_ne_home hj (Direction.opposite_eq_home.mp hh.2), hjk]
      rfl
    · rfl

theorem Sound.arrive {t₀ : Nat} {p : Flit} {x y : Nat} {type : Chan} {d : Direction}
    {rest : List (Nat × MeshEvent)} {r : Router} (h : m.Sound cfg)
    (hpend : m.pending = (t₀, .flitArrive p x y type d) :: rest)
    (harr : (m.routers (cfg.cpuid x y)).flitArrive cfg.routerIfqSize p type d = .ok r) :
    ({ m with simCycle := t₀, pending := rest }.setRouter (cfg.cpuid x y) r).Sound cfg := by
  obtain ⟨hx, hy, hd, hfit⟩ : MeshEvent.Ok cfg (.flitArrive p x y type d) :=
    h.event _ (by rw [hpend]; exact List.mem_cons_self)
  have hk : cfg.cpuid x y < cfg.totalCpus := cfg.cpuid_lt hx hy
  have hwires : 1 ≤ m.wires cfg (cfg.cpuid x y) type d := by
    rw [wires_pop hpend]
    simp [MeshEvent.isFlitTo]
  have hroom : ((m.routers (cfg.cpuid x y)).buf cfg.routerIfqSize type d).length <
      cfg.routerIfqSize := by
    have hinto := h.link_into type hk (hfit.entered hd)
    rw [buf] at hinto
    omega
  obtain ⟨pos, r', hr', hwf, hbuf, hcredit, -⟩ := (h.wf (cfg.cpuid x y)).flitArrive p hroom
  obtain rfl : r' = r := Except.ok.inj (hr'.symm.trans harr)
  refine h.of_router rfl (fun e he => h.event e (by rw [hpend]; exact List.mem_cons_of_mem _ he))
    hwf (fun hk t d q hq => ?_) (fun hk t d => ?_) fun i hi t e j hj => ?_
  · rw [hbuf] at hq
    exact fits_stored (h.fits _ hk) hfit hq
  · rw [hcredit]
    exact h.credit _ hk t d
  · refine load_shift 0 (-(if j = cfg.cpuid x y ∧ t = type ∧ e.opposite = d then 1 else 0)) _ 0
      ?_ ?_ (length_buf_setRouter hbuf (n := 1) (by simp [buf]) j t e.opposite) ?_ (by omega)
    · rw [credit_setRouter]
      split_ifs with hik
      · rw [hcredit, hik, Int.add_zero]
      · exact (Int.add_zero _).symm
    · rw [wires_setRouter, wires_pop hpend]
      simp only [MeshEvent.isFlitTo, Bool.and_eq_true, beq_iff_eq]
      split_ifs <;> grind
    · rw [returns_setRouter, returns_pop hpend]
      simp [MeshEvent.isCreditTo]

theorem Sound.credit_back {t₀ x y : Nat} {type : Chan} {d : Direction}
    {rest : List (Nat × MeshEvent)} {r : Router} (h : m.Sound cfg)
    (hpend : m.pending = (t₀, .updateCredit x y type d) :: rest)
    (hcr : (m.routers (cfg.cpuid x y)).updateCredit cfg.routerIfqSize type d = .ok r) :
    ({ m with simCycle := t₀, pending := rest }.setRouter (cfg.cpuid x y) r).Sound cfg := by
  have hr := Router.updateCredit_eq hcr
  have hbuf : r.buf cfg.routerIfqSize = m.buf cfg (cfg.cpuid x y) := by rw [hr]; rfl
  refine h.of_router rfl (fun e he => h.event e (by rw [hpend]; exact List.mem_cons_of_mem _ he))
    ?_ (fun hk t d q hq => ?_) (fun hk t e => ?_) fun i hi t e j hj => ?_
  · obtain ⟨h₁, h₂, h₃⟩ := h.wf (cfg.cpuid x y)
    rw [hr]
    exact ⟨h₁, h₂, h₃⟩
  · rw [hbuf] at hq
    exact h.fits _ hk t d q hq
  · rw [hr]
    simp only [update2_apply]
    have := h.credit _ hk t e
    have := h.credit _ hk type d
    split_ifs <;> omega
  · refine load_shift (if i = cfg.cpuid x y ∧ t = type ∧ e = d then 1 else 0) 0 0
      (-(if i = cfg.cpuid x y ∧ t = type ∧ e = d then 1 else 0)) ?_ ?_ ?_ ?_ (by omega)
    · rw [credit_setRouter, hr]
      simp only [update2_apply]
      split_ifs <;> grind
    · rw [wires_setRouter, wires_pop hpend]
      simp [MeshEvent.isFlitTo]
    · rw [buf_setRouter, hbuf]
      split_ifs with hjk
      · rw [hjk, Int.add_zero]
      · exact (Int.add_zero _).symm
    · rw [returns_setRouter, returns_pop hpend]
      simp only [MeshEvent.isCreditTo, Bool.and_eq_true, beq_iff_eq]
      split_ifs <;> grind

/-- A flit has left its buffer for an output. -/
theorem Sound.left {m₁ : Mesh} {k : Nat} {type : Chan} {out : Direction} {p : Flit}
    {l : List Flit} {r : Router} (h : m.Sound cfg) (hk : k < cfg.totalCpus)
    (hp : m.buf cfg k type p.sourceChannel = p :: l)
    (hcredit : 0 < (m.routers k).egressCredit type out ∨
      out = .home ∧ 0 ≤ (m.routers k).egressCredit type out)
    (hdep : (m.routers k).packetDepart cfg.routerIfqSize p type out = .ok r)
    (hrouters : m₁.routers = m.routers) (hevent : ∀ e ∈ m₁.pending, e.2.Ok cfg)
    (hwires : ∀ j t d, m₁.wires cfg j t d = m.wires cfg j t d +
      if cfg.hop k out = some j ∧ t = type ∧ d = out.opposite then 1 else 0)
    (hreturns : ∀ j t d, m₁.returns cfg j t d = m.returns cfg j t d) :
    ((m₁.setRouter k r).giveBack cfg k type p.sourceChannel).Sound cfg := by
  obtain ⟨r', hr', hwf, hbuf, hcr, -⟩ := (h.wf k).packetDepart hp hcredit
  obtain rfl : r' = r := Except.ok.inj (hr'.symm.trans hdep)
  refine h.of_router (k := k) (r := r') ?_ (fun e he => ?_) hwf (fun hk t d q hq => ?_)
    (fun hk t e => ?_) fun i hi t e j hj => ?_
  · simp only [routers_giveBack, Mesh.setRouter, hrouters]
  · rcases mem_giveBack he with he | ⟨i, hi, he⟩
    · exact hevent e he
    · exact he ▸ ok_giveBack hk hi
  · rw [hbuf, update2_apply] at hq
    split_ifs at hq with htd
    · obtain ⟨rfl, rfl⟩ := htd
      exact h.fits k hk _ _ q (by rw [hp]; exact List.mem_cons_of_mem _ hq)
    · exact h.fits k hk t d q hq
  · rw [hcr, update2_apply]
    have := h.credit k hk t e
    split_ifs <;> rcases hcredit with hc | hc <;> grind
  · have hout : (if i = k ∧ t = type ∧ e = out ∧ out ≠ .home then (1 : Int) else 0) =
        if cfg.hop k out = some j ∧ t = type ∧ e.opposite = out.opposite then 1 else 0 := by
      have := link_out out hi hk hj
      have := hop_ne_home hj
      refine if_congr ?_ rfl rfl
      grind
    have hin : (if j = k ∧ t = type ∧ e.opposite = p.sourceChannel then (-1 : Int) else 0) =
        -if cfg.hop k p.sourceChannel = some i ∧ type = t ∧ p.sourceChannel.opposite = e then 1
          else 0 := by
      have := link_in p.sourceChannel hi hk hj
      split_ifs <;> grind
    refine load_shift (-(if i = k ∧ t = type ∧ e = out ∧ out ≠ .home then 1 else 0))
      (if cfg.hop k out = some j ∧ t = type ∧ e.opposite = out.opposite then 1 else 0)
      (if j = k ∧ t = type ∧ e.opposite = p.sourceChannel then -1 else 0)
      (if cfg.hop k p.sourceChannel = some i ∧ type = t ∧ p.sourceChannel.opposite = e then 1
        else 0) ?_ ?_ ?_ ?_ (by omega)
    · rw [routers_giveBack, credit_setRouter, hcr, hrouters]
      simp only [update2_apply]
      split_ifs <;> grind
    · rw [wires_giveBack, wires_setRouter, hwires]
      split_ifs <;> rfl
    · have hlen := length_buf_setRouter (m := m) hbuf (n := -1) (by rw [hp]; simp) j t e.opposite
      have hsame : (m₁.setRouter k r').buf cfg j = (m.setRouter k r').buf cfg j := by
        funext t e
        simp only [buf, Mesh.setRouter, hrouters]
      rw [buf_giveBack, hsame]
      exact hlen
    · rw [returns_giveBack, returns_setRouter, hreturns]
      split_ifs <;> rfl

/-- An event that concerns no link leaves the network sound. -/
theorem Sound.of_events {m' : Mesh} (h : m.Sound cfg) (hrouters : m'.routers = m.routers)
    (hevent : ∀ e ∈ m'.pending, e.2.Ok cfg) (hwires : m'.wires cfg = m.wires cfg)
    (hreturns : m'.returns cfg = m.returns cfg) : m'.Sound cfg := by
  have hbuf : m'.buf cfg = m.buf cfg := by
    funext i t e
    simp only [buf, hrouters]
  refine ⟨?_, ?_, hevent, ?_, fun k hk t d j hj => ?_⟩
  · rw [hrouters]
    exact h.wf
  · rw [hbuf]
    exact h.fits
  · rw [hrouters]
    exact h.credit
  · simp only [load, hrouters, hwires, hbuf, hreturns]
    exact h.link k hk t d j hj

theorem Sound.move {m' : Mesh} (h : m.Sound cfg) (hm : Move cfg m m') : m'.Sound cfg := by
  cases hm with
  | accept hk hfit _ _ hroom harr => exact h.accept hfit hroom harr
  | @deliver k type p l r hk hp hw hdep =>
    refine h.left hk hp (.inr ⟨rfl, h.credit k hk _ _⟩) hdep rfl h.event (fun j t d => ?_)
      fun _ _ _ => rfl
    simp [MeshConfig.hop, wires]
  | @depart k j type out p l r hk hp hw hj _ hcredit hdep =>
    have hfit := h.fits k hk type p.sourceChannel p (by rw [hp]; exact List.mem_cons_self)
    have hout := hop_ne_home hj
    have hev : MeshEvent.Ok cfg
        (.flitArrive p (cfg.homeX j) (cfg.homeY j) type out.opposite) := by
      refine ⟨cfg.homeX_lt j, cfg.homeY_lt (cfg.hop_back hk hj).1, by simpa using hout, ?_⟩
      rw [cfg.cpuid_home]
      exact hfit.hop hk hw hout hj
    refine h.left hk hp (.inl hcredit) hdep rfl (fun e he => ?_) (fun i t d => ?_) fun i t d => ?_
    · rcases EventQueue.mem_insert.mp he with rfl | he
      · exact hev
      · exact h.event e he
    · rw [wires_queue]
      simp only [MeshEvent.isFlitTo, cfg.cpuid_home, Bool.and_eq_true, beq_iff_eq, hj,
        Option.some.injEq]
      grind
    · simp [returns_queue, MeshEvent.isCreditTo]
  | arrive hpend harr => exact h.arrive hpend harr
  | credit hpend hcr => exact h.credit_back hpend hcr
  | @activate t k rest hpend =>
    refine h.of_events rfl (fun e he => h.event e (by rw [hpend]; exact List.mem_cons_of_mem _ he))
      (funext fun i => funext fun ty => funext fun d => ?_)
      (funext fun i => funext fun ty => funext fun d => ?_)
    · rw [wires_pop hpend]
      simp [MeshEvent.isFlitTo]
    · rw [returns_pop hpend]
      simp [MeshEvent.isCreditTo]
  | @requeue k hk =>
    refine h.of_events rfl (fun e he => ?_) (funext fun i => funext fun ty => funext fun d => ?_)
      (funext fun i => funext fun ty => funext fun d => ?_)
    · rcases EventQueue.mem_insert.mp he with rfl | he
      · exact hk
      · exact h.event e he
    · simp [wires_queue, MeshEvent.isFlitTo]
    · simp [returns_queue, MeshEvent.isCreditTo]
  | @internal k r hin hhead hnum hcr hhome =>
    have hbuf : r.buf cfg.routerIfqSize = m.buf cfg k := by
      funext t d
      simp only [buf, Router.buf, hin, hhead]
    refine h.of_router rfl h.event ?_ (fun hk t d q hq => ?_) (fun hk t d => ?_)
      fun i hi t d j hj => load_congr ?_ rfl ?_ rfl
    · obtain ⟨h₁, h₂, h₃⟩ := h.wf k
      refine ⟨fun t d => ?_, fun t d => ?_, fun t d => ?_⟩
      · rw [hin, hhead, hbuf]
        exact h₁ t d
      · rw [hnum, hbuf]
        exact h₂ t d
      · rw [hhead, hbuf]
        exact h₃ t d
    · rw [hbuf] at hq
      exact h.fits k hk t d q hq
    · by_cases hd : d = .home
      · rw [hd]
        exact hhome t
      · rw [hcr t d hd]
        exact h.credit k hk t d
    · rw [credit_setRouter]
      split_ifs with hik
      · rw [hcr t d (hop_ne_home hj), hik]
      · rfl
    · rw [buf_setRouter]
      split_ifs with hjk
      · rw [hbuf, hjk]
      · rfl

end Mesh

end Godson

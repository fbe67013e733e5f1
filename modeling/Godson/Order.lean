import Godson.Delivery
import Godson.Pipeline

/-! Point-to-point order. The packets of one type between two nodes wait in a row
of queues, one for each input buffer on their way. -/
namespace Godson

namespace MeshConfig

variable (cfg : MeshConfig)

/-- The output a flit for node `dst` takes at node `k`. -/
def route (dst k : Nat) : Direction :=
  if cfg.homeX dst = cfg.homeX k then
    if cfg.homeY dst = cfg.homeY k then .home
    else if cfg.homeY dst > cfg.homeY k then .down
    else .up
  else if cfg.homeX dst < cfg.homeX k then .left
  else .right

/-- The input buffer a flit for node `dst` goes to from another one. -/
def next (dst : Nat) (c : Nat × Direction) : Option (Nat × Direction) :=
  (cfg.hop c.1 (cfg.route dst c.1)).map fun j => (j, (cfg.route dst c.1).opposite)

/-- The input buffers on the way to node `dst`, the last one first. -/
def path (dst : Nat) : Nat → Nat × Direction → List (Nat × Direction)
  | 0, c => [c]
  | fuel + 1, c =>
    match cfg.next dst c with
    | none => [c]
    | some c' => path dst fuel c' ++ [c]

/-- A flit for node `dst` can be in this input buffer. -/
def OnWay (dst : Nat) (c : Nat × Direction) : Prop :=
  c.1 < cfg.totalCpus ∧ ∃ (p : Flit) (type : Chan), p.packet.dest = dst ∧ p.Fits cfg c.1 type c.2

variable {cfg}

/-- The tests of the arbiter depend on the destination only. -/
theorem wants_route {p : Flit} (h : p.Addressed cfg) (k : Nat) (out : Direction) :
    p.wants (cfg.homeX k) (cfg.homeY k) out ↔ out = cfg.route p.packet.dest k := by
  rw [p.wants_iff, Flit.selectDestChannel, route, h.destX, h.destY]

/-- A flit leaves through the home port at its destination only. -/
theorem route_home {dst k : Nat} (h : cfg.route dst k = .home) : dst = k := by
  have hxy : cfg.homeX dst = cfg.homeX k ∧ cfg.homeY dst = cfg.homeY k := by
    unfold route at h
    split_ifs at h with hx hy
    exact ⟨hx, hy⟩
  rw [← cfg.cpuid_home dst, hxy.1, hxy.2, cfg.cpuid_home]

theorem next_self (k : Nat) (d : Direction) : cfg.next k (k, d) = none := by
  simp [next, route, hop]

/-- Every node can send to every node. -/
theorem onWay_home {src dst : Nat} (hs : src < cfg.totalCpus) (hd : dst < cfg.totalCpus) :
    cfg.OnWay dst (src, .home) := by
  let packet : Packet := {
    chan := .req
    dest := dst
    req := .readShd
    cacheStatus := .invalid
    qid := 0
    cpuid := src
    paddr := 0
    inst := false }
  exact ⟨hs, ⟨0, .home, 0, cfg.homeX dst, cfg.homeY dst, packet⟩, .req, rfl, ⟨hd, rfl, rfl⟩,
    trivial, rfl, fun h => absurd rfl h⟩

/-- The way leads down. -/
theorem OnWay.next {dst : Nat} {c c' : Nat × Direction} (h : cfg.OnWay dst c)
    (hn : cfg.next dst c = some c') :
    cfg.OnWay dst c' ∧ cfg.rank c'.1 c'.2 < cfg.rank c.1 c.2 := by
  obtain ⟨hk, p, type, rfl, hfit⟩ := h
  obtain ⟨j, hj, rfl⟩ := Option.map_eq_some_iff.mp hn
  have hw := (wants_route hfit.addressed c.1 _).mpr rfl
  have hout := Mesh.hop_ne_home hj
  obtain ⟨i, hi, -, -, -, hrank⟩ := hfit.hop_onRoute hk hw hout
  obtain rfl : i = j := Option.some.inj (hi.symm.trans hj)
  exact ⟨⟨(cfg.hop_back hk hj).1, p, type, rfl, hfit.hop hk hw hout hj⟩, hrank⟩

theorem mem_path {dst fuel : Nat} {c x : Nat × Direction} (h : cfg.OnWay dst c)
    (hx : x ∈ cfg.path dst fuel c) : x = c ∨ cfg.rank x.1 x.2 < cfg.rank c.1 c.2 := by
  induction fuel generalizing c with
  | zero => exact .inl (List.mem_singleton.mp hx)
  | succ fuel ih =>
    rw [path] at hx
    split at hx
    · exact .inl (List.mem_singleton.mp hx)
    · rename_i c' hn
      obtain ⟨hc', hrank⟩ := h.next hn
      rcases List.mem_append.mp hx with hx | hx
      · rcases ih hc' hx with rfl | hlt
        · exact .inr hrank
        · exact .inr (hlt.trans hrank)
      · exact .inl (List.mem_singleton.mp hx)

theorem nodup_path {dst fuel : Nat} {c : Nat × Direction} (h : cfg.OnWay dst c) :
    (cfg.path dst fuel c).Nodup := by
  induction fuel generalizing c with
  | zero => exact List.nodup_singleton c
  | succ fuel ih =>
    rw [path]
    split
    · exact List.nodup_singleton c
    · rename_i c' hn
      obtain ⟨hc', hrank⟩ := h.next hn
      refine List.nodup_append.mpr ⟨ih hc', List.nodup_singleton c, fun x hx y hy => ?_⟩
      obtain rfl := List.mem_singleton.mp hy
      rintro rfl
      rcases mem_path hc' hx with rfl | hlt
      · exact absurd hrank (Nat.lt_irrefl _)
      · exact absurd hrank (Nat.lt_asymm hlt)

/-- A way ends where it was asked for. -/
theorem path_start (cfg : MeshConfig) (dst fuel : Nat) (c : Nat × Direction) :
    ∃ pre, cfg.path dst fuel c = pre ++ [c] := by
  cases fuel with
  | zero => exact ⟨[], rfl⟩
  | succ fuel =>
    rw [path]
    split
    · exact ⟨[], rfl⟩
    · exact ⟨_, rfl⟩

/-- The buffer from which a flit goes home is the first of the way. -/
theorem path_exit {dst fuel : Nat} {c x : Nat × Direction} (h : cfg.OnWay dst c)
    (hx : x ∈ cfg.path dst fuel c) (hn : cfg.next dst x = none) :
    ∃ post, cfg.path dst fuel c = x :: post := by
  induction fuel generalizing c with
  | zero =>
    obtain rfl := List.mem_singleton.mp hx
    exact ⟨[], rfl⟩
  | succ fuel ih =>
    rw [path] at hx ⊢
    split at hx
    · obtain rfl := List.mem_singleton.mp hx
      exact ⟨[], rfl⟩
    · rename_i c' hc
      rcases List.mem_append.mp hx with hx | hx
      · obtain ⟨post, hpost⟩ := ih (h.next hc).1 hx
        exact ⟨post ++ [c], by rw [hpost]; rfl⟩
      · obtain rfl := List.mem_singleton.mp hx
        rw [hn] at hc
        exact absurd hc (by simp)

/-- A flit goes on to the buffer in front of its own. -/
theorem path_step {dst fuel : Nat} {c x x' : Nat × Direction} (h : cfg.OnWay dst c)
    (hfuel : cfg.rank c.1 c.2 ≤ fuel) (hx : x ∈ cfg.path dst fuel c)
    (hn : cfg.next dst x = some x') :
    ∃ pre post, cfg.path dst fuel c = pre ++ x' :: x :: post := by
  induction fuel generalizing c with
  | zero =>
    obtain rfl := List.mem_singleton.mp hx
    have := (h.next hn).2
    omega
  | succ fuel ih =>
    rw [path] at hx ⊢
    split at hx
    · rename_i hc
      obtain rfl := List.mem_singleton.mp hx
      rw [hn] at hc
      exact absurd hc (by simp)
    · rename_i c' hc
      obtain ⟨hc', hrank⟩ := h.next hc
      rcases List.mem_append.mp hx with hx | hx
      · obtain ⟨pre, post, hpost⟩ := ih hc' (by omega) hx
        exact ⟨pre, post ++ [c], by rw [hpost]; simp⟩
      · obtain rfl := List.mem_singleton.mp hx
        obtain rfl : c' = x' := Option.some.inj (hc.symm.trans hn)
        obtain ⟨pre, hpre⟩ := path_start cfg dst fuel c'
        exact ⟨pre, [], by rw [hpre]; simp⟩

end MeshConfig

/-- The flit an event brings to an input buffer. -/
def MeshEvent.flitTo (cfg : MeshConfig) (k : Nat) (type : Chan) (d : Direction) :
    MeshEvent → Option Flit
  | flitArrive p x y t e => if cfg.cpuid x y = k ∧ t = type ∧ e = d then some p else none
  | _ => none

/-- The packets of one type from one node to another. -/
structure Flow where
  src : Nat
  dst : Nat
  type : Chan

/-- The letter belongs to the flow. -/
def Flow.has (f : Flow) (a : Letter) : Bool :=
  a.2.cpuid == f.src && a.2.dest == f.dst && a.2.chan == f.type

/-- The input buffers on the way of a flow. -/
def Flow.way (cfg : MeshConfig) (f : Flow) : List (Nat × Direction) :=
  cfg.path f.dst (cfg.rank f.src .home) (f.src, .home)

namespace Mesh

variable (cfg : MeshConfig) (m : Mesh)

/-- The flits on the wire to an input buffer, the next to arrive first. -/
def wire (k : Nat) (type : Chan) (d : Direction) : List Flit :=
  m.pending.filterMap fun e => e.2.flitTo cfg k type d

/-- The letters in an input buffer and on the wire to it, in the order in which they leave. -/
def line (k : Nat) (type : Chan) (d : Direction) : List Letter :=
  (m.buf cfg k type d ++ m.wire cfg k type d).map Flit.letter

/-- The letters of a flow in one of these lines. -/
def queued (f : Flow) (c : Nat × Direction) : List Letter :=
  (m.line cfg c.1 f.type c.2).filter f.has

/-- The letters of a flow its destination has received. -/
def received (f : Flow) : List Letter :=
  (m.delivered.filterMap fun e => if e.1 = f.dst then some e.2 else none).filter f.has

/-- What a move is to the lines: a letter enters one, leaves one for home, goes from
one to the next, or nothing changes. -/
inductive Passing (m m' : Mesh) : Prop
  | enter {k : Nat} {type : Chan} {a : Letter} :
      a.2.cpuid = k → a.2.chan = type → m'.accepted = m.accepted ++ [a] →
      m'.delivered = m.delivered →
      (∀ i t e, m'.line cfg i t e = if i = k ∧ t = type ∧ e = .home then
        m.line cfg i t e ++ [a] else m.line cfg i t e) → Passing m m'
  | leave {k : Nat} {type : Chan} {d : Direction} {a : Letter} {l : List Letter} :
      a.2.dest = k → a.2.chan = type → m'.accepted = m.accepted →
      m'.delivered = m.delivered ++ [(k, a)] → m.line cfg k type d = a :: l →
      (∀ i t e, m'.line cfg i t e = if i = k ∧ t = type ∧ e = d then l else m.line cfg i t e) →
      Passing m m'
  | pass {k : Nat} {type : Chan} {d : Direction} {c' : Nat × Direction} {a : Letter}
      {l : List Letter} :
      cfg.next a.2.dest (k, d) = some c' → a.2.chan = type → m'.accepted = m.accepted →
      m'.delivered = m.delivered → m.line cfg k type d = a :: l →
      (∀ i t e, m'.line cfg i t e = if i = k ∧ t = type ∧ e = d then l
        else if i = c'.1 ∧ t = type ∧ e = c'.2 then m.line cfg i t e ++ [a]
        else m.line cfg i t e) → Passing m m'
  | still : m'.accepted = m.accepted → m'.delivered = m.delivered → m'.line cfg = m.line cfg →
      Passing m m'

variable {cfg m}

theorem wire_of_free {k : Nat} {type : Chan} {d : Direction} (h : m.wires cfg k type d = 0) :
    m.wire cfg k type d = [] := by
  refine List.filterMap_eq_nil_iff.mpr fun e he => ?_
  have hno := List.countP_eq_zero.mp h e he
  obtain ⟨t, ev⟩ := e
  cases ev with
  | flitArrive p x y ty e =>
    simp only [MeshEvent.isFlitTo, Bool.and_eq_true, beq_iff_eq, and_assoc] at hno
    simp only [MeshEvent.flitTo, if_neg hno]
  | cpuExecute i => rfl
  | updateCredit x y ty e => rfl

/-- Nothing comes to a home buffer over a wire. -/
theorem Sound.wire_home (h : m.Sound cfg) (k : Nat) (type : Chan) :
    m.wire cfg k type .home = [] := by
  refine List.filterMap_eq_nil_iff.mpr fun e he => ?_
  have hok := h.event e he
  obtain ⟨t, ev⟩ := e
  cases ev with
  | flitArrive p x y ty d =>
    simp only [MeshEvent.flitTo]
    exact if_neg fun hh => hok.2.2.1 hh.2.2
  | cpuExecute i => rfl
  | updateCredit x y ty e => rfl

theorem wire_queue_none {ev : MeshEvent} {k : Nat} {type : Chan} {d : Direction}
    (h : ev.flitTo cfg k type d = none) : (m.queue ev).wire cfg k type d = m.wire cfg k type d :=
  EventQueue.filterMap_insert_none _ h

theorem wire_queue_some {ev : MeshEvent} {k : Nat} {type : Chan} {d : Direction} {p : Flit}
    (h : ev.flitTo cfg k type d = some p) (hw : m.wire cfg k type d = []) :
    (m.queue ev).wire cfg k type d = [p] :=
  EventQueue.filterMap_insert_some h hw

@[simp] theorem wire_giveBack (k i : Nat) (type t : Chan) (d e : Direction) :
    (m.giveBack cfg k type d).wire cfg i t e = m.wire cfg i t e := by
  unfold giveBack
  split
  · exact wire_queue_none rfl
  · rfl

@[simp] theorem wire_setRouter (k : Nat) (r : Router) :
    (m.setRouter k r).wire cfg = m.wire cfg := rfl

theorem wire_pop {t : Nat} {ev : MeshEvent} {rest : List (Nat × MeshEvent)}
    (h : m.pending = (t, ev) :: rest) (k : Nat) (type : Chan) (d : Direction) :
    m.wire cfg k type d = (ev.flitTo cfg k type d).toList ++
      { m with simCycle := t, pending := rest }.wire cfg k type d := by
  simp only [wire, h, List.filterMap_cons]
  cases ev.flitTo cfg k type d <;> rfl

/-- Nothing changes when the buffers and the wires stay the same. -/
theorem line_congr {m' : Mesh} (hbuf : m'.buf cfg = m.buf cfg) (hwire : m'.wire cfg = m.wire cfg) :
    m'.line cfg = m.line cfg := by
  funext k t d
  rw [line, line, hbuf, hwire]

theorem Sound.line_accept (h : m.Sound cfg) {k : Nat} {type : Chan} {p : Flit} {r : Router}
    (hroom : (m.buf cfg k type .home).length < cfg.routerIfqSize)
    (harr : (m.routers k).flitArrive cfg.routerIfqSize p type .home = .ok r) (i : Nat) (t : Chan)
    (e : Direction) :
    ({ m with accepted := m.accepted ++ [p.letter] }.setRouter k r).line cfg i t e =
      if i = k ∧ t = type ∧ e = .home then m.line cfg i t e ++ [p.letter]
      else m.line cfg i t e := by
  obtain ⟨q, hq, hbuf⟩ := buf_stored h hroom harr
  have hwire : ({ m with accepted := m.accepted ++ [p.letter] }.setRouter k r).wire cfg i t e =
      m.wire cfg i t e := rfl
  have hbuf' : ({ m with accepted := m.accepted ++ [p.letter] }.setRouter k r).buf cfg i t e =
      (m.setRouter k r).buf cfg i t e := rfl
  rw [line, hwire, hbuf', hbuf]
  split_ifs with hh
  · obtain ⟨rfl, rfl, rfl⟩ := hh
    simp [line, h.wire_home, hq]
  · rfl

/-- A flit that is handed over leaves its line. -/
theorem Sound.line_deliver (h : m.Sound cfg) {k : Nat} {type : Chan} {p : Flit} {l : List Flit}
    {r : Router} (hk : k < cfg.totalCpus) (hp : m.buf cfg k type p.sourceChannel = p :: l)
    (hdep : (m.routers k).packetDepart cfg.routerIfqSize p type .home = .ok r) (i : Nat) (t : Chan)
    (e : Direction) :
    (({ m with delivered := m.delivered ++ [(k, p.letter)] }.setRouter k r).giveBack cfg
        k type p.sourceChannel).line cfg i t e =
      if i = k ∧ t = type ∧ e = p.sourceChannel then
        (l ++ m.wire cfg k type p.sourceChannel).map Flit.letter
      else m.line cfg i t e := by
  have hbuf := buf_departed h hp (.inr ⟨rfl, h.credit k hk _ _⟩) hdep
  have hbuf' : ({ m with delivered := m.delivered ++ [(k, p.letter)] }.setRouter k r).buf cfg i t e =
      (m.setRouter k r).buf cfg i t e := rfl
  rw [line, wire_giveBack, buf_giveBack, hbuf', hbuf]
  split_ifs with hh
  · obtain ⟨rfl, rfl, rfl⟩ := hh
    rfl
  · rfl

/-- A flit that departs goes from its line to the next one. -/
theorem Sound.line_depart (h : m.Sound cfg) {k j : Nat} {type : Chan} {out : Direction} {p : Flit}
    {l : List Flit} {r : Router} (hp : m.buf cfg k type p.sourceChannel = p :: l)
    (hne : (j, out.opposite) ≠ (k, p.sourceChannel)) (hfree : m.wires cfg j type out.opposite = 0)
    (hcredit : 0 < (m.routers k).egressCredit type out)
    (hdep : (m.routers k).packetDepart cfg.routerIfqSize p type out = .ok r) (i : Nat) (t : Chan)
    (e : Direction) :
    (((m.queue (.flitArrive p (cfg.homeX j) (cfg.homeY j) type out.opposite)).setRouter
        k r).giveBack cfg k type p.sourceChannel).line cfg i t e =
      if i = k ∧ t = type ∧ e = p.sourceChannel then
        (l ++ m.wire cfg k type p.sourceChannel).map Flit.letter
      else if i = j ∧ t = type ∧ e = out.opposite then m.line cfg i t e ++ [p.letter]
      else m.line cfg i t e := by
  have hbuf := buf_departed h hp (.inl hcredit) hdep
  have hbuf' : ((m.queue (.flitArrive p (cfg.homeX j) (cfg.homeY j) type out.opposite)).setRouter
      k r).buf cfg i t e = (m.setRouter k r).buf cfg i t e := rfl
  rw [line, wire_giveBack, buf_giveBack, hbuf', hbuf, wire_setRouter]
  by_cases hto : i = j ∧ t = type ∧ e = out.opposite
  · obtain ⟨rfl, rfl, rfl⟩ := hto
    have hnot : ¬ (i = k ∧ t = t ∧ out.opposite = p.sourceChannel) :=
      fun hh => hne (by rw [hh.1, hh.2.2])
    have hflit : (MeshEvent.flitArrive p (cfg.homeX i) (cfg.homeY i) t out.opposite).flitTo cfg
        i t out.opposite = some p := by simp [MeshEvent.flitTo, cfg.cpuid_home]
    rw [if_neg hnot, if_neg hnot, if_pos ⟨rfl, rfl, rfl⟩,
      wire_queue_some hflit (wire_of_free hfree)]
    simp [line, wire_of_free hfree]
  · have hflit : (MeshEvent.flitArrive p (cfg.homeX j) (cfg.homeY j) type out.opposite).flitTo cfg
        i t e = none := by
      simp only [MeshEvent.flitTo, cfg.cpuid_home]
      exact if_neg fun hh => hto ⟨hh.1.symm, hh.2.1.symm, hh.2.2.symm⟩
    rw [wire_queue_none hflit, if_neg hto]
    split_ifs with hh
    · obtain ⟨rfl, rfl, rfl⟩ := hh
      rfl
    · rfl

/-- A flit that arrives stays in its line. -/
theorem Sound.line_arrive (h : m.Sound cfg) {t₀ : Nat} {p : Flit} {x y : Nat} {type : Chan}
    {d : Direction} {rest : List (Nat × MeshEvent)} {r : Router}
    (hpend : m.pending = (t₀, .flitArrive p x y type d) :: rest)
    (harr : (m.routers (cfg.cpuid x y)).flitArrive cfg.routerIfqSize p type d = .ok r) :
    ({ m with simCycle := t₀, pending := rest }.setRouter (cfg.cpuid x y) r).line cfg =
      m.line cfg := by
  obtain ⟨hk, hroom⟩ := h.arrive_room hpend
  obtain ⟨q, hq, hbuf⟩ := buf_stored h hroom harr
  funext i t e
  have hbuf' : ({ m with simCycle := t₀, pending := rest }.setRouter (cfg.cpuid x y) r).buf cfg
      i t e = (m.setRouter (cfg.cpuid x y) r).buf cfg i t e := rfl
  rw [line, line, hbuf', hbuf, wire_pop hpend, wire_setRouter]
  split_ifs with hh
  · obtain ⟨rfl, rfl, rfl⟩ := hh
    simp [MeshEvent.flitTo, hq]
  · have hflit : (MeshEvent.flitArrive p x y type d).flitTo cfg i t e = none :=
      if_neg fun hn => hh ⟨hn.1.symm, hn.2.1.symm, hn.2.2.symm⟩
    rw [hflit]
    rfl

theorem line_credit {t₀ x y : Nat} {type : Chan} {d : Direction} {rest : List (Nat × MeshEvent)}
    {r : Router} (hpend : m.pending = (t₀, .updateCredit x y type d) :: rest)
    (hcr : (m.routers (cfg.cpuid x y)).updateCredit cfg.routerIfqSize type d = .ok r) :
    ({ m with simCycle := t₀, pending := rest }.setRouter (cfg.cpuid x y) r).line cfg =
      m.line cfg := by
  have hr : r.buf cfg.routerIfqSize = m.buf cfg (cfg.cpuid x y) := by
    rw [Router.updateCredit_eq hcr]
    rfl
  apply line_congr
  · funext i
    rw [buf_setRouter]
    split_ifs with hik
    · rw [hr, hik]
    · rfl
  · funext i t e
    exact (wire_pop hpend i t e).symm

theorem line_activate {t₀ k : Nat} {rest : List (Nat × MeshEvent)}
    (hpend : m.pending = (t₀, .cpuExecute k) :: rest) :
    line cfg { m with simCycle := t₀, pending := rest } = m.line cfg :=
  line_congr rfl (funext fun i => funext fun t => funext fun e => (wire_pop hpend i t e).symm)

theorem line_requeue (k : Nat) : (m.queue (.cpuExecute k)).line cfg = m.line cfg :=
  line_congr rfl (funext fun _ => funext fun _ => funext fun _ => wire_queue_none rfl)

/-- A router whose buffers have not changed. -/
theorem line_internal {k : Nat} {r : Router} (hin : r.ingress = (m.routers k).ingress)
    (hhead : r.ingressHead = (m.routers k).ingressHead) :
    (m.setRouter k r).line cfg = m.line cfg := by
  refine line_congr (funext fun i => funext fun t => funext fun e => ?_) rfl
  rw [buf_setRouter]
  split_ifs with hik
  · simp only [buf, Router.buf, hin, hhead, hik]
  · rfl

/-- A flit does not go to the line that it comes from. -/
theorem Sound.depart_next (h : m.Sound cfg) {k j : Nat} {type : Chan} {out : Direction} {p : Flit}
    {l : List Flit} (hk : k < cfg.totalCpus) (hp : m.buf cfg k type p.sourceChannel = p :: l)
    (hw : p.wants (cfg.homeX k) (cfg.homeY k) out) (hj : cfg.hop k out = some j) :
    cfg.next p.packet.dest (k, p.sourceChannel) = some (j, out.opposite) ∧
      (j, out.opposite) ≠ (k, p.sourceChannel) := by
  have hfit := h.fits k hk type p.sourceChannel p (by rw [hp]; exact List.mem_cons_self)
  have hout := (MeshConfig.wants_route hfit.addressed k out).mp hw
  have hway : cfg.OnWay p.packet.dest (k, p.sourceChannel) := ⟨hk, p, type, rfl, hfit⟩
  have hnext : cfg.next p.packet.dest (k, p.sourceChannel) = some (j, out.opposite) := by
    simp [MeshConfig.next, ← hout, hj]
  refine ⟨hnext, fun heq => ?_⟩
  have hlower := (hway.next hnext).2
  rw [heq] at hlower
  exact Nat.lt_irrefl _ hlower

theorem Sound.passing {m' : Mesh} (h : m.Sound cfg) (hm : Move cfg m m') : Passing cfg m m' := by
  cases hm with
  | @accept k type p r hk hfit hid hcpuid hroom harr =>
    exact .enter (k := k) (a := p.letter) hcpuid hfit.chan rfl rfl (h.line_accept hroom harr)
  | @deliver k type p l r hk hp hw hdep =>
    have hfit := h.fits k hk type p.sourceChannel p (by rw [hp]; exact List.mem_cons_self)
    have hdest := (MeshConfig.wants_route hfit.addressed k .home).mp hw
    exact .leave (k := k) (d := p.sourceChannel) (a := p.letter)
      (l := (l ++ m.wire cfg k type p.sourceChannel).map Flit.letter)
      (MeshConfig.route_home hdest.symm) hfit.chan (by simp) (by simp) (by simp [line, hp])
      (h.line_deliver hk hp hdep)
  | @depart k j type out p l r hk hp hw hj hfree hcredit hdep =>
    have hfit := h.fits k hk type p.sourceChannel p (by rw [hp]; exact List.mem_cons_self)
    obtain ⟨hnext, hne⟩ := h.depart_next hk hp hw hj
    exact .pass (k := k) (d := p.sourceChannel) (a := p.letter)
      (l := (l ++ m.wire cfg k type p.sourceChannel).map Flit.letter)
      hnext hfit.chan (by simp) (by simp) (by simp [line, hp])
      (h.line_depart hp hne hfree hcredit hdep)
  | arrive hpend harr => exact .still rfl rfl (h.line_arrive hpend harr)
  | credit hpend hcr => exact .still rfl rfl (line_credit hpend hcr)
  | activate hpend => exact .still rfl rfl (line_activate hpend)
  | requeue hk => exact .still rfl rfl (line_requeue _)
  | internal hin hhead hnum hcr hhome => exact .still rfl rfl (line_internal hin hhead)

/-- The letters of a flow are on its way, and in order. -/
structure Ordered (cfg : MeshConfig) (f : Flow) (m : Mesh) : Prop where
  onWay : ∀ c, m.queued cfg f c ≠ [] → c ∈ f.way cfg
  order : m.received f ++ Pipeline.contents (f.way cfg) (m.queued cfg f) = m.accepted.filter f.has

/-- A line that changes in what does not belong to the flow only. -/
theorem queued_congr {m' : Mesh} {f : Flow} (h : ∀ i e,
    (m'.line cfg i f.type e).filter f.has = (m.line cfg i f.type e).filter f.has) :
    m'.queued cfg f = m.queued cfg f := funext fun c => h c.1 c.2

theorem Ordered.same {m' : Mesh} {f : Flow} (h : Ordered cfg f m)
    (hq : m'.queued cfg f = m.queued cfg f) (hr : m'.received f = m.received f)
    (ha : m'.accepted.filter f.has = m.accepted.filter f.has) : Ordered cfg f m' :=
  ⟨fun c hc => h.onWay c (hq ▸ hc), by rw [hq, hr, ha]; exact h.order⟩

/-- A letter that is handed over is received by its flow. -/
theorem received_leave {m' : Mesh} {f : Flow} {a : Letter}
    (h : m'.delivered = m.delivered ++ [(a.2.dest, a)]) :
    m'.received f = m.received f ++ [a].filter f.has := by
  have hone : ([(a.2.dest, a)].filterMap fun e => if e.1 = f.dst then some e.2 else none).filter
      f.has = [a].filter f.has := by
    by_cases hd : a.2.dest = f.dst
    · simp [hd]
    · simp [hd, Flow.has]
  simp only [received, h, List.filterMap_append, List.filter_append, hone]

/-- The lines of a flow are a row of queues. -/
theorem Ordered.passing {m' : Mesh} {f : Flow} (hsrc : f.src < cfg.totalCpus)
    (hdst : f.dst < cfg.totalCpus) (h : Ordered cfg f m) (hp : Passing cfg m m') :
    Ordered cfg f m' := by
  have hway : cfg.OnWay f.dst (f.src, .home) := MeshConfig.onWay_home hsrc hdst
  have hnodup : (f.way cfg).Nodup := MeshConfig.nodup_path hway
  have hhas : ∀ a, f.has a → a.2.cpuid = f.src ∧ a.2.dest = f.dst ∧ a.2.chan = f.type := by
    intro a ha
    simpa [Flow.has, and_assoc] using ha
  cases hp with
  | @enter k type a hk htype hacc hdel hline =>
    have hr : m'.received f = m.received f := by rw [received, received, hdel]
    by_cases ha : f.has a
    · obtain ⟨hcpuid, -, hchan⟩ := hhas a ha
      obtain rfl : k = f.src := hk.symm.trans hcpuid
      obtain rfl : type = f.type := htype.symm.trans hchan
      obtain ⟨pre, hpre⟩ := MeshConfig.path_start cfg f.dst (cfg.rank f.src .home) (f.src, .home)
      have hself : m'.queued cfg f (f.src, .home) = m.queued cfg f (f.src, .home) ++ [a] := by
        simp [queued, hline, ha]
      have hother : ∀ x ≠ (f.src, Direction.home), m'.queued cfg f x = m.queued cfg f x := by
        intro x hx
        have hnot : ¬ (x.1 = f.src ∧ f.type = f.type ∧ x.2 = .home) :=
          fun hh => hx (Prod.ext hh.1 hh.2.2)
        rw [queued, hline, if_neg hnot, queued]
      refine ⟨fun c hc => ?_, ?_⟩
      · by_cases hcs : c = (f.src, .home)
        · rw [hcs, Flow.way, hpre]
          simp
        · exact h.onWay c (hother c hcs ▸ hc)
      · have henter : Pipeline.contents (f.way cfg) (m'.queued cfg f) =
            Pipeline.contents (f.way cfg) (m.queued cfg f) ++ [a] := by
          rw [Flow.way, hpre] at hnodup ⊢
          exact Pipeline.contents_enter hnodup hself hother
        rw [henter, hr, hacc, List.filter_append, ← h.order, ← List.append_assoc]
        simp [ha]
    · refine h.same (queued_congr fun i e => ?_) hr (by simp [hacc, ha])
      rw [hline]
      split_ifs
      · simp [ha]
      · rfl
  | @leave k type d a l hk htype hacc hdel hhead hline =>
    obtain rfl := hk
    have hr := received_leave (f := f) hdel
    by_cases ha : f.has a
    · obtain ⟨-, hdest, hchan⟩ := hhas a ha
      obtain rfl : type = f.type := htype.symm.trans hchan
      have hself : m.queued cfg f (a.2.dest, d) = a :: m'.queued cfg f (a.2.dest, d) := by
        simp [queued, hline, hhead, ha]
      have hother : ∀ x ≠ (a.2.dest, d), m'.queued cfg f x = m.queued cfg f x := by
        intro x hx
        have hnot : ¬ (x.1 = a.2.dest ∧ f.type = f.type ∧ x.2 = d) :=
          fun hh => hx (Prod.ext hh.1 hh.2.2)
        rw [queued, hline, if_neg hnot, queued]
      have hmem : (a.2.dest, d) ∈ f.way cfg := h.onWay _ (by simp [hself])
      obtain ⟨post, hpost⟩ := MeshConfig.path_exit hway hmem (hdest ▸ MeshConfig.next_self _ _)
      have hleave : Pipeline.contents (f.way cfg) (m.queued cfg f) =
          a :: Pipeline.contents (f.way cfg) (m'.queued cfg f) := by
        rw [Flow.way, hpost] at hnodup ⊢
        exact Pipeline.contents_leave hnodup hself rfl hother
      refine ⟨fun c hc => ?_, ?_⟩
      · by_cases hcs : c = (a.2.dest, d)
        · exact hcs ▸ hmem
        · exact h.onWay c (hother c hcs ▸ hc)
      · rw [hr, hacc, ← h.order, hleave]
        simp [ha]
    · refine h.same (queued_congr fun i e => ?_) (by simp [hr, ha]) (by rw [hacc])
      rw [hline]
      split_ifs with hh
      · obtain ⟨rfl, rfl, rfl⟩ := hh
        simp [hhead, ha]
      · rfl
  | @pass k type d c' a l hnext htype hacc hdel hhead hline =>
    have hr : m'.received f = m.received f := by rw [received, received, hdel]
    by_cases ha : f.has a
    · obtain ⟨-, hdest, hchan⟩ := hhas a ha
      obtain rfl : type = f.type := htype.symm.trans hchan
      rw [hdest] at hnext
      have hmem : (k, d) ∈ f.way cfg := h.onWay _ (by simp [queued, hhead, ha])
      obtain ⟨pre, post, hsplit⟩ := MeshConfig.path_step hway (Nat.le_refl _) hmem hnext
      have hne : c' ≠ (k, d) := by
        rintro rfl
        rw [Flow.way, hsplit] at hnodup
        have := (List.nodup_append.mp hnodup).2.1
        simp at this
      have hself : m.queued cfg f (k, d) = a :: m'.queued cfg f (k, d) := by
        simp [queued, hline, hhead, ha]
      have hnew : m'.queued cfg f c' = m.queued cfg f c' ++ [a] := by
        have hnot : ¬ (c'.1 = k ∧ f.type = f.type ∧ c'.2 = d) :=
          fun hh => hne (Prod.ext hh.1 hh.2.2)
        rw [queued, hline, if_neg hnot, queued]
        simp [ha]
      have hother : ∀ x, x ≠ (k, d) → x ≠ c' → m'.queued cfg f x = m.queued cfg f x := by
        intro x hx hx'
        have hnot : ¬ (x.1 = k ∧ f.type = f.type ∧ x.2 = d) :=
          fun hh => hx (Prod.ext hh.1 hh.2.2)
        have hnot' : ¬ (x.1 = c'.1 ∧ f.type = f.type ∧ x.2 = c'.2) :=
          fun hh => hx' (Prod.ext hh.1 hh.2.2)
        rw [queued, hline, if_neg hnot, if_neg hnot', queued]
      refine ⟨fun c hc => ?_, ?_⟩
      · by_cases hcs : c = (k, d)
        · exact hcs ▸ hmem
        · by_cases hcs' : c = c'
          · rw [hcs', Flow.way, hsplit]
            simp
          · exact h.onWay c (hother c hcs hcs' ▸ hc)
      · have hshift : Pipeline.contents (f.way cfg) (m'.queued cfg f) =
            Pipeline.contents (f.way cfg) (m.queued cfg f) := by
          rw [Flow.way, hsplit] at hnodup ⊢
          exact Pipeline.contents_shift hnodup hself rfl hnew hother
        rw [hshift, hr, hacc]
        exact h.order
    · refine h.same (queued_congr fun i e => ?_) hr (by rw [hacc])
      rw [hline]
      split_ifs with hh
      · obtain ⟨rfl, rfl, rfl⟩ := hh
        simp [hhead, ha]
      · simp [ha]
      · rfl
  | still hacc hdel hline =>
    refine h.same (queued_congr fun i e => by rw [hline]) ?_ (by rw [hacc])
    rw [received, received, hdel]

theorem line_initial (cfg : MeshConfig) (k : Nat) (t : Chan) (d : Direction) :
    (Mesh.initial cfg).line cfg k t d = [] := by
  have hbuf : (Mesh.initial cfg).buf cfg k t d = [] := (Ring.Holds.nil _).toList_eq
  have hwire : (Mesh.initial cfg).wire cfg k t d = [] := by
    refine List.filterMap_eq_nil_iff.mpr fun e he => ?_
    obtain ⟨i, -, rfl⟩ := List.mem_map.mp he
    rfl
  rw [line, hbuf, hwire]
  rfl

theorem ordered_initial (f : Flow) : Ordered cfg f (Mesh.initial cfg) := by
  have hline := line_initial cfg
  have hqueued : ∀ c, (Mesh.initial cfg).queued cfg f c = [] := fun c => by simp [queued, hline]
  refine ⟨fun c hc => absurd (hqueued c) hc, ?_⟩
  have hcontents : Pipeline.contents (f.way cfg) ((Mesh.initial cfg).queued cfg f) = [] :=
    List.flatMap_eq_nil_iff.mpr fun c _ => hqueued c
  rw [hcontents]
  rfl

/-- Packets of one type from one node to another are delivered in the order in
which they were accepted. -/
theorem noc_point_to_point_order (h : Reachable cfg m) (src dst : Fin cfg.totalCpus)
    (type : Chan) :
    (m.received ⟨src, dst, type⟩) <+: m.accepted.filter (Flow.has ⟨src, dst, type⟩) := by
  have hordered : Ordered cfg ⟨src, dst, type⟩ m := h.invariant (ordered_initial _)
    fun a b ha ho hm => ho.passing src.isLt dst.isLt (ha.passing hm)
  exact ⟨_, hordered.order⟩

theorem noc_point_to_point_order_pair : ∃ m : Mesh, m.delivered.length = 2 ∧
    m.received ⟨0, 1, .req⟩ <+: m.accepted.filter (Flow.has ⟨0, 1, .req⟩) := by
  obtain ⟨m, hm, hdel⟩ := pairRun_delivers
  refine ⟨m, by simpa using congrArg List.length hdel, ?_⟩
  exact noc_point_to_point_order hm ⟨0, by decide⟩ ⟨1, by decide⟩ .req

end Mesh

end Godson

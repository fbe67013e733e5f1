import Mathlib.Algebra.BigOperators.Group.Finset.Basic
import Mathlib.Data.Fintype.Prod
import Godson.Links

/-! Every packet the network accepts is in exactly one place until it is handed
to its destination. -/
namespace Godson

/-- A sum of which one term has changed. -/
theorem sum_of_changed {ι : Type*} [DecidableEq ι] {s : Finset ι} {f g : ι → Nat} {a : ι}
    (ha : a ∈ s) (h : ∀ x ∈ s, x ≠ a → g x = f x) :
    ∑ x ∈ s, g x + f a = ∑ x ∈ s, f x + g a := by
  have hrest : ∑ x ∈ s.erase a, g x = ∑ x ∈ s.erase a, f x :=
    Finset.sum_congr rfl fun x hx => h x (Finset.mem_of_mem_erase hx) (Finset.ne_of_mem_erase hx)
  rw [← Finset.add_sum_erase s g ha, ← Finset.add_sum_erase s f ha, hrest]
  omega

namespace Mesh

variable (cfg : MeshConfig) (m : Mesh)

/-- Number of input buffer slots that hold the letter. -/
def inBuffers (a : Letter) : Nat :=
  ∑ x ∈ Finset.range cfg.totalCpus ×ˢ (Finset.univ : Finset (Chan × Direction)),
    (m.routers x.1).occupied cfg.routerIfqSize x.2.1 x.2.2 fun p => p.letter == a

/-- The event brings a letter over a wire. -/
def carries (a : Letter) : MeshEvent → Bool
  | .flitArrive p _ _ _ _ => p.letter == a
  | _ => false

/-- Number of wires that carry the letter. -/
def onWires (a : Letter) : Nat := m.pending.countP fun e => carries a e.2

/-- Number of times the letter was handed to a home port. -/
def handed (a : Letter) : Nat := m.delivered.countP fun e => e.2 == a

variable {cfg m}

/-- The buffers as queues. -/
theorem inBuffers_eq (h : m.Sound cfg) (a : Letter) :
    m.inBuffers cfg a = ∑ x ∈ Finset.range cfg.totalCpus ×ˢ
      (Finset.univ : Finset (Chan × Direction)),
        (m.buf cfg x.1 x.2.1 x.2.2).countP fun p => p.letter == a :=
  Finset.sum_congr rfl fun x _ => (h.wf x.1).occupied_eq ..

/-- One buffer has changed. -/
theorem inBuffers_changed {m' : Mesh} {k : Nat} {type : Chan} {d : Direction} {l : List Flit}
    (h : m.Sound cfg) (h' : m'.Sound cfg) (hk : k < cfg.totalCpus)
    (hbuf : ∀ i t e, m'.buf cfg i t e = if i = k ∧ t = type ∧ e = d then l else m.buf cfg i t e)
    (a : Letter) :
    m'.inBuffers cfg a + (m.buf cfg k type d).countP (fun p => p.letter == a) =
      m.inBuffers cfg a + l.countP fun p => p.letter == a := by
  rw [inBuffers_eq h, inBuffers_eq h']
  have hmem : (k, type, d) ∈ Finset.range cfg.totalCpus ×ˢ
      (Finset.univ : Finset (Chan × Direction)) := by simpa using hk
  have := sum_of_changed (f := fun x => (m.buf cfg x.1 x.2.1 x.2.2).countP fun p => p.letter == a)
    (g := fun x => (m'.buf cfg x.1 x.2.1 x.2.2).countP fun p => p.letter == a) hmem
    fun x _ hx => by
      rw [hbuf, if_neg]
      rintro ⟨h₁, h₂, h₃⟩
      exact hx (by rw [← h₁, ← h₂, ← h₃])
  simpa [hbuf] using this

/-- No buffer has changed. -/
theorem inBuffers_congr {m' : Mesh} (h : m.Sound cfg) (h' : m'.Sound cfg)
    (hbuf : m'.buf cfg = m.buf cfg) (a : Letter) : m'.inBuffers cfg a = m.inBuffers cfg a := by
  rw [inBuffers_eq h, inBuffers_eq h', hbuf]

@[simp] theorem accepted_setRouter (k : Nat) (r : Router) :
    (m.setRouter k r).accepted = m.accepted := rfl

@[simp] theorem delivered_setRouter (k : Nat) (r : Router) :
    (m.setRouter k r).delivered = m.delivered := rfl

@[simp] theorem onWires_setRouter (k : Nat) (r : Router) (a : Letter) :
    (m.setRouter k r).onWires a = m.onWires a := rfl

@[simp] theorem accepted_queue (ev : MeshEvent) : (m.queue ev).accepted = m.accepted := rfl

@[simp] theorem delivered_queue (ev : MeshEvent) : (m.queue ev).delivered = m.delivered := rfl

theorem onWires_queue (ev : MeshEvent) (a : Letter) :
    (m.queue ev).onWires a = m.onWires a + if carries a ev then 1 else 0 := by
  simp [onWires, queue]

@[simp] theorem onWires_giveBack (k : Nat) (type : Chan) (d : Direction) (a : Letter) :
    (m.giveBack cfg k type d).onWires a = m.onWires a := by
  unfold giveBack
  split
  · simp [onWires_queue, carries]
  · rfl

theorem onWires_pop {t : Nat} {ev : MeshEvent} {rest : List (Nat × MeshEvent)}
    (h : m.pending = (t, ev) :: rest) (a : Letter) :
    m.onWires a = { m with simCycle := t, pending := rest }.onWires a +
      if carries a ev then 1 else 0 := by
  simp [onWires, h, List.countP_cons]

@[simp] theorem delivered_giveBack (k : Nat) (type : Chan) (d : Direction) :
    (m.giveBack cfg k type d).delivered = m.delivered := by
  unfold giveBack
  split <;> rfl

@[simp] theorem accepted_giveBack (k : Nat) (type : Chan) (d : Direction) :
    (m.giveBack cfg k type d).accepted = m.accepted := by
  unfold giveBack
  split <;> rfl

/-- The buffers after router `k` has stored one more flit. -/
theorem buf_stored {k : Nat} {type : Chan} {d : Direction} {p : Flit} {r : Router}
    (h : m.Sound cfg) (hroom : (m.buf cfg k type d).length < cfg.routerIfqSize)
    (harr : (m.routers k).flitArrive cfg.routerIfqSize p type d = .ok r) :
    ∃ q : Flit, q.letter = p.letter ∧ ∀ i t e, (m.setRouter k r).buf cfg i t e =
      if i = k ∧ t = type ∧ e = d then m.buf cfg k type d ++ [q] else m.buf cfg i t e := by
  obtain ⟨pos, r', hr', -, hbuf, -, -⟩ := (h.wf k).flitArrive p hroom
  obtain rfl : r' = r := Except.ok.inj (hr'.symm.trans harr)
  refine ⟨{ p with sourceChannel := d, index := pos }, rfl, fun i t e => ?_⟩
  rw [buf_setRouter]
  by_cases hik : i = k
  · subst hik
    simp only [if_pos, hbuf, update2_apply, true_and]
    rfl
  · rw [if_neg hik, if_neg fun hh => hik hh.1]

/-- The buffers after a flit has left router `k`. -/
theorem buf_departed {k : Nat} {type : Chan} {out : Direction} {p : Flit} {l : List Flit}
    {r : Router} (h : m.Sound cfg) (hp : m.buf cfg k type p.sourceChannel = p :: l)
    (hcredit : 0 < (m.routers k).egressCredit type out ∨
      out = .home ∧ 0 ≤ (m.routers k).egressCredit type out)
    (hdep : (m.routers k).packetDepart cfg.routerIfqSize p type out = .ok r) (i : Nat) (t : Chan)
    (e : Direction) : (m.setRouter k r).buf cfg i t e =
      if i = k ∧ t = type ∧ e = p.sourceChannel then l else m.buf cfg i t e := by
  obtain ⟨r', hr', -, hbuf, -, -⟩ := (h.wf k).packetDepart hp hcredit
  obtain rfl : r' = r := Except.ok.inj (hr'.symm.trans hdep)
  rw [buf_setRouter]
  by_cases hik : i = k
  · subst hik
    simp only [if_pos, hbuf, update2_apply, true_and]
    rfl
  · rw [if_neg hik, if_neg fun hh => hik hh.1]

/-- The room an arriving flit finds. -/
theorem Sound.arrive_room {t : Nat} {p : Flit} {x y : Nat} {type : Chan} {d : Direction}
    {rest : List (Nat × MeshEvent)} (h : m.Sound cfg)
    (hpend : m.pending = (t, .flitArrive p x y type d) :: rest) :
    cfg.cpuid x y < cfg.totalCpus ∧
      (m.buf cfg (cfg.cpuid x y) type d).length < cfg.routerIfqSize := by
  obtain ⟨hx, hy, hd, hfit⟩ : MeshEvent.Ok cfg (.flitArrive p x y type d) :=
    h.event _ (by rw [hpend]; exact List.mem_cons_self)
  have hwires : 1 ≤ m.wires cfg (cfg.cpuid x y) type d := by
    rw [wires_pop hpend]
    simp [MeshEvent.isFlitTo]
  have hinto := h.link_into type (cfg.cpuid_lt hx hy) (hfit.entered hd)
  exact ⟨cfg.cpuid_lt hx hy, by omega⟩

/-- Letters are conserved: what was accepted is in the buffers, on the wires or handed over. -/
def Conserved (cfg : MeshConfig) (m : Mesh) : Prop :=
  ∀ a, m.inBuffers cfg a + m.onWires a + m.handed a = m.accepted.count a

theorem conserved_initial (cfg : MeshConfig) : Conserved cfg (Mesh.initial cfg) := by
  intro a
  have hzero : ∀ k t d f, ((Mesh.initial cfg).routers k).occupied cfg.routerIfqSize t d f = 0 :=
    fun k t d f => by
      rw [Router.occupied, List.countP_eq_zero]
      simp [Mesh.initial]
  simp only [inBuffers, hzero, Finset.sum_const_zero]
  simp only [onWires, handed, Mesh.initial, List.countP_map]
  simp [Function.comp_def, carries]

theorem Conserved.accepted (hc : Conserved cfg m) (h : m.Sound cfg) {k : Nat} {type : Chan}
    {d : Direction} {p : Flit} (hk : k < cfg.totalCpus) (hp : p ∈ m.buf cfg k type d) :
    p.letter ∈ m.accepted := by
  have hmem : (k, type, d) ∈ Finset.range cfg.totalCpus ×ˢ
      (Finset.univ : Finset (Chan × Direction)) := by simpa using hk
  have hone : 0 < (m.buf cfg k type d).countP fun q => q.letter == p.letter :=
    List.countP_pos_iff.mpr ⟨p, hp, by simp⟩
  have hsum := Finset.add_sum_erase _
    (fun x => (m.buf cfg x.1 x.2.1 x.2.2).countP fun q => q.letter == p.letter) hmem
  have hcount := hc p.letter
  rw [inBuffers_eq h] at hcount
  rw [← List.count_pos_iff]
  dsimp only at hsum
  omega

theorem conserved_move {m' : Mesh} (h : m.Sound cfg) (hc : Conserved cfg m)
    (hm : Move cfg m m') : Conserved cfg m' := by
  have h' := h.move hm
  intro a
  have ha := hc a
  cases hm with
  | @accept k type p r hk hfit hid _ hroom harr =>
    obtain ⟨q, hq, hbuf⟩ := buf_stored h hroom harr
    have := inBuffers_changed h h' hk hbuf a
    simp only [List.countP_append, List.countP_singleton, hq] at this
    simp only [onWires_setRouter, handed, delivered_setRouter, accepted_setRouter,
      List.count_append, List.count_singleton] at *
    simp only [onWires] at *
    rcases Bool.eq_false_or_eq_true (p.letter == a) with hpa | hpa <;>
      simp only [hpa, if_true, Bool.false_eq_true, if_false] at * <;> omega
  | @deliver k type p l r hk hp hw hdep =>
    have hbuf := buf_departed h hp (.inr ⟨rfl, h.credit k hk _ _⟩) hdep
    have := inBuffers_changed (l := l) h h' hk
      (fun i t e => by rw [buf_giveBack]; exact hbuf i t e) a
    rw [hp, List.countP_cons] at this
    simp only [onWires_giveBack, onWires_setRouter, handed, delivered_giveBack,
      delivered_setRouter, accepted_giveBack, accepted_setRouter, List.countP_append,
      List.countP_singleton] at *
    simp only [onWires] at *
    rcases Bool.eq_false_or_eq_true (p.letter == a) with hpa | hpa <;>
      simp only [hpa, if_true, Bool.false_eq_true, if_false] at * <;> omega
  | @depart k j type out p l r hk hp hw hj _ hcredit hdep =>
    have hbuf := buf_departed h hp (.inl hcredit) hdep
    have := inBuffers_changed (l := l) h h' hk
      (fun i t e => by rw [buf_giveBack]; exact hbuf i t e) a
    rw [hp, List.countP_cons] at this
    simp only [onWires_giveBack, onWires_setRouter, onWires_queue, carries, handed,
      delivered_giveBack, delivered_setRouter, delivered_queue, accepted_giveBack,
      accepted_setRouter, accepted_queue] at *
    rcases Bool.eq_false_or_eq_true (p.letter == a) with hpa | hpa <;>
      simp only [hpa, if_true, Bool.false_eq_true, if_false] at * <;> omega
  | @arrive t p x y type d rest r hpend harr =>
    obtain ⟨hk, hroom⟩ := h.arrive_room hpend
    obtain ⟨q, hq, hbuf⟩ := buf_stored h hroom harr
    have := inBuffers_changed h h' hk hbuf a
    simp only [List.countP_append, List.countP_singleton, hq] at this
    simp only [onWires_pop hpend, carries, handed, onWires_setRouter, delivered_setRouter,
      accepted_setRouter] at *
    rcases Bool.eq_false_or_eq_true (p.letter == a) with hpa | hpa <;>
      simp only [hpa, if_true, Bool.false_eq_true, if_false] at * <;> omega
  | @credit t x y type d rest r hpend hcr =>
    have hbuf : ({ m with simCycle := t, pending := rest }.setRouter (cfg.cpuid x y) r).buf cfg =
        m.buf cfg := by
      have hr : r.buf cfg.routerIfqSize = m.buf cfg (cfg.cpuid x y) := by
        rw [Router.updateCredit_eq hcr]
        rfl
      funext i
      rw [buf_setRouter]
      split_ifs with hik
      · rw [hr, hik]
      · rfl
    rw [inBuffers_congr h h' hbuf a]
    rw [onWires_pop hpend] at ha
    simpa [carries, handed] using ha
  | @activate t k rest hpend =>
    rw [inBuffers_congr h h' rfl a]
    rw [onWires_pop hpend] at ha
    simpa [carries, handed] using ha
  | @requeue k hk =>
    rw [inBuffers_congr h h' rfl a, onWires_queue]
    simpa [carries, handed] using ha
  | @internal k r hin hhead hnum hcr hhome =>
    have hbuf : (m.setRouter k r).buf cfg = m.buf cfg := by
      funext i t e
      rw [buf_setRouter]
      split_ifs with hik
      · simp only [buf, Router.buf, hin, hhead, hik]
      · rfl
    rw [inBuffers_congr h h' hbuf a]
    exact ha

/-- The packets accepted are numbered in order. -/
def Numbered (m : Mesh) : Prop := ∀ i (a : Letter), m.accepted[i]? = some a → a.1 = i

theorem numbered_move {m' : Mesh} (hn : Numbered m) (hm : Move cfg m m') : Numbered m' := by
  cases hm with
  | @accept k type p r hk hfit hid _ hroom harr =>
    intro i a ha
    rw [accepted_setRouter] at ha
    rcases Nat.lt_trichotomy i m.accepted.length with hi | hi | hi
    · exact hn i a (by simpa [List.getElem?_append_left hi] using ha)
    · subst hi
      rw [List.getElem?_concat_length, Option.some.injEq] at ha
      rw [← ha]
      exact hid
    · rw [List.getElem?_eq_none (by simp; omega)] at ha
      exact absurd ha (by simp)
  | deliver => simpa [Numbered] using hn
  | depart => simpa [Numbered] using hn
  | arrive => simpa [Numbered] using hn
  | credit => simpa [Numbered] using hn
  | activate => simpa [Numbered] using hn
  | requeue => simpa [Numbered] using hn
  | internal => simpa [Numbered] using hn

theorem Numbered.nodup (h : Numbered m) : m.accepted.Nodup := by
  rw [List.nodup_iff_getElem?_ne_getElem?]
  intro i j hij hj heq
  have hjth := List.getElem?_eq_getElem hj
  have := h i _ (heq.trans hjth)
  have := h j _ hjth
  omega

/-- What was handed over went to the node it was for. -/
def AtDest (m : Mesh) : Prop := ∀ k (a : Letter), (k, a) ∈ m.delivered → a.2.dest = k

theorem atDest_move {m' : Mesh} (h : m.Sound cfg) (hd : AtDest m) (hm : Move cfg m m') :
    AtDest m' := by
  cases hm with
  | @deliver k type p l r hk hp hw hdep =>
    intro i a ha
    rw [delivered_giveBack, delivered_setRouter] at ha
    rcases List.mem_append.mp ha with ha | ha
    · exact hd i a ha
    · obtain ⟨rfl, rfl⟩ := Prod.mk.inj (List.mem_singleton.mp ha)
      have hfit := h.fits _ hk _ _ p (by rw [hp]; exact List.mem_cons_self)
      simp only [Flit.wants, Bool.and_eq_true, beq_iff_eq, hfit.addressed.destX,
        hfit.addressed.destY] at hw
      rw [← cfg.cpuid_home p.letter.2.dest, ← cfg.cpuid_home i]
      exact congrArg₂ cfg.cpuid hw.1 hw.2
  | accept => simpa [AtDest] using hd
  | depart => simpa [AtDest] using hd
  | arrive => simpa [AtDest] using hd
  | credit => simpa [AtDest] using hd
  | activate => simpa [AtDest] using hd
  | requeue => simpa [AtDest] using hd
  | internal => simpa [AtDest] using hd

/-- An accepted packet is in one slot of one buffer, on one wire, or handed over once. -/
theorem Reachable.exactly_one (h : Reachable cfg m) {a : Letter} (ha : a ∈ m.accepted) :
    m.inBuffers cfg a + m.onWires a + m.handed a = 1 := by
  have hconserved : Conserved cfg m := h.invariant (conserved_initial cfg)
    fun a b ha hc hm => conserved_move ha hc hm
  have hnumbered : Numbered m := h.invariant (fun i a ha => by simp [Mesh.initial] at ha)
    fun a b _ hn hm => numbered_move hn hm
  rw [hconserved a]
  exact List.count_eq_one_of_mem hnumbered.nodup ha

/-- What was handed over had been accepted, and was handed to its destination. -/
theorem Reachable.delivered (h : Reachable cfg m) {k : Nat} {a : Letter}
    (ha : (k, a) ∈ m.delivered) : 0 < m.handed a ∧ a ∈ m.accepted ∧ a.2.dest = k := by
  have hconserved : Conserved cfg m := h.invariant (conserved_initial cfg)
    fun a b ha hc hm => conserved_move ha hc hm
  have hatDest : AtDest m := h.invariant (fun k a ha => by simp [Mesh.initial] at ha)
    fun a b ha hd hm => atDest_move ha hd hm
  have hhanded : 0 < m.handed a := List.countP_pos_iff.mpr ⟨_, ha, by simp⟩
  refine ⟨hhanded, ?_, hatDest k a ha⟩
  rw [← List.count_pos_iff, ← hconserved a]
  omega

end Mesh

end Godson

import Godson.Activation

/-! Endless runs of the mesh. While no core halts every node is activated again and again, and
while the home ports keep getting credit every flit at the head of a buffer leaves it. -/
namespace Godson

/-- Number of inputs the arbiter asks before this one, after it has served input `last`. -/
def Direction.turn (last : Nat) (d : Direction) : Nat := (d.number + 5 - (last + 1) % 5) % 5

namespace Router

variable {size x y : Nat} {type : Chan} {d out : Direction} {p : Flit} {r : Router}

theorem getD_turn (last : Nat) (d : Direction) :
    Direction.all.getD ((last + (d.turn last + 1)) % 5) .home = d := by
  have : (last + (d.turn last + 1)) % 5 = d.number := by
    cases d <;> simp only [Direction.turn, Direction.number] <;> omega
  rw [this]
  cases d <;> rfl

theorem turn_getD {last i : Nat} (hi : i < 5) :
    (Direction.all.getD ((last + (i + 1)) % 5) .home).turn last = i := by
  have hnumber : ∀ j < 5, (Direction.all.getD j .home).number = j := by decide
  rw [Direction.turn, hnumber _ (Nat.mod_lt _ (by decide))]
  omega

/-- When another input is served first, the turn of an input comes nearer. -/
theorem turn_lt {last : Nat} {d d' : Direction} (first : d'.turn last ≤ d.turn last)
    (hne : d' ≠ d) : d.turn d'.number < d.turn last := by
  cases d <;> cases d' <;> simp only [Direction.turn, Direction.number] at first ⊢ <;>
    first | exact absurd rfl hne | omega

/-- An output with a credit goes to the first input that asks for it. -/
theorem winner_eq (credit : r.hasCredit type out)
    (asks : (r.ingressFirst type d).any fun p => p.wants x y out) :
    ∃ d', r.winner x y type out = some d' ∧
      d'.turn (r.egressLastGrant type out) ≤ d.turn (r.egressLastGrant type out) := by
  set last := r.egressLastGrant type out
  have hd : d.turn last < 5 := Nat.mod_lt _ (by decide)
  rw [winner, if_pos credit, List.find?_map]
  cases hfind : (List.range 5).find? ((fun d => (r.ingressFirst type d).any fun p => p.wants x y out) ∘
      fun i => Direction.all.getD ((last + (i + 1)) % 5) .home) with
  | none =>
    have := List.find?_range_eq_none.mp hfind (d.turn last) hd
    simp only [Function.comp_apply, getD_turn, asks] at this
    exact absurd this (by decide)
  | some i =>
    obtain ⟨-, hi, before⟩ := List.find?_range_eq_some.mp hfind
    refine ⟨_, rfl, ?_⟩
    rw [turn_getD (List.mem_range.mp hi)]
    by_contra hlt
    have := before (d.turn last) (Nat.lt_of_not_le hlt)
    simp only [Function.comp_apply, getD_turn, asks] at this
    exact absurd this (by decide)

/-- The flit at the head of a buffer gets the output it wants, or its turn comes nearer. -/
theorem arbitrate_serves (h : r.Wf size) (first : (r.buf size type d).head? = some p)
    (wants : p.wants x y out) (credit : r.hasCredit type out) :
    (r.arbitrate x y).egressGrant type out = some p ∨
      d.turn ((r.arbitrate x y).egressLastGrant type out) <
        d.turn (r.egressLastGrant type out) := by
  rw [← h.ingressFirst_eq] at first
  have asks : (r.ingressFirst type d).any fun p => p.wants x y out := by
    rw [first]
    exact wants
  obtain ⟨d', hwinner, hturn⟩ := winner_eq credit asks
  by_cases hd : d' = d
  · left
    simp only [arbitrate, hwinner, Option.bind_some, hd, first]
  · right
    simp only [arbitrate, hwinner]
    exact turn_lt hturn hd

/-- An output without a credit is granted to nobody. -/
theorem arbitrate_waits (credit : ¬ r.hasCredit type out) :
    (r.arbitrate x y).egressGrant type out = none ∧
      (r.arbitrate x y).egressLastGrant type out = r.egressLastGrant type out := by
  have hwinner : r.winner x y type out = none := if_neg credit
  simp only [arbitrate, hwinner, Option.bind_none, and_self]

end Router

namespace Mesh

open Temporal

variable {cfg : MeshConfig} {ch : Nat → MeshChoice cfg.totalCpus} {σ : Nat → Mesh}

/-- An endless run in which no core halts. -/
structure Endless (cfg : MeshConfig) (ch : Nat → MeshChoice cfg.totalCpus) (σ : Nat → Mesh) :
    Prop where
  start : Reachable cfg (σ 0)
  awake : ∀ k < cfg.totalCpus, ¬ (σ 0).Active k
  next : ∀ n, step cfg (ch n) (σ n) = .ok (σ (n + 1))
  goesOn : ∀ n, (ch n).halt = false

/-- An endless run in which every home port is given credit again and again. Responses need none. -/
structure Fair (cfg : MeshConfig) (ch : Nat → MeshChoice cfg.totalCpus) (σ : Nat → Mesh) : Prop
    extends Endless cfg ch σ where
  homeCredit : ∀ k < cfg.totalCpus, ∀ type ≠ .resp, ∀ n, ∃ i ≥ n, (σ i).Activates k ∧
    (if type = .req then 1 else 0) < (ch i).homeCredit type

/-- The flit is granted an output of the node, and the node is activated next. -/
def Leaves (m : Mesh) (k : Nat) (type : Chan) (out : Direction) (p : Flit) : Prop :=
  m.Activates k ∧ (m.routers k).egressGrant type out = some p

namespace Endless

theorem reachable (run : Endless cfg ch σ) (n : Nat) : Reachable cfg (σ n) := by
  induction n with
  | zero => exact run.start
  | succ n ih => exact ih.step (run.next n)

theorem inv (run : Endless cfg ch σ) (n : Nat) : (σ n).Inv cfg := (run.reachable n).inv

/-- Every pending event is run. -/
theorem happens (run : Endless cfg ch σ) (e : Nat × MeshEvent) :
    LeadsTo (fun n => e ∈ (σ n).pending) fun n => (σ n).pending.head? = some e :=
  EventQueue.leadsTo_head (fun n => (run.inv n).timed.sorted)
    (fun n _ _ _ hq => (step_queued (run.inv n) hq (run.next n)).1) e

/-- A flit on a wire gets into the buffer at its end. -/
theorem arrives (run : Endless cfg ch σ) (t x y : Nat) (p : Flit) (type : Chan) (d : Direction) :
    LeadsTo (fun n => (t, .flitArrive p x y type d) ∈ (σ n).pending)
      fun n => ∃ q ∈ (σ n).buf cfg (cfg.cpuid x y) type d, q.letter = p.letter :=
  (run.happens _).next fun n h => arrived (run.inv n).sound h (run.next n)

/-- No node stops. -/
theorem waits (run : Endless cfg ch σ) {k : Nat} (hk : k < cfg.totalCpus) (n : Nat) :
    ∃ t, (t, .cpuExecute k) ∈ (σ n).pending := by
  induction n with
  | zero =>
    by_contra hnone
    refine run.awake k hk fun e he hex => hnone ⟨e.1, ?_⟩
    rw [← hex]
    exact he
  | succ n ih =>
    obtain ⟨t, ht⟩ := ih
    obtain ⟨⟨t₀, ev⟩, rest, hq⟩ := List.exists_cons_of_ne_nil (List.ne_nil_of_mem ht)
    rw [hq] at ht
    rcases List.mem_cons.mp ht with heq | ht
    · obtain ⟨rfl, rfl⟩ := Prod.mk.inj heq
      obtain ⟨m₁, hact⟩ := activation (run.inv n) hq (run.next n)
      exact hact.again (run.goesOn n)
    · obtain ⟨⟨new, perm, -⟩, -⟩ := step_queued (run.inv n) hq (run.next n)
      exact ⟨t, perm.mem_iff.mpr (List.mem_append_right _ ht)⟩

/-- Every node is activated again and again. -/
theorem activated (run : Endless cfg ch σ) {k : Nat} (hk : k < cfg.totalCpus) (n : Nat) :
    ∃ i ≥ n, (σ i).Activates k := by
  obtain ⟨t, ht⟩ := run.waits hk n
  obtain ⟨i, hi, hhead⟩ := run.happens _ n ht
  obtain ⟨rest, hrest⟩ := List.head?_eq_some_iff.mp hhead
  exact ⟨i, hi, t, rest, hrest⟩

theorem activates_lt (run : Endless cfg ch σ) {k n : Nat} (h : (σ n).Activates k) :
    k < cfg.totalCpus := by
  obtain ⟨t, rest, hq⟩ := h
  exact (run.inv n).sound.event (t, .cpuExecute k) (by rw [hq]; exact List.mem_cons_self)

/-- What leaves is the first of its buffer, and what was behind it moves up. -/
theorem leaves (run : Endless cfg ch σ) {k n : Nat} {type : Chan} {out : Direction} {p : Flit}
    (h : (σ n).Leaves k type out p) :
    p.wants (cfg.homeX k) (cfg.homeY k) out ∧ Left cfg k type out p (σ (n + 1)) ∧
      ∃ l, (σ n).buf cfg k type p.sourceChannel = p :: l ∧
        l <+: (σ (n + 1)).buf cfg k type p.sourceChannel := by
  obtain ⟨⟨t, rest, hq⟩, hgrant⟩ := h
  have hk := run.activates_lt ⟨t, rest, hq⟩
  obtain ⟨m₁, hact⟩ := activation (run.inv n) hq (run.next n)
  obtain ⟨hbuf, hleft⟩ := hact.sent type out p hgrant
  exact ⟨((run.inv n).grants k hk type out p hgrant).wants, hleft, _, hbuf, hact.buf _ _⟩

/-- What leaves a buffer is its first flit, through the output that one wants. -/
theorem leaves_head (run : Endless cfg ch σ) {k n : Nat} {type : Chan} {d o out : Direction}
    {p q : Flit} (wants : p.wants (cfg.homeX k) (cfg.homeY k) out)
    (hn : ((σ n).buf cfg k type d).head? = some p) (hq : q.sourceChannel = d)
    (gone : (σ n).Leaves k type o q) : (σ n).Leaves k type out p := by
  obtain ⟨wants', -, l, hl, -⟩ := run.leaves gone
  obtain rfl : q = p := by
    rw [← hq, hl] at hn
    exact Option.some.inj hn
  obtain rfl : o = out :=
    ((q.wants_iff _ _ _).mp wants').trans ((q.wants_iff _ _ _).mp wants).symm
  exact gone

/-- A buffer that no flit leaves only gets longer. -/
theorem grows (run : Endless cfg ch σ) (k n : Nat) (type : Chan) (d : Direction) :
    (σ n).buf cfg k type d <+: (σ (n + 1)).buf cfg k type d ∨
      ∃ out p, p.sourceChannel = d ∧ (σ n).Leaves k type out p := by
  by_cases hact : (σ n).Activates k
  · by_cases hgone : ∃ out p, p.sourceChannel = d ∧ (σ n).Leaves k type out p
    · exact .inr hgone
    · obtain ⟨t, rest, hq⟩ := hact
      obtain ⟨m₁, hact⟩ := activation (run.inv n) hq (run.next n)
      rw [← hact.kept type d fun o p hp hd => hgone ⟨o, p, hd, ⟨t, rest, hq⟩, hp⟩]
      exact .inl (hact.buf type d)
  · exact .inl ((idle_step (run.inv n) hact (run.next n)).buf type d)

/-- What has been granted leaves. -/
theorem granted (run : Endless cfg ch σ) {k : Nat} (hk : k < cfg.totalCpus) (type : Chan)
    (out : Direction) (p : Flit) :
    LeadsTo (fun n => ((σ n).routers k).egressGrant type out = some p)
      fun n => (σ n).Leaves k type out p := by
  have stays : Unless (fun n => ((σ n).routers k).egressGrant type out = some p)
      fun n => (σ n).Leaves k type out p := by
    intro n hn
    by_cases hact : (σ n).Activates k
    · exact .inl ⟨hact, hn⟩
    · exact .inr ((congrFun₂ (idle_step (run.inv n) hact (run.next n)).grant type out).trans hn)
  refine (stays.leadsTo fun n _ => run.activated hk n).mono (fun _ h => h) ?_
  rintro n (gone | ⟨hn, hact⟩)
  · exact gone
  · exact ⟨hact, hn⟩

/-- The first flit of a buffer stays there until it leaves. -/
theorem head_stays (run : Endless cfg ch σ) {k : Nat} {type : Chan} {d out : Direction} {p : Flit}
    (wants : p.wants (cfg.homeX k) (cfg.homeY k) out) :
    Unless (fun n => ((σ n).buf cfg k type d).head? = some p)
      fun n => (σ n).Leaves k type out p := by
  intro n hn
  rcases run.grows k n type d with more | ⟨out', q, rfl, gone⟩
  · right
    obtain ⟨l, hl⟩ := List.head?_eq_some_iff.mp hn
    obtain ⟨l', hl'⟩ := more
    rw [← hl', hl]
    rfl
  · exact .inl (run.leaves_head wants hn rfl gone)

/-- An output that is offered while the first flit of a buffer waits for it goes to that flit,
or the turn of the buffer comes nearer. -/
theorem offered (run : Endless cfg ch σ) {k n : Nat} {type : Chan} {d out : Direction} {p : Flit}
    (wants : p.wants (cfg.homeX k) (cfg.homeY k) out) (hact : (σ n).Activates k)
    (offers : Offers (ch n) (σ n) k type out) (hn : ((σ n).buf cfg k type d).head? = some p)
    (stays : ¬ (σ n).Leaves k type out p) :
    ((σ (n + 1)).routers k).egressGrant type out = some p ∨
      d.turn (((σ (n + 1)).routers k).egressLastGrant type out) <
        d.turn (((σ n).routers k).egressLastGrant type out) := by
  obtain ⟨t, rest, hq⟩ := hact
  obtain ⟨m₁, hact⟩ := activation (run.inv n) hq (run.next n)
  -- nothing leaves the buffer, so the arbiter sees the same flit at its head
  have kept : m₁.buf cfg k type d = (σ n).buf cfg k type d :=
    hact.kept type d fun o q hgrant hs =>
      stays (run.leaves_head wants hn hs ⟨⟨t, rest, hq⟩, hgrant⟩)
  have first : ((m₁.routers k).buf cfg.routerIfqSize type d).head? = some p := by
    rw [← hn, ← kept]
    rfl
  rw [hact.granted, hact.served, ← hact.lastGrant]
  exact Router.arbitrate_serves hact.wf first wants ((hact.offers type out).mpr offers)

/-- An output that is not offered is granted to nobody. -/
theorem withheld (run : Endless cfg ch σ) {k n : Nat} {type : Chan} {out : Direction}
    (hact : (σ n).Activates k) (offers : ¬ Offers (ch n) (σ n) k type out) :
    ((σ (n + 1)).routers k).egressGrant type out = none ∧
      ((σ (n + 1)).routers k).egressLastGrant type out =
        ((σ n).routers k).egressLastGrant type out := by
  obtain ⟨t, rest, hq⟩ := hact
  obtain ⟨m₁, hact⟩ := activation (run.inv n) hq (run.next n)
  rw [hact.granted, hact.served, ← hact.lastGrant]
  exact Router.arbitrate_waits fun credit => offers ((hact.offers type out).mp credit)

/-- The first flit of a buffer leaves it if the output it wants is offered again and again. -/
theorem head_leaves (run : Endless cfg ch σ) {k : Nat} (hk : k < cfg.totalCpus) {type : Chan}
    {d out : Direction} {p : Flit} (wants : p.wants (cfg.homeX k) (cfg.homeY k) out)
    (again : ∀ n, ∃ i ≥ n, (σ i).Activates k ∧ Offers (ch i) (σ i) k type out) :
    LeadsTo (fun n => ((σ n).buf cfg k type d).head? = some p)
      fun n => (σ n).Leaves k type out p := by
  let turn : Nat → Nat := fun n => d.turn (((σ n).routers k).egressLastGrant type out)
  refine .of_measure Nat.lt_wfRel.wf turn fun n hn => ?_
  -- until the output is offered, the flit stays at the head and its turn does not change
  have stays : Unless (fun i => ((σ i).buf cfg k type d).head? = some p ∧ turn i = turn n)
      fun i => (σ i).Leaves k type out p ∨ (((σ i).buf cfg k type d).head? = some p ∧
        turn i = turn n) ∧ (σ i).Activates k ∧ Offers (ch i) (σ i) k type out := by
    rintro i ⟨hi, hturn⟩
    by_cases hoff : (σ i).Activates k ∧ Offers (ch i) (σ i) k type out
    · exact .inl (.inr ⟨⟨hi, hturn⟩, hoff⟩)
    · rcases run.head_stays wants i hi with gone | hi
      · exact .inl (.inl gone)
      · refine .inr ⟨hi, Eq.trans (congrArg d.turn ?_) hturn⟩
        by_cases hact : (σ i).Activates k
        · exact (run.withheld hact fun h => hoff ⟨hact, h⟩).2
        · rw [(idle_step (run.inv i) hact (run.next i)).lastGrant]
  obtain ⟨i, hi, gone | ⟨⟨hhead, hturn⟩, hact, hoff⟩⟩ :
      ∃ i ≥ n, (σ i).Leaves k type out p ∨ (((σ i).buf cfg k type d).head? = some p ∧
        turn i = turn n) ∧ (σ i).Activates k ∧ Offers (ch i) (σ i) k type out := by
    obtain ⟨i, hi, h | h⟩ := stays.leadsTo (fun n _ => again n) n ⟨hn, rfl⟩
    · exact ⟨i, hi, h⟩
    · exact ⟨i, hi, .inr h⟩
  · exact ⟨i, hi, .inl gone⟩
  · by_cases gone : (σ i).Leaves k type out p
    · exact ⟨i, hi, .inl gone⟩
    · rcases run.offered wants hact hoff hhead gone with hgrant | nearer
      · obtain ⟨j, hj, gone⟩ := run.granted hk type out p (i + 1) hgrant
        exact ⟨j, hi.le.trans ((Nat.le_succ i).trans hj), .inl gone⟩
      · rcases run.head_stays wants i hhead with left | hhead
        · exact absurd left gone
        · exact ⟨i + 1, hi.le.trans (Nat.le_succ i), .inr ⟨hhead, hturn ▸ nearer⟩⟩

end Endless

end Mesh

end Godson

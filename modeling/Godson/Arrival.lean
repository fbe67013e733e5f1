import Godson.Fairness

/-! Every packet the network accepts is in exactly one place, and while the home ports keep
getting credit it is handed to its destination. -/
namespace Godson.Mesh

open Temporal

variable {cfg : MeshConfig} {ch : Nat → MeshChoice cfg.totalCpus} {σ : Nat → Mesh}

namespace Endless

/-! ### A link gets credit as long as the node behind it goes on -/

/-- An output that is never offered is granted to nobody any more. -/
theorem not_granted (run : Endless cfg ch σ) {k n : Nat} {type : Chan} {out : Direction}
    (hk : k < cfg.totalCpus)
    (never : ∀ i ≥ n, (σ i).Activates k → ¬ Offers (ch i) (σ i) k type out) :
    ∃ n₁ ≥ n, ∀ i ≥ n₁, ((σ i).routers k).egressGrant type out = none := by
  obtain ⟨i, hi, hact⟩ := run.activated hk n
  refine ⟨i + 1, hi.le.trans (Nat.le_succ i), fun j hj => ?_⟩
  induction j, hj using Nat.le_induction with
  | base => exact (run.withheld hact (never i hi hact)).1
  | succ j hj ih =>
    have hn : n ≤ j := hi.le.trans ((Nat.le_succ i).trans hj)
    by_cases hact : (σ j).Activates k
    · exact (run.withheld hact (never j hn hact)).1
    · exact (congrFun₂ (idle_step (run.inv j) hact (run.next j)).grant type out).trans ih

/-- An output that is granted to nobody loses no credit. -/
theorem credit_mono (run : Endless cfg ch σ) {k n : Nat} {type : Chan} {out : Direction}
    (hout : out ≠ .home) (none : ((σ n).routers k).egressGrant type out = none) :
    ((σ n).routers k).egressCredit type out ≤ ((σ (n + 1)).routers k).egressCredit type out := by
  by_cases hact : (σ n).Activates k
  · obtain ⟨t, rest, hq⟩ := hact
    obtain ⟨m₁, hact⟩ := activation (run.inv n) hq (run.next n)
    rw [hact.credit type out hout, none]
    simp
  · exact (idle_step (run.inv n) hact (run.next n)).credit type out

/-- If an output is never offered and granted to nobody, it has no credit. -/
theorem no_credit (run : Endless cfg ch σ) {k n : Nat} {type : Chan} {out : Direction}
    (hk : k < cfg.totalCpus) (hout : out ≠ .home)
    (never : ∀ i ≥ n, (σ i).Activates k → ¬ Offers (ch i) (σ i) k type out)
    (none : ∀ i ≥ n, ((σ i).routers k).egressGrant type out = none) :
    ∀ i ≥ n, ((σ i).routers k).egressCredit type out ≤ 0 := by
  intro i hi
  by_contra hpos
  have hpos : ∀ j ≥ i, 0 < ((σ j).routers k).egressCredit type out := by
    intro j hj
    induction j, hj using Nat.le_induction with
    | base => omega
    | succ j hj ih => exact ih.trans_le (run.credit_mono hout (none j (hi.le.trans hj)))
  obtain ⟨j, hj, hact⟩ := run.activated hk i
  refine never j (hi.le.trans hj) hact ?_
  rw [Offers, if_neg hout, none j (hi.le.trans hj)]
  exact hpos j hj

/-- An output to a node whose buffer empties again and again is offered again and again. -/
theorem link_offers (run : Endless cfg ch σ) {k j : Nat} {type : Chan} {out : Direction}
    (hk : k < cfg.totalCpus) (hj : cfg.hop k out = some j) (size : 0 < cfg.routerIfqSize)
    (down : ∀ p, LeadsTo (fun n => ((σ n).buf cfg j type out.opposite).head? = some p)
      fun n => ∃ o, (σ n).Leaves j type o p) (n : Nat) :
    ∃ i ≥ n, (σ i).Activates k ∧ Offers (ch i) (σ i) k type out := by
  by_contra hnever
  have never : ∀ i ≥ n, (σ i).Activates k → ¬ Offers (ch i) (σ i) k type out :=
    fun i hi hact hoff => hnever ⟨i, hi, hact, hoff⟩
  obtain ⟨hjlt, hback⟩ := cfg.hop_back hk hj
  obtain ⟨n₁, hn₁, none⟩ := run.not_granted hk never
  have dry := run.no_credit hk (hop_ne_home hj) (fun i hi => never i (hn₁.le.trans hi)) none
  -- no credit comes back, no flit is in the buffer behind the link, and none is on its wire
  have returns : ∀ i ≥ n₁, ∀ t x y, cfg.cpuid x y = k →
      (t, MeshEvent.updateCredit x y type out) ∉ (σ i).pending := by
    rintro i hi t x y rfl he
    obtain ⟨i', hi', hhead⟩ := run.happens _ i he
    have hcredit := credited hhead (run.next i')
    have := (run.inv i').sound.credit _ hk type out
    have := dry (i' + 1) (hi.le.trans (hi'.le.trans (Nat.le_succ i')))
    omega
  have empty : ∀ i ≥ n₁, (σ i).buf cfg j type out.opposite = [] := by
    intro i hi
    by_contra hne
    obtain ⟨p, l, hl⟩ := List.exists_cons_of_ne_nil hne
    obtain ⟨i', hi', o, gone⟩ := down p i (congrArg List.head? hl)
    obtain ⟨-, hleft, -⟩ := run.leaves gone
    have hsource : p.sourceChannel = out.opposite :=
      (((run.inv i).sound.wf j).place type out.opposite 0 p (congrArg (·[0]?) hl)).1
    obtain ⟨t, he⟩ := hleft.paid k (hsource ▸ hback)
    rw [hsource, Direction.opposite_opposite] at he
    exact returns (i' + 1) (hi.le.trans (hi'.le.trans (Nat.le_succ i'))) t _ _ (cfg.cpuid_home k) he
  have wires : ∀ i ≥ n₁, ∀ t p x y, cfg.cpuid x y = j →
      (t, MeshEvent.flitArrive p x y type out.opposite) ∉ (σ i).pending := by
    rintro i hi t p x y rfl he
    obtain ⟨i', hi', q, hq, -⟩ := run.arrives t x y p type out.opposite i he
    rw [empty i' (hi.le.trans hi')] at hq
    cases hq
  -- so the link would account for nothing
  have hload := (run.inv n₁).sound.link k hk type out j hj
  have hwires : (σ n₁).wires cfg j type out.opposite = 0 := by
    by_contra hwire
    obtain ⟨t, p, x, y, he, hnode⟩ := exists_wire hwire
    exact wires n₁ (Nat.le_refl n₁) t p x y hnode he
  have hreturns : (σ n₁).returns cfg k type out = 0 := by
    by_contra hreturn
    obtain ⟨t, x, y, he, hnode⟩ := exists_return hreturn
    exact returns n₁ (Nat.le_refl n₁) t x y hnode he
  have := dry n₁ (Nat.le_refl n₁)
  rw [load, hwires, hreturns, empty n₁ (Nat.le_refl n₁), List.length_nil] at hload
  omega

end Endless

/-! ### Following a packet -/

/-- The number of flits in front of a packet in a buffer. -/
def place (cfg : MeshConfig) (m : Mesh) (k : Nat) (type : Chan) (d : Direction) (a : Letter) :
    Nat := (m.buf cfg k type d).findIdx fun q => q.letter == a

namespace Fair

theorem home_offers (run : Fair cfg ch σ) {k : Nat} (hk : k < cfg.totalCpus) (type : Chan)
    (n : Nat) : ∃ i ≥ n, (σ i).Activates k ∧ Offers (ch i) (σ i) k type .home := by
  by_cases htype : type = .resp
  · obtain ⟨i, hi, hact⟩ := run.activated hk n
    exact ⟨i, hi, hact, by rw [Offers, if_pos rfl]; exact .inl htype⟩
  · obtain ⟨i, hi, hact, hcredit⟩ := run.homeCredit k hk type htype n
    exact ⟨i, hi, hact, by rw [Offers, if_pos rfl]; exact .inr hcredit⟩

/-- The first flit of every buffer leaves it. The induction is on the rank that falls along every
hop: the buffer behind the link empties again and again, so the link gets its credit back. -/
theorem first_leaves (run : Fair cfg ch σ) {k : Nat} (hk : k < cfg.totalCpus) (type : Chan)
    (d : Direction) (p : Flit) :
    LeadsTo (fun n => ((σ n).buf cfg k type d).head? = some p)
      fun n => ∃ out, (σ n).Leaves k type out p := by
  induction hrank : cfg.rank k d using Nat.strong_induction_on generalizing k d p with
  | _ rank ih =>
    subst hrank
    intro n hn
    have hfit : p.Fits cfg k type d := (run.inv n).sound.fits k hk type d p (List.mem_of_head? hn)
    obtain ⟨out, wants⟩ : ∃ out, p.wants (cfg.homeX k) (cfg.homeY k) out :=
      ⟨_, (p.wants_iff _ _ _).mpr rfl⟩
    have again : ∀ n, ∃ i ≥ n, (σ i).Activates k ∧ Offers (ch i) (σ i) k type out := by
      by_cases hout : out = .home
      · exact hout ▸ run.home_offers hk type
      · obtain ⟨j, hj, -, -, -, hlower⟩ := hfit.hop_onRoute hk wants hout
        have size : 0 < cfg.routerIfqSize := by
          have hlen := ((run.inv n).sound.wf k).holds type d |>.length_le
          exact (List.length_pos_of_mem (List.mem_of_head? hn)).trans_le hlen
        exact run.link_offers hk hj size
          fun q => ih _ hlower (cfg.hop_back hk hj).1 out.opposite q rfl
    obtain ⟨i, hi, gone⟩ := run.head_leaves hk wants again n hn
    exact ⟨i, hi, out, gone⟩

/-- One step and the place of a packet in its buffer. -/
theorem place_step (run : Fair cfg ch σ) {k n : Nat} {type : Chan} {d : Direction} {a : Letter}
    (hn : ∃ q ∈ (σ n).buf cfg k type d, q.letter = a) :
    (∃ out p, p.letter = a ∧ p.sourceChannel = d ∧ (σ n).Leaves k type out p) ∨
      (∃ q ∈ (σ (n + 1)).buf cfg k type d, q.letter = a) ∧
        (σ (n + 1)).place cfg k type d a ≤ (σ n).place cfg k type d a ∧
        ((∃ out p, p.sourceChannel = d ∧ (σ n).Leaves k type out p) →
          (σ (n + 1)).place cfg k type d a < (σ n).place cfg k type d a) := by
  have found : ∀ l : List Flit, (∃ q ∈ l, q.letter = a) →
      l.findIdx (fun q => q.letter == a) < l.length := by
    rintro l ⟨q, hq, rfl⟩
    exact List.findIdx_lt_length_of_exists ⟨q, hq, beq_self_eq_true _⟩
  by_cases hgone : ∃ out p, p.sourceChannel = d ∧ (σ n).Leaves k type out p
  · obtain ⟨out, p, rfl, gone⟩ := hgone
    by_cases hp : p.letter = a
    · exact .inl ⟨out, p, hp, rfl, gone⟩
    · right
      obtain ⟨-, -, l, hl, hprefix⟩ := run.leaves gone
      obtain ⟨q, hq, hqa⟩ := hn
      have hql : q ∈ l := by
        rw [hl] at hq
        rcases List.mem_cons.mp hq with rfl | hq
        · exact absurd hqa hp
        · exact hq
      have hlt : (σ (n + 1)).place cfg k type p.sourceChannel a <
          (σ n).place cfg k type p.sourceChannel a := by
        rw [place, place, hprefix.findIdx_eq_of_findIdx_lt_length (found l ⟨q, hql, hqa⟩), hl,
          List.findIdx_cons, beq_false_of_ne hp]
        exact Nat.lt_succ_self _
      exact ⟨⟨q, hprefix.subset hql, hqa⟩, hlt.le, fun _ => hlt⟩
  · right
    have hprefix := (run.grows k n type d).resolve_right hgone
    have heq : (σ (n + 1)).place cfg k type d a = (σ n).place cfg k type d a :=
      hprefix.findIdx_eq_of_findIdx_lt_length (found _ hn)
    obtain ⟨q, hq, hqa⟩ := hn
    exact ⟨⟨q, hprefix.subset hq, hqa⟩, heq.le, fun h => absurd h hgone⟩

/-- A packet in a buffer leaves it, when those in front of it have left. -/
theorem letter_leaves (run : Fair cfg ch σ) {k : Nat} (hk : k < cfg.totalCpus) (type : Chan)
    (d : Direction) (a : Letter) :
    LeadsTo (fun n => ∃ q ∈ (σ n).buf cfg k type d, q.letter = a)
      fun n => ∃ out p, p.letter = a ∧ p.sourceChannel = d ∧ (σ n).Leaves k type out p := by
  refine .of_measure Nat.lt_wfRel.wf (fun n => (σ n).place cfg k type d a) fun n hn => ?_
  obtain ⟨q, hq, -⟩ := id hn
  obtain ⟨p, l, hl⟩ := List.exists_cons_of_ne_nil (List.ne_nil_of_mem hq)
  have hsource : p.sourceChannel = d :=
    (((run.inv n).sound.wf k).place type d 0 p (congrArg (·[0]?) hl)).1
  obtain ⟨i, hi, out, gone⟩ := run.first_leaves hk type d p n (congrArg List.head? hl)
  -- until then the packet stays in the buffer, and no flit gets in front of it
  have stays : Unless (fun i => (∃ q ∈ (σ i).buf cfg k type d, q.letter = a) ∧
        (σ i).place cfg k type d a ≤ (σ n).place cfg k type d a)
      fun i => ∃ out p, p.letter = a ∧ p.sourceChannel = d ∧ (σ i).Leaves k type out p := by
    rintro i ⟨hi, hplace⟩
    rcases run.place_step hi with left | ⟨hi, hle, -⟩
    · exact .inl left
    · exact .inr ⟨hi, hle.trans hplace⟩
  rcases stays.until ⟨hn, Nat.le_refl _⟩ hi with ⟨i, hi, -, left⟩ | ⟨hin, hplace⟩
  · exact ⟨i, hi, .inl left⟩
  · rcases run.place_step hin with left | ⟨hnext, -, hlt⟩
    · exact ⟨i, hi, .inl left⟩
    · exact ⟨i + 1, hi.le.trans (Nat.le_succ i),
        .inr ⟨hnext, (hlt ⟨out, p, hsource, gone⟩).trans_le hplace⟩⟩

/-- A packet in a buffer is handed to a node. -/
theorem buffered_handed (run : Fair cfg ch σ) {k : Nat} (hk : k < cfg.totalCpus) (type : Chan)
    (d : Direction) (a : Letter) :
    LeadsTo (fun n => ∃ q ∈ (σ n).buf cfg k type d, q.letter = a)
      fun n => ∃ i, (i, a) ∈ (σ n).delivered := by
  induction hrank : cfg.rank k d using Nat.strong_induction_on generalizing k d with
  | _ rank ih =>
    subst hrank
    intro n hn
    obtain ⟨i, hi, out, p, rfl, rfl, gone⟩ := run.letter_leaves hk type d a n hn
    obtain ⟨wants, hleft, l, hl, -⟩ := run.leaves gone
    have hin : n ≤ i + 1 := hi.le.trans (Nat.le_succ i)
    rcases hleft.gone with ⟨-, handed⟩ | ⟨j, t, hj, wire⟩
    · exact ⟨i + 1, hin, k, handed⟩
    · have hfit : p.Fits cfg k type p.sourceChannel :=
        (run.inv i).sound.fits k hk type _ p (by rw [hl]; exact List.mem_cons_self)
      obtain ⟨j', hj', -, -, -, hlower⟩ := hfit.hop_onRoute hk wants (hop_ne_home hj)
      obtain rfl : j' = j := Option.some.inj (hj'.symm.trans hj)
      have there := run.arrives t (cfg.homeX j') (cfg.homeY j') p type out.opposite
      rw [cfg.cpuid_home] at there
      obtain ⟨i', hi', handed⟩ :=
        there.trans (ih _ hlower (cfg.hop_back hk hj).1 out.opposite rfl) (i + 1) wire
      exact ⟨i', hin.trans hi', handed⟩

/-- An accepted packet is handed to a node, wherever it is. -/
theorem accepted_handed (run : Fair cfg ch σ) {n : Nat} {a : Letter}
    (ha : a ∈ (σ n).accepted) : ∃ i ≥ n, ∃ k, (k, a) ∈ (σ i).delivered := by
  have one := (run.reachable n).exactly_one ha
  have hsound := (run.inv n).sound
  by_cases hhanded : (σ n).handed a = 0
  · by_cases hwires : (σ n).onWires a = 0
    · -- in a buffer
      rw [hhanded, hwires, inBuffers_eq hsound] at one
      obtain ⟨⟨k, type, d⟩, hx, hcount⟩ :=
        Finset.exists_ne_zero_of_sum_ne_zero (one.trans_ne Nat.one_ne_zero)
      obtain ⟨hk, -⟩ := Finset.mem_product.mp hx
      obtain ⟨q, hq, hqa⟩ := List.countP_pos_iff.mp (Nat.pos_of_ne_zero hcount)
      exact run.buffered_handed (Finset.mem_range.mp hk) type d a n ⟨q, hq, eq_of_beq hqa⟩
    · -- on a wire
      obtain ⟨⟨t, ev⟩, he, hcarries⟩ := List.countP_pos_iff.mp (Nat.pos_of_ne_zero hwires)
      cases ev with
      | flitArrive p x y type d =>
        obtain rfl : p.letter = a := eq_of_beq hcarries
        obtain ⟨hx, hy, -⟩ := hsound.event _ he
        exact (run.arrives t x y p type d).trans
          (run.buffered_handed (cfg.cpuid_lt hx hy) type d p.letter) n he
      | cpuExecute k => simp [carries] at hcarries
      | updateCredit x y type d => simp [carries] at hcarries
  · obtain ⟨⟨k, b⟩, he, hb⟩ := List.countP_pos_iff.mp (Nat.pos_of_ne_zero hhanded)
    obtain rfl : b = a := eq_of_beq hb
    exact ⟨n, Nat.le_refl n, k, he⟩

end Fair

/-- What was handed over stays handed over. -/
theorem Endless.delivered_mono (run : Endless cfg ch σ) {n i : Nat} (hi : n ≤ i) :
    (σ n).delivered <+: (σ i).delivered := by
  induction i, hi using Nat.le_induction with
  | base => exact List.prefix_rfl
  | succ i _ ih => exact ih.trans (step_delivered (run.inv i) (run.next i))

/-- Every packet the network has accepted is in exactly one input buffer slot, on
exactly one wire or has been handed to exactly one home port, and that one is its
destination. Every flit on a wire has come from a neighbour, inside the mesh, and
nearer to its destination, and no assertion of the network ever fails. If from then
on no core halts and the home ports keep getting credit, every packet is handed
over, once and for all. -/
theorem noc_exactly_once {m : Mesh} (h : Reachable cfg m) :
    (∀ a ∈ m.accepted, m.inBuffers cfg a + m.onWires a + m.handed a = 1) ∧
    (∀ k a, (k, a) ∈ m.delivered → a ∈ m.accepted ∧ a.2.dest = k) ∧
    (∀ t p x y type d, (t, MeshEvent.flitArrive p x y type d) ∈ m.pending →
      x < cfg.meshWidth ∧ y < cfg.meshHeight ∧ ∃ k < cfg.totalCpus,
        cfg.hop k d.opposite = some (cfg.cpuid x y) ∧
        p.distance x y < p.distance (cfg.homeX k) (cfg.homeY k)) ∧
    (∀ ch, ∃ m', step cfg ch m = .ok m') ∧
    ∀ ch σ, Fair cfg ch σ → σ 0 = m → ∀ a ∈ m.accepted, ∃ n, ∀ i ≥ n,
      (σ i).handed a = 1 ∧ (a.2.dest, a) ∈ (σ i).delivered := by
  refine ⟨fun a ha => h.exactly_one ha, fun k a ha => (h.delivered ha).2,
    fun t p x y type d he => ?_, fun ch => ?_, fun ch σ run hstart a ha => ?_⟩
  · obtain ⟨hx, hy, hd, hfit⟩ := h.inv.sound.event _ he
    obtain ⟨k, hk⟩ := Option.isSome_iff_exists.mp (hfit.entered hd)
    obtain ⟨hklt, hback⟩ := cfg.hop_back (cfg.cpuid_lt hx hy) hk
    refine ⟨hx, hy, k, hklt, hback, ?_⟩
    have := hfit.nearer hk
    rwa [cfg.homeX_cpuid hx, cfg.homeY_cpuid hx] at this
  · obtain ⟨m', hok, -⟩ := step_spec ch h.inv
    exact ⟨m', hok⟩
  · obtain ⟨n, -, k, hdel⟩ := run.accepted_handed (n := 0) (hstart ▸ ha)
    refine ⟨n, fun i hi => ?_⟩
    have there := (run.delivered_mono hi).subset hdel
    obtain ⟨hpos, hacc, hdest⟩ := (run.reachable i).delivered there
    have one := (run.reachable i).exactly_one hacc
    exact ⟨by omega, hdest ▸ there⟩

/-- The network never gets stuck: whatever the memory system chooses, there is a run. -/
theorem exists_endless {m : Mesh} (h : Reachable cfg m) (awake : ∀ k < cfg.totalCpus, ¬ m.Active k)
    (ch : Nat → MeshChoice cfg.totalCpus) (goesOn : ∀ n, (ch n).halt = false) :
    ∃ σ, Endless cfg ch σ ∧ σ 0 = m := by
  let next : Nat → Mesh → Mesh := fun n m => (step cfg (ch n) m).toOption.getD m
  let σ : Nat → Mesh := fun n => n.rec m fun n m => next n m
  have hnext : ∀ n, Reachable cfg (σ n) → step cfg (ch n) (σ n) = .ok (σ (n + 1)) := by
    intro n hn
    obtain ⟨m', hok, -⟩ := step_spec (ch n) hn.inv
    have : σ (n + 1) = (step cfg (ch n) (σ n)).toOption.getD (σ n) := rfl
    rw [this, hok]
    rfl
  have hreach : ∀ n, Reachable cfg (σ n) := by
    intro n
    induction n with
    | zero => exact h
    | succ n ih => exact ih.step (hnext n ih)
  exact ⟨σ, ⟨h, awake, fun n => hnext n (hreach n), goesOn⟩, rfl⟩

/-- Node 0 has made its two requests, and both nodes go on. -/
theorem pairRun_requests : ∃ m : Mesh, Reachable .pair m ∧ m.accepted.length = 2 ∧
    m.delivered = [] ∧ ∀ k < MeshConfig.pair.totalCpus, ¬ m.Active k := by
  have h : (run .pair (pairRun.take 1) (initial .pair)).map
      (fun m => (m.accepted.length, m.delivered, m.pending)) =
        .ok (2, [], [(0, .cpuExecute 1), (1, .cpuExecute 0)]) := by
    decide +kernel
  cases hrun : run .pair (pairRun.take 1) (initial .pair) with
  | error f =>
    rw [hrun] at h
    exact absurd h (by simp [Except.map])
  | ok m =>
    rw [hrun] at h
    obtain ⟨haccepted, hrest⟩ := Prod.mk.inj (Except.ok.inj h)
    obtain ⟨hdelivered, hpending⟩ := Prod.mk.inj hrest
    refine ⟨m, Reachable.initial.run .pair hrun, haccepted, hdelivered, fun k hk ha => ?_⟩
    have hk : k = 0 ∨ k = 1 := by
      have : k < 2 := hk
      omega
    rcases hk with rfl | rfl
    · exact ha (1, .cpuExecute 0) (by simp [hpending]) rfl
    · exact ha (0, .cpuExecute 1) (by simp [hpending]) rfl

theorem noc_exactly_once_pair : ∃ m ch σ, Reachable .pair m ∧ Fair .pair ch σ ∧ σ 0 = m ∧
    m.accepted.length = 2 ∧ m.delivered = [] ∧
    (∀ a ∈ m.accepted, m.inBuffers .pair a + m.onWires a + m.handed a = 1) ∧
    ∀ a ∈ m.accepted, ∃ n, ∀ i ≥ n, (σ i).handed a = 1 ∧ (a.2.dest, a) ∈ (σ i).delivered := by
  obtain ⟨m, hm, haccepted, hdelivered, hawake⟩ := pairRun_requests
  obtain ⟨σ, hrun, hstart⟩ := exists_endless hm hawake
    (fun _ => { homeCredit := fun _ => 2 }) fun _ => rfl
  have hfair : Fair .pair (fun _ => { homeCredit := fun _ => 2 }) σ := by
    refine ⟨hrun, fun k hk type _ n => ?_⟩
    obtain ⟨i, hi, hact⟩ := hrun.activated hk n
    have : (if type = .req then 1 else 0) < 2 := by split_ifs <;> decide
    exact ⟨i, hi, hact, this⟩
  obtain ⟨hone, -, -, -, hdeliver⟩ := noc_exactly_once hm
  exact ⟨m, _, σ, hm, hfair, hstart, haccepted, hdelivered, hone, hdeliver _ σ hfair hstart⟩

end Godson.Mesh

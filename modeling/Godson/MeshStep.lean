import Mathlib.Logic.Relation
import Godson.Timing

/-! One step of the mesh never fails an assertion and consists of moves. What
`arbitrate` granted is still at the head of its buffer when `flit_traverse` runs. -/
namespace Godson

namespace Router

/-- A grant that can be carried out: the flit is the first of its buffer, wants
the output, and the output has a credit for it. -/
structure Granted (size x y : Nat) (r : Router) (type : Chan) (out : Direction) (p : Flit) :
    Prop where
  first : (r.buf size type p.sourceChannel).head? = some p
  wants : p.wants x y out
  credit : out ≠ .home → 0 < r.egressCredit type out

/-- Every grant of the router can be carried out. -/
def GrantsOk (size x y : Nat) (r : Router) : Prop :=
  ∀ type out p, r.egressGrant type out = some p → r.Granted size x y type out p

variable {size x y : Nat} {r r' : Router}

/-- Arrivals and returned credits do not disturb a grant. -/
theorem Granted.mono {type : Chan} {out : Direction} {p : Flit}
    (h : r.Granted size x y type out p)
    (hbuf : ∀ t d, r.buf size t d <+: r'.buf size t d)
    (hcredit : out ≠ .home → r.egressCredit type out ≤ r'.egressCredit type out) :
    r'.Granted size x y type out p where
  first := by
    obtain ⟨l, hl⟩ := hbuf type p.sourceChannel
    rw [← hl, List.head?_append, h.first, Option.some_or]
  wants := h.wants
  credit ho := (h.credit ho).trans_le (hcredit ho)

theorem GrantsOk.mono (h : r.GrantsOk size x y) (hgrant : r'.egressGrant = r.egressGrant)
    (hbuf : ∀ t d, r.buf size t d <+: r'.buf size t d)
    (hcredit : ∀ t d, d ≠ .home → r.egressCredit t d ≤ r'.egressCredit t d) :
    r'.GrantsOk size x y := by
  intro type out p hp
  rw [hgrant] at hp
  exact (h type out p hp).mono hbuf (hcredit type out)

/-- A flit is granted at most one output. -/
theorem Granted.unique {type : Chan} {o o' : Direction} {p p' : Flit}
    (h : r.Granted size x y type o p) (h' : r.Granted size x y type o' p')
    (hs : p'.sourceChannel = p.sourceChannel) : o' = o := by
  have hp : p' = p := by
    have hf := h'.first
    rw [hs, h.first] at hf
    exact (Option.some.inj hf).symm
  subst hp
  exact ((p'.wants_iff x y o').mp h'.wants).trans ((p'.wants_iff x y o).mp h.wants).symm

/-- A departure does not disturb the grants of the other outputs. -/
theorem Granted.departed {type t : Chan} {out o : Direction} {p p' : Flit} {l : List Flit}
    {credit : Int} (h : r.Granted size x y type out p) (h' : r.Granted size x y t o p')
    (hne : (t, o) ≠ (type, out))
    (hbuf : r'.buf size = update2 (r.buf size) type p.sourceChannel l)
    (hcredit : r'.egressCredit = update2 r.egressCredit type out credit) :
    r'.Granted size x y t o p' where
  first := by
    rw [hbuf, update2_of_ne]
    · exact h'.first
    · rintro ⟨rfl, hs⟩
      exact hne (by rw [h.unique h' hs])
  wants := h'.wants
  credit ho := by
    rw [hcredit, update2_of_ne fun hh => hne (by rw [hh.1, hh.2])]
    exact h'.credit ho

/-- What `arbitrate` grants can be carried out. -/
theorem grantsOk_arbitrate (h : r.Wf size) : (r.arbitrate x y).GrantsOk size x y := by
  intro type out p hp
  obtain ⟨d, hd, hfirst⟩ := Option.bind_eq_some_iff.mp hp
  simp only [winner, Option.ite_none_right_eq_some] at hd
  obtain ⟨hcredit, hd⟩ := hd
  have hwants : p.wants x y out := by
    have := List.find?_some hd
    rwa [hfirst, Option.any_some] at this
  rw [h.ingressFirst_eq] at hfirst
  have hsource : p.sourceChannel = d := by
    refine (h.place type d 0 p ?_).1
    rwa [← List.head?_eq_getElem?]
  have hpos : out ≠ .home → 0 < r.egressCredit type out := fun ho => by
    simpa [hasCredit, ho] using hcredit
  exact ⟨hsource ▸ hfirst, hwants, hpos⟩

end Router

namespace Mesh

variable (cfg : MeshConfig)

/-- The invariant of the network. -/
structure Inv (m : Mesh) : Prop where
  sound : m.Sound cfg
  timed : m.Timed cfg
  grants : ∀ k < cfg.totalCpus,
    (m.routers k).GrantsOk cfg.routerIfqSize (cfg.homeX k) (cfg.homeY k)

/-- Any number of moves. -/
def Moves : Mesh → Mesh → Prop := Relation.ReflTransGen (Move cfg)

variable {cfg} {m m' : Mesh}

theorem Moves.single (h : Move cfg m m') : Moves cfg m m' := Relation.ReflTransGen.single h

theorem Moves.trans {m'' : Mesh} (h : Moves cfg m m') (h' : Moves cfg m' m'') :
    Moves cfg m m'' := Relation.ReflTransGen.trans h h'

/-- An invariant of the moves holds after any number of them. -/
theorem Moves.invariant {inv : Mesh → Prop} (h : Moves cfg m m') (hm : m.Sound cfg)
    (hinv : inv m)
    (hmove : ∀ a b, a.Sound cfg → inv a → Move cfg a b → inv b) : inv m' := by
  suffices m'.Sound cfg ∧ inv m' from this.2
  induction h with
  | refl => exact ⟨hm, hinv⟩
  | tail _ hab ih => exact ⟨ih.1.move hab, hmove _ _ ih.1 ih.2 hab⟩

theorem Sound.moves (h : m.Sound cfg) (hm : Moves cfg m m') : m'.Sound cfg :=
  hm.invariant h h fun _ _ ha _ hab => ha.move hab

/-! ### Flit traverse -/

/-- `launch` puts a flit onto the wire to the neighbour. -/
theorem launch_hop {k j : Nat} {out : Direction} (p : Flit) (type : Chan) (m : Mesh)
    (hk : k < cfg.totalCpus) (h : cfg.hop k out = some j) :
    mayLeave cfg (cfg.homeX k) (cfg.homeY k) out ∧ launch cfg k p type out m =
      .ok (m.queue (.flitArrive p (cfg.homeX j) (cfg.homeY j) type out.opposite)) := by
  have hx := cfg.homeX_lt k
  have hy := cfg.homeY_lt hk
  cases out with
  | home => simp [MeshConfig.hop] at h
  | up =>
    simp only [MeshConfig.hop, Option.ite_none_right_eq_some, Option.some.injEq] at h
    obtain ⟨hy1, rfl⟩ := h
    simp [mayLeave, launch, cfg.homeX_cpuid hx, cfg.homeY_cpuid hx, Direction.opposite]
    omega
  | down =>
    simp only [MeshConfig.hop, Option.ite_none_right_eq_some, Option.some.injEq] at h
    obtain ⟨hy1, rfl⟩ := h
    simp [mayLeave, launch, cfg.homeX_cpuid hx, cfg.homeY_cpuid hx, Direction.opposite, hy]
  | left =>
    simp only [MeshConfig.hop, Option.ite_none_right_eq_some, Option.some.injEq] at h
    obtain ⟨hx1, rfl⟩ := h
    have hx' : cfg.homeX k - 1 < cfg.meshWidth := by omega
    simp [mayLeave, launch, cfg.homeX_cpuid hx', cfg.homeY_cpuid hx', Direction.opposite]
    omega
  | right =>
    simp only [MeshConfig.hop, Option.ite_none_right_eq_some, Option.some.injEq] at h
    obtain ⟨hx1, rfl⟩ := h
    simp [mayLeave, launch, cfg.homeX_cpuid hx1, cfg.homeY_cpuid hx1, Direction.opposite, hx]

/-- `SEND_CREDIT` finds its neighbour, or has nothing to do. -/
theorem sendCredit_eq {k : Nat} {d : Direction} (type : Chan) (m : Mesh)
    (h : d ≠ .home → (cfg.hop k d).isSome) :
    sendCredit cfg (cfg.homeX k) (cfg.homeY k) type d m = .ok (m.giveBack cfg k type d) := by
  have hx := cfg.homeX_lt k
  cases d with
  | home => simp [sendCredit, giveBack, MeshConfig.hop]
  | up =>
    obtain ⟨j, hj⟩ := Option.isSome_iff_exists.mp (h (by simp))
    rw [giveBack, hj]
    simp only [MeshConfig.hop, Option.ite_none_right_eq_some, Option.some.injEq] at hj
    obtain ⟨hy1, rfl⟩ := hj
    simp [sendCredit, hy1, cfg.homeX_cpuid hx, cfg.homeY_cpuid hx, Direction.opposite]
  | down =>
    obtain ⟨j, hj⟩ := Option.isSome_iff_exists.mp (h (by simp))
    rw [giveBack, hj]
    simp only [MeshConfig.hop, Option.ite_none_right_eq_some, Option.some.injEq] at hj
    obtain ⟨hy1, rfl⟩ := hj
    simp [sendCredit, hy1, cfg.homeX_cpuid hx, cfg.homeY_cpuid hx, Direction.opposite]
  | left =>
    obtain ⟨j, hj⟩ := Option.isSome_iff_exists.mp (h (by simp))
    rw [giveBack, hj]
    simp only [MeshConfig.hop, Option.ite_none_right_eq_some, Option.some.injEq] at hj
    obtain ⟨hx1, rfl⟩ := hj
    have hx' : cfg.homeX k - 1 < cfg.meshWidth := by omega
    simp [sendCredit, hx1, cfg.homeX_cpuid hx', cfg.homeY_cpuid hx', Direction.opposite]
  | right =>
    obtain ⟨j, hj⟩ := Option.isSome_iff_exists.mp (h (by simp))
    rw [giveBack, hj]
    simp only [MeshConfig.hop, Option.ite_none_right_eq_some, Option.some.injEq] at hj
    obtain ⟨hx1, rfl⟩ := hj
    simp [sendCredit, hx1, cfg.homeX_cpuid hx1, cfg.homeY_cpuid hx1, Direction.opposite]

/-- What one output of `flit_traverse` leaves as it was for the other outputs of the node. -/
structure Undisturbed (cfg : MeshConfig) (k : Nat) (type : Chan) (out : Direction)
    (m m' : Mesh) : Prop where
  others : ∀ i ≠ k, m'.routers i = m.routers i
  grant : (m'.routers k).egressGrant = (m.routers k).egressGrant
  granted : ∀ t o p, (t, o) ≠ (type, out) →
    (m.routers k).Granted cfg.routerIfqSize (cfg.homeX k) (cfg.homeY k) t o p →
    (m'.routers k).Granted cfg.routerIfqSize (cfg.homeX k) (cfg.homeY k) t o p
  timed : m.Timed cfg → m.Active k → m'.Timed cfg ∧ m'.Active k
  clear : ∀ t o, (t, o) ≠ (type, out) → m.Clear cfg k t o → m'.Clear cfg k t o

/-- A grant is carried out: the flit is handed over, or goes onto the wire. -/
theorem sendFlit_granted {k : Nat} {type : Chan} {out : Direction} {p : Flit} {l : List Flit}
    {r : Router} (h : m.Sound cfg) (hk : k < cfg.totalCpus) (hclear : m.Clear cfg k type out)
    (hgrant : (m.routers k).egressGrant type out = some p)
    (hp : (m.routers k).Granted cfg.routerIfqSize (cfg.homeX k) (cfg.homeY k) type out p)
    (hl : m.buf cfg k type p.sourceChannel = p :: l)
    (hr : (m.routers k).packetDepart cfg.routerIfqSize p type out = .ok r) :
    (out = .home ∧ sendFlit cfg k type out m =
      .ok (({ m with delivered := m.delivered ++ [(k, p.letter)] }.setRouter k r).giveBack cfg
        k type p.sourceChannel)) ∨
    ∃ j, cfg.hop k out = some j ∧ m.wires cfg j type out.opposite = 0 ∧
      mayLeave cfg (cfg.homeX k) (cfg.homeY k) out ∧ sendFlit cfg k type out m =
        .ok (((m.queue (.flitArrive p (cfg.homeX j) (cfg.homeY j) type out.opposite)).setRouter
          k r).giveBack cfg k type p.sourceChannel) := by
  have hfit := h.fits k hk type p.sourceChannel p (by rw [hl]; exact List.mem_cons_self)
  by_cases ho : out = .home
  · subst ho
    have hdest : p.destX = cfg.homeX k ∧ p.destY = cfg.homeY k := by
      simpa [Flit.wants] using hp.wants
    refine .inl ⟨rfl, ?_⟩
    simp only [sendFlit, hgrant, mayLeave, if_true, launch, hdest, and_self, onRouter, hr,
      bind, Except.bind, Except.map]
    rw [sendCredit_eq type _ hfit.entered]
    split_ifs with hs
    · rw [hs]
      rfl
    · rfl
  · obtain ⟨j, hj, -, hturn, -⟩ := hfit.hop_onRoute hk hp.wants ho
    obtain ⟨hmay, hlaunch⟩ := launch_hop p type m hk hj
    refine .inr ⟨j, hj, hclear j hj, hmay, ?_⟩
    simp only [sendFlit, hgrant, hmay, if_true, hlaunch, onRouter, routers_queue, hr,
      bind, Except.bind, Except.map, if_neg hturn]
    exact sendCredit_eq type _ hfit.entered

/-- One output of `flit_traverse`: its grant is carried out, the grants of the
other outputs stay what they were. -/
theorem sendFlit_spec {k : Nat} {type : Chan} {out : Direction} (h : m.Sound cfg)
    (hk : k < cfg.totalCpus) (hclear : m.Clear cfg k type out)
    (hg : ∀ p, (m.routers k).egressGrant type out = some p →
      (m.routers k).Granted cfg.routerIfqSize (cfg.homeX k) (cfg.homeY k) type out p) :
    ∃ m', sendFlit cfg k type out m = .ok m' ∧ Moves cfg m m' ∧
      Undisturbed cfg k type out m m' := by
  cases hgrant : (m.routers k).egressGrant type out with
  | none =>
    exact ⟨m, by simp [sendFlit, hgrant], .refl, fun _ _ => rfl, rfl, fun _ _ _ _ h => h,
      fun ht ha => ⟨ht, ha⟩, fun _ _ _ h => h⟩
  | some p =>
    have hp := hg p hgrant
    obtain ⟨l, hl⟩ : ∃ l, m.buf cfg k type p.sourceChannel = p :: l :=
      List.head?_eq_some_iff.mp hp.first
    have hcredit : 0 < (m.routers k).egressCredit type out ∨
        out = .home ∧ 0 ≤ (m.routers k).egressCredit type out := by
      by_cases ho : out = .home
      · exact .inr ⟨ho, h.credit k hk type out⟩
      · exact .inl (hp.credit ho)
    obtain ⟨r, hr, -, hbuf, hcredits, hgrants⟩ := (h.wf k).packetDepart hl hcredit
    -- however the flit leaves, router `k` becomes `r` and the others stay
    have hframe : ∀ m₁ : Mesh, m₁.routers = m.routers →
        (m.Timed cfg → m.Active k → m₁.Timed cfg ∧ m₁.Active k) →
        (∀ t o, (t, o) ≠ (type, out) → m.Clear cfg k t o → m₁.Clear cfg k t o) →
        Undisturbed cfg k type out m
          ((m₁.setRouter k r).giveBack cfg k type p.sourceChannel) := by
      intro m₁ hm₁ htimed hclear₁
      refine ⟨fun i hi => ?_, ?_, fun t o p' hne hp' => ?_, fun ht ha => ?_, fun t o hne hc => ?_⟩
      · rw [routers_giveBack, routers_setRouter, if_neg hi, hm₁]
      · rw [routers_giveBack, routers_setRouter, if_pos rfl, hgrants]
      · rw [routers_giveBack, routers_setRouter, if_pos rfl]
        exact hp.departed hp' hne hbuf hcredits
      · obtain ⟨ht₁, ha₁⟩ := htimed ht ha
        exact (ht₁.setRouter k r).giveBack ha₁ type p.sourceChannel
      · intro j hj
        rw [wires_giveBack]
        exact hclear₁ t o hne hc j hj
    rcases sendFlit_granted h hk hclear hgrant hp hl hr with ⟨rfl, hok⟩ | ⟨j, hj, hfree, -, hok⟩
    · exact ⟨_, hok, .single (.deliver hk hl hp.wants hr), hframe _ rfl
        (fun ht ha => ⟨⟨ht.sorted, ht.window, ht.order⟩, ha⟩) fun _ _ _ hc => hc⟩
    · have hfrom : ∀ i, (MeshEvent.flitArrive p (cfg.homeX j) (cfg.homeY j) type
          out.opposite).IsFrom cfg i → i = k := by
        intro i hi
        rw [MeshEvent.IsFrom, cfg.cpuid_home, (cfg.hop_back hk hj).2] at hi
        exact (Option.some.inj hi).symm
      exact ⟨_, hok, .single (.depart hk hl hp.wants hj hfree (hp.credit (hop_ne_home hj)) hr),
        hframe (m.queue (.flitArrive p (cfg.homeX j) (cfg.homeY j) type out.opposite)) rfl
          (fun ht ha => ⟨ht.queue ha rfl hfrom, ha.queue rfl⟩) fun t o hne hc => hc.queue p hne⟩

/-- Some outputs of `flit_traverse`, all different. -/
theorem foldlM_sendFlit {k : Nat} (hk : k < cfg.totalCpus) {L : List (Chan × Direction)}
    (hL : L.Nodup) {m : Mesh} (h : m.Sound cfg) (ht : m.Timed cfg) (ha : m.Active k)
    (hclear : ∀ t o, (t, o) ∈ L → m.Clear cfg k t o)
    (hg : ∀ t o, (t, o) ∈ L → ∀ p, (m.routers k).egressGrant t o = some p →
      (m.routers k).Granted cfg.routerIfqSize (cfg.homeX k) (cfg.homeY k) t o p) :
    ∃ m', L.foldlM (fun m (type, out) => sendFlit cfg k type out m) m = .ok m' ∧
      Moves cfg m m' ∧ m'.Timed cfg ∧ m'.Active k ∧ ∀ i ≠ k, m'.routers i = m.routers i := by
  induction L generalizing m with
  | nil => exact ⟨m, rfl, .refl, ht, ha, fun _ _ => rfl⟩
  | cons a L ih =>
    obtain ⟨type, out⟩ := a
    obtain ⟨hnot, hnodup⟩ := List.nodup_cons.mp hL
    have hne : ∀ t o, (t, o) ∈ L → (t, o) ≠ (type, out) := fun t o hto heq => hnot (heq ▸ hto)
    obtain ⟨m₁, hok, hmoves, hrest⟩ := sendFlit_spec h hk (hclear type out List.mem_cons_self)
      (hg type out List.mem_cons_self)
    obtain ⟨ht₁, ha₁⟩ := hrest.timed ht ha
    obtain ⟨m₂, hok₂, hmoves₂, ht₂, ha₂, hothers₂⟩ := ih hnodup (h.moves hmoves) ht₁ ha₁
      (fun t o hto => hrest.clear t o (hne t o hto) (hclear t o (List.mem_cons_of_mem _ hto)))
      fun t o hto p hp => hrest.granted t o p (hne t o hto)
        (hg t o (List.mem_cons_of_mem _ hto) p (hrest.grant ▸ hp))
    refine ⟨m₂, ?_, hmoves.trans hmoves₂, ht₂, ha₂,
      fun i hi => (hothers₂ i hi).trans (hrest.others i hi)⟩
    rw [List.foldlM_cons]
    simp only [hok]
    exact hok₂

theorem nodup_outputs : outputs.Nodup := by decide

/-- `noc_stage`: the grants of the cycle before are carried out, and new ones made. -/
theorem nocStage_spec {k : Nat} (h : m.Inv cfg) (hk : k < cfg.totalCpus) (ha : m.Active k)
    (hclear : ∀ type out, m.Clear cfg k type out) :
    ∃ m', nocStage cfg k m = .ok m' ∧ Moves cfg m m' ∧ m'.Inv cfg ∧ m'.Active k := by
  obtain ⟨m₁, hok, hmoves, htimed, ha₁, hothers⟩ := foldlM_sendFlit hk nodup_outputs h.sound
    h.timed ha (fun t o _ => hclear t o) fun t o _ p hp => h.grants k hk t o p hp
  have hsound := h.sound.moves hmoves
  have hmove : Move cfg m₁ (m₁.setRouter k ((m₁.routers k).arbitrate (cfg.homeX k) (cfg.homeY k))) :=
    .internal rfl rfl rfl (fun _ _ _ => rfl) fun t => hsound.credit k hk t .home
  refine ⟨_, ?_, hmoves.trans (.single hmove),
    ⟨hsound.move hmove, htimed.setRouter k _, fun i hi => ?_⟩, ha₁⟩
  · simp only [nocStage, flitTraverse, hok, bind, Except.bind]
    rfl
  · rw [routers_setRouter]
    split_ifs with hik
    · subst hik
      exact Router.grantsOk_arbitrate (hsound.wf i)
    · rw [hothers i hik]
      exact h.grants i hi

/-! ### The rest of a step -/

/-- A router that stores one more flit keeps its grants. -/
theorem grantsOk_flitArrive {size x y : Nat} {r r' : Router} {type : Chan} {d : Direction}
    {p : Flit} (hwf : r.Wf size) (h : r.GrantsOk size x y)
    (hroom : (r.buf size type d).length < size)
    (hr : r.flitArrive size p type d = .ok r') : r'.GrantsOk size x y := by
  obtain ⟨pos, r₁, hr₁, -, hbuf, hcredit, hgrant⟩ := hwf.flitArrive p hroom
  obtain rfl : r₁ = r' := Except.ok.inj (hr₁.symm.trans hr)
  refine h.mono hgrant (fun t e => ?_) fun t e _ => by rw [hcredit]
  rw [hbuf, update2_apply]
  split_ifs with hte
  · rw [hte.1, hte.2]
    exact List.prefix_append _ _
  · exact List.prefix_rfl

/-- The packet a node injects fits its home buffer. -/
theorem packetOf_dest_lt (k : Nat) (req : Request cfg.totalCpus) :
    (packetOf cfg k req).dest < cfg.totalCpus := by
  have howner : cfg.owner req.paddr < cfg.totalCpus := cfg.owner_lt _
  have htarget : (req.target : Nat) < cfg.totalCpus := req.target.isLt
  simp only [packetOf]
  cases req.chan <;> assumption

/-- A flit that enters its home buffer. -/
theorem Inv.accept {k : Nat} {type : Chan} {p : Flit} {r : Router} (h : m.Inv cfg)
    (hk : k < cfg.totalCpus) (hfit : p.Fits cfg k type .home) (hid : p.id = m.accepted.length)
    (hcpuid : p.packet.cpuid = k) (hroom : (m.buf cfg k type .home).length < cfg.routerIfqSize)
    (hr : (m.routers k).flitArrive cfg.routerIfqSize p type .home = .ok r) :
    Move cfg m ({ m with accepted := m.accepted ++ [p.letter] }.setRouter k r) ∧
      ({ m with accepted := m.accepted ++ [p.letter] }.setRouter k r).Inv cfg := by
  have hmove := Move.accept hk hfit hid hcpuid hroom hr
  refine ⟨hmove, h.sound.move hmove, ⟨h.timed.sorted, h.timed.window, h.timed.order⟩,
    fun i hi => ?_⟩
  rw [routers_setRouter]
  split_ifs with hik
  · subst hik
    exact grantsOk_flitArrive (h.sound.wf i) (h.grants i hi) hroom hr
  · exact h.grants i hi

/-- `noc_request` refuses when the home buffer is full, and else stores a flit there. -/
theorem nocRequest_cases {k : Nat} (req : Request cfg.totalCpus) (h : m.Sound cfg) :
    nocRequest cfg k req m = .ok m ∨ ∃ p r, p.Fits cfg k req.chan .home ∧
      p.id = m.accepted.length ∧ p.packet.cpuid = k ∧
      (m.buf cfg k req.chan .home).length < cfg.routerIfqSize ∧
      (m.routers k).flitArrive cfg.routerIfqSize p req.chan .home = .ok r ∧
      nocRequest cfg k req m =
        .ok ({ m with accepted := m.accepted ++ [p.letter] }.setRouter k r) := by
  by_cases hfull : (m.routers k).ingressNum req.chan .home ≥ cfg.routerIfqSize
  · exact .inl (by simp [nocRequest, hfull])
  · have hroom : (m.buf cfg k req.chan .home).length < cfg.routerIfqSize := by
      have := (h.wf k).num req.chan .home
      rw [buf]
      omega
    set packet := packetOf cfg k req with hpacket
    set p : Flit := {
      id := m.accepted.length
      sourceChannel := .home
      index := 0
      destX := packet.dest % cfg.meshWidth
      destY := packet.dest / cfg.meshWidth
      packet := packet } with hp
    have hfit : p.Fits cfg k req.chan .home :=
      ⟨⟨packetOf_dest_lt k req, rfl, rfl⟩, trivial, rfl, fun hne => absurd rfl hne⟩
    obtain ⟨pos, r, hr, -, -, -, -⟩ := (h.wf k).flitArrive p hroom
    refine .inr ⟨p, r, hfit, rfl, rfl, hroom, hr, ?_⟩
    rw [Router.flitArrive] at hr
    simp only [nocRequest, hfull, if_false, onRouter, ← hpacket, ← hp, hr, Except.map]
    rfl

/-- `noc_request` refuses, or accepts one packet. -/
theorem nocRequest_spec {k : Nat} (req : Request cfg.totalCpus) (h : m.Inv cfg)
    (hk : k < cfg.totalCpus) :
    ∃ m', nocRequest cfg k req m = .ok m' ∧ Moves cfg m m' ∧ m'.Inv cfg ∧
      (m.Active k → m'.Active k) := by
  rcases nocRequest_cases (k := k) req h.sound with
    hok | ⟨p, r, hfit, hid, hcpuid, hroom, hr, hok⟩
  · exact ⟨m, hok, .refl, h, id⟩
  · obtain ⟨hmove, hinv⟩ := h.accept hk hfit hid hcpuid hroom hr
    exact ⟨_, hok, .single hmove, hinv, id⟩

theorem foldlM_nocRequest {k : Nat} (reqs : List (Request cfg.totalCpus)) (h : m.Inv cfg)
    (hk : k < cfg.totalCpus) :
    ∃ m', reqs.foldlM (fun m r => nocRequest cfg k r m) m = .ok m' ∧ Moves cfg m m' ∧
      m'.Inv cfg ∧ (m.Active k → m'.Active k) := by
  induction reqs generalizing m with
  | nil => exact ⟨m, rfl, .refl, h, id⟩
  | cons req reqs ih =>
    obtain ⟨m₁, hok, hmoves, hinv, hactive⟩ := nocRequest_spec req h hk
    obtain ⟨m₂, hok₂, hmoves₂, hinv₂, hactive₂⟩ := ih hinv
    refine ⟨m₂, ?_, hmoves.trans hmoves₂, hinv₂, hactive₂ ∘ hactive⟩
    rw [List.foldlM_cons, hok]
    exact hok₂

theorem setHomeCredit_spec {k : Nat} (credit : Chan → Nat) (h : m.Inv cfg) :
    Moves cfg m (setHomeCredit k credit m) ∧ (setHomeCredit k credit m).Inv cfg := by
  have hmove : Move cfg m (setHomeCredit k credit m) := by
    refine .internal rfl rfl rfl (fun t d hd => ?_) fun t => ?_
    · simp [Router.setHomeCredit, hd]
    · simp [Router.setHomeCredit]
  refine ⟨.single hmove, h.sound.move hmove, h.timed.setRouter k _, fun i hi => ?_⟩
  have hrouter : setHomeCredit k credit m =
      m.setRouter k ((m.routers k).setHomeCredit credit) := rfl
  rw [hrouter, routers_setRouter]
  split_ifs with hik
  · subst hik
    exact (h.grants i hi).mono rfl (fun _ _ => List.prefix_rfl) fun t d hd => by
      simp [Router.setHomeCredit, hd]
  · exact h.grants i hi

/-- No step of the mesh fails an assertion, and every step consists of moves. -/
theorem step_spec (ch : MeshChoice cfg.totalCpus) (h : m.Inv cfg) :
    ∃ m', step cfg ch m = .ok m' ∧ Moves cfg m m' ∧ m'.Inv cfg := by
  unfold step
  cases hpend : m.pending with
  | nil => exact ⟨m, rfl, .refl, h⟩
  | cons e rest =>
    obtain ⟨t, ev⟩ := e
    have hev : ev.Ok cfg := h.sound.event (t, ev) (by rw [hpend]; exact List.mem_cons_self)
    cases ev with
    | cpuExecute k =>
      have hmove : Move cfg m { m with simCycle := t, pending := rest } := .activate hpend
      have h₀ : Inv cfg { m with simCycle := t, pending := rest } :=
        ⟨h.sound.move hmove, h.timed.pop hpend, h.grants⟩
      have ha : Active { m with simCycle := t, pending := rest } k :=
        fun e he => (h.timed.activated hpend e he).2
      obtain ⟨hmoves₁, h₁⟩ := setHomeCredit_spec (k := k) ch.homeCredit h₀
      obtain ⟨m₂, hok₂, hmoves₂, h₂, ha₂⟩ := nocStage_spec h₁ hev ha
        fun type out => h.timed.clear hev hpend type out
      obtain ⟨m₃, hok₃, hmoves₃, h₃, ha₃⟩ := foldlM_nocRequest ch.requests h₂ hev
      have hmoves : Moves cfg m m₃ :=
        (Moves.single hmove).trans (hmoves₁.trans (hmoves₂.trans hmoves₃))
      have hrun : ∀ m', (if ch.halt then m₃ else m₃.queue (.cpuExecute k)) = m' →
          runEvent cfg ch (.cpuExecute k) { m with simCycle := t, pending := rest } = .ok m' := by
        rintro _ rfl
        simp only [runEvent, cpuExecute, hok₂, hok₃, bind, Except.bind]
        rfl
      by_cases hhalt : ch.halt
      · exact ⟨m₃, hrun _ (by simp [hhalt]), hmoves, h₃⟩
      · have hq : Move cfg m₃ (m₃.queue (.cpuExecute k)) := .requeue hev
        exact ⟨_, hrun _ (by simp [hhalt]), hmoves.trans (.single hq), h₃.sound.move hq,
          h₃.timed.requeue (ha₃ ha₂), h₃.grants⟩
    | flitArrive p x y type d =>
      obtain ⟨hx, hy, hd, hfit⟩ := hev
      have hk := cfg.cpuid_lt hx hy
      have hroom : ((m.routers (cfg.cpuid x y)).buf cfg.routerIfqSize type d).length <
          cfg.routerIfqSize := by
        have hinto := h.sound.link_into type hk (hfit.entered hd)
        have hwires : 1 ≤ m.wires cfg (cfg.cpuid x y) type d := by
          rw [wires_pop hpend]
          simp [MeshEvent.isFlitTo]
        rw [buf] at hinto
        omega
      obtain ⟨pos, r, hr, -⟩ := (h.sound.wf (cfg.cpuid x y)).flitArrive p hroom
      have hmove := Move.arrive hpend hr
      refine ⟨_, ?_, .single hmove, h.sound.move hmove, (h.timed.pop hpend).setRouter _ _,
        fun i hi => ?_⟩
      · simp only [runEvent, onRouter, hr, Except.map]
        rfl
      · rw [routers_setRouter]
        split_ifs with hik
        · subst hik
          exact grantsOk_flitArrive (h.sound.wf _) (h.grants _ hi) hroom hr
        · exact h.grants i hi
    | updateCredit x y type d =>
      obtain ⟨hx, hy, hd⟩ := hev
      have hk := cfg.cpuid_lt hx hy
      obtain ⟨j, hj⟩ := Option.isSome_iff_exists.mp hd
      have hroom : (m.routers (cfg.cpuid x y)).egressCredit type d + 1 ≤ cfg.routerIfqSize := by
        have hlink := h.sound.link _ hk type d j hj
        have hreturns : 1 ≤ m.returns cfg (cfg.cpuid x y) type d := by
          rw [returns_pop hpend]
          simp [MeshEvent.isCreditTo]
        rw [load] at hlink
        omega
      obtain ⟨r, hr, hbuf, hgrant, hcredit⟩ :=
        Router.updateCredit_spec (r := m.routers (cfg.cpuid x y)) type d hroom
      have hmove := Move.credit hpend hr
      refine ⟨_, ?_, .single hmove, h.sound.move hmove, (h.timed.pop hpend).setRouter _ _,
        fun i hi => ?_⟩
      · simp only [runEvent, onRouter, hr, Except.map]
        rfl
      · rw [routers_setRouter]
        split_ifs with hik
        · subst hik
          exact (h.grants _ hi).mono hgrant (fun t e => by rw [hbuf]) fun t e _ => hcredit t e
        · exact h.grants i hi

/-- The network starts in order. -/
theorem inv_initial : (initial cfg).Inv cfg := by
  have hbuf : ∀ k t d, (initial cfg).buf cfg k t d = [] := fun k t d =>
    (Ring.Holds.nil cfg.routerIfqSize).toList_eq
  have hev : ∀ e ∈ (initial cfg).pending, ∃ k < cfg.totalCpus, e.2 = .cpuExecute k := by
    intro e he
    obtain ⟨k, hk, rfl⟩ := List.mem_map.mp he
    exact ⟨k, List.mem_range.mp hk, rfl⟩
  have hwires : ∀ k t d, (initial cfg).wires cfg k t d = 0 := fun k t d => by
    rw [wires, List.countP_eq_zero]
    intro e he
    obtain ⟨i, -, hi⟩ := hev e he
    simp [hi, MeshEvent.isFlitTo]
  have hreturns : ∀ k t d, (initial cfg).returns cfg k t d = 0 := fun k t d => by
    rw [returns, List.countP_eq_zero]
    intro e he
    obtain ⟨i, -, hi⟩ := hev e he
    simp [hi, MeshEvent.isCreditTo]
  refine ⟨⟨fun k => ?_, fun k _ t d p hp => ?_, fun e he => ?_, fun k _ t d => ?_,
    fun k _ t d j hj => ?_⟩, ⟨?_, fun e he => ?_, ?_⟩, fun k _ t o p hp => ?_⟩
  · refine (Router.wf_of_holds (q := fun _ _ => []) (fun _ _ => Ring.Holds.nil _) (fun _ _ => rfl)
      fun _ _ _ _ h => ?_).1
    simp at h
  · rw [hbuf] at hp
    exact absurd hp List.not_mem_nil
  · obtain ⟨k, hk, hi⟩ := hev e he
    rw [hi]
    exact hk
  · simp only [initial]
    split_ifs <;> omega
  · simp only [load, hwires, hreturns, hbuf, List.length_nil]
    simp [initial, hop_ne_home hj]
  · exact List.pairwise_map.mpr (List.Pairwise.imp (fun _ => Nat.le_refl _) List.nodup_range)
  · obtain ⟨k, -, rfl⟩ := List.mem_map.mp he
    exact ⟨Nat.le_refl _, Nat.zero_le _⟩
  · refine List.pairwise_map.mpr (List.Pairwise.imp (fun hij k hk => ⟨id, fun hk' => hij ?_⟩)
      List.nodup_range)
    exact (MeshEvent.cpuExecute.inj hk).trans (MeshEvent.cpuExecute.inj hk').symm
  · simp [initial] at hp

theorem Reachable.inv (h : Reachable cfg m) : m.Inv cfg := by
  induction h with
  | initial => exact inv_initial
  | @step m m' ch _ hstep ih =>
    obtain ⟨m₁, hok, -, hinv⟩ := step_spec ch ih
    obtain rfl : m₁ = m' := Except.ok.inj (hok.symm.trans hstep)
    exact hinv

/-- A property of the initial network that every move keeps holds in every run. -/
theorem Reachable.invariant {inv : Mesh → Prop} (h : Reachable cfg m) (hinit : inv (Mesh.initial cfg))
    (hmove : ∀ a b, a.Sound cfg → inv a → Move cfg a b → inv b) : inv m := by
  induction h with
  | initial => exact hinit
  | @step m m' ch hm hstep ih =>
    obtain ⟨m₁, hok, hmoves, -⟩ := step_spec ch hm.inv
    obtain rfl : m₁ = m' := Except.ok.inj (hok.symm.trans hstep)
    exact hmoves.invariant hm.inv.sound ih hmove

end Mesh

end Godson

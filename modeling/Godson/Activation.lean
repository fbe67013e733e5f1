import Godson.Delivery

/-! What one step does to the nodes of the mesh: which flits an activation sends and which
grants it makes, and what every other event leaves to it. -/
namespace Godson

namespace Router

variable {size : Nat} {type : Chan} {d out : Direction} {p : Flit} {r r' : Router}

theorem flitArrive_lastGrant (ok : r.flitArrive size p type d = .ok r') :
    r'.egressLastGrant = r.egressLastGrant := by
  rw [flitArrive_eq ok]

theorem updateIngressHead_lastGrant :
    (r.updateIngressHead size type d).egressLastGrant = r.egressLastGrant := by
  unfold updateIngressHead
  split <;> rfl

theorem packetDepart_lastGrant (ok : r.packetDepart size p type out = .ok r') :
    r'.egressLastGrant = r.egressLastGrant := by
  simp only [packetDepart] at ok
  split_ifs at ok
  all_goals
    obtain rfl := Except.ok.inj ok
    exact updateIngressHead_lastGrant

end Router

namespace Mesh

variable {cfg : MeshConfig} {m m₁ m' : Mesh} {k : Nat}

/-- Events are added for the next cycle, and nothing that was handed over is taken back. -/
structure Grows (m m' : Mesh) : Prop where
  simCycle : m'.simCycle = m.simCycle
  pending : ∃ new, m'.pending.Perm (new ++ m.pending) ∧ ∀ e ∈ new, e.1 = m.simCycle + 1
  delivered : m.delivered <+: m'.delivered

theorem Grows.refl (m : Mesh) : Grows m m := ⟨rfl, ⟨[], .refl _, by simp⟩, List.prefix_rfl⟩

theorem Grows.trans (h : Grows m m₁) (h' : Grows m₁ m') : Grows m m' := by
  obtain ⟨cycle, ⟨new, perm, time⟩, handed⟩ := h
  obtain ⟨cycle', ⟨new', perm', time'⟩, handed'⟩ := h'
  refine ⟨cycle'.trans cycle, ⟨new' ++ new, ?_, fun e he => ?_⟩, handed.trans handed'⟩
  · rw [List.append_assoc]
    exact perm'.trans (perm.append_left new')
  · rcases List.mem_append.mp he with he | he
    · rw [time' e he, cycle]
    · exact time e he

theorem Grows.queue (ev : MeshEvent) (m : Mesh) : Grows m (m.queue ev) :=
  ⟨rfl, ⟨[(m.simCycle + 1, ev)], EventQueue.insert_perm .., by simp⟩, List.prefix_rfl⟩

theorem Grows.giveBack (h : Grows m m') (k : Nat) (type : Chan) (d : Direction) :
    Grows m (m'.giveBack cfg k type d) := by
  unfold Mesh.giveBack
  split
  · exact h.trans (.queue _ m')
  · exact h

theorem Grows.setRouter (h : Grows m m') (k : Nat) (r : Router) : Grows m (m'.setRouter k r) :=
  ⟨h.simCycle, h.pending, h.delivered⟩

theorem Grows.mem (h : Grows m m') {e : Nat × MeshEvent} (he : e ∈ m.pending) :
    e ∈ m'.pending := by
  obtain ⟨new, perm, -⟩ := h.pending
  exact perm.mem_iff.mpr (List.mem_append_right _ he)

theorem mem_queue (ev : MeshEvent) (m : Mesh) : (m.simCycle + 1, ev) ∈ (m.queue ev).pending :=
  EventQueue.mem_insert.mpr (.inl rfl)

/-- A flit has left node `k`: it was handed over or is on the wire to the next node, and the
credit for its place is on the way back. -/
structure Left (cfg : MeshConfig) (k : Nat) (type : Chan) (out : Direction) (p : Flit)
    (m : Mesh) : Prop where
  gone : out = .home ∧ (k, p.letter) ∈ m.delivered ∨ ∃ j t, cfg.hop k out = some j ∧
    (t, .flitArrive p (cfg.homeX j) (cfg.homeY j) type out.opposite) ∈ m.pending
  paid : ∀ i, cfg.hop k p.sourceChannel = some i → ∃ t,
    (t, .updateCredit (cfg.homeX i) (cfg.homeY i) type p.sourceChannel.opposite) ∈ m.pending

theorem Left.grows {type : Chan} {out : Direction} {p : Flit} (h : Left cfg k type out p m)
    (more : Grows m m') : Left cfg k type out p m' where
  gone := by
    rcases h.gone with ⟨home, handed⟩ | ⟨j, t, hop, wire⟩
    · exact .inl ⟨home, more.delivered.subset handed⟩
    · exact .inr ⟨j, t, hop, more.mem wire⟩
  paid i hi := by
    obtain ⟨t, ht⟩ := h.paid i hi
    exact ⟨t, more.mem ht⟩

/-- What `flit_traverse` at node `k` has done with the outputs in the list: the flits granted
there have left. -/
structure Sent (cfg : MeshConfig) (k : Nat) (L : List (Chan × Direction)) (m m' : Mesh) :
    Prop where
  others : ∀ i ≠ k, m'.routers i = m.routers i
  grant : (m'.routers k).egressGrant = (m.routers k).egressGrant
  lastGrant : (m'.routers k).egressLastGrant = (m.routers k).egressLastGrant
  credit : ∀ t o, (m'.routers k).egressCredit t o = (m.routers k).egressCredit t o -
    if (t, o) ∈ L ∧ o ≠ .home ∧ ((m.routers k).egressGrant t o).isSome then 1 else 0
  sent : ∀ t o p, (t, o) ∈ L → (m.routers k).egressGrant t o = some p →
    m.buf cfg k t p.sourceChannel = p :: m'.buf cfg k t p.sourceChannel ∧ Left cfg k t o p m'
  kept : ∀ t d, (∀ o p, (t, o) ∈ L → (m.routers k).egressGrant t o = some p →
    p.sourceChannel ≠ d) → m'.buf cfg k t d = m.buf cfg k t d
  grows : Grows m m'

theorem Sent.nil (m : Mesh) : Sent cfg k [] m m :=
  ⟨fun _ _ => rfl, rfl, rfl, by simp, by simp, fun _ _ _ => rfl, .refl m⟩

/-- One output after the other: no two of them send from one buffer. -/
theorem Sent.cons {type : Chan} {out : Direction} {L : List (Chan × Direction)}
    (h : Sent cfg k [(type, out)] m m₁) (h' : Sent cfg k L m₁ m') (hnot : (type, out) ∉ L)
    (granted : ∀ t o p, (t, o) ∈ (type, out) :: L → (m.routers k).egressGrant t o = some p →
      (m.routers k).Granted cfg.routerIfqSize (cfg.homeX k) (cfg.homeY k) t o p) :
    Sent cfg k ((type, out) :: L) m m' := by
  -- a flit of another output comes from another buffer
  have apart : ∀ t o p q, (t, o) ∈ L → (m.routers k).egressGrant t o = some p → t = type →
      (m.routers k).egressGrant type out = some q → p.sourceChannel ≠ q.sourceChannel := by
    rintro t o p q ho hp rfl hq same
    have := (granted t out q List.mem_cons_self hq).unique
      (granted t o p (List.mem_cons_of_mem _ ho) hp) same
    exact hnot (this ▸ ho)
  refine ⟨fun i hi => (h'.others i hi).trans (h.others i hi), h'.grant.trans h.grant,
    h'.lastGrant.trans h.lastGrant, fun t o => ?_, fun t o p ho hp => ?_, fun t d hd => ?_,
    h.grows.trans h'.grows⟩
  · rw [h'.credit, h.credit, h.grant]
    simp only [List.mem_cons, Prod.mk.injEq]
    grind
  · rcases List.mem_cons.mp ho with heq | hL
    · obtain ⟨rfl, rfl⟩ := Prod.mk.inj heq
      obtain ⟨hbuf, hleft⟩ := h.sent t o p List.mem_cons_self hp
      refine ⟨?_, hleft.grows h'.grows⟩
      rw [h'.kept t p.sourceChannel fun o' q hq' hq => ?_]
      · exact hbuf
      · exact apart t o' q p hq' (h.grant ▸ hq) rfl hp
    · obtain ⟨hbuf, hleft⟩ := h'.sent t o p hL (h.grant ▸ hp)
      refine ⟨?_, hleft⟩
      rw [← h.kept t p.sourceChannel fun o' q hq' hq same => ?_]
      · exact hbuf
      · obtain ⟨rfl, rfl⟩ := Prod.mk.inj (List.mem_singleton.mp hq')
        exact apart t o p q hL hp rfl hq same.symm
  · rw [h'.kept t d fun o p ho hp => hd o p (List.mem_cons_of_mem _ ho) (h.grant ▸ hp)]
    refine h.kept t d fun o p ho hp => ?_
    obtain ⟨rfl, rfl⟩ := Prod.mk.inj (List.mem_singleton.mp ho)
    exact hd o p List.mem_cons_self hp

/-- One output of `flit_traverse`. -/
theorem sent_sendFlit {type : Chan} {out : Direction} (h : m.Sound cfg) (hk : k < cfg.totalCpus)
    (hclear : m.Clear cfg k type out)
    (hg : ∀ p, (m.routers k).egressGrant type out = some p →
      (m.routers k).Granted cfg.routerIfqSize (cfg.homeX k) (cfg.homeY k) type out p)
    (ok : sendFlit cfg k type out m = .ok m') : Sent cfg k [(type, out)] m m' := by
  cases hgrant : (m.routers k).egressGrant type out with
  | none =>
    obtain rfl : m = m' := by simpa [sendFlit, hgrant] using ok
    refine ⟨fun _ _ => rfl, rfl, rfl, fun t o => ?_, fun t o p ho hp => ?_, fun _ _ _ => rfl,
      .refl m⟩
    · grind
    · obtain ⟨rfl, rfl⟩ := Prod.mk.inj (List.mem_singleton.mp ho)
      exact absurd (hgrant.symm.trans hp) (by simp)
  | some p =>
    have hp := hg p hgrant
    obtain ⟨l, hl⟩ : ∃ l, m.buf cfg k type p.sourceChannel = p :: l :=
      List.head?_eq_some_iff.mp hp.first
    have hcredit : 0 < (m.routers k).egressCredit type out ∨
        out = .home ∧ 0 ≤ (m.routers k).egressCredit type out := by
      by_cases ho : out = .home
      · exact .inr ⟨ho, h.credit k hk type out⟩
      · exact .inl (hp.credit ho)
    obtain ⟨r, hr, -, hbuf, hcredits, hgrants⟩ := (h.wf k).packetDepart hl hcredit
    -- however the flit leaves, router `k` becomes `r`, and the credit goes back
    have hsent : ∀ m₁ : Mesh, m₁.routers = m.routers → Grows m m₁ →
        (out = .home ∧ (k, p.letter) ∈ m₁.delivered ∨ ∃ j t, cfg.hop k out = some j ∧
          (t, .flitArrive p (cfg.homeX j) (cfg.homeY j) type out.opposite) ∈ m₁.pending) →
        Sent cfg k [(type, out)] m ((m₁.setRouter k r).giveBack cfg k type p.sourceChannel) := by
      intro m₁ hm₁ grows gone
      have hself : ((m₁.setRouter k r).giveBack cfg k type p.sourceChannel).routers k = r := by
        rw [routers_giveBack, routers_setRouter, if_pos rfl]
      have hbufs : ∀ t d, ((m₁.setRouter k r).giveBack cfg k type p.sourceChannel).buf cfg k t d =
          update2 (m.buf cfg k) type p.sourceChannel l t d := fun t d => by
        rw [buf, hself, hbuf]
        rfl
      refine ⟨fun i hi => ?_, ?_, ?_, fun t o => ?_, fun t o q ho hq => ?_, fun t d hd => ?_,
        (grows.setRouter k r).giveBack k type p.sourceChannel⟩
      · rw [routers_giveBack, routers_setRouter, if_neg hi, hm₁]
      · rw [hself, hgrants]
      · rw [hself, Router.packetDepart_lastGrant hr]
      · rw [hself, hcredits, update2_apply]
        grind
      · obtain ⟨rfl, rfl⟩ := Prod.mk.inj (List.mem_singleton.mp ho)
        obtain rfl : p = q := Option.some.inj (hgrant.symm.trans hq)
        refine ⟨by rw [hbufs, update2_self, hl], ⟨?_, fun i hi => ?_⟩⟩
        · have more : Grows m₁ ((m₁.setRouter k r).giveBack cfg k t p.sourceChannel) :=
            ((Grows.refl m₁).setRouter k r).giveBack k t p.sourceChannel
          rcases gone with ⟨home, handed⟩ | ⟨j, time, hop, wire⟩
          · exact .inl ⟨home, more.delivered.subset handed⟩
          · exact .inr ⟨j, time, hop, more.mem wire⟩
        · rw [giveBack, hi]
          exact ⟨_, mem_queue _ _⟩
      · rw [hbufs, update2_of_ne]
        rintro ⟨rfl, rfl⟩
        exact hd out p List.mem_cons_self hgrant rfl
    rcases sendFlit_granted h hk hclear hgrant hp hl hr with ⟨rfl, hok⟩ | ⟨j, hj, -, -, hok⟩
    · obtain rfl := Except.ok.inj (hok.symm.trans ok)
      exact hsent _ rfl ⟨rfl, ⟨[], .refl _, by simp⟩, List.prefix_append _ _⟩
        (.inl ⟨rfl, by simp⟩)
    · obtain rfl := Except.ok.inj (hok.symm.trans ok)
      exact hsent (m.queue _) rfl (.queue _ m) (.inr ⟨j, _, hj, mem_queue _ _⟩)

/-- Some outputs of `flit_traverse`, all different. -/
theorem sent_foldlM {L : List (Chan × Direction)} (hk : k < cfg.totalCpus) (hL : L.Nodup)
    (h : m.Sound cfg) (ht : m.Timed cfg) (ha : m.Active k)
    (hclear : ∀ t o, (t, o) ∈ L → m.Clear cfg k t o)
    (hg : ∀ t o p, (t, o) ∈ L → (m.routers k).egressGrant t o = some p →
      (m.routers k).Granted cfg.routerIfqSize (cfg.homeX k) (cfg.homeY k) t o p)
    (ok : L.foldlM (fun m (type, out) => sendFlit cfg k type out m) m = .ok m') :
    Sent cfg k L m m' := by
  induction L generalizing m with
  | nil =>
    obtain rfl : m = m' := Except.ok.inj ok
    exact .nil m
  | cons a L ih =>
    obtain ⟨type, out⟩ := a
    obtain ⟨hnot, hnodup⟩ := List.nodup_cons.mp hL
    have hne : ∀ t o, (t, o) ∈ L → (t, o) ≠ (type, out) := fun t o hto heq => hnot (heq ▸ hto)
    have here := fun p hp => hg type out p List.mem_cons_self hp
    obtain ⟨m₁, hok, hmoves, hrest⟩ := sendFlit_spec h hk (hclear type out List.mem_cons_self) here
    obtain ⟨ht₁, ha₁⟩ := hrest.timed ht ha
    rw [List.foldlM_cons] at ok
    simp only [hok] at ok
    have first := sent_sendFlit h hk (hclear type out List.mem_cons_self) here hok
    refine first.cons (ih hnodup (h.moves hmoves) ht₁ ha₁ (fun t o hto => ?_)
      (fun t o p hto hp => ?_) ok) hnot hg
    · exact hrest.clear t o (hne t o hto) (hclear t o (List.mem_cons_of_mem _ hto))
    · exact hrest.granted t o p (hne t o hto)
        (hg t o p (List.mem_cons_of_mem _ hto) (hrest.grant ▸ hp))

/-- What the calls of `noc_request` at node `k` leave as it was: its buffers only get longer. -/
structure Injected (cfg : MeshConfig) (k : Nat) (m m' : Mesh) : Prop where
  others : ∀ i ≠ k, m'.routers i = m.routers i
  grant : (m'.routers k).egressGrant = (m.routers k).egressGrant
  lastGrant : (m'.routers k).egressLastGrant = (m.routers k).egressLastGrant
  credit : (m'.routers k).egressCredit = (m.routers k).egressCredit
  buf : ∀ t d, m.buf cfg k t d <+: m'.buf cfg k t d
  grows : Grows m m'

theorem Injected.refl (m : Mesh) : Injected cfg k m m :=
  ⟨fun _ _ => rfl, rfl, rfl, rfl, fun _ _ => List.prefix_rfl, .refl m⟩

theorem Injected.trans (h : Injected cfg k m m₁) (h' : Injected cfg k m₁ m') :
    Injected cfg k m m' :=
  ⟨fun i hi => (h'.others i hi).trans (h.others i hi), h'.grant.trans h.grant,
    h'.lastGrant.trans h.lastGrant, h'.credit.trans h.credit,
    fun t d => (h.buf t d).trans (h'.buf t d), h.grows.trans h'.grows⟩

theorem Injected.queue (ev : MeshEvent) (m : Mesh) : Injected cfg k m (m.queue ev) :=
  ⟨fun _ _ => rfl, rfl, rfl, rfl, fun _ _ => List.prefix_rfl, .queue ev m⟩

/-- The buffers of a node that has stored one more flit. -/
theorem prefix_stored {type : Chan} {d : Direction} {p : Flit} {r : Router} (h : m.Sound cfg)
    (hroom : (m.buf cfg k type d).length < cfg.routerIfqSize)
    (hr : (m.routers k).flitArrive cfg.routerIfqSize p type d = .ok r) (i : Nat) (t : Chan)
    (e : Direction) : m.buf cfg i t e <+: (m.setRouter k r).buf cfg i t e := by
  obtain ⟨q, -, hbuf⟩ := buf_stored h hroom hr
  rw [hbuf]
  split_ifs with hite
  · obtain ⟨rfl, rfl, rfl⟩ := hite
    exact List.prefix_append _ _
  · exact List.prefix_rfl

theorem injected_nocRequest {req : Request cfg.totalCpus} (h : m.Sound cfg)
    (ok : nocRequest cfg k req m = .ok m') : Injected cfg k m m' := by
  rcases nocRequest_cases (k := k) req h with hok | ⟨p, r, -, -, -, hroom, hr, hok⟩
  · obtain rfl := Except.ok.inj (hok.symm.trans ok)
    exact .refl m
  · obtain rfl := Except.ok.inj (hok.symm.trans ok)
    obtain ⟨pos, r', hr', -, -, hcredit, hgrant⟩ := (h.wf k).flitArrive p hroom
    obtain rfl : r' = r := Except.ok.inj (hr'.symm.trans hr)
    have hself : ({ m with accepted := m.accepted ++ [p.letter] }.setRouter k r').routers k =
        r' := by
      rw [routers_setRouter, if_pos rfl]
    refine ⟨fun i hi => ?_, ?_, ?_, ?_, prefix_stored h hroom hr k,
      ⟨rfl, ⟨[], .refl _, by simp⟩, List.prefix_rfl⟩⟩
    · rw [routers_setRouter, if_neg hi]
    · rw [hself, hgrant]
    · rw [hself, Router.flitArrive_lastGrant hr]
    · rw [hself, hcredit]

theorem injected_foldlM {reqs : List (Request cfg.totalCpus)} (h : m.Inv cfg)
    (hk : k < cfg.totalCpus)
    (ok : reqs.foldlM (fun m r => nocRequest cfg k r m) m = .ok m') : Injected cfg k m m' := by
  induction reqs generalizing m with
  | nil =>
    obtain rfl : m = m' := Except.ok.inj ok
    exact .refl m
  | cons req reqs ih =>
    obtain ⟨m₁, hok, -, hinv, -⟩ := nocRequest_spec req h hk
    rw [List.foldlM_cons, hok] at ok
    exact (injected_nocRequest h.sound hok).trans (ih hinv ok)

/-- Node `k` is activated next. -/
def Activates (m : Mesh) (k : Nat) : Prop := ∃ t rest, m.pending = (t, .cpuExecute k) :: rest

/-- If node `k` is activated now, `arbitrate` finds a credit for the output. -/
def Offers (ch : MeshChoice cfg.totalCpus) (m : Mesh) (k : Nat) (type : Chan)
    (out : Direction) : Prop :=
  if out = .home then type = .resp ∨ (if type = .req then 1 else 0) < ch.homeCredit type
  else (if ((m.routers k).egressGrant type out).isSome then 1 else 0) <
    (m.routers k).egressCredit type out

/-- An activation of node `k`: what was granted leaves, `arbitrate` sees `m₁`, and the node
makes its requests. -/
structure Activation (cfg : MeshConfig) (ch : MeshChoice cfg.totalCpus) (k : Nat)
    (m m₁ m' : Mesh) : Prop where
  others : ∀ i ≠ k, m'.routers i = m.routers i
  sent : ∀ t o p, (m.routers k).egressGrant t o = some p →
    m.buf cfg k t p.sourceChannel = p :: m₁.buf cfg k t p.sourceChannel ∧ Left cfg k t o p m'
  kept : ∀ t d, (∀ o p, (m.routers k).egressGrant t o = some p → p.sourceChannel ≠ d) →
    m₁.buf cfg k t d = m.buf cfg k t d
  buf : ∀ t d, m₁.buf cfg k t d <+: m'.buf cfg k t d
  wf : (m₁.routers k).Wf cfg.routerIfqSize
  offers : ∀ t o, (m₁.routers k).hasCredit t o ↔ Offers ch m k t o
  credit : ∀ t o, o ≠ .home → (m'.routers k).egressCredit t o = (m.routers k).egressCredit t o -
    if ((m.routers k).egressGrant t o).isSome then 1 else 0
  lastGrant : (m₁.routers k).egressLastGrant = (m.routers k).egressLastGrant
  granted : (m'.routers k).egressGrant =
    ((m₁.routers k).arbitrate (cfg.homeX k) (cfg.homeY k)).egressGrant
  served : (m'.routers k).egressLastGrant =
    ((m₁.routers k).arbitrate (cfg.homeX k) (cfg.homeY k)).egressLastGrant
  again : ch.halt = false → ∃ t, (t, .cpuExecute k) ∈ m'.pending
  queued : ∀ t ev rest, m.pending = (t, ev) :: rest →
    ∃ new, m'.pending.Perm (new ++ rest) ∧ ∀ e ∈ new, t < e.1
  delivered : m.delivered <+: m'.delivered

theorem mem_outputs (t : Chan) (o : Direction) : (t, o) ∈ outputs := by
  cases t <;> cases o <;> decide

/-- `flit_traverse` of a node that is activated. -/
theorem flitTraverse_sent (h : m.Inv cfg) (hk : k < cfg.totalCpus) (ha : m.Active k)
    (hclear : ∀ t o, m.Clear cfg k t o) :
    ∃ m₁, flitTraverse cfg k m = .ok m₁ ∧ m₁.Sound cfg ∧ Sent cfg k outputs m m₁ := by
  have hgranted := h.grants k hk
  obtain ⟨m₁, hok, hmoves, -, -, -⟩ := foldlM_sendFlit hk nodup_outputs h.sound h.timed ha
    (fun t o _ => hclear t o) fun t o _ p hp => hgranted t o p hp
  exact ⟨m₁, hok, h.sound.moves hmoves, sent_foldlM hk nodup_outputs h.sound h.timed ha
    (fun t o _ => hclear t o) (fun t o p _ hp => hgranted t o p hp) hok⟩

/-- The parts of an activation: `flit_traverse` with the credit of the home port, `arbitrate`,
and the requests. -/
theorem Activation.of_parts {ch : MeshChoice cfg.totalCpus} {t : Nat} {ev : MeshEvent}
    {rest : List (Nat × MeshEvent)} (hpend : m.pending = (t, ev) :: rest)
    (hsent : Sent cfg k outputs
      (setHomeCredit k ch.homeCredit { m with simCycle := t, pending := rest }) m₁)
    (hwf : (m₁.routers k).Wf cfg.routerIfqSize)
    (hinjected : Injected cfg k
      (m₁.setRouter k ((m₁.routers k).arbitrate (cfg.homeX k) (cfg.homeY k))) m')
    (again : ch.halt = false → ∃ t, (t, .cpuExecute k) ∈ m'.pending) :
    Activation cfg ch k m m₁ m' := by
  set m₀ : Mesh := setHomeCredit k ch.homeCredit { m with simCycle := t, pending := rest }
    with hm₀
  set m₂ := m₁.setRouter k ((m₁.routers k).arbitrate (cfg.homeX k) (cfg.homeY k)) with hm₂
  -- `flit_traverse` starts from the old router, apart from the credit of the home port
  have hself₀ : m₀.routers k = (m.routers k).setHomeCredit ch.homeCredit := by
    simp [hm₀, setHomeCredit, modRouter]
  have hbuf₀ : m₀.buf cfg k = m.buf cfg k := by
    funext t d
    rw [Mesh.buf, hself₀]
    rfl
  have hgrant₀ : (m₀.routers k).egressGrant = (m.routers k).egressGrant := by
    rw [hself₀]
    rfl
  have hcredit₀ : ∀ t o, (m₀.routers k).egressCredit t o =
      if o = .home then (ch.homeCredit t : Int) else (m.routers k).egressCredit t o := fun t o => by
    rw [hself₀]
    rfl
  -- and the requests from what `arbitrate` made of it
  have hself₂ : m₂.routers k = (m₁.routers k).arbitrate (cfg.homeX k) (cfg.homeY k) := by
    rw [hm₂, routers_setRouter, if_pos rfl]
  have hbuf₂ : m₂.buf cfg k = m₁.buf cfg k := by
    funext t d
    rw [Mesh.buf, hself₂]
    rfl
  have hlater : Grows m₁ m' := ((Grows.refl m₁).setRouter k _).trans hinjected.grows
  have hall : Grows { m with simCycle := t, pending := rest } m' :=
    ((Grows.refl _).setRouter k _).trans (hsent.grows.trans hlater)
  refine ⟨fun i hi => ?_, fun t o p hp => ?_, fun t d hd => ?_, fun t d => ?_, hwf,
    fun t o => ?_, fun t o ho => ?_, ?_, ?_, ?_, again, fun s ev rest' hq => ?_, hall.delivered⟩
  · rw [hinjected.others i hi, hm₂, routers_setRouter, if_neg hi, hsent.others i hi]
    simp [hm₀, setHomeCredit, modRouter, hi]
  · obtain ⟨hbuf, hleft⟩ := hsent.sent t o p (mem_outputs t o) (hgrant₀ ▸ hp)
    exact ⟨hbuf₀ ▸ hbuf, hleft.grows hlater⟩
  · rw [hsent.kept t d fun o p _ hp => hd o p (hgrant₀ ▸ hp), hbuf₀]
  · rw [← hbuf₂]
    exact hinjected.buf t d
  · rw [Router.hasCredit, Offers, hsent.credit, hsent.credit, hcredit₀, hcredit₀, hgrant₀]
    simp only [mem_outputs, true_and]
    grind
  · rw [hinjected.credit, hself₂, Router.arbitrate]
    simp only [hsent.credit, hcredit₀, hgrant₀, mem_outputs, true_and, if_neg ho]
    grind
  · rw [hsent.lastGrant, hself₀]
    rfl
  · rw [hinjected.grant, hself₂]
  · rw [hinjected.lastGrant, hself₂]
  · obtain ⟨new, perm, time⟩ := hall.pending
    obtain ⟨heq, rfl⟩ := List.cons.inj (hpend.symm.trans hq)
    obtain ⟨rfl, -⟩ := Prod.mk.inj heq
    exact ⟨new, perm, fun e he => by rw [time e he]; exact Nat.lt_succ_self t⟩

theorem activation {ch : MeshChoice cfg.totalCpus} {t : Nat} {rest : List (Nat × MeshEvent)}
    (h : m.Inv cfg) (hpend : m.pending = (t, .cpuExecute k) :: rest)
    (hstep : step cfg ch m = .ok m') : ∃ m₁, Activation cfg ch k m m₁ m' := by
  have hk : k < cfg.totalCpus :=
    h.sound.event (t, .cpuExecute k) (by rw [hpend]; exact List.mem_cons_self)
  have h₀ : Inv cfg { m with simCycle := t, pending := rest } :=
    ⟨h.sound.move (.activate hpend), h.timed.pop hpend, h.grants⟩
  obtain ⟨-, hcredit⟩ := setHomeCredit_spec (k := k) ch.homeCredit h₀
  have ha : Active (setHomeCredit k ch.homeCredit { m with simCycle := t, pending := rest }) k :=
    fun e he => (h.timed.activated hpend e he).2
  have hclear := h.timed.clear hk hpend
  obtain ⟨m₁, hok₁, hsound₁, hsent⟩ := flitTraverse_sent hcredit hk ha hclear
  obtain ⟨m₂, hok₂, -, h₂, -⟩ := nocStage_spec hcredit hk ha hclear
  obtain ⟨m₃, hok₃, -, -, -⟩ := foldlM_nocRequest ch.requests h₂ hk
  have hm₂ : m₁.setRouter k ((m₁.routers k).arbitrate (cfg.homeX k) (cfg.homeY k)) = m₂ := by
    simp only [nocStage, hok₁, bind, Except.bind] at hok₂
    exact Except.ok.inj hok₂
  have hm' : (if ch.halt then m₃ else m₃.queue (.cpuExecute k)) = m' := by
    rw [step, hpend] at hstep
    simp only [runEvent, cpuExecute, hok₂, hok₃, bind, Except.bind] at hstep
    exact Except.ok.inj hstep
  have hinjected := injected_foldlM h₂ hk hok₃
  subst hm' hm₂
  refine ⟨m₁, .of_parts hpend hsent (hsound₁.wf k) ?_ fun hh => ?_⟩
  · split_ifs
    · exact hinjected
    · exact hinjected.trans (.queue _ m₃)
  · rw [hh]
    exact ⟨_, mem_queue _ m₃⟩

theorem onRouter_ok {f : Router → Except Fault Router} (ok : m.onRouter k f = .ok m') :
    ∃ r, f (m.routers k) = .ok r ∧ m' = m.setRouter k r := by
  unfold onRouter at ok
  cases hr : f (m.routers k) with
  | error e =>
    rw [hr] at ok
    cases ok
  | ok r =>
    rw [hr] at ok
    exact ⟨r, rfl, (Except.ok.inj ok).symm⟩

theorem step_arrive {ch : MeshChoice cfg.totalCpus} {t x y : Nat} {p : Flit} {type : Chan}
    {d : Direction} {rest : List (Nat × MeshEvent)}
    (hpend : m.pending = (t, .flitArrive p x y type d) :: rest)
    (hstep : step cfg ch m = .ok m') :
    ∃ r, (m.routers (cfg.cpuid x y)).flitArrive cfg.routerIfqSize p type d = .ok r ∧
      m' = { m with simCycle := t, pending := rest }.setRouter (cfg.cpuid x y) r := by
  rw [step, hpend] at hstep
  exact onRouter_ok hstep

theorem step_credit {ch : MeshChoice cfg.totalCpus} {t x y : Nat} {type : Chan} {d : Direction}
    {rest : List (Nat × MeshEvent)} (hpend : m.pending = (t, .updateCredit x y type d) :: rest)
    (hstep : step cfg ch m = .ok m') :
    ∃ r, (m.routers (cfg.cpuid x y)).updateCredit cfg.routerIfqSize type d = .ok r ∧
      m' = { m with simCycle := t, pending := rest }.setRouter (cfg.cpuid x y) r := by
  rw [step, hpend] at hstep
  exact onRouter_ok hstep

/-- What a step leaves to a node that it does not activate. -/
structure Idle (cfg : MeshConfig) (k : Nat) (m m' : Mesh) : Prop where
  grant : (m'.routers k).egressGrant = (m.routers k).egressGrant
  lastGrant : (m'.routers k).egressLastGrant = (m.routers k).egressLastGrant
  credit : ∀ t o, (m.routers k).egressCredit t o ≤ (m'.routers k).egressCredit t o
  buf : ∀ t d, m.buf cfg k t d <+: m'.buf cfg k t d

theorem Idle.of_eq (h : m'.routers k = m.routers k) : Idle cfg k m m' := by
  refine ⟨by rw [h], by rw [h], fun t o => by rw [h], fun t d => ?_⟩
  rw [Mesh.buf, Mesh.buf, h]

theorem idle_step {ch : MeshChoice cfg.totalCpus} (h : m.Inv cfg) (hk : ¬ m.Activates k)
    (hstep : step cfg ch m = .ok m') : Idle cfg k m m' := by
  cases hpend : m.pending with
  | nil =>
    rw [step, hpend] at hstep
    obtain rfl := Except.ok.inj hstep
    exact .of_eq rfl
  | cons e rest =>
    obtain ⟨t, ev⟩ := e
    cases ev with
    | cpuExecute i =>
      have hik : k ≠ i := by
        rintro rfl
        exact hk ⟨t, rest, hpend⟩
      obtain ⟨m₁, hact⟩ := activation h hpend hstep
      exact .of_eq (hact.others k hik)
    | flitArrive p x y type d =>
      obtain ⟨r, hr, rfl⟩ := step_arrive hpend hstep
      obtain ⟨-, hroom⟩ := h.sound.arrive_room hpend
      obtain ⟨pos, r', hr', -, -, hcredit, hgrant⟩ := (h.sound.wf (cfg.cpuid x y)).flitArrive p hroom
      obtain rfl : r' = r := Except.ok.inj (hr'.symm.trans hr)
      by_cases hik : k = cfg.cpuid x y
      · subst hik
        refine ⟨?_, ?_, fun t o => ?_, prefix_stored h.sound hroom hr (cfg.cpuid x y)⟩
        · rw [routers_setRouter, if_pos rfl, hgrant]
        · rw [routers_setRouter, if_pos rfl, Router.flitArrive_lastGrant hr]
        · rw [routers_setRouter, if_pos rfl, hcredit]
      · exact .of_eq (by rw [routers_setRouter, if_neg hik])
    | updateCredit x y type d =>
      obtain ⟨r, hr, rfl⟩ := step_credit hpend hstep
      obtain rfl := Router.updateCredit_eq hr
      by_cases hik : k = cfg.cpuid x y
      · subst hik
        refine ⟨?_, ?_, fun t o => ?_, fun t e => ?_⟩
        · rw [routers_setRouter, if_pos rfl]
        · rw [routers_setRouter, if_pos rfl]
        · rw [routers_setRouter, if_pos rfl]
          simp only [update2_apply]
          split_ifs with hto
          · rw [hto.1, hto.2]
            omega
          · exact Int.le_refl _
        · rw [buf_setRouter, if_pos rfl]
          exact List.prefix_rfl
      · exact .of_eq (by rw [routers_setRouter, if_neg hik])

/-- A step takes the first event and adds later ones, and takes nothing back. -/
theorem step_queued {ch : MeshChoice cfg.totalCpus} {t : Nat} {ev : MeshEvent}
    {rest : List (Nat × MeshEvent)} (h : m.Inv cfg) (hpend : m.pending = (t, ev) :: rest)
    (hstep : step cfg ch m = .ok m') :
    (∃ new, m'.pending.Perm (new ++ rest) ∧ ∀ e ∈ new, t < e.1) ∧
      m.delivered <+: m'.delivered := by
  cases ev with
  | cpuExecute k =>
    obtain ⟨m₁, hact⟩ := activation h hpend hstep
    exact ⟨hact.queued t _ rest hpend, hact.delivered⟩
  | flitArrive p x y type d =>
    obtain ⟨r, -, rfl⟩ := step_arrive hpend hstep
    exact ⟨⟨[], .refl _, by simp⟩, List.prefix_rfl⟩
  | updateCredit x y type d =>
    obtain ⟨r, -, rfl⟩ := step_credit hpend hstep
    exact ⟨⟨[], .refl _, by simp⟩, List.prefix_rfl⟩

theorem step_delivered {ch : MeshChoice cfg.totalCpus} (h : m.Inv cfg)
    (hstep : step cfg ch m = .ok m') : m.delivered <+: m'.delivered := by
  cases hpend : m.pending with
  | nil =>
    rw [step, hpend] at hstep
    obtain rfl := Except.ok.inj hstep
    exact List.prefix_rfl
  | cons e rest =>
    obtain ⟨t, ev⟩ := e
    exact (step_queued h hpend hstep).2

/-- A flit on a wire is in the buffer at its end when its event has run. -/
theorem arrived {ch : MeshChoice cfg.totalCpus} {t x y : Nat} {p : Flit} {type : Chan}
    {d : Direction} (h : m.Sound cfg)
    (hpend : m.pending.head? = some (t, .flitArrive p x y type d))
    (hstep : step cfg ch m = .ok m') :
    ∃ q ∈ m'.buf cfg (cfg.cpuid x y) type d, q.letter = p.letter := by
  obtain ⟨rest, hpend⟩ := List.head?_eq_some_iff.mp hpend
  obtain ⟨r, hr, rfl⟩ := step_arrive hpend hstep
  obtain ⟨-, hroom⟩ := h.arrive_room hpend
  obtain ⟨q, hq, hbuf⟩ := buf_stored h hroom hr
  refine ⟨q, ?_, hq⟩
  have := hbuf (cfg.cpuid x y) type d
  rw [if_pos ⟨rfl, rfl, rfl⟩] at this
  exact this ▸ List.mem_append_right _ (List.mem_singleton_self q)

/-- A credit on its way back is there when its event has run. -/
theorem credited {ch : MeshChoice cfg.totalCpus} {t x y : Nat} {type : Chan} {d : Direction}
    (hpend : m.pending.head? = some (t, .updateCredit x y type d))
    (hstep : step cfg ch m = .ok m') : (m'.routers (cfg.cpuid x y)).egressCredit type d =
      (m.routers (cfg.cpuid x y)).egressCredit type d + 1 := by
  obtain ⟨rest, hpend⟩ := List.head?_eq_some_iff.mp hpend
  obtain ⟨r, hr, rfl⟩ := step_credit hpend hstep
  obtain rfl := Router.updateCredit_eq hr
  rw [routers_setRouter, if_pos rfl]
  exact update2_self ..

end Mesh

end Godson

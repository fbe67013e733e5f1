import Godson.WormPackets

/-! What the functions of `noc_worm.c` do to the network: the mesh makes the moves of
`noc.c`, and the switches stay linked to it. -/
namespace Godson

theorem MeshConfig.hop_ne_self (cfg : MeshConfig) (k : Nat) (d : Direction) :
    cfg.hop k d ≠ some k := by
  intro h
  have hx := cfg.homeX_lt k
  cases d with
  | home => simp [hop] at h
  | up =>
    simp only [hop, Option.ite_none_right_eq_some, Option.some.injEq] at h
    have := congrArg cfg.homeY h.2
    rw [cfg.homeY_cpuid hx] at this
    omega
  | down =>
    simp only [hop, Option.ite_none_right_eq_some, Option.some.injEq] at h
    have := congrArg cfg.homeY h.2
    rw [cfg.homeY_cpuid hx] at this
    omega
  | left =>
    simp only [hop, Option.ite_none_right_eq_some, Option.some.injEq] at h
    have := congrArg cfg.homeX h.2
    rw [cfg.homeX_cpuid (by omega)] at this
    omega
  | right =>
    simp only [hop, Option.ite_none_right_eq_some, Option.some.injEq] at h
    have := congrArg cfg.homeX h.2
    rw [cfg.homeX_cpuid h.1] at this
    omega

@[simp] theorem Mesh.setRouter_self (m : Mesh) (k : Nat) : m.setRouter k (m.routers k) = m := by
  simp [setRouter]

namespace Worm

open Switch (Whole)

variable {cfg : MeshConfig} {pack : PackSize} {w w' : Net} {k : Nat} {type : Chan}
  {out : Direction} {p : Flit} {m m' : Mesh}

/-! ### Flit traverse -/

/-- The first flit of a buffer is where `flit_traverse` wants it. -/
theorem moveToHead_first {size : Nat} {r : Router} {l : List Flit} (wf : r.Wf size)
    (first : r.buf size type p.sourceChannel = p :: l) : moveToHead size r p type = .ok (p, r) := by
  unfold moveToHead
  exact if_neg (not_not.mpr (wf.index_head first))

theorem launch_of_mesh (flitType : Nat → FlitType) (ok : m.launch cfg k p type out = .ok m') :
    launch cfg pack flitType k p type out m = .ok m' := by
  unfold launch
  split_ifs with home
  · obtain ⟨rfl, -⟩ := home
    simp only [Mesh.launch] at ok
    split at ok
    · exact ok
    · cases ok
  · exact ok

/-- The history of an output with one more flit. -/
def Net.log (w : Net) (k : Nat) (type : Chan) (out : Direction) (a : Letter) :
    Nat → Chan → Direction → List Letter :=
  Function.update w.sent k (update2 (w.sent k) type out (w.sent k type out ++ [a]))

theorem Net.log_apply (w : Net) (k i : Nat) (type t : Chan) (out o : Direction) (a : Letter) :
    w.log k type out a i t o =
      if i = k ∧ t = type ∧ o = out then w.sent k type out ++ [a] else w.sent i t o := by
  unfold log
  by_cases same : i = k
  · subst same
    rw [Function.update_self, update2_apply]
    simp only [true_and]
  · rw [Function.update_of_ne same, if_neg fun all => same all.1]

/-- A grant is carried out as in `noc.c`, and recorded. -/
theorem sendFlit_of_mesh {l : List Flit} (wf : (w.mesh.routers k).Wf cfg.routerIfqSize)
    (grant : (w.mesh.routers k).egressGrant type out = some p)
    (first : w.mesh.buf cfg k type p.sourceChannel = p :: l)
    (may : Mesh.mayLeave cfg (cfg.homeX k) (cfg.homeY k) out)
    (ok : w.mesh.sendFlit cfg k type out = .ok m') :
    sendFlit cfg pack k type out w =
      .ok { w with mesh := m', sent := w.log k type out p.letter } := by
  simp only [Mesh.sendFlit, grant, if_pos may] at ok
  cases launched : w.mesh.launch cfg k p type out with
  | error fault =>
    rw [launched] at ok
    cases ok
  | ok m₁ =>
    rw [launched] at ok
    simp only [bind, Except.bind] at ok
    cases departed : m₁.onRouter k (Router.packetDepart cfg.routerIfqSize p type out) with
    | error fault =>
      rw [departed] at ok
      cases ok
    | ok m₂ =>
      rw [departed] at ok
      simp only at ok
      simp only [sendFlit, grant, if_pos may, bind, Except.bind, moveToHead_first wf first,
        Net.onMesh, Mesh.setRouter_self, launch_of_mesh w.flitType launched, departed,
        Except.mapError, Except.map]
      split_ifs with back
      · rw [if_pos back] at ok
        cases ok
        rfl
      · rw [if_neg back] at ok
        rw [ok]
        rfl

/-- The lines when a grant is carried out. -/
theorem line_sendFlit (h : m.Sound cfg) (hk : k < cfg.totalCpus) (clear : m.Clear cfg k type out)
    (grant : (m.routers k).egressGrant type out = some p)
    (granted : (m.routers k).Granted cfg.routerIfqSize (cfg.homeX k) (cfg.homeY k) type out p)
    (ok : m.sendFlit cfg k type out = .ok m') (i : Nat) (t : Chan) (d : Direction) :
    m'.line cfg i t d =
      if i = k ∧ t = type ∧ d = p.sourceChannel then (m.line cfg i t d).tail
      else if cfg.hop k out = some i ∧ t = type ∧ d = out.opposite then
        m.line cfg i t d ++ [p.letter]
      else m.line cfg i t d := by
  obtain ⟨l, first⟩ : ∃ l, m.buf cfg k type p.sourceChannel = p :: l :=
    List.head?_eq_some_iff.mp granted.first
  have credit : 0 < (m.routers k).egressCredit type out ∨
      out = .home ∧ 0 ≤ (m.routers k).egressCredit type out := by
    by_cases home : out = .home
    · exact .inr ⟨home, h.credit k hk type out⟩
    · exact .inl (granted.credit home)
  obtain ⟨r, departed, -⟩ := (h.wf k).packetDepart first credit
  have rest : (m.line cfg k type p.sourceChannel).tail =
      (l ++ m.wire cfg k type p.sourceChannel).map Flit.letter := by
    rw [Mesh.line, first]
    rfl
  rcases Mesh.sendFlit_granted h hk clear grant granted first departed with
    ⟨rfl, ok'⟩ | ⟨j, hop, free, -, ok'⟩
  · rw [Except.ok.inj (ok.symm.trans ok'), h.line_deliver hk first departed]
    split_ifs with here there
    · obtain ⟨rfl, rfl, rfl⟩ := here
      rw [rest]
    · simp [MeshConfig.hop] at there
    · rfl
  · obtain ⟨-, away⟩ := h.depart_next hk first granted.wants hop
    rw [Except.ok.inj (ok.symm.trans ok'),
      h.line_depart first away free (granted.credit (Mesh.hop_ne_home hop)) departed]
    have there : (cfg.hop k out = some i) ↔ i = j := by
      rw [hop, Option.some.injEq]
      exact eq_comm
    simp only [there]
    split_ifs with here
    · obtain ⟨rfl, rfl, rfl⟩ := here
      rw [rest]
    · rfl
    · rfl

/-- What is left to be carried out at each node while node `k` works through its outputs. -/
def live (k : Nat) (left : List (Chan × Direction)) (i : Nat) : List (Chan × Direction) :=
  if i = k then left else Mesh.outputs

/-- All switches are linked. -/
def AllLinked (cfg : MeshConfig) (pack : PackSize) (k : Nat) (left : List (Chan × Direction))
    (w : Net) : Prop :=
  ∀ i < cfg.totalCpus, ∀ t, ∃ s, Linked cfg pack w (live k left i) i t s

/-- What has been sent through an output has been sent to the input at its other end. -/
theorem into_log {i : Nat} (hi : i < cfg.totalCpus) (hk : k < cfg.totalCpus)
    (accepted : m'.accepted = w.mesh.accepted) (t : Chan) (d : Direction) (a : Letter) :
    ({ w with mesh := m', sent := w.log k type out a } : Net).into cfg i t d =
      if cfg.hop k out = some i ∧ t = type ∧ d = out.opposite then w.into cfg i t d ++ [a]
      else w.into cfg i t d := by
  unfold Net.into
  by_cases home : d = .home
  · rw [if_pos home, if_pos home, if_neg]
    · simp only [Net.acceptedBy, accepted]
    · rintro ⟨hop, -, rfl⟩
      exact Mesh.hop_ne_home hop (Direction.opposite_eq_home.mp home)
  · simp only [if_neg home]
    cases hop : cfg.hop i d with
    | none =>
      rw [if_neg]
      rintro ⟨back, -, rfl⟩
      rw [(cfg.hop_back hk back).2] at hop
      cases hop
    | some j =>
      have ends := Mesh.link_in out hi hk hop
      simp only [w.log_apply]
      split_ifs with here there there
      · rw [here.1, here.2.1, here.2.2]
      · exact absurd ⟨(ends.mp ⟨here.1, here.2.2⟩).1, here.2.1, (ends.mp ⟨here.1, here.2.2⟩).2.symm⟩
          there
      · exact absurd ⟨(ends.mpr ⟨there.1, there.2.2.symm⟩).1, there.2.1,
          (ends.mpr ⟨there.1, there.2.2.symm⟩).2⟩ here
      · rfl

theorem pending_cons {left : List (Chan × Direction)} (fresh : (type, out) ∉ left)
    (same : (m'.routers k).egressGrant = (w.mesh.routers k).egressGrant)
    (sent : Nat → Chan → Direction → List Letter) (t : Chan) (o : Direction) :
    ({ w with mesh := m', sent } : Net).pending left k t o =
      if t = type ∧ o = out then none else w.pending ((type, out) :: left) k t o := by
  simp only [Net.pending, same, List.mem_cons, Prod.mk.injEq]
  split_ifs with inside here there there
  · obtain ⟨rfl, rfl⟩ := here
    exact absurd inside fresh
  · rfl
  · exact absurd (.inr inside) there
  · rfl
  · tauto
  · rfl

/-- The switch of the node that sends a flit. -/
theorem Linked.sendFlit {left : List (Chan × Direction)} {t : Chan}
    {s : Switch.State Direction Direction Letter} (now : Linked cfg pack w ((type, out) :: left) k t s)
    (fresh : (type, out) ∉ left) (hk : k < cfg.totalCpus)
    (granted : ∀ t o, (t, o) ∈ (type, out) :: left →
      ∀ p, (w.mesh.routers k).egressGrant t o = some p →
      (w.mesh.routers k).Granted cfg.routerIfqSize (cfg.homeX k) (cfg.homeY k) t o p)
    (grant : (w.mesh.routers k).egressGrant type out = some p)
    (same : (m'.routers k).egressGrant = (w.mesh.routers k).egressGrant)
    (accepted : m'.accepted = w.mesh.accepted)
    (line : ∀ d, m'.line cfg k t d = if t = type ∧ d = p.sourceChannel then
      (w.mesh.line cfg k t d).tail else w.mesh.line cfg k t d) :
    Linked cfg pack { w with mesh := m', sent := w.log k type out p.letter } left k t s := by
  have pending := pending_cons (w := w) fresh same (w.log k type out p.letter) t
  have taken : w.pending ((type, out) :: left) k type out = some p := by
    rw [Net.pending, if_pos List.mem_cons_self, grant]
  have alone : ∀ o q, w.pending ((type, out) :: left) k type o = some q →
      q.sourceChannel = p.sourceChannel → o = out := by
    intro o q hq source
    rw [Net.pending, Option.ite_none_right_eq_some] at hq
    exact (granted type out List.mem_cons_self p grant).unique (granted type o hq.1 q hq.2) source
  constructor
  · exact now.kept
  · intro d
    rw [now.input, into_log hk hk accepted, if_neg fun here => cfg.hop_ne_self k out here.1]
  · intro o
    rw [now.sent, pending]
    change _ = w.log k type out p.letter k t o ++ _
    rw [w.log_apply]
    simp only [true_and]
    split_ifs with here
    · rw [here.1, here.2, taken]
      simp
    · rfl
  · exact now.owner
  · exact now.known
  · intro d free
    change m'.line cfg k t d = _
    rw [line]
    split_ifs with here
    · obtain ⟨rfl, rfl⟩ := here
      rw [now.front out p taken]
      rfl
    · apply now.line
      intro o q hq source
      refine free o q ?_ source
      rw [pending, if_neg]
      · exact hq
      · rintro ⟨rfl, rfl⟩
        rw [taken] at hq
        exact here ⟨rfl, Option.some.inj hq ▸ source.symm⟩
  · intro o q hq
    rw [pending, Option.ite_none_left_eq_some] at hq
    change m'.line cfg k t q.sourceChannel = _
    rw [line, if_neg, now.front o q hq.2]
    rintro ⟨rfl, source⟩
    exact hq.1 ⟨rfl, alone o q hq.2 source⟩

theorem AllLinked.sendFlit {left : List (Chan × Direction)} (h : w.mesh.Sound cfg)
    (hk : k < cfg.totalCpus) (linked : AllLinked cfg pack k ((type, out) :: left) w)
    (fresh : (type, out) ∉ left) (clear : w.mesh.Clear cfg k type out)
    (granted : ∀ t o, (t, o) ∈ (type, out) :: left →
      ∀ p, (w.mesh.routers k).egressGrant t o = some p →
      (w.mesh.routers k).Granted cfg.routerIfqSize (cfg.homeX k) (cfg.homeY k) t o p)
    (grant : (w.mesh.routers k).egressGrant type out = some p)
    (ok : w.mesh.sendFlit cfg k type out = .ok m')
    (same : ∀ i, (m'.routers i).egressGrant = (w.mesh.routers i).egressGrant)
    (accepted : m'.accepted = w.mesh.accepted) :
    AllLinked cfg pack k left { w with mesh := m', sent := w.log k type out p.letter } := by
  have carried := granted type out List.mem_cons_self p grant
  have line := line_sendFlit h hk clear grant carried ok
  intro i hi t
  obtain ⟨s, now⟩ := linked i hi t
  by_cases here : i = k
  · subst here
    simp only [live, if_true] at now ⊢
    refine ⟨s, now.sendFlit fresh hk granted grant (same i) accepted fun d => ?_⟩
    rw [line]
    simp only [true_and, cfg.hop_ne_self i out, false_and, if_false]
  · simp only [live, if_neg here] at now ⊢
    have pending : ∀ o, ({ w with mesh := m', sent := w.log k type out p.letter } : Net).pending
        Mesh.outputs i t o = w.pending Mesh.outputs i t o := by
      intro o
      simp only [Net.pending, same]
    have sent : ∀ o, w.log k type out p.letter i t o = w.sent i t o := by
      intro o
      rw [w.log_apply, if_neg fun all => here all.1]
    have line' : ∀ d, m'.line cfg i t d =
        if cfg.hop k out = some i ∧ t = type ∧ d = out.opposite then
          w.mesh.line cfg i t d ++ [p.letter] else w.mesh.line cfg i t d := by
      intro d
      rw [line, if_neg fun all => here all.1]
    by_cases there : cfg.hop k out = some i ∧ t = type
    · obtain ⟨hop, rfl⟩ := there
      -- the flit is on its way to this node
      obtain ⟨s', sender⟩ := linked k hk t
      simp only [live, if_true] at sender
      have whole := sender.kept.output out
      have taken : w.pending ((t, out) :: left) k t out = some p := by
        rw [Net.pending, if_pos List.mem_cons_self, grant]
      rw [sender.sent, taken] at whole
      have into : w.into cfg i t out.opposite = w.sent k t out := by
        have away := Mesh.hop_ne_home hop
        rw [Net.into, if_neg fun home => away (Direction.opposite_eq_home.mp home),
          (cfg.hop_back hk hop).2]
        simp
      apply now.arrive (d := out.opposite) (l := [p.letter])
      · rw [into]
        exact whole_any whole
      · intro d
        rw [into_log hi hk accepted]
        simp only [hop, true_and]
      · exact sent
      · exact pending
      · rfl
      · intro d
        change m'.line cfg i t d = _
        rw [line']
        simp only [hop, true_and]
    · refine ⟨s, now.congr (fun d => ?_) sent pending rfl fun d => ?_⟩
      · rw [into_log hi hk accepted, if_neg fun all => there ⟨all.1, all.2.1⟩]
      · change m'.line cfg i t d = _
        rw [line', if_neg fun all => there ⟨all.1, all.2.1⟩]

/-- An output without a grant has nothing to carry out. -/
theorem AllLinked.skip {left : List (Chan × Direction)}
    (linked : AllLinked cfg pack k ((type, out) :: left) w)
    (none_ : (w.mesh.routers k).egressGrant type out = none) : AllLinked cfg pack k left w := by
  intro i hi t
  obtain ⟨s, now⟩ := linked i hi t
  refine ⟨s, now.congr (fun _ => rfl) (fun _ => rfl) (fun o => ?_) rfl fun _ => rfl⟩
  unfold live Net.pending
  split_ifs with here inside there there
  · rfl
  · exact absurd (List.mem_cons_of_mem _ inside) there
  · rw [here]
    rcases List.mem_cons.mp there with same | inside'
    · obtain ⟨rfl, rfl⟩ := Prod.mk.inj same
      exact none_.symm
    · exact absurd inside' inside
  · rfl
  · rfl
  · rfl

/-- What `flit_traverse` leaves to the arbiter and to the sender as it was. It sends only
flits that have been accepted. -/
structure Beside (w w' : Net) : Prop where
  ports : w'.ports = w.ports
  flitType : w'.flitType = w.flitType
  accepted : w'.mesh.accepted = w.mesh.accepted
  sent : ∀ i t o, ∀ a ∈ w'.sent i t o, a ∈ w.sent i t o ∨ a ∈ w.mesh.accepted

theorem Beside.refl (w : Net) : Beside w w := ⟨rfl, rfl, rfl, fun _ _ _ _ => .inl⟩

theorem Beside.trans {w₁ w₂ w₃ : Net} (h : Beside w₁ w₂) (h' : Beside w₂ w₃) : Beside w₁ w₃ := by
  refine ⟨h'.ports.trans h.ports, h'.flitType.trans h.flitType, h'.accepted.trans h.accepted, ?_⟩
  intro i t o a ha
  rcases h'.sent i t o a ha with before | accepted
  · exact h.sent i t o a before
  · exact .inr (h.accepted ▸ accepted)

theorem sendFlit_spec {left : List (Chan × Direction)} (h : w.mesh.Sound cfg)
    (conserved : w.mesh.Conserved cfg) (hk : k < cfg.totalCpus) (linked : AllLinked cfg pack k ((type, out) :: left) w)
    (fresh : (type, out) ∉ left) (clear : w.mesh.Clear cfg k type out)
    (granted : ∀ t o, (t, o) ∈ (type, out) :: left →
      ∀ p, (w.mesh.routers k).egressGrant t o = some p →
      (w.mesh.routers k).Granted cfg.routerIfqSize (cfg.homeX k) (cfg.homeY k) t o p) :
    ∃ w', sendFlit cfg pack k type out w = .ok w' ∧ Mesh.Moves cfg w.mesh w'.mesh ∧
      Mesh.Undisturbed cfg k type out w.mesh w'.mesh ∧ AllLinked cfg pack k left w' ∧
      Beside w w' := by
  obtain ⟨m', ok, moves, rest⟩ := Mesh.sendFlit_spec h hk clear
    (granted type out List.mem_cons_self)
  cases grant : (w.mesh.routers k).egressGrant type out with
  | none =>
    obtain rfl : w.mesh = m' := by
      simpa [Mesh.sendFlit, grant] using ok
    exact ⟨w, by simp [sendFlit, grant], moves, rest, linked.skip grant, .refl w⟩
  | some p =>
    have carried := granted type out List.mem_cons_self p grant
    obtain ⟨l, first⟩ : ∃ l, w.mesh.buf cfg k type p.sourceChannel = p :: l :=
      List.head?_eq_some_iff.mp carried.first
    have credit : 0 < (w.mesh.routers k).egressCredit type out ∨
        out = .home ∧ 0 ≤ (w.mesh.routers k).egressCredit type out := by
      by_cases home : out = .home
      · exact .inr ⟨home, h.credit k hk type out⟩
      · exact .inl (carried.credit home)
    obtain ⟨r, departed, -⟩ := (h.wf k).packetDepart first credit
    have shape : Mesh.mayLeave cfg (cfg.homeX k) (cfg.homeY k) out ∧
        m'.accepted = w.mesh.accepted := by
      rcases Mesh.sendFlit_granted h hk clear grant carried first departed with
        ⟨rfl, ok'⟩ | ⟨j, -, -, may, ok'⟩
      · rw [Except.ok.inj (ok.symm.trans ok')]
        simp [Mesh.mayLeave]
      · rw [Except.ok.inj (ok.symm.trans ok')]
        simp [may]
    have same : ∀ i, (m'.routers i).egressGrant = (w.mesh.routers i).egressGrant := by
      intro i
      by_cases here : i = k
      · rw [here]
        exact rest.grant
      · rw [rest.others i here]
    refine ⟨_, sendFlit_of_mesh (h.wf k) grant first shape.1 ok, moves, rest,
      linked.sendFlit h hk fresh clear granted grant ok same shape.2, rfl, rfl, shape.2, ?_⟩
    intro i t o a ha
    have ha : a ∈ w.log k type out p.letter i t o := ha
    rw [w.log_apply] at ha
    split_ifs at ha with here
    · obtain ⟨rfl, rfl, rfl⟩ := here
      rcases List.mem_append.mp ha with before | now
      · exact .inl before
      · rw [List.mem_singleton.mp now]
        exact .inr (conserved.accepted h hk (List.mem_of_head? carried.first))
    · exact .inl ha

/-- Some outputs of `flit_traverse`, all different. -/
theorem foldlM_sendFlit {left : List (Chan × Direction)} (hk : k < cfg.totalCpus)
    (nodup : left.Nodup) (h : w.mesh.Sound cfg) (conserved : w.mesh.Conserved cfg) (timed : w.mesh.Timed cfg)
    (active : w.mesh.Active k) (linked : AllLinked cfg pack k left w)
    (clear : ∀ t o, (t, o) ∈ left → w.mesh.Clear cfg k t o)
    (granted : ∀ t o, (t, o) ∈ left → ∀ p, (w.mesh.routers k).egressGrant t o = some p →
      (w.mesh.routers k).Granted cfg.routerIfqSize (cfg.homeX k) (cfg.homeY k) t o p) :
    ∃ w', left.foldlM (fun w (type, out) => sendFlit cfg pack k type out w) w = .ok w' ∧
      Mesh.Moves cfg w.mesh w'.mesh ∧ w'.mesh.Timed cfg ∧ w'.mesh.Active k ∧
      (∀ i ≠ k, w'.mesh.routers i = w.mesh.routers i) ∧ AllLinked cfg pack k [] w' ∧
      Beside w w' := by
  induction left generalizing w with
  | nil => exact ⟨w, rfl, .refl, timed, active, fun _ _ => rfl, linked, .refl w⟩
  | cons a left ih =>
    obtain ⟨type, out⟩ := a
    obtain ⟨fresh, nodup⟩ := List.nodup_cons.mp nodup
    have other : ∀ t o, (t, o) ∈ left → (t, o) ≠ (type, out) :=
      fun t o inside same => fresh (same ▸ inside)
    obtain ⟨w₁, ok, moves, rest, linked₁, beside⟩ := sendFlit_spec h conserved hk linked
      fresh (clear type out List.mem_cons_self) granted
    obtain ⟨timed₁, active₁⟩ := rest.timed timed active
    obtain ⟨w₂, ok₂, moves₂, timed₂, active₂, others₂, linked₂, beside₂⟩ := ih nodup
      (h.moves moves) (moves.invariant h conserved fun _ _ ha hc hm => Mesh.conserved_move ha hc hm)
      timed₁ active₁ linked₁
      (fun t o inside => rest.clear t o (other t o inside)
        (clear t o (List.mem_cons_of_mem _ inside)))
      fun t o inside p hp => rest.granted t o p (other t o inside)
        (granted t o (List.mem_cons_of_mem _ inside) p (rest.grant ▸ hp))
    refine ⟨w₂, ?_, moves.trans moves₂, timed₂, active₂,
      fun i hi => (others₂ i hi).trans (rest.others i hi), linked₂, beside.trans beside₂⟩
    rw [List.foldlM_cons]
    simp only [ok]
    exact ok₂

end Worm

end Godson

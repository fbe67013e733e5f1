import Godson.WormArbiter

/-! Runs of the wormhole network: the routers keep packets whole, and no assertion fails. -/
namespace Godson

namespace Router

variable {size : Nat}

/-! ### A packet in its home buffer -/

theorem store_ingressNum (p : Flit) (type : Chan) (d : Direction) (r : Router) :
    (r.store size p type d).ingressNum = r.ingressNum := by
  unfold store
  split <;> rfl

theorem flitArrive_egressGrant {p : Flit} {type : Chan} {d : Direction} {r r' : Router}
    (ok : r.flitArrive size p type d = .ok r') : r'.egressGrant = r.egressGrant := by
  rw [flitArrive_eq ok]

theorem updateCredit_egressGrant {type : Chan} {d : Direction} {r r' : Router}
    (ok : r.updateCredit size type d = .ok r') : r'.egressGrant = r.egressGrant := by
  rw [updateCredit_eq ok]

/-- The count of a buffer does not matter to `store`. -/
theorem store_num (p : Flit) (type : Chan) (d : Direction) (r : Router)
    (num : Chan → Direction → Int) : store size p type d { r with ingressNum := num } =
      { store size p type d r with ingressNum := num } := by
  cases scan : Ring.scanFrom size (r.ingressHead type d) fun i => (r.ingress type d i).isNone with
  | none => simp only [store, scan]
  | some pos => simp only [store, scan]

theorem foldl_store_num (ps : List Flit) (type : Chan) (d : Direction) (r : Router)
    (num : Chan → Direction → Int) :
    ps.foldl (fun r p => store size p type d r) { r with ingressNum := num } =
      { ps.foldl (fun r p => store size p type d r) r with ingressNum := num } := by
  induction ps generalizing r with
  | nil => rfl
  | cons p ps ih => rw [List.foldl_cons, List.foldl_cons, store_num, ih]

theorem foldl_store_ingressNum (ps : List Flit) (type : Chan) (d : Direction) (r : Router) :
    (ps.foldl (fun r p => store size p type d r) r).ingressNum = r.ingressNum := by
  induction ps generalizing r with
  | nil => rfl
  | cons p ps ih => rw [List.foldl_cons, ih, store_ingressNum]

/-- Several flits in a buffer, counted at the end. -/
def storeAll (size : Nat) (ps : List Flit) (type : Chan) (d : Direction) (r : Router) : Router :=
  { ps.foldl (fun r p => store size p type d r) r with
    ingressNum := update2 r.ingressNum type d (r.ingressNum type d + ps.length) }

theorem storeAll_nil (type : Chan) (d : Direction) (r : Router) :
    storeAll size [] type d r = r := by
  simp [storeAll]

/-- One after the other, each counted at once. -/
theorem storeAll_cons {p : Flit} {ps : List Flit} {type : Chan} {d : Direction} {r r₁ : Router}
    (ok : r.flitArrive size p type d = .ok r₁) :
    storeAll size (p :: ps) type d r = storeAll size ps type d r₁ := by
  simp only [flitArrive, countIn, store_ingressNum] at ok
  split at ok
  · obtain rfl := Except.ok.inj ok
    simp only [storeAll, List.foldl_cons, foldl_store_num, update2_self, List.length_cons]
    congr 1
    funext t e
    simp only [update2_apply]
    split_ifs
    · push_cast
      omega
    · rfl
  · cases ok

end Router

namespace Mesh

variable {cfg : MeshConfig} {m : Mesh}

/-- A node injects the flits of a packet. -/
def inject (cfg : MeshConfig) (ps : List Flit) (k : Nat) (type : Chan) (m : Mesh) : Mesh :=
  { m with accepted := m.accepted ++ ps.map Flit.letter }.setRouter k
    ((m.routers k).storeAll cfg.routerIfqSize ps type .home)

theorem inject_spec {k : Nat} {type : Chan} (hk : k < cfg.totalCpus) {ps : List Flit}
    (fits : ∀ p ∈ ps, p.Fits cfg k type .home ∧ p.packet.cpuid = k) (h : m.Inv cfg)
    (numbered : ∀ i p, ps[i]? = some p → p.id = m.accepted.length + i)
    (room : (m.buf cfg k type .home).length + ps.length ≤ cfg.routerIfqSize) :
    Moves cfg m (m.inject cfg ps k type) ∧ (m.inject cfg ps k type).Inv cfg ∧
      (∀ i, ((m.inject cfg ps k type).routers i).egressGrant = (m.routers i).egressGrant) ∧
      ∀ i t e, (m.inject cfg ps k type).line cfg i t e = if i = k ∧ t = type ∧ e = .home then
        m.line cfg i t e ++ ps.map Flit.letter else m.line cfg i t e := by
  induction ps generalizing m with
  | nil =>
    have same : m.inject cfg [] k type = m := by
      simp [inject, Router.storeAll_nil]
    rw [same]
    refine ⟨.refl, h, fun _ => rfl, fun i t e => ?_⟩
    simp
  | cons p ps ih =>
    obtain ⟨fit, sender⟩ := fits p List.mem_cons_self
    rw [List.length_cons] at room
    have space : (m.buf cfg k type .home).length < cfg.routerIfqSize := by omega
    obtain ⟨pos, r, ok, -, buf, -, grant⟩ := (h.sound.wf k).flitArrive p space
    obtain ⟨move, inv⟩ := h.accept hk fit (numbered 0 p rfl) sender space ok
    have line := h.sound.line_accept space ok
    set m₁ := ({ m with accepted := m.accepted ++ [p.letter] } : Mesh).setRouter k r with hm₁
    have router : m₁.routers k = r := by
      rw [hm₁, routers_setRouter, if_pos rfl]
    have same : m₁.inject cfg ps k type = m.inject cfg (p :: ps) k type := by
      rw [inject, inject, router, Router.storeAll_cons ok, hm₁]
      simp [setRouter]
    have grants : ∀ i, (m₁.routers i).egressGrant = (m.routers i).egressGrant := by
      intro i
      rw [hm₁, routers_setRouter]
      split_ifs with here
      · rw [grant, here]
      · rfl
    have numbered₁ : ∀ i q, ps[i]? = some q → q.id = m₁.accepted.length + i := by
      intro i q hq
      have next := numbered (i + 1) q hq
      have length : m₁.accepted.length = m.accepted.length + 1 := by simp [hm₁]
      omega
    have room₁ : (m₁.buf cfg k type .home).length + ps.length ≤ cfg.routerIfqSize := by
      have length : (m₁.buf cfg k type .home).length = (m.buf cfg k type .home).length + 1 := by
        rw [Mesh.buf, router, buf, update2_self]
        simp [Mesh.buf]
      omega
    obtain ⟨moves, inv₁, grants₁, line₁⟩ :=
      ih (fun q hq => fits q (List.mem_cons_of_mem _ hq)) inv numbered₁ room₁
    rw [← same]
    refine ⟨(Moves.single move).trans moves, inv₁, fun i => (grants₁ i).trans (grants i),
      fun i t e => ?_⟩
    rw [line₁, line]
    split_ifs
    · simp
    · rfl

end Mesh

namespace Worm

open Switch (Whole)

variable {cfg : MeshConfig} {pack : PackSize} {w w' : Net} {k : Nat} {m' : Mesh}

/-- The invariant of the network. -/
structure Orderly (cfg : MeshConfig) (pack : PackSize) (w : Net) : Prop where
  inv : w.mesh.Inv cfg
  reached : Mesh.Moves cfg (.initial cfg) w.mesh
  units : w.mesh.accepted.length % pack.size = 0
  typed : ∀ n < w.mesh.accepted.length, w.flitType n = pack.flitType (n % pack.size)
  ended : ∀ k type a, (w.acceptedBy k type).getLast? = some a → (a.1 + 1) % pack.size = 0
  sent : ∀ k type out, ∀ a ∈ w.sent k type out, a ∈ w.mesh.accepted
  linked : ∀ k < cfg.totalCpus, ∀ type, ∃ s, Linked cfg pack w Mesh.outputs k type s

theorem conserved_reached (reached : Mesh.Moves cfg (.initial cfg) m') : m'.Conserved cfg :=
  reached.invariant Mesh.inv_initial.sound (Mesh.conserved_initial cfg)
    fun _ _ ha hc hm => Mesh.conserved_move ha hc hm

theorem numbered_reached (reached : Mesh.Moves cfg (.initial cfg) m') : m'.Numbered :=
  reached.invariant Mesh.inv_initial.sound (fun i a ha => by simp [Mesh.initial] at ha)
    fun _ _ _ hn hm => Mesh.numbered_move hn hm

theorem Orderly.allLinked (h : Orderly cfg pack w) (k : Nat) :
    AllLinked cfg pack k Mesh.outputs w := by
  intro i hi t
  rw [live, ite_self]
  exact h.linked i hi t

/-- The number of an accepted flit. -/
theorem Orderly.accepted_lt (h : Orderly cfg pack w) {a : Letter} (ha : a ∈ w.mesh.accepted) :
    a.1 < w.mesh.accepted.length := by
  obtain ⟨i, found⟩ := List.mem_iff_getElem?.mp ha
  rw [numbered_reached h.reached i a found]
  exact (List.getElem?_eq_some_iff.mp found).1

/-- The mesh has changed in what concerns neither lines nor grants. -/
theorem Orderly.mesh (h : Orderly cfg pack w) (inv : m'.Inv cfg)
    (moves : Mesh.Moves cfg w.mesh m') (accepted : m'.accepted = w.mesh.accepted)
    (grants : ∀ i, (m'.routers i).egressGrant = (w.mesh.routers i).egressGrant)
    (line : m'.line cfg = w.mesh.line cfg) : Orderly cfg pack { w with mesh := m' } := by
  have acceptedBy : ({ w with mesh := m' } : Net).acceptedBy = w.acceptedBy := by
    funext i t
    simp only [Net.acceptedBy, accepted]
  constructor
  · exact inv
  · exact h.reached.trans moves
  · rw [accepted]
    exact h.units
  · rw [accepted]
    exact h.typed
  · rw [acceptedBy]
    exact h.ended
  · rw [accepted]
    exact h.sent
  · intro i hi t
    obtain ⟨s, now⟩ := h.linked i hi t
    refine ⟨s, now.congr (fun d => ?_) (fun _ => rfl) (fun o => ?_) rfl fun d => ?_⟩
    · simp only [Net.into, acceptedBy]
    · simp only [Net.pending, grants]
    · exact congrFun (congrFun (congrFun line i) t) d

/-- `noc_stage` stops nowhere. -/
theorem nocStage_spec (h : Orderly cfg pack w) (hk : k < cfg.totalCpus) (active : w.mesh.Active k)
    (clear : ∀ type out, w.mesh.Clear cfg k type out) :
    ∃ w', nocStage cfg pack k w = .ok w' ∧ Orderly cfg pack w' ∧ w'.mesh.Active k := by
  obtain ⟨w₁, ok, moves, timed, active₁, others, linked, beside⟩ := foldlM_sendFlit hk
    Mesh.nodup_outputs h.inv.sound (conserved_reached h.reached) h.inv.timed active (h.allLinked k)
    (fun t o _ => clear t o) fun t o _ p hp => h.inv.grants k hk t o p hp
  have sound := h.inv.sound.moves moves
  have reached := h.reached.trans moves
  have typed : ∀ n < w₁.mesh.accepted.length, w₁.flitType n = pack.flitType (n % pack.size) := by
    rw [beside.accepted, beside.flitType]
    exact h.typed
  have kinds : ∀ type d, ∀ p ∈ w₁.mesh.buf cfg k type d,
      w₁.flitType p.id = pack.flitType (p.id % pack.size) := by
    intro type d p hp
    have ha := (conserved_reached reached).accepted sound hk hp
    obtain ⟨i, found⟩ := List.mem_iff_getElem?.mp ha
    apply typed
    rw [show p.id = i from numbered_reached reached i _ found]
    exact (List.getElem?_eq_some_iff.mp found).1
  have here : ∀ type, ∃ s, Linked cfg pack w₁ [] k type s := by
    intro type
    obtain ⟨s, now⟩ := linked k hk type
    rw [live, if_pos rfl] at now
    exact ⟨s, now⟩
  obtain ⟨served, grants⟩ := arbitrateWorm_spec sound hk here kinds
  have move : Mesh.Move cfg w₁.mesh (w₁.arbitrated cfg pack k).mesh :=
    .internal rfl rfl rfl (fun _ _ _ => rfl) fun t => sound.credit k hk t .home
  have line : (w₁.arbitrated cfg pack k).mesh.line cfg = w₁.mesh.line cfg :=
    Mesh.line_internal rfl rfl
  have acceptedBy : (w₁.arbitrated cfg pack k).acceptedBy = w.acceptedBy := by
    funext i t
    exact congrArg (List.filter _) beside.accepted
  refine ⟨w₁.arbitrated cfg pack k, ?_, ?_, active₁⟩
  · simp only [nocStage, flitTraverse, ok, served, bind, Except.bind]
    rfl
  · constructor
    · refine ⟨sound.move move, timed.setRouter k _, fun i hi => ?_⟩
      change ((w₁.mesh.setRouter k _).routers i).GrantsOk _ _ _
      rw [Mesh.routers_setRouter]
      split_ifs with same
      · subst same
        exact grants
      · rw [others i same]
        exact h.inv.grants i hi
    · exact reached.trans (.single move)
    · exact beside.accepted ▸ h.units
    · exact typed
    · rw [acceptedBy]
      exact h.ended
    · intro i t o a ha
      change a ∈ w₁.mesh.accepted
      rw [beside.accepted]
      rcases beside.sent i t o a ha with before | accepted
      · exact h.sent i t o a before
      · exact accepted
    · intro i hi t
      by_cases same : i = k
      · subst same
        obtain ⟨s, now⟩ := here t
        exact ⟨_, Cleared.arbitrated ⟨sound, hk, now, kinds t⟩⟩
      · obtain ⟨s, now⟩ := linked i hi t
        rw [live, if_neg same] at now
        refine ⟨s, now.congr (fun _ => rfl) (fun _ => rfl) (fun o => ?_) ?_ fun d => ?_⟩
        · simp [Net.pending, Net.arbitrated, Mesh.setRouter, same]
        · exact Function.update_of_ne same ..
        · exact congrFun (congrFun (congrFun line i) t) d

/-- The flits of a packet get consecutive numbers. -/
theorem flits_letters (cfg : MeshConfig) (pack : PackSize) (n : Nat) (packet : Packet) :
    ((List.range pack.size).map (flitOf cfg n packet)).map Flit.letter =
      pack.letters (n, packet) := by
  rw [List.map_map]
  rfl

theorem mem_letters {a b : Letter} (h : b ∈ pack.letters a) : b.2 = a.2 := by
  obtain ⟨j, -, rfl⟩ := List.mem_map.mp h
  rfl

/-- `noc_request` refuses, or accepts all flits of a packet. -/
theorem nocRequest_spec (q : Request cfg.totalCpus) (h : Orderly cfg pack w)
    (hk : k < cfg.totalCpus) :
    ∃ w', nocRequest cfg pack k q w = .ok w' ∧ Orderly cfg pack w' ∧
      (w.mesh.Active k → w'.mesh.Active k) := by
  by_cases full : (w.mesh.routers k).ingressNum q.chan .home > (cfg.routerIfqSize : Int) - pack.size
  · exact ⟨w, by simp [nocRequest, full], h, id⟩
  · set packet := Mesh.packetOf cfg k q with hpacket
    set flits := (List.range pack.size).map (flitOf cfg w.mesh.accepted.length packet) with hflits
    have chan : packet.chan = q.chan := rfl
    have sender : packet.cpuid = k := rfl
    have count : flits.length = pack.size := by simp [hflits]
    have num := (h.inv.sound.wf k).num q.chan .home
    have room : (w.mesh.buf cfg k q.chan .home).length + flits.length ≤ cfg.routerIfqSize := by
      rw [Mesh.buf]
      omega
    have fits : ∀ p ∈ flits, p.Fits cfg k q.chan .home ∧ p.packet.cpuid = k := by
      intro p hp
      obtain ⟨j, -, rfl⟩ := List.mem_map.mp hp
      exact ⟨⟨⟨Mesh.packetOf_dest_lt k q, rfl, rfl⟩, trivial, chan, fun no => absurd rfl no⟩, sender⟩
    have numbered : ∀ i p, flits[i]? = some p → p.id = w.mesh.accepted.length + i := by
      intro i p found
      rw [hflits, List.getElem?_map, Option.map_eq_some_iff] at found
      obtain ⟨j, at_i, rfl⟩ := found
      obtain ⟨inside, rfl⟩ := List.getElem?_eq_some_iff.mp at_i
      simp [flitOf]
    obtain ⟨moves, inv, grants, line⟩ := Mesh.inject_spec hk fits h.inv numbered room
    set kind : Nat → FlitType := fun id =>
      if w.mesh.accepted.length ≤ id ∧ id < w.mesh.accepted.length + pack.size then
        pack.flitType (id - w.mesh.accepted.length) else w.flitType id with hkind
    set w' : Net := { w with mesh := w.mesh.inject cfg flits k q.chan, flitType := kind } with hw'
    have accepted : w'.mesh.accepted =
        w.mesh.accepted ++ pack.letters (w.mesh.accepted.length, packet) := by
      rw [← flits_letters cfg, ← hflits]
      rfl
    have acceptedBy : ∀ i t, w'.acceptedBy i t = if i = k ∧ t = q.chan then
        w.acceptedBy i t ++ pack.letters (w.mesh.accepted.length, packet) else w.acceptedBy i t := by
      intro i t
      rw [Net.acceptedBy, accepted, List.filter_append]
      split_ifs with same
      · obtain ⟨rfl, rfl⟩ := same
        congr 1
        rw [List.filter_eq_self]
        intro b hb
        simp [mem_letters hb, sender, chan]
      · refine (congrArg (_ ++ ·) (List.filter_eq_nil_iff.mpr ?_)).trans (List.append_nil _)
        intro b hb
        rw [mem_letters hb]
        simp only [Bool.and_eq_true, beq_iff_eq, sender, chan]
        rintro ⟨rfl, rfl⟩
        exact same ⟨rfl, rfl⟩
    obtain ⟨s₀, home⟩ := h.linked k hk q.chan
    have whole : Whole (pack.format cfg k) (w.acceptedBy k q.chan) := by
      have input := home.kept.input .home
      rw [home.input, Net.into, if_pos rfl] at input
      exact input
    obtain ⟨whole', ended⟩ := PackSize.letters_append (a := (w.mesh.accepted.length, packet)) whole
      h.units (h.ended k q.chan)
    refine ⟨w', ?_, ?_, id⟩
    · have counted : (w.mesh.routers k).ingressNum q.chan .home + (pack.size : Int) ≤
          (cfg.routerIfqSize : Int) := by omega
      simp only [nocRequest, if_neg full, ← hpacket, ← hflits, countPacket,
        Router.foldl_store_ingressNum, if_pos counted, bind, Except.bind]
      rw [hw', Mesh.inject, Router.storeAll, count]
      rfl
    · constructor
      · exact inv
      · exact h.reached.trans moves
      · rw [accepted]
        simp [PackSize.letters, h.units]
      · intro n hn
        rw [accepted] at hn
        simp only [PackSize.letters, List.length_append, List.length_map, List.length_range] at hn
        change kind n = _
        rw [hkind]
        dsimp only
        split_ifs with new
        · congr 1
          have units := h.units
          obtain ⟨j, rfl⟩ := Nat.exists_eq_add_of_le new.1
          rw [← Nat.mod_add_mod, units, Nat.zero_add, Nat.mod_eq_of_lt (by omega),
            Nat.add_sub_cancel_left]
        · exact h.typed n (by omega)
      · intro i t a ha
        rw [acceptedBy] at ha
        split_ifs at ha with same
        · obtain ⟨rfl, rfl⟩ := same
          exact ended a ha
        · exact h.ended i t a ha
      · intro i t o a ha
        rw [accepted]
        exact List.mem_append_left _ (h.sent i t o a ha)
      · intro i hi t
        obtain ⟨s, now⟩ := h.linked i hi t
        have pending : ∀ o, w'.pending Mesh.outputs i t o = w.pending Mesh.outputs i t o := by
          intro o
          simp only [Net.pending, hw', grants]
        have line' : ∀ d, w'.mesh.line cfg i t d = if i = k ∧ t = q.chan ∧ d = .home then
            w.mesh.line cfg i t d ++ pack.letters (w.mesh.accepted.length, packet)
            else w.mesh.line cfg i t d := by
          intro d
          rw [← flits_letters cfg]
          exact line i t d
        by_cases same : i = k ∧ t = q.chan
        · obtain ⟨rfl, rfl⟩ := same
          apply now.arrive (d := .home) (l := pack.letters (w.mesh.accepted.length, packet))
          · rw [Net.into, if_pos rfl]
            exact whole'
          · intro d
            simp only [Net.into, acceptedBy, and_self, if_true]
            split_ifs
            · rfl
            · rfl
          · exact fun _ => rfl
          · exact pending
          · rfl
          · intro d
            rw [line']
            simp only [true_and]
        · refine ⟨s, now.congr (fun d => ?_) (fun _ => rfl) pending rfl fun d => ?_⟩
          · simp only [Net.into, acceptedBy, if_neg same]
            rfl
          · rw [line', if_neg fun all => same ⟨all.1, all.2.1⟩]

theorem foldlM_nocRequest (qs : List (Request cfg.totalCpus)) (h : Orderly cfg pack w)
    (hk : k < cfg.totalCpus) :
    ∃ w', qs.foldlM (fun w q => nocRequest cfg pack k q w) w = .ok w' ∧ Orderly cfg pack w' ∧
      (w.mesh.Active k → w'.mesh.Active k) := by
  induction qs generalizing w with
  | nil => exact ⟨w, rfl, h, id⟩
  | cons q qs ih =>
    obtain ⟨w₁, ok, h₁, active⟩ := nocRequest_spec q h hk
    obtain ⟨w₂, ok₂, h₂, active₂⟩ := ih h₁
    refine ⟨w₂, ?_, h₂, active₂ ∘ active⟩
    rw [List.foldlM_cons, ok]
    exact ok₂

theorem grants_setRouter {m : Mesh} {r : Router}
    (same : r.egressGrant = (m.routers k).egressGrant) (i : Nat) :
    ((m.setRouter k r).routers i).egressGrant = (m.routers i).egressGrant := by
  rw [Mesh.routers_setRouter]
  split_ifs with here
  · rw [same, here]
  · rfl

/-- One router has changed by a function that may fail. -/
theorem onRouter_ok {m : Mesh} {f : Router → Except Godson.Fault Router}
    (ok : m.onRouter k f = .ok m') : ∃ r, f (m.routers k) = .ok r ∧ m' = m.setRouter k r := by
  unfold Mesh.onRouter at ok
  cases run : f (m.routers k) with
  | error fault =>
    rw [run] at ok
    cases ok
  | ok r =>
    rw [run] at ok
    exact ⟨r, rfl, (Except.ok.inj ok).symm⟩

/-- Every step of the network goes through, and keeps its order. -/
theorem step_spec (ch : MeshChoice cfg.totalCpus) (h : Orderly cfg pack w) :
    ∃ w', step cfg pack ch w = .ok w' ∧ Orderly cfg pack w' := by
  unfold step
  cases pend : w.mesh.pending with
  | nil => exact ⟨w, rfl, h⟩
  | cons e rest =>
    obtain ⟨t, ev⟩ := e
    have event : ev.Ok cfg := h.inv.sound.event (t, ev) (by rw [pend]; exact List.mem_cons_self)
    obtain ⟨m', ok, moves, inv⟩ := Mesh.step_spec ch h.inv
    unfold Mesh.step at ok
    rw [pend] at ok
    dsimp only at ok
    cases ev with
    | cpuExecute k =>
      clear ok moves inv m'
      have hk : k < cfg.totalCpus := event
      have move : Mesh.Move cfg w.mesh { w.mesh with simCycle := t, pending := rest } :=
        .activate pend
      have inv₀ : Mesh.Inv cfg { w.mesh with simCycle := t, pending := rest } :=
        ⟨h.inv.sound.move move, h.inv.timed.pop pend, h.inv.grants⟩
      have h₀ := h.mesh inv₀ (.single move) rfl (fun _ => rfl) (Mesh.line_activate pend)
      have active : Mesh.Active { w.mesh with simCycle := t, pending := rest } k :=
        fun e he => (h.inv.timed.activated pend e he).2
      obtain ⟨moves₁, inv₁⟩ := Mesh.setHomeCredit_spec (k := k) ch.homeCredit inv₀
      have h₁ := h₀.mesh inv₁ moves₁ rfl (grants_setRouter rfl) (Mesh.line_internal rfl rfl)
      obtain ⟨w₂, ok₂, h₂, active₂⟩ := nocStage_spec h₁ hk active
        fun type out => h.inv.timed.clear hk pend type out
      obtain ⟨w₃, ok₃, h₃, active₃⟩ := foldlM_nocRequest ch.requests h₂ hk
      have run : ∀ w', (if ch.halt then w₃ else { w₃ with mesh := w₃.mesh.queue (.cpuExecute k) }) =
          w' → runEvent cfg pack ch (.cpuExecute k)
            { w with mesh := { w.mesh with simCycle := t, pending := rest } } = .ok w' := by
        rintro _ rfl
        simp only [runEvent, cpuExecute, ok₂, ok₃, bind, Except.bind]
        rfl
      by_cases halt : ch.halt
      · exact ⟨w₃, run _ (by simp [halt]), h₃⟩
      · have requeue : Mesh.Move cfg w₃.mesh (w₃.mesh.queue (.cpuExecute k)) := .requeue hk
        refine ⟨_, run _ (by simp [halt]), h₃.mesh ?_ (.single requeue) rfl (fun _ => rfl)
          (Mesh.line_requeue k)⟩
        exact ⟨h₃.inv.sound.move requeue, h₃.inv.timed.requeue (active₃ active₂), h₃.inv.grants⟩
    | flitArrive p x y type d =>
      obtain ⟨r, arrived, rfl⟩ := onRouter_ok ok
      refine ⟨_, ?_, h.mesh inv moves rfl
        (grants_setRouter (m := { w.mesh with simCycle := t, pending := rest })
          (Router.flitArrive_egressGrant arrived))
        (h.inv.sound.line_arrive pend arrived)⟩
      simp only [runEvent, Net.onMesh, ok, Except.mapError, Except.map]
    | updateCredit x y type d =>
      obtain ⟨r, credited, rfl⟩ := onRouter_ok ok
      refine ⟨_, ?_, h.mesh inv moves rfl
        (grants_setRouter (m := { w.mesh with simCycle := t, pending := rest })
          (Router.updateCredit_egressGrant credited))
        (Mesh.line_credit pend credited)⟩
      simp only [runEvent, Net.onMesh, ok, Except.mapError, Except.map]

theorem orderly_initial : Orderly cfg pack (initial cfg) := by
  have empty : ∀ k type d, (initial cfg).into cfg k type d = [] := by
    intro k type d
    unfold Net.into
    split_ifs
    · rfl
    · split
      · rfl
      · rfl
  have pending : ∀ left k type o, (initial cfg).pending left k type o = none := by
    intro left k type o
    unfold Net.pending
    split_ifs
    · rfl
    · rfl
  constructor
  · exact Mesh.inv_initial
  · exact .refl
  · exact Nat.zero_mod _
  · intro n no
    exact absurd no (Nat.not_lt_zero n)
  · intro k type a last
    cases last
  · intro k type out a no
    cases no
  · intro k hk type
    refine ⟨⟨fun _ => [], fun _ => [], fun _ => [], fun _ => none⟩, ?_⟩
    constructor
    · exact Switch.Kept.start (fun _ => rfl) (fun _ => rfl) (fun _ => rfl) fun _ => rfl
    · intro d
      rw [empty]
      rfl
    · intro o
      rw [pending]
      rfl
    · exact fun _ => rfl
    · intro o no
      cases no
    · intro d _
      exact Mesh.line_initial cfg k type d
    · intro o p now
      rw [pending] at now
      cases now

theorem Reachable.orderly (h : Reachable cfg pack w) : Orderly cfg pack w := by
  induction h with
  | initial => exact orderly_initial
  | @step w w' ch _ next ih =>
    obtain ⟨w₁, ok, orderly⟩ := step_spec ch ih
    obtain rfl : w₁ = w' := Except.ok.inj (ok.symm.trans next)
    exact orderly

/-- A flit with its kind. -/
def Net.tag (w : Net) (a : Letter) : FlitType × Letter := (w.flitType a.1, a)

/-- The flits that have gone to an output, and the one that has been granted it. -/
def Net.channel (w : Net) (k : Nat) (type : Chan) (out : Direction) : List (FlitType × Letter) :=
  (w.sent k type out ++ (((w.mesh.routers k).egressGrant type out).map Flit.letter).toList).map
    w.tag

/-- On every output packet comes after packet, each whole and in order, and what is granted
is the next flit of the packet that has the output, or the first one of another. Between two
nodes the flits of a type arrive in the order in which they were injected. The network never
stops. -/
theorem worm_packets_whole (h : Reachable cfg pack w) :
    (∀ k < cfg.totalCpus, ∀ type out, Packed pack (w.channel k type out)) ∧
      (∀ (src dst : Fin cfg.totalCpus) (type : Chan),
        w.mesh.received ⟨src, dst, type⟩ <+: w.mesh.accepted.filter (Flow.has ⟨src, dst, type⟩)) ∧
      ∀ ch, ∃ w', step cfg pack ch w = .ok w' := by
  have orderly := h.orderly
  refine ⟨fun k hk type out => ?_, fun src dst type => ?_, fun ch => ?_⟩
  · obtain ⟨s, now⟩ := orderly.linked k hk type
    have whole := now.kept.output out
    rw [now.sent, Net.pending, if_pos (mem_outputs type out)] at whole
    have packed := packed_of_whole whole
    have kinds : w.channel k type out = (w.sent k type out ++
        (((w.mesh.routers k).egressGrant type out).map Flit.letter).toList).map pack.typed := by
      apply List.map_congr_left
      intro a ha
      have accepted : a ∈ w.mesh.accepted := by
        rcases List.mem_append.mp ha with sent | granted
        · exact orderly.sent k type out a sent
        · obtain ⟨p, grant, rfl⟩ := Option.map_eq_some_iff.mp (Option.mem_toList.mp granted)
          have first := (orderly.inv.grants k hk type out p grant).first
          exact (conserved_reached orderly.reached).accepted orderly.inv.sound hk
            (List.mem_of_head? first)
      exact Prod.ext (orderly.typed a.1 (orderly.accepted_lt accepted)) rfl
    rw [kinds]
    exact packed
  · have ordered : Mesh.Ordered cfg ⟨src, dst, type⟩ w.mesh :=
      orderly.reached.invariant Mesh.inv_initial.sound (Mesh.ordered_initial _)
        fun a b ha ho hm => ho.passing src.isLt dst.isLt (ha.passing hm)
    exact ⟨_, ordered.order⟩
  · obtain ⟨w', ok, -⟩ := step_spec ch orderly
    exact ⟨w', ok⟩

theorem Reachable.run {chs : List (MeshChoice cfg.totalCpus)} (h : Reachable cfg pack w)
    (ran : Worm.run cfg pack chs w = .ok w') : Reachable cfg pack w' := by
  induction chs generalizing w with
  | nil =>
    obtain rfl : w = w' := Except.ok.inj ran
    exact h
  | cons ch chs ih =>
    rw [Worm.run, List.foldlM_cons] at ran
    cases next : Worm.step cfg pack ch w with
    | error fault =>
      rw [next] at ran
      cases ran
    | ok w₁ =>
      rw [next] at ran
      exact ih (h.step next) ran

/-- Node 0 answers node 1, with a packet of two flits. -/
def pairChoices : List (MeshChoice MeshConfig.pair.totalCpus) :=
  { requests := [{
      chan := .resp
      req := .readShd
      cacheStatus := .invalid
      qid := 0
      target := ⟨1, by decide⟩
      paddr := 0
      inst := false }] } :: List.replicate 8 {}

theorem worm_packets_whole_pair : ∃ w : Net,
    (w.channel 0 .resp .right).map (fun a => (a.1, a.2.1)) = [(.head, 0), (.tail, 1)] ∧
      Packed ⟨2, by decide⟩ (w.channel 0 .resp .right) := by
  have seen : ((run .pair ⟨2, by decide⟩ pairChoices (initial .pair)).toOption.map fun w =>
      (w.channel 0 .resp .right).map fun a => (a.1, a.2.1)) = some [(.head, 0), (.tail, 1)] := by
    decide +kernel
  obtain ⟨w, ran, sent⟩ := Option.map_eq_some_iff.mp seen
  have reached : Reachable .pair ⟨2, by decide⟩ w := by
    apply Reachable.initial.run
    change run _ _ pairChoices _ = _
    cases done : run .pair ⟨2, by decide⟩ pairChoices (initial .pair) with
    | error fault =>
      rw [done] at ran
      cases ran
    | ok w' =>
      rw [done] at ran
      cases ran
      rfl
  exact ⟨w, sent, (worm_packets_whole reached).1 0 (by decide) .resp .right⟩

end Worm

end Godson

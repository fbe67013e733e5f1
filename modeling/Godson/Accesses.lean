import Godson.Standing

/-! The memory operations of the reorder queue and their entries in the load/store queue:
a completed operation has an entry that is done, and an operation with an event has read
the cache. -/
namespace Godson.Backend

open Mips

variable {cfg : BackendConfig} {s t : Backend} {roq done : List Nat} {d : Nat}

/-- The state of the entry of a memory operation. -/
def lsqState (s : Backend) (d : Nat) : LsqState := (s.lsq (s.desc d).lsqid).state

/-- The entries of the operations in the reorder queue. -/
structure Accesses (s : Backend) (roq : List Nat) : Prop where
  done : ∀ d ∈ roq, (s.desc d).mem → (s.desc d).completed → s.lsqState d = .writeback
  event : ∀ x ∈ s.eventQueue, s.rslinkValid x.2 → x.2.rs ∈ roq ∧
    ((s.desc x.2.rs).mem → (s.desc x.2.rs).completed = false → s.lsqState x.2.rs = .readcache)

/-- A memory operation is no branch. -/
theorem mem_ctrl {d : Descript} (mem : d.mem) : d.ctrl = false := by
  rw [Descript.mem] at mem
  rw [Descript.ctrl]
  cases op : d.op <;> rw [op] at mem <;> first | rfl | cases mem

/-- Two memory operations have two entries. -/
theorem lsqid_inj (h : Passage cfg s.place roq done) {e : Nat} (hd : d ∈ roq) (he : e ∈ roq)
    (mem : (s.desc d).mem) (mem' : (s.desc e).mem)
    (same : (s.desc d).lsqid = (s.desc e).lsqid) : d = e := by
  have first : s.place.lsq (s.desc d).lsqid = some d := (h.lsqid d hd mem).2
  have second : s.place.lsq (s.desc e).lsqid = some e := (h.lsqid e he mem').2
  rw [same] at first
  exact Option.some.inj (first.symm.trans second)

namespace Accesses

/-- What the entries depend on. -/
theorem congr (h : Accesses s roq) {roq' : List Nat} (part : ∀ d ∈ roq', d ∈ roq)
    (desc : ∀ d ∈ roq', (t.desc d).mem = (s.desc d).mem ∧
      (t.desc d).completed = (s.desc d).completed)
    (state : ∀ d ∈ roq', (s.desc d).mem →
      s.lsqState d = .writeback ∨ s.lsqState d = .readcache → t.lsqState d = s.lsqState d)
    (event : ∀ x ∈ t.eventQueue, t.rslinkValid x.2 →
      x ∈ s.eventQueue ∧ s.rslinkValid x.2 ∧ (x.2.rs ∈ roq → x.2.rs ∈ roq')) :
    Accesses t roq' where
  done d hd mem completed := by
    obtain ⟨kind, back⟩ := desc d hd
    rw [kind] at mem
    have before := h.done d (part d hd) mem (back ▸ completed)
    rw [state d hd mem (.inl before), before]
  event x hx valid := by
    obtain ⟨hx, valid, kept⟩ := event x hx valid
    obtain ⟨here, read⟩ := h.event x hx valid
    obtain ⟨kind, back⟩ := desc _ (kept here)
    refine ⟨kept here, fun mem fresh => ?_⟩
    rw [kind] at mem
    have before := read mem (back ▸ fresh)
    rw [state _ (kept here) mem (.inr before), before]

end Accesses

section Frames

/-- A change of an entry that has neither read the cache nor is done. -/
theorem lsqState_update {i : Nat} {l : LsqItem} (early : (s.lsq i).state ≠ .writeback ∧
      (s.lsq i).state ≠ .readcache)
    (late : s.lsqState d = .writeback ∨ s.lsqState d = .readcache) :
    (Function.update s.lsq i l (s.desc d).lsqid).state = s.lsqState d := by
  have ne : (s.desc d).lsqid ≠ i := by
    rintro rfl
    rcases late with late | late
    · exact early.1 late
    · exact early.2 late
  rw [Function.update_of_ne ne]
  rfl

/-- The queues, the progress and the events stay. -/
theorem accesses_same (h : Accesses s roq) (layout : t.layout = s.layout)
    (completed : ∀ d, (t.desc d).completed = (s.desc d).completed)
    (event : t.wiring.event = s.wiring.event) (tag : t.wiring.tag = s.wiring.tag) :
    Accesses t roq := by
  obtain ⟨place, lsq, -⟩ := layout_eq.mp layout
  have seat (d : Nat) : (t.desc d).seat = (s.desc d).seat :=
    congrArg (fun p : Place => p.seat d) place
  refine h.congr (fun d hd => hd) (fun d _ => ⟨?_, completed d⟩) (fun d _ _ _ => ?_)
    fun x hx valid => ⟨?_, ?_, id⟩
  · exact congrArg Seat.mem (seat d)
  · rw [lsqState, lsqState, lsq, show (t.desc d).lsqid = _ from congrArg Seat.lsqid (seat d)]
    rfl
  · rw [show s.eventQueue = t.eventQueue from event.symm]
    exact hx
  · rw [rslinkValid, show (s.desc x.2.rs).tag = _ from congrFun tag.symm x.2.rs]
    exact valid

theorem accesses_eventqQueueEvent {rs time : Nat} (h : Accesses s roq) (here : rs ∈ roq)
    (read : (s.desc rs).mem → s.lsqState rs = .readcache)
    (e : s.eventqQueueEvent rs time = some t) : Accesses t roq := by
  obtain ⟨-, id, pool, -, rfl⟩ := eventqQueueEvent_some e
  refine ⟨h.done, fun x hx valid => ?_⟩
  rcases EventQueue.mem_insert.mp hx with rfl | old
  · exact ⟨here, fun mem _ => read mem⟩
  · exact h.event x old valid

theorem accesses_readyqEnqueue {rs : Nat} (h : Accesses s roq)
    (e : s.readyqEnqueue rs = some t) : Accesses t roq := by
  obtain ⟨id, pool, -, wires⟩ := wiring_readyqEnqueue e
  refine accesses_same h (layout_readyqEnqueue e) (fun d => ?_) (by rw [wires]) (by rw [wires])
  obtain ⟨id, pool, -, rfl⟩ := readyqEnqueue_some e
  by_cases eq : d = rs
  · simp [eq]
  · simp [Function.update_of_ne eq]

end Frames

section Writeback

/-- A memory operation that has read the cache is done. -/
theorem accesses_finished {rs : Nat} (h : Accesses s roq) (flow : Passage cfg s.place roq done)
    (here : rs ∈ roq) : Accesses (s.finished rs) roq := by
  have ctrl (mem : (s.desc rs).mem) := mem_ctrl mem
  have other {e : Nat} (he : e ∈ roq) (ne : e ≠ rs) (mem : (s.desc e).mem) :
      (s.finished rs).lsqState e = s.lsqState e := by
    simp only [lsqState, finished, Function.update_of_ne ne]
    split
    · rename_i kind
      rw [Function.update_of_ne]
      intro same
      exact ne (lsqid_inj flow he here mem kind same)
    · rfl
  have self (mem : (s.desc rs).mem) : (s.finished rs).lsqState rs = .writeback := by
    simp only [lsqState, finished, mem, if_true, ctrl mem, Bool.false_eq_true, if_false,
      Function.update_self]
  have desc {e : Nat} (ne : e ≠ rs) : (s.finished rs).desc e = s.desc e := by
    simp only [finished, Function.update_of_ne ne]
  have kind : ((s.finished rs).desc rs).mem = (s.desc rs).mem := by
    simp only [finished, Function.update_self]
    split <;> rfl
  have back (mem : (s.desc rs).mem) : ((s.finished rs).desc rs).completed = true := by
    simp [finished, ctrl mem]
  constructor
  case done =>
    intro d hd mem completed
    by_cases eq : d = rs
    · subst eq
      exact self (kind ▸ mem)
    · rw [desc eq] at mem completed
      rw [other hd eq mem]
      exact h.done d hd mem completed
  case event =>
    intro x hx valid
    have valid' : s.rslinkValid x.2 = true := by
      rw [← valid, rslinkValid, rslinkValid]
      have tag := congrArg (fun w : Wiring => w.tag x.2.rs) (wiring_finished rs s)
      rw [show ((s.finished rs).desc x.2.rs).tag = _ from tag]
      rfl
    obtain ⟨inside, read⟩ := h.event x hx valid'
    refine ⟨inside, fun mem fresh => ?_⟩
    by_cases eq : x.2.rs = rs
    · rw [eq] at mem fresh
      rw [back (kind ▸ mem)] at fresh
      cases fresh
    · rw [desc eq] at mem fresh
      rw [other inside eq mem]
      exact read mem fresh

theorem accesses_broadcast {rs out : Nat} (h : Accesses s roq)
    (e : s.broadcast rs out = some t) : Accesses t roq := by
  obtain ⟨event, tag⟩ := events_broadcast e
  refine accesses_same h (layout_broadcast e) (fun d => ?_) event tag
  have course := course_broadcast e
  split at course
  · exact congrArg (fun c : Course => (c.trace d).completed) course
  · exact (congrArg (fun c : Course => (c.trace d).completed) course).trans
      (congrArg Descript.completed (congrFun (wiring_updateCreateVector rs s).2 d))

theorem accesses_finish {rs : Nat} (h : Accesses s roq) (flow : Passage cfg s.place roq done)
    (here : rs ∈ roq) (e : s.finish rs = some t) : Accesses t roq := by
  obtain ⟨-, u, first, second⟩ := finish_some e
  exact accesses_broadcast (accesses_broadcast (accesses_finished h flow here) first) second

theorem accesses_deliver {time : Nat} {l : RsLink} {rest : List (Nat × RsLink)}
    (h : Accesses s roq) (flow : Passage cfg s.place roq done)
    (queue : s.eventQueue = (time, l) :: rest) (e : s.deliver l rest = some t) :
    Accesses t roq := by
  have freed : Accesses ({ s with eventQueue := rest }.rslinkFree l) roq :=
    ⟨h.done, fun x hx valid => h.event x (queue ▸ List.mem_cons_of_mem _ hx) valid⟩
  simp only [deliver] at e
  split at e
  · rename_i valid
    have front : (time, l) ∈ s.eventQueue := by
      rw [queue]
      exact List.mem_cons_self
    exact accesses_finish freed flow (h.event _ front valid).1 e
  · cases e
    exact freed

end Writeback

section Memory

/-- The entry of an uncommitted operation leads back to it. -/
theorem slot_owner (flow : Passage cfg s.place roq done) {i : Nat}
    (state : (s.lsq i).state = .readcache) :
    (s.lsq i).rs ∈ roq ∧ (s.desc (s.lsq i).rs).lsqid = i := by
  have slot : s.place.lsq i = some (s.lsq i).rs := by simp [place, LsqItem.slot, state]
  obtain ⟨k, hk, -, held⟩ := flow.memory.distance (flow.slots i _ slot) slot
  have inside : (s.lsq i).rs ∈ done ++ roq.filter fun d => (s.place.seat d).mem := by
    rw [← held]
    exact List.getElem_mem hk
  have young : (s.lsq i).rs ∉ done := by
    intro old
    have committed := (flow.committed i _ slot).mpr old
    simp [place, state, LsqState.committed] at committed
  obtain ⟨here, mem⟩ := List.mem_filter.mp ((List.mem_append.mp inside).resolve_left young)
  exact ⟨here, flow.slot_unique (flow.lsqid _ here mem).2 slot⟩

/-- An entry changes that has neither read the cache nor is done. -/
theorem accesses_early {i : Nat} {l : LsqItem} (h : Accesses s roq)
    (early : (s.lsq i).state ≠ .writeback ∧ (s.lsq i).state ≠ .readcache)
    (lsq : t.lsq = Function.update s.lsq i l) (desc : t.desc = s.desc)
    (event : t.eventQueue = s.eventQueue) : Accesses t roq := by
  refine h.congr (fun d hd => hd) (fun d _ => by rw [desc]; exact ⟨rfl, rfl⟩)
    (fun d _ _ late => ?_) fun x hx valid => ⟨event ▸ hx, ?_, id⟩
  · rw [lsqState, lsq, desc]
    exact lsqState_update early late
  · rw [rslinkValid, desc] at valid
    exact valid

theorem accesses_dcache (h : Accesses s roq) (ports : s.Ports) (a : LsqAnswer) :
    Accesses (s.dcache a) roq := by
  have first : Accesses (s.toDtagcmp a) roq := by
    rw [toDtagcmp]
    split
    · rename_i i _ port
      have state := ports.dcache i port
      exact accesses_early h (by simp [state]) rfl rfl rfl
    · exact h
  have ports := (toDtagcmp_frame ports a).2
  rw [dcache_eq, toDcache]
  split
  · rename_i i _ port
    have state := ports.issue i port
    exact accesses_early first (by simp [state]) rfl rfl rfl
  · exact ⟨first.done, first.event⟩
  · exact first

theorem accesses_freeOne (h : Accesses s roq)
    (state : (s.lsq s.lsqHead1).state = LsqState.delay1) : Accesses (s.freeOne cfg) roq :=
  accesses_early h (by simp [state]) rfl rfl rfl

theorem accesses_drainOne (h : Accesses s roq)
    (head : (s.lsq s.lsqHead).state = LsqState.commit) : Accesses (s.drainOne cfg) roq :=
  accesses_early h (by simp [head]) rfl rfl rfl

/-- The entry that `lsq_stage` selects has read the cache. -/
theorem lsqSelect_state {a : LsqAnswer} {i : Nat} (e : s.lsqSelect cfg a = some i) :
    (s.lsq i).state = .readcache := by
  have found := List.find?_some e
  simp only [Bool.and_eq_true, beq_iff_eq] at found
  exact found.1.1

theorem accesses_lsqLook {a : LsqAnswer} (h : Accesses s roq) (flow : Passage cfg s.place roq done)
    (ports : s.Ports) (e : s.lsqLook cfg a = some t) : Accesses t roq := by
  have before : ({ s with lsqWtbki := s.lsqSelect cfg a } : Backend).Ports :=
    ⟨ports.issue, ports.dcache, ports.dtagcmp⟩
  have place := place_dtagcmp before a
  generalize marked : ({ s with lsqWtbki := s.lsqSelect cfg a }.dtagcmp a).markEx a = u at e
  have kept : Accesses u roq ∧ u.place = s.place ∧
      ∀ i, u.lsqWtbki = some i → (u.lsq i).state = .readcache := by
    have mark (v : Backend) (h : Accesses v roq) : Accesses (v.markEx a) roq :=
      ⟨h.done, h.event⟩
    rw [← marked]
    refine ⟨mark _ ?_, place, fun i hi => ?_⟩
    · simp only [dtagcmp]
      split
      · rename_i j _ port
        have state := ports.dtagcmp j port
        exact accesses_early h (by simp [state]) rfl rfl rfl
      · exact ⟨h.done, h.event⟩
    · simp only [dtagcmp, markEx] at hi ⊢
      split at hi
      · rename_i j _ port
        simp only [modLsq] at hi ⊢
        by_cases eq : i = j
        · simp [eq]
        · rw [Function.update_of_ne eq]
          rcases ite_eq_iff.mp hi with ⟨-, same⟩ | ⟨-, selected⟩
          · exact absurd (Option.some.inj same).symm eq
          · exact lsqSelect_state selected
      · exact lsqSelect_state (s := s) hi
  obtain ⟨kept, same, selected⟩ := kept
  rw [← same] at flow
  simp only [lsqLook, marked] at e
  split at e
  · rename_i i chosen
    have state := selected i chosen
    obtain ⟨here, id⟩ := slot_owner flow state
    refine accesses_eventqQueueEvent kept here (fun _ => ?_) e
    rw [lsqState, id, state]
  · cases e
    exact kept

end Memory

section Issue

theorem accesses_issueInst {l : RsLink} (h : Accesses s roq) (here : l.rs ∈ roq) (e : s.issueInst l = some t) : Accesses t roq := by
  obtain ⟨u, v, oplat, first, rfl, e⟩ := issueInst_some e
  obtain ⟨-, rfl⟩ := deleteNode_some e
  have start : Accesses (s.issued l.rs) roq := by
    have same : Accesses (s.modDesc l.rs fun d => { d with issued := true, queued := false })
        roq := by
      have wires : (s.modDesc l.rs fun d => { d with issued := true, queued := false }).wiring =
          s.wiring := wiring_modDesc _ ⟨rfl, rfl, rfl, rfl⟩
      refine accesses_same h (layout_modDesc _ rfl) (fun d => ?_) (by rw [wires]) (by rw [wires])
      by_cases eq : d = l.rs
      · rw [eq, modDesc_self]
      · rw [modDesc_of_ne s eq]
    exact ⟨same.done, same.event⟩
  have next : Accesses u roq := by
    split at first
    · obtain ⟨-, state, -, rfl⟩ := lsqIssue_some first
      exact accesses_early start (by simp [state]) rfl rfl rfl
    · rename_i mem
      refine accesses_eventqQueueEvent start here (fun mem' => absurd ?_ mem) first
      simpa [issued, Descript.mem] using mem'
  rw [countIssue_eq]
  exact ⟨next.done, next.event⟩

theorem accesses_mapInst {rest : List Nat} (h : Accesses s roq) (flow : Passage cfg s.place roq done)
    (booked : Booked s.ledger roq) (queue : s.decodeData = d :: rest)
    (space : s.lsqNum < cfg.lsqIfqSize) (e : s.mapInst cfg = some t) :
    Accesses t (roq ++ [d]) := by
  have front : d ∈ s.ledger.decodeData := by
    change d ∈ s.decodeData
    rw [queue]
    exact List.mem_cons_self
  have apart : d ∉ roq := fun hd => (flow.apart hd).2.2.1 front
  have fresh : (s.desc d).completed = false := (booked.decoded d front).1.completed
  have desc {j : Nat} (ne : j ≠ d) : (s.placed cfg d rest).desc j = s.desc j := by
    simp only [placed, Function.update_of_ne ne]
  have state {j : Nat} (hj : j ∈ roq) (mem : (s.desc j).mem) :
      (s.placed cfg d rest).lsqState j = s.lsqState j := by
    have ne : j ≠ d := by
      rintro rfl
      exact apart hj
    have held : s.place.lsq (s.desc j).lsqid = some j := (flow.lsqid j hj mem).2
    have free : s.place.lsq s.lsqTail = none := flow.vacant space
    have other : (s.desc j).lsqid ≠ s.lsqTail := by
      intro same
      rw [same, free] at held
      cases held
    rw [lsqState, desc ne]
    simp only [placed]
    split
    · rw [Function.update_of_ne other]
      rfl
    · rfl
  have next : Accesses (s.placed cfg d rest) (roq ++ [d]) := by
    constructor
    case done =>
      intro j hj mem completed
      rcases List.mem_append.mp hj with old | new
      · have ne : j ≠ d := by
          rintro rfl
          exact apart old
        rw [desc ne] at mem completed
        rw [state old mem]
        exact h.done j old mem completed
      · obtain rfl := List.mem_singleton.mp new
        have same : ((s.placed cfg j rest).desc j).completed = (s.desc j).completed := by
          simp [placed]
        rw [same, fresh] at completed
        cases completed
    case event =>
      intro x hx valid
      have valid' : s.rslinkValid x.2 = true := by
        rw [← valid, rslinkValid, rslinkValid]
        by_cases eq : x.2.rs = d
        · simp [placed, eq]
        · rw [desc eq]
      obtain ⟨inside, read⟩ := h.event x hx valid'
      have ne : x.2.rs ≠ d := fun same => apart (same ▸ inside)
      refine ⟨List.mem_append_left _ inside, fun mem young => ?_⟩
      rw [desc ne] at mem young
      rw [state inside mem]
      exact read mem young
  rw [mapInst_eq cfg queue] at e
  split_ifs at e
  · exact accesses_readyqEnqueue next e
  · cases e
    exact next

end Issue

section Squash

variable {flight : List Nat}

/-- Tags only grow, so that a valid link has been valid. -/
theorem valid_back (wired : Wired s.wiring flight) {x : Nat × RsLink} (hx : x ∈ s.eventQueue)
    (later : (s.desc x.2.rs).tag ≤ (t.desc x.2.rs).tag) (valid : t.rslinkValid x.2) :
    s.rslinkValid x.2 ∧ (t.desc x.2.rs).tag = (s.desc x.2.rs).tag := by
  have known : x.2.tag ≤ (s.desc x.2.rs).tag := (wired.known x.2 (.event hx)).1
  have now : x.2.tag = (t.desc x.2.rs).tag := eq_of_beq valid
  exact ⟨beq_iff_eq.mpr (by omega), by omega⟩

theorem accesses_squashLast (h : Accesses s (roq ++ [d]))
    (flow : Passage cfg s.place (roq ++ [d]) done) (wired : Wired s.wiring flight)
    (e : s.squashLast cfg = some t) : Accesses t roq := by
  obtain ⟨-, rfl⟩ := squashLast_some flow.last e
  have apart : d ∉ roq := by
    have once := flow.nodup
    rw [List.nodup_append] at once
    exact fun hd => once.2.2 d hd d (by simp) rfl
  have ne {j : Nat} (hj : j ∈ roq) : j ≠ d := by
    rintro rfl
    exact apart hj
  refine h.congr (fun j hj => List.mem_append_left _ hj) (fun j hj => ?_) (fun j hj mem _ => ?_)
    fun x hx valid => ?_
  · simp only [Function.update_of_ne (ne hj), and_self]
  · simp only [lsqState, Function.update_of_ne (ne hj)]
    split
    · rename_i kind
      rw [Function.update_of_ne]
      intro same
      exact ne hj (lsqid_inj flow (List.mem_append_left _ hj) (by simp) mem kind same)
    · rfl
  · have later : (s.desc x.2.rs).tag ≤
        (Function.update s.desc d (squashed (s.desc d)) x.2.rs).tag := by
      by_cases eq : x.2.rs = d
      · simp [eq, squashed]
      · rw [Function.update_of_ne eq]
    obtain ⟨valid, same⟩ := valid_back wired hx later valid
    refine ⟨hx, valid, fun here => ?_⟩
    rcases List.mem_append.mp here with old | new
    · exact old
    · simp only [List.mem_singleton.mp new, Function.update_self, squashed] at same
      omega

theorem accesses_squashAll {gone front : List Nat} (h : Accesses s (roq ++ gone))
    (flow : Passage cfg s.place (roq ++ gone) done)
    (wired : Wired s.wiring (roq ++ gone ++ front)) (once : (roq ++ gone ++ front).Nodup)
    (e : s.squashAll cfg gone.length = some t) : Accesses t roq := by
  refine (squashAll_invariant (P := fun roq u => Accesses u roq ∧ Passage cfg u.place roq done ∧
    Wired u.wiring (roq ++ front) ∧ (roq ++ front).Nodup) (fun roq d u v h e => ?_)
    ⟨h, flow, wired, once⟩ e).1
  obtain ⟨h, flow, wired, once⟩ := h
  have one : u.squashAll cfg [d].length = some v := Option.bind_eq_some_iff.mpr ⟨v, e, rfl⟩
  have cut : Wired v.wiring (roq ++ front) := wired_squashAll flow wired once one
  refine ⟨accesses_squashLast h flow wired e, flow_squashLast flow e, cut, ?_⟩
  exact once.sublist ((List.sublist_append_left ..).append_right _)

theorem accesses_tracerRecover (h : Accesses s roq) (flow : Passage cfg s.place roq done)
    (wired : Wired s.wiring flight) (level : Nat) : Accesses (s.tracerRecover level) roq := by
  rw [tracerRecover_eq (decode_nodup flow)]
  have kept {j : Nat} (hj : j ∈ roq) : j ∉ s.decodeData := (flow.apart hj).2.2.1
  have desc {j : Nat} (hj : j ∈ roq) : (if j ∈ s.decodeData then
      squashed { s.desc j with tag := (s.desc j).tag + s.fetchData.count j }
      else { s.desc j with tag := (s.desc j).tag + s.fetchData.count j }) =
      { s.desc j with tag := (s.desc j).tag + s.fetchData.count j } := if_neg (kept hj)
  refine h.congr (fun j hj => hj) (fun j hj => ?_) (fun j hj _ _ => ?_) fun x hx valid => ?_
  · simp only [desc hj]
    exact ⟨rfl, trivial⟩
  · simp only [lsqState, desc hj]
  · refine ⟨hx, (valid_back wired hx ?_ valid).1, id⟩
    simp only
    split <;> simp only [squashed] <;> omega

theorem accesses_pipelineFlush (h : Accesses s roq) (flow : Passage cfg s.place roq done)
    (wired : Wired s.wiring (roq ++ s.decodeData)) (e : s.pipelineFlush cfg = some t) :
    Accesses t [] := by
  obtain ⟨u, dropped, all, rfl⟩ := pipelineFlush_some flow e
  have cut : Wired (s.tracerRecover 0).wiring ([] ++ roq ++ []) := by
    rw [List.append_nil]
    exact wired_tracerRecover wired (flight_nodup flow) 0
  have once : ([] ++ roq ++ []).Nodup := by
    rw [List.append_nil]
    exact (List.nodup_append.mp (flight_nodup flow)).1
  have last : Accesses u [] :=
    accesses_squashAll (accesses_tracerRecover h flow wired 0) dropped cut once all
  exact ⟨last.done, last.event⟩

theorem accesses_brerrRecover (h : Accesses s roq) (flow : Passage cfg s.place roq done)
    (wired : Wired s.wiring (roq ++ s.decodeData)) {i : Nat} (hi : i < roq.length)
    (slot : i + 1 < roq.length) (e : s.brerrRecover cfg roq[i] = some t) :
    Accesses t (roq.take (lastKept (s.desc roq[i]) i + 1)) := by
  obtain ⟨u, squashed, rfl⟩ := brerrRecover_some flow hi slot e
  have once := flight_nodup flow
  generalize lastKept (s.desc roq[i]) i + 1 = n at squashed ⊢
  have whole := List.take_append_drop n roq
  rw [← whole] at h flow wired once
  rw [← List.length_drop] at squashed
  exact accesses_tracerRecover (accesses_squashAll h flow wired once squashed)
    (flow_squashAll flow squashed) (wired_squashAll flow wired once squashed) _

theorem accesses_retire (h : Accesses s (d :: roq)) (flow : Passage cfg s.place (d :: roq) done)
    (wired : Wired s.wiring flight)
    (e : (s.modDesc d fun x => { x with tag := x.tag + 1 }).retire cfg d = some t) :
    Accesses t roq := by
  obtain ⟨-, -, -, rfl⟩ := retire_some e
  have apart : d ∉ roq := (List.nodup_cons.mp flow.nodup).1
  have ne {j : Nat} (hj : j ∈ roq) : j ≠ d := by
    rintro rfl
    exact apart hj
  refine h.congr (fun j hj => List.mem_cons_of_mem _ hj) (fun j hj => ?_) (fun j hj mem _ => ?_)
    fun x hx valid => ?_
  · simp only [modDesc_of_ne s (ne hj), and_self]
  · simp only [lsqState, modDesc_of_ne s (ne hj), modDesc_self]
    split
    · rename_i kind
      rw [Function.update_of_ne]
      · rfl
      · intro same
        exact ne hj (lsqid_inj flow (List.mem_cons_of_mem _ hj) List.mem_cons_self mem kind same)
    · rfl
  · have later : (s.desc x.2.rs).tag ≤
        ((s.modDesc d fun x => { x with tag := x.tag + 1 }).desc x.2.rs).tag := by
      by_cases eq : x.2.rs = d
      · simp [eq]
      · rw [modDesc_of_ne s eq]
    obtain ⟨valid, same⟩ := valid_back wired hx later valid
    refine ⟨hx, valid, fun here => ?_⟩
    rcases List.mem_cons.mp here with new | old
    · rw [new, modDesc_self] at same
      simp at same
    · exact old

/-- A branch is no memory operation. -/
theorem accesses_resolved {rs : Nat} (h : Accesses s roq) (ctrl : (s.desc rs).ctrl) :
    Accesses (s.resolved rs) roq := by
  have plain : (s.desc rs).mem = false := by
    by_contra mem
    rw [mem_ctrl (Bool.eq_true_of_not_eq_false mem)] at ctrl
    cases ctrl
  have desc {j : Nat} (mem : (s.desc j).mem) : (s.resolved rs).desc j = s.desc j := by
    refine modDesc_of_ne s ?_ _
    rintro rfl
    rw [plain] at mem
    cases mem
  have kind (j : Nat) : ((s.resolved rs).desc j).mem = (s.desc j).mem := by
    by_cases eq : j = rs
    · rw [eq, resolved, modDesc_self]
      rfl
    · rw [resolved, modDesc_of_ne s eq]
  constructor
  case done =>
    intro j hj mem completed
    rw [kind] at mem
    rw [desc mem] at completed
    rw [lsqState, desc mem]
    exact h.done j hj mem completed
  case event =>
    intro x hx valid
    have valid' : s.rslinkValid x.2 = true := by
      rw [← valid, rslinkValid, rslinkValid]
      by_cases eq : x.2.rs = rs
      · rw [eq, resolved, modDesc_self]
      · rw [resolved, modDesc_of_ne s eq]
    obtain ⟨inside, read⟩ := h.event x hx valid'
    refine ⟨inside, fun mem fresh => ?_⟩
    rw [kind] at mem
    rw [desc mem] at fresh
    rw [lsqState, desc mem]
    exact read mem fresh

end Squash

section Front

/-- The instructions in front of the reorder queue change. -/
theorem accesses_front (h : Accesses s roq) (lsq : t.lsq = s.lsq)
    (desc : ∀ d ∈ roq, (t.desc d).seat = (s.desc d).seat ∧
      (t.desc d).completed = (s.desc d).completed)
    (event : t.wiring.event = s.wiring.event) (tag : t.wiring.tag = s.wiring.tag) :
    Accesses t roq := by
  refine h.congr (fun d hd => hd) (fun d hd => ?_) (fun d hd _ _ => ?_)
    fun x hx valid => ⟨?_, ?_, id⟩
  · exact ⟨congrArg Seat.mem (desc d hd).1, (desc d hd).2⟩
  · rw [lsqState, lsqState, lsq, show (t.desc d).lsqid = _ from congrArg Seat.lsqid (desc d hd).1]
    rfl
  · rw [show s.eventQueue = t.eventQueue from event.symm]
    exact hx
  · rw [rslinkValid, show (s.desc x.2.rs).tag = _ from congrFun tag.symm x.2.rs]
    exact valid

end Front

end Godson.Backend

import Godson.ReadyOnce

/-! The events of the instructions in the function units. One that is no memory operation has an
event from its issue on until it has written back; a memory operation leaves the entry state
when it is issued. -/
namespace Godson

open Mips

namespace Descript

/-- The instruction is in its function unit. -/
def running (d : Descript) : Bool := d.issued && !d.completed && !d.brcompleted

end Descript

namespace Backend

variable {cfg : BackendConfig} {s t u : Backend} {roq done : List Nat} {d : Nat}

/-- The events with the instructions `roq` in the reorder queue. -/
structure Scheduled (s : Backend) (roq : List Nat) : Prop where
  plain : ∀ d ∈ roq, (s.desc d).mem = false →
    s.eventQueue.countP (s.marks d) = if (s.desc d).running then 1 else 0
  enter : ∀ d ∈ roq, (s.desc d).mem = true →
    (s.lsqState d = .enter ↔ (s.desc d).issued = false)

/-- What the events of an instruction depend on. -/
structure SameTask (d e : Descript) : Prop where
  mem : e.mem = d.mem
  running : e.running = d.running
  issued : e.issued = d.issued
  tag : e.tag = d.tag

theorem marks_congr (tag : (t.desc d).tag = (s.desc d).tag) : t.marks d = s.marks d := by
  funext x
  rw [marks, marks]
  by_cases mine : x.2.rs = d
  · rw [rslinkValid, rslinkValid, mine, tag]
  · rw [beq_false_of_ne mine, Bool.and_false, Bool.and_false]

theorem SameTask.of_seat {d e : Descript} (seat : e.seat = d.seat)
    (standing : e.standing = d.standing) (tag : e.tag = d.tag) : SameTask d e := by
  have issued : e.issued = d.issued := congrArg Standing.issued standing
  have completed : e.completed = d.completed := congrArg Standing.completed standing
  have back : e.brcompleted = d.brcompleted := congrArg Standing.brcompleted standing
  refine ⟨congrArg Seat.mem seat, ?_, issued, tag⟩
  rw [Descript.running, issued, completed, back, Descript.running]

namespace Scheduled

theorem congr (h : Scheduled s roq) {roq' : List Nat} (part : ∀ d ∈ roq', d ∈ roq)
    (task : ∀ d ∈ roq', SameTask (s.desc d) (t.desc d)) (event : t.eventQueue = s.eventQueue)
    (state : ∀ d ∈ roq', (s.desc d).mem = true →
      (t.lsqState d = .enter ↔ s.lsqState d = .enter)) : Scheduled t roq' where
  plain d hd mem := by
    obtain ⟨kind, running, -, tag⟩ := task d hd
    rw [event, marks_congr tag, running]
    exact h.plain d (part d hd) (kind.symm.trans mem)
  enter d hd mem := by
    obtain ⟨kind, -, issued, -⟩ := task d hd
    have before := kind.symm.trans mem
    rw [state d hd before, issued]
    exact h.enter d (part d hd) before

/-- The queues, the progress and the events stay. -/
theorem same (h : Scheduled s roq) (lsq : t.lsq = s.lsq)
    (desc : ∀ d ∈ roq, (t.desc d).seat = (s.desc d).seat ∧
      (t.desc d).standing = (s.desc d).standing ∧ (t.desc d).tag = (s.desc d).tag)
    (event : t.eventQueue = s.eventQueue) : Scheduled t roq := by
  refine h.congr (fun d hd => hd) (fun d hd => ?_) event fun d hd _ => ?_
  · obtain ⟨seat, standing, tag⟩ := desc d hd
    exact .of_seat seat standing tag
  · have place : (t.desc d).lsqid = (s.desc d).lsqid := congrArg Seat.lsqid (desc d hd).1
    rw [lsqState, lsqState, lsq, place]

section Squash

theorem squashLast (h : Scheduled s (roq ++ [d])) (flow : Passage cfg s.place (roq ++ [d]) done)
    (e : s.squashLast cfg = some t) : Scheduled t roq := by
  obtain ⟨-, rfl⟩ := squashLast_some flow.last e
  have ne {j : Nat} (hj : j ∈ roq) : j ≠ d := by
    rintro rfl
    have once := flow.nodup
    rw [List.nodup_append] at once
    exact once.2.2 j hj j (List.mem_singleton_self j) rfl
  refine h.congr (fun j hj => List.mem_append_left _ hj) (fun j hj => ?_) rfl fun j hj mem => ?_
  · simp only [Function.update_of_ne (ne hj)]
    exact ⟨rfl, rfl, rfl, rfl⟩
  · simp only [lsqState, Function.update_of_ne (ne hj)]
    split
    · rename_i kind
      rw [Function.update_of_ne]
      intro same
      exact ne hj (lsqid_inj flow (List.mem_append_left _ hj) (by simp) mem kind same)
    · rfl

theorem squashAll {gone : List Nat} (h : Scheduled s (roq ++ gone))
    (flow : Passage cfg s.place (roq ++ gone) done)
    (e : s.squashAll cfg gone.length = some t) : Scheduled t roq := by
  refine (squashAll_invariant (P := fun roq u => Scheduled u roq ∧ Passage cfg u.place roq done)
    (fun roq d u v h e => ?_) ⟨h, flow⟩ e).1
  exact ⟨h.1.squashLast h.2 e, flow_squashLast h.2 e⟩

theorem tracerRecover (h : Scheduled s roq) (flow : Passage cfg s.place roq done) (level : Nat) :
    Scheduled (s.tracerRecover level) roq := by
  rw [tracerRecover_eq (decode_nodup flow)]
  have desc {j : Nat} (hj : j ∈ roq) : (if j ∈ s.decodeData then
      squashed { s.desc j with tag := (s.desc j).tag + s.fetchData.count j }
      else { s.desc j with tag := (s.desc j).tag + s.fetchData.count j }) = s.desc j := by
    obtain ⟨-, fetch, decode, -⟩ := flow.apart hj
    have none : s.fetchData.count j = 0 := List.count_eq_zero_of_not_mem fetch
    have front : j ∉ s.decodeData := decode
    rw [if_neg front, none]
    rfl
  refine h.congr (fun j hj => hj) (fun j hj => ?_) rfl fun j hj _ => ?_
  · simp only [desc hj]
    exact ⟨rfl, rfl, rfl, rfl⟩
  · simp only [lsqState, desc hj]

theorem empty (s : Backend) : Scheduled s [] := by
  constructor
  · intro d hd
    cases hd
  · intro d hd
    cases hd

theorem brerrRecover {i : Nat} (h : Scheduled s roq) (flow : Passage cfg s.place roq done)
    (hi : i < roq.length) (slot : i + 1 < roq.length) (e : s.brerrRecover cfg roq[i] = some t) :
    Scheduled t (roq.take (lastKept (s.desc roq[i]) i + 1)) := by
  obtain ⟨u, squashed, rfl⟩ := brerrRecover_some flow hi slot e
  generalize lastKept (s.desc roq[i]) i + 1 = n at *
  have whole := List.take_append_drop n roq
  rw [← whole] at flow h
  rw [← List.length_drop] at squashed
  exact (h.squashAll flow squashed).tracerRecover (flow_squashAll flow squashed) _

theorem retire (h : Scheduled s (d :: roq)) (flow : Passage cfg s.place (d :: roq) done)
    (e : (s.modDesc d fun x => { x with tag := x.tag + 1 }).retire cfg d = some t) :
    Scheduled t roq := by
  obtain ⟨-, -, -, rfl⟩ := retire_some e
  have ne {j : Nat} (hj : j ∈ roq) : j ≠ d := by
    rintro rfl
    exact (List.nodup_cons.mp flow.nodup).1 hj
  refine h.congr (fun j hj => List.mem_cons_of_mem _ hj) (fun j hj => ?_) rfl fun j hj mem => ?_
  · simp only [modDesc_of_ne s (ne hj)]
    exact ⟨rfl, rfl, rfl, rfl⟩
  · simp only [lsqState, modDesc_of_ne s (ne hj), modDesc_self]
    split
    · rename_i kind
      rw [Function.update_of_ne]
      · rfl
      · intro same
        exact ne hj (lsqid_inj flow (List.mem_cons_of_mem _ hj) List.mem_cons_self mem kind same)
    · rfl

/-- A branch that is resolved has written back before. -/
theorem resolved (h : Scheduled s roq) (back : (s.desc d).brcompleted = true) :
    Scheduled (s.resolved d) roq := by
  refine h.congr (fun j hj => hj) (fun j _ => ?_) rfl fun j _ _ => ?_
  · by_cases eq : j = d
    · rw [eq, Backend.resolved, modDesc_self]
      refine ⟨rfl, ?_, rfl, rfl⟩
      simp [Descript.running, back]
    · rw [Backend.resolved, modDesc_of_ne s eq]
      exact ⟨rfl, rfl, rfl, rfl⟩
  · by_cases eq : j = d
    · simp only [lsqState, eq, Backend.resolved, modDesc_self]
      rfl
    · simp only [lsqState, Backend.resolved, modDesc_of_ne s eq]
      rfl

end Squash

section Writeback

/-- An instruction leaves its unit, and with it its event. -/
theorem finished (plain : ∀ j ∈ roq, j ≠ d → (s.desc j).mem = false →
      s.eventQueue.countP (s.marks j) = if (s.desc j).running then 1 else 0)
    (enter : ∀ j ∈ roq, (s.desc j).mem = true →
      (s.lsqState j = .enter ↔ (s.desc j).issued = false))
    (none : (s.desc d).mem = false → s.eventQueue.countP (s.marks d) = 0)
    (late : (s.desc d).mem = true → s.lsqState d ≠ .enter) (flow : Passage cfg s.place roq done)
    (here : d ∈ roq) : Scheduled (s.finished d) roq := by
  have tag (j : Nat) : ((s.finished d).desc j).tag = (s.desc j).tag :=
    congrArg (fun w : Wiring => w.tag j) (wiring_finished d s)
  have desc {j : Nat} (ne : j ≠ d) : (s.finished d).desc j = s.desc j := by
    simp only [Backend.finished, Function.update_of_ne ne]
  have mine : ((s.finished d).desc d).mem = (s.desc d).mem ∧
      ((s.finished d).desc d).issued = (s.desc d).issued ∧
      ((s.finished d).desc d).running = false := by
    simp only [Backend.finished, Function.update_self]
    split <;> simp [Descript.mem, Descript.running]
  constructor
  · intro j hj mem
    have count : (s.finished d).eventQueue.countP ((s.finished d).marks j) =
        s.eventQueue.countP (s.marks j) := by
      rw [marks_congr (tag j)]
      rfl
    rw [count]
    by_cases eq : j = d
    · subst eq
      rw [mine.2.2, none (mine.1.symm.trans mem)]
      rfl
    · rw [desc eq] at mem ⊢
      exact plain j hj eq mem
  · intro j hj mem
    by_cases eq : j = d
    · subst eq
      have kind := mine.1.symm.trans mem
      have left : (s.finished j).lsqState j = .writeback := by
        simp only [lsqState, Backend.finished, kind, if_true, mem_ctrl kind, Bool.false_eq_true,
          if_false, Function.update_self]
      have gone : (s.desc j).issued ≠ false := fun fresh => late kind ((enter j hj kind).mpr fresh)
      rw [left, mine.2.1]
      exact ⟨fun same => absurd same (by decide), fun fresh => absurd fresh gone⟩
    · rw [desc eq] at mem ⊢
      have state : (s.finished d).lsqState j = s.lsqState j := by
        simp only [lsqState, Backend.finished, Function.update_of_ne eq]
        split
        · rename_i kind
          rw [Function.update_of_ne]
          intro same
          exact eq (lsqid_inj flow hj here mem kind same)
        · rfl
      rw [state]
      exact enter j hj mem

theorem broadcast {out : Nat} (h : Scheduled s roq) (e : s.broadcast d out = some t) :
    Scheduled t roq := by
  obtain ⟨place, lsq, -⟩ := layout_eq.mp (layout_broadcast e)
  obtain ⟨event, tag⟩ := events_broadcast e
  have works := works_broadcast e
  have back (j : Nat) : (t.desc j).brcompleted = (s.desc j).brcompleted := by
    have course := course_broadcast e
    split at course
    · exact congrArg (fun c : Course => (c.trace j).brcompleted) course
    · exact (congrArg (fun c : Course => (c.trace j).brcompleted) course).trans
        (congrArg Descript.brcompleted (congrFun (wiring_updateCreateVector d s).2 j))
  have seat (j : Nat) : (t.desc j).seat = (s.desc j).seat :=
    congrArg (fun p : Place => p.seat j) place
  refine h.congr (fun j hj => hj) (fun j _ => ?_) event fun j _ _ => ?_
  · obtain ⟨-, -, issued, completed⟩ := work_eq works j
    refine ⟨congrArg Seat.mem (seat j), ?_, issued, congrFun tag j⟩
    rw [Descript.running, issued, completed, back, Descript.running]
  · have id : (t.desc j).lsqid = (s.desc j).lsqid := congrArg Seat.lsqid (seat j)
    have entries : t.lsq = s.lsq := lsq
    rw [lsqState, lsqState, entries, id]

theorem deliver {time : Nat} {l : RsLink} {rest : List (Nat × RsLink)} (h : Scheduled s roq)
    (coherent : Coherent cfg s roq done) (queue : s.eventQueue = (time, l) :: rest)
    (e : s.deliver l rest = some t) : Scheduled t roq := by
  have count (j : Nat) : s.eventQueue.countP (s.marks j) =
      rest.countP (s.marks j) + if s.marks j (time, l) then 1 else 0 := by
    rw [queue, List.countP_cons]
  simp only [Backend.deliver] at e
  split at e
  · rename_i valid
    have front : (time, l) ∈ s.eventQueue := by
      rw [queue]
      exact List.mem_cons_self
    obtain ⟨here, read⟩ := coherent.accesses.event _ front valid
    obtain ⟨checked, u, first, second⟩ := finish_some e
    refine broadcast (broadcast (finished (s := { s with eventQueue := rest }.rslinkFree l)
      (fun j hj ne mem => ?_) h.enter (fun mem => ?_) (fun mem => ?_) coherent.flow here)
      first) second
    · have other : s.marks j (time, l) = false := by
        rw [marks, beq_false_of_ne (Ne.symm ne), Bool.and_false]
      have before := h.plain j hj mem
      rw [count, other] at before
      exact before
    · have own : s.marks l.rs (time, l) = true := by
        rw [marks, valid, beq_self_eq_true]
        rfl
      have before := h.plain l.rs here mem
      rw [count, own, if_pos rfl] at before
      have few : rest.countP (s.marks l.rs) + 1 ≤ 1 := by
        rw [before]
        split
        · exact Nat.le_refl 1
        · exact Nat.zero_le 1
      exact Nat.le_zero.mp (Nat.le_of_succ_le_succ few)
    · have state : s.lsqState l.rs = .readcache := read mem checked.2.2.2
      intro same
      exact absurd (state.symm.trans same) (by decide)
  · rename_i dead
    cases e
    refine ⟨fun j hj mem => ?_, h.enter⟩
    have other : s.marks j (time, l) = false := by
      rw [marks, Bool.eq_false_of_not_eq_true dead]
      rfl
    have before := h.plain j hj mem
    rw [count, other] at before
    exact before

end Writeback

section Memory

/-- An entry changes that is not in the entry state before or after it. -/
theorem moved {i : Nat} {l : LsqItem} (h : Scheduled s roq)
    (before : (s.lsq i).state ≠ .enter) (after : l.state ≠ .enter)
    (lsq : t.lsq = Function.update s.lsq i l) (desc : t.desc = s.desc)
    (event : t.eventQueue = s.eventQueue) : Scheduled t roq := by
  refine h.congr (fun j hj => hj) (fun j _ => ?_) event fun j _ _ => ?_
  · rw [desc]
    exact ⟨rfl, rfl, rfl, rfl⟩
  · rw [lsqState, lsqState, lsq, desc]
    by_cases eq : (s.desc j).lsqid = i
    · rw [eq, Function.update_self]
      exact ⟨fun same => absurd same after, fun same => absurd same before⟩
    · rw [Function.update_of_ne eq]

theorem dcache (h : Scheduled s roq) (ports : s.Ports) (a : LsqAnswer) :
    Scheduled (s.dcache a) roq := by
  have first : Scheduled (s.toDtagcmp a) roq := by
    rw [toDtagcmp]
    split
    · rename_i i _ port
      have state := ports.dcache i port
      exact h.moved (by simp [state]) (by simp) rfl rfl rfl
    · exact h
  have ports := (toDtagcmp_frame ports a).2
  rw [dcache_eq, toDcache]
  split
  · rename_i i _ port
    have state := ports.issue i port
    exact first.moved (by simp [state]) (by simp) rfl rfl rfl
  · exact ⟨first.plain, first.enter⟩
  · exact first

/-- An entry that is not yet committed is that of a memory operation in the reorder queue. -/
theorem slot_own (flow : Passage cfg s.place roq done) {i : Nat}
    (used : (s.lsq i).state ≠ .empty) (early : (s.lsq i).state.committed = false) :
    (s.lsq i).rs ∈ roq ∧ (s.desc (s.lsq i).rs).mem = true ∧ (s.desc (s.lsq i).rs).lsqid = i := by
  have slot : s.place.lsq i = some (s.lsq i).rs := by simp [place, LsqItem.slot, used]
  obtain ⟨k, hk, -, held⟩ := flow.memory.distance (flow.slots i _ slot) slot
  have inside : (s.lsq i).rs ∈ done ++ roq.filter fun d => (s.place.seat d).mem := by
    rw [← held]
    exact List.getElem_mem hk
  have young : (s.lsq i).rs ∉ done := by
    intro old
    have committed : (s.lsq i).state.committed = true := (flow.committed i _ slot).mpr old
    exact absurd (early.symm.trans committed) Bool.false_ne_true
  obtain ⟨here, mem⟩ := List.mem_filter.mp ((List.mem_append.mp inside).resolve_left young)
  exact ⟨here, mem, flow.slot_unique (flow.lsqid _ here mem).2 slot⟩

/-- The event of a memory operation is none of another instruction. -/
theorem eventqQueueEvent {rs time : Nat} (h : Scheduled s roq) (mem : (s.desc rs).mem = true)
    (e : s.eventqQueueEvent rs time = some t) : Scheduled t roq := by
  obtain ⟨-, id, pool, -, rfl⟩ := eventqQueueEvent_some e
  refine ⟨fun j hj plain => ?_, h.enter⟩
  have ne : rs ≠ j := by
    rintro rfl
    exact absurd (plain.symm.trans mem) Bool.false_ne_true
  have other : s.marks j (time, s.linkTo rs id) = false := by
    rw [marks, linkTo, beq_false_of_ne ne, Bool.and_false]
  have count := EventQueue.countP_insert (s.marks j) false time (s.linkTo rs id) s.eventQueue
  rw [other] at count
  exact count.trans (h.plain j hj plain)

theorem lsqLook {a : LsqAnswer} (h : Scheduled s roq) (flow : Passage cfg s.place roq done)
    (ports : s.Ports) (e : s.lsqLook cfg a = some t) : Scheduled t roq := by
  have before : ({ s with lsqWtbki := s.lsqSelect cfg a } : Backend).Ports :=
    ⟨ports.issue, ports.dcache, ports.dtagcmp⟩
  have place := place_dtagcmp before a
  generalize marked : ({ s with lsqWtbki := s.lsqSelect cfg a }.dtagcmp a).markEx a = u at e
  have kept : Scheduled u roq ∧ u.place = s.place ∧
      ∀ i, u.lsqWtbki = some i → (u.lsq i).state = .readcache := by
    rw [← marked]
    refine ⟨?_, place, fun i hi => ?_⟩
    · have mark (v : Backend) (h : Scheduled v roq) : Scheduled (v.markEx a) roq :=
        ⟨h.plain, h.enter⟩
      refine mark _ ?_
      simp only [dtagcmp]
      split
      · rename_i j _ port
        have state := ports.dtagcmp j port
        exact h.moved (by simp [state]) (by simp) rfl rfl rfl
      · exact ⟨h.plain, h.enter⟩
    · simp only [dtagcmp, markEx] at hi ⊢
      split at hi
      · rename_i j _ port
        simp only [modLsq] at hi ⊢
        by_cases eq : i = j
        · simp [eq]
        · rw [Function.update_of_ne eq]
          rcases ite_eq_iff.mp hi with ⟨-, same⟩ | ⟨-, selected⟩
          · exact absurd (Option.some.inj same).symm eq
          · exact lsqSelect_state selected
      · exact lsqSelect_state (s := s) hi
  obtain ⟨kept, same, selected⟩ := kept
  rw [← same] at flow
  simp only [Backend.lsqLook, marked] at e
  split at e
  · rename_i i chosen
    have state := selected i chosen
    exact kept.eventqQueueEvent
      (slot_own flow (by rw [state]; decide) (by rw [state]; rfl)).2.1 e
  · cases e
    exact kept

end Memory

section Issue

theorem issueInst {l : RsLink} (h : Scheduled s roq) (coherent : Coherent cfg s roq done)
    (here : l.rs ∈ roq) (ready : issuable (s.desc l.rs) = true)
    (e : s.issueInst l = some t) : Scheduled t roq := by
  obtain ⟨u, v, oplat, first, rfl, e⟩ := issueInst_some e
  obtain ⟨-, rfl⟩ := deleteNode_some e
  simp only [issuable, Bool.and_eq_true, Bool.not_eq_true'] at ready
  obtain ⟨⟨-, fresh⟩, unfinished⟩ := ready
  have back : (s.desc l.rs).brcompleted = false := by
    apply Bool.eq_false_iff.mpr
    intro back
    have issued : (s.desc l.rs).issued = true :=
      (coherent.booked.seated l.rs here).done (.inr back)
    exact absurd (fresh.symm.trans issued) Bool.false_ne_true
  have desc {j : Nat} (ne : j ≠ l.rs) : (s.issued l.rs).desc j = s.desc j := by
    simp only [issued, Function.update_of_ne ne]
  have mine : (s.issued l.rs).desc l.rs = { s.desc l.rs with issued := true, queued := false } := by
    simp only [issued, Function.update_self]
  have marks (j : Nat) : (s.issued l.rs).marks j = s.marks j := by
    refine marks_congr ?_
    by_cases eq : j = l.rs
    · rw [eq, mine]
    · rw [desc eq]
  have next : Scheduled u roq := by
    split at first
    · rename_i kind
      obtain ⟨-, state, -, rfl⟩ := lsqIssue_some first
      have place : ((s.issued l.rs).desc l.rs).lsqid = (s.desc l.rs).lsqid := by rw [mine]
      constructor
      · intro j hj mem
        change ((s.issued l.rs).desc j).mem = false at mem
        have ne : j ≠ l.rs := by
          rintro rfl
          rw [mine] at mem
          exact absurd (mem.symm.trans kind) Bool.false_ne_true
        rw [desc ne] at mem
        have count := h.plain j hj mem
        rw [← marks j, ← desc ne] at count
        exact count
      · intro j hj mem
        change ((s.issued l.rs).desc j).mem = true at mem
        change (Function.update s.lsq ((s.issued l.rs).desc l.rs).lsqid _
          ((s.issued l.rs).desc j).lsqid).state = .enter ↔ ((s.issued l.rs).desc j).issued = false
        by_cases eq : j = l.rs
        · rw [eq, Function.update_self, mine]
          simp
        · rw [desc eq] at mem ⊢
          rw [place, Function.update_of_ne]
          · exact h.enter j hj mem
          · intro same
            exact eq (lsqid_inj coherent.flow hj here mem kind same)
    · rename_i kind
      obtain ⟨-, id, pool, -, rfl⟩ := eventqQueueEvent_some first
      constructor
      · intro j hj mem
        change ((s.issued l.rs).desc j).mem = false at mem
        have count := EventQueue.countP_insert ((s.issued l.rs).marks j) false
          (s.simCycle + oplat) ((s.issued l.rs).linkTo l.rs id) s.eventQueue
        refine Eq.trans count ?_
        change _ = if ((s.issued l.rs).desc j).running = true then 1 else 0
        by_cases eq : j = l.rs
        · subst eq
          have own : (s.issued l.rs).marks l.rs
              (s.simCycle + oplat, (s.issued l.rs).linkTo l.rs id) = true := by
            rw [Backend.marks, rslinkValid, linkTo, beq_self_eq_true, beq_self_eq_true]
            rfl
          rw [mine] at mem
          have none := h.plain l.rs hj mem
          simp only [Descript.running, fresh, Bool.false_and, Bool.false_eq_true,
            if_false] at none
          rw [own, marks, none, mine]
          simp [Descript.running, unfinished, back]
        · have other : (s.issued l.rs).marks j
              (s.simCycle + oplat, (s.issued l.rs).linkTo l.rs id) = false := by
            rw [Backend.marks, linkTo, beq_false_of_ne (Ne.symm eq), Bool.and_false]
          rw [other, marks, desc eq]
          rw [desc eq] at mem
          exact h.plain j hj mem
      · intro j hj mem
        change ((s.issued l.rs).desc j).mem = true at mem
        have ne : j ≠ l.rs := by
          rintro rfl
          rw [mine] at mem
          exact kind mem
        rw [desc ne] at mem
        have state := h.enter j hj mem
        rw [lsqState, ← desc ne] at state
        exact state
  rw [countIssue_eq]
  exact ⟨next.plain, next.enter⟩

end Issue

section Front

theorem mapInst {rest : List Nat} (h : Scheduled s roq) (coherent : Coherent cfg s roq done)
    (queue : s.decodeData = d :: rest) (space : s.lsqNum < cfg.lsqIfqSize)
    (e : s.mapInst cfg = some t) : Scheduled t (roq ++ [d]) := by
  have front : d ∈ s.decodeData := by
    rw [queue]
    exact List.mem_cons_self
  have apart : d ∉ roq := fun hd => (coherent.flow.apart hd).2.2.1 front
  have idle := (coherent.booked.decoded d front).1
  have fresh : (s.desc d).issued = false := idle.issued
  have desc {j : Nat} (ne : j ≠ d) : (s.placed cfg d rest).desc j = s.desc j := by
    simp only [placed, Function.update_of_ne ne]
  have mine : ((s.placed cfg d rest).desc d).mem = (s.desc d).mem ∧
      ((s.placed cfg d rest).desc d).issued = false ∧
      ((s.placed cfg d rest).desc d).running = false := by
    simp [placed, Descript.mem, Descript.running, fresh]
  have marks (j : Nat) : (s.placed cfg d rest).marks j = s.marks j := by
    refine marks_congr ?_
    by_cases eq : j = d
    · simp [placed, eq]
    · rw [desc eq]
  have ne {j : Nat} (hj : j ∈ roq) : j ≠ d := by
    rintro rfl
    exact apart hj
  have next : Scheduled (s.placed cfg d rest) (roq ++ [d]) := by
    constructor
    · intro j hj mem
      rw [marks]
      change s.eventQueue.countP (s.marks j) = _
      rcases List.mem_append.mp hj with old | new
      · rw [desc (ne old)] at mem ⊢
        exact h.plain j old mem
      · obtain rfl := List.mem_singleton.mp new
        rw [mine.2.2]
        refine List.countP_eq_zero.mpr fun x hx marked => ?_
        rw [Backend.marks, Bool.and_eq_true] at marked
        have inside := (coherent.accesses.event x hx marked.1).1
        rw [eq_of_beq marked.2] at inside
        exact apart inside
    · intro j hj mem
      rcases List.mem_append.mp hj with old | new
      · have state : (s.placed cfg d rest).lsqState j = s.lsqState j := by
          rw [desc (ne old)] at mem
          have held : s.place.lsq (s.desc j).lsqid = some j := (coherent.flow.lsqid j old mem).2
          have free : s.place.lsq s.lsqTail = none := coherent.flow.vacant space
          have other : (s.desc j).lsqid ≠ s.lsqTail := by
            intro same
            rw [same, free] at held
            cases held
          rw [lsqState, desc (ne old)]
          simp only [placed]
          split
          · rw [Function.update_of_ne other]
            rfl
          · rfl
        rw [state]
        rw [desc (ne old)] at mem ⊢
        exact h.enter j old mem
      · obtain rfl := List.mem_singleton.mp new
        have kind := mine.1.symm.trans mem
        have trap : (s.desc j).trap = false := by
          by_contra absent
          have nop : (s.desc j).op = mdSetOpcode nopInst :=
            (idle.nop (Bool.eq_true_of_not_eq_false absent)).2
          rw [Descript.mem, nop] at kind
          exact absurd kind (by decide)
        have state : (s.placed cfg j rest).lsqState j = .enter := by
          simp [lsqState, placed, trap, kind]
        rw [state, mine.2.1]
        exact ⟨fun _ => rfl, fun _ => rfl⟩
  rw [mapInst_eq cfg queue] at e
  split_ifs at e
  · obtain ⟨id, pool, -, rfl⟩ := readyqEnqueue_some e
    refine next.congr (fun j hj => hj) (fun j _ => ?_) rfl fun j _ _ => ?_
    · by_cases eq : j = d
      · simp only [eq, Function.update_self]
        exact ⟨rfl, rfl, rfl, rfl⟩
      · simp only [Function.update_of_ne eq]
        exact ⟨rfl, rfl, rfl, rfl⟩
    · by_cases eq : j = d
      · simp only [lsqState, eq, Function.update_self]
      · simp only [lsqState, Function.update_of_ne eq]
  · cases e
    exact next

theorem beside (h : Scheduled s roq) (same : Coherent.Beside d s t) (outside : d ∉ roq) :
    Scheduled t roq := by
  refine h.same same.lsq (fun j hj => ?_) same.event
  have ne : j ≠ d := by
    rintro rfl
    exact outside hj
  exact ⟨(same.other j ne).1, (same.other j ne).2, same.tag j⟩

end Front

section Runs

/-- The instructions in the reorder queue are those that are found there. -/
def Sane (cfg : BackendConfig) (s : Backend) : Prop :=
  ∃ roq done, Coherent cfg s roq done ∧ Scheduled s roq

theorem micro {tight : Prop} {safe : Backend → Prop} (h : Sane cfg s)
    (step : Micro cfg tight safe s t) : Sane cfg t := by
  obtain ⟨roq, done, coherent, sched⟩ := h
  cases step with
  | tick => exact ⟨roq, done, coherent.tick, sched.plain, sched.enter⟩
  | releaseFu => exact ⟨roq, done, coherent.releaseFu, sched.plain, sched.enter⟩
  | commit filled e =>
    obtain ⟨d, rest, rfl, same | ⟨completed, -, flushed | left⟩⟩ := coherent.commit_cases filled e
    · exact ⟨_, done, same ▸ coherent, same ▸ sched⟩
    · exact ⟨[], done, (coherent.bumped_coherent d).flush flushed, empty t⟩
    · obtain ⟨done', next⟩ := coherent.retire completed left
      exact ⟨rest, done', next, sched.retire coherent.flow left⟩
  | checkBrq _ e =>
    rcases coherent.checkBrq_cases e with
      same | ⟨i, hi, ctrl, back, ⟨right, same⟩ | ⟨wrong, slot, -, e⟩⟩
    · exact ⟨roq, done, same ▸ coherent, same ▸ sched⟩
    · have next := coherent.right (List.getElem_mem hi) ctrl back right
      exact ⟨roq, done, same ▸ next, same ▸ sched.resolved back⟩
    · have flow : Passage cfg (s.resolved roq[i]).place roq done :=
        (layout_eq.mp (Coherent.layout_resolved roq[i] s)).1 ▸ coherent.flow
      have kept : lastKept ((s.resolved roq[i]).desc roq[i]) i = lastKept (s.desc roq[i]) i := by
        rw [Backend.resolved, modDesc_self]
        rfl
      have after := (sched.resolved back).brerrRecover flow hi slot e
      exact ⟨_, done, coherent.recover hi slot ctrl back wrong e, kept ▸ after⟩
  | deliver queue e =>
    exact ⟨roq, done, coherent.deliver queue e, sched.deliver coherent queue e⟩
  | lsqLook a e =>
    exact ⟨roq, done, coherent.lsqLook e, sched.lsqLook coherent.flow coherent.ports e⟩
  | freeOne state =>
    obtain ⟨done', next⟩ := coherent.freeOne state
    exact ⟨roq, done', next, sched.moved (by simp [state]) (by simp) rfl rfl rfl⟩
  | drainOne head =>
    exact ⟨roq, done, coherent.drainOne head, sched.moved (by simp [head]) (by simp) rfl rfl rfl⟩
  | dcache a => exact ⟨roq, done, coherent.dcache a, sched.dcache coherent.ports a⟩
  | @nextValidNode fu unit =>
    have next := coherent.nextValidNode unit
    refine ⟨roq, done, next, ?_⟩
    rw [Backend.nextValidNode, rslinkFreeAll_eq]
    exact ⟨sched.plain, sched.enter⟩
  | choose fu => exact ⟨roq, done, coherent.choose fu, sched.plain, sched.enter⟩
  | issueInst which valid ready _ _ e =>
    have here := coherent.chosen_here which valid ready
    exact ⟨roq, done, coherent.issueInst which valid ready e,
      sched.issueInst coherent here ready e⟩
  | mapInst queue room _ e =>
    exact ⟨_, done, coherent.mapInst queue room e, sched.mapInst coherent queue room.lsq e⟩
  | decodeInst o queue e =>
    exact ⟨roq, done, coherent.decodeInst queue e,
      sched.beside (Coherent.Only.decodeInst queue e).toBeside (front_apart coherent.flow queue)⟩
  | fetchInst f free room =>
    exact ⟨roq, done, coherent.fetchInst f free room,
      coherent.fetchInst_beside (P := fun u => Scheduled u roq) f free room
        (fun _ _ _ sched same outside => sched.beside same outside) sched⟩

theorem reachable (h : Reachable cfg (Fits cfg) s) : Scheduled s (s.inRoq cfg) := by
  have room : ∀ s a, Fits cfg s a → Fits cfg s a ∧ (False → BranchesFit cfg s a) ∧
      (a = .checkBrq → True) := fun s a fits => ⟨fits, False.elim, fun _ => trivial⟩
  have found : Sane cfg s := by
    refine reachable_invariant (I := Sane cfg) room ⟨[], [], Coherent.start cfg, empty _⟩
      (fun s t h step => micro h step) ?_ ?_ h
    · rintro s ⟨roq, done, coherent, -⟩
      exact coherent.ports
    · rintro s ⟨roq, done, coherent, -⟩
      exact coherent.single
  obtain ⟨roq, done, coherent, sched⟩ := found
  exact coherent.inRoq_eq.symm ▸ sched

end Runs

end Scheduled

end Backend

end Godson

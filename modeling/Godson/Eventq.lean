import Mathlib.Logic.Function.Basic
import Godson.EventQueue
import Godson.Runs

/-! `eventq.c` of the non-DVFS build: the list of pending events, the free list that its
descriptors come from and go back to, and the loop of `eventq_service_events`, which runs
handlers that queue further events. -/
namespace Godson.Events

variable {ε : Type*}

/-- `struct eventq_desc`. `serial` counts the events and does not wrap. -/
structure Desc (ε : Type*) where
  when : Nat
  serial : Nat
  action : ε

/-- `id`, which the program takes from its `next_ID`. -/
def Desc.id (e : Desc ε) : BitVec 32 := BitVec.ofNat 32 e.serial

/-- The descriptors, by number, and the chains of `eventq_pending` and `eventq_free`. `next_ID`
is `nextSerial` modulo `2 ^ 32`. -/
structure Eventq (ε : Type*) where
  desc : Nat → Desc ε
  allocated : Nat := 0
  pending : List Nat := []
  free : List Nat := []
  nextSerial : Nat := 1
  simCycle : Nat := 0

/-- Take a descriptor from the free list, or allocate one. -/
def getFree (q : Eventq ε) : Nat × Eventq ε :=
  match q.free with
  | d :: rest => (d, { q with free := rest })
  | [] => (q.allocated, { q with allocated := q.allocated + 1 })

/-- Insert a descriptor. A `cpu_execute` event goes `behind` those of its time, any other
in front of them. -/
def insertNew (behind : Bool) (when : Nat) (desc : Nat → Desc ε) (new : Nat) : List Nat → List Nat
  | [] => [new]
  | ev :: rest =>
    if EventQueue.passes behind when (desc ev).when then ev :: insertNew behind when desc new rest
    else new :: ev :: rest

/-- `__QUEUE_EVENT`. `isCpu` is the test for a callback of `cpu_execute`. -/
def queueEvent (isCpu : ε → Bool) (when : Nat) (action : ε) (q : Eventq ε) : Eventq ε :=
  let (new, q) := getFree q
  let desc := Function.update q.desc new { when, serial := q.nextSerial, action }
  { q with
    desc
    nextSerial := q.nextSerial + 1
    pending := insertNew (isCpu action) when desc new q.pending }

/-- A round of `eventq_service_events` up to the handler. The descriptor is back on the free
list before its action runs. -/
def nextEvent (q : Eventq ε) : Option (Desc ε × Eventq ε) :=
  match q.pending with
  | [] => none
  | ev :: rest =>
    some (q.desc ev, { q with
      simCycle := (q.desc ev).when
      pending := rest
      free := ev :: q.free })

section Descriptors

/-- An event with its time, as the list library sees it. -/
def stamped (e : Desc ε) : Nat × Desc ε := (e.when, e)

/-- The pending events. -/
def events (q : Eventq ε) : List (Nat × Desc ε) := q.pending.map fun d => stamped (q.desc d)

/-- No descriptor is on a list twice, or on both. -/
structure Sound (q : Eventq ε) : Prop where
  nodup : (q.pending ++ q.free).Nodup
  bound : ∀ d ∈ q.pending ++ q.free, d < q.allocated

theorem insertNew_events (behind : Bool) (desc : Nat → Desc ε) (new : Nat) (l : List Nat) :
    (insertNew behind (desc new).when desc new l).map (fun d => stamped (desc d)) =
      EventQueue.insert behind (desc new).when (desc new) (l.map fun d => stamped (desc d)) := by
  induction l with
  | nil => rfl
  | cons d l ih =>
    simp only [insertNew, List.map_cons, stamped, EventQueue.insert]
    split
    · exact congrArg _ ih
    · rfl

theorem insertNew_perm (behind : Bool) (when : Nat) (desc : Nat → Desc ε) (new : Nat)
    (l : List Nat) : (insertNew behind when desc new l).Perm (new :: l) := by
  induction l with
  | nil => exact .refl _
  | cons d l ih =>
    rw [insertNew]
    split
    · exact (ih.cons d).trans (List.Perm.swap new d l)
    · exact .refl _

/-- A descriptor that is taken is on neither list. -/
theorem getFree_spec {q : Eventq ε} (sound : Sound q) : ∃ new p, getFree q = (new, p) ∧
    new ∉ q.pending ∧ p.desc = q.desc ∧ p.pending = q.pending ∧ p.nextSerial = q.nextSerial ∧
    p.simCycle = q.simCycle ∧ (new :: (p.pending ++ p.free)).Nodup ∧
    ∀ d ∈ new :: (p.pending ++ p.free), d < p.allocated := by
  obtain ⟨nodup, bound⟩ := sound
  cases free : q.free with
  | cons d rest =>
    refine ⟨d, { q with free := rest }, by rw [getFree, free], ?_, rfl, rfl, rfl, rfl, ?_, ?_⟩
    · rw [free] at nodup
      exact fun pending => (List.nodup_append.mp nodup).2.2 d pending d List.mem_cons_self rfl
    · rw [free] at nodup
      exact List.perm_middle.nodup_iff.mp nodup
    · rw [free] at bound
      intro e he
      exact bound e (List.perm_middle.mem_iff.mpr he)
  | nil =>
    rw [free, List.append_nil] at nodup bound
    refine ⟨q.allocated, { q with allocated := q.allocated + 1 }, by rw [getFree, free],
      fun pending => Nat.lt_irrefl _ (bound _ pending), rfl, rfl, rfl, rfl, ?_, ?_⟩
    · rw [free, List.append_nil]
      exact List.nodup_cons.mpr ⟨fun pending => Nat.lt_irrefl _ (bound _ pending), nodup⟩
    · simp only [free, List.append_nil, List.mem_cons]
      rintro d (rfl | hd)
      · exact Nat.lt_succ_self _
      · exact Nat.lt_succ_of_lt (bound d hd)

/-- Queueing an event inserts it into the list of the pending events. -/
theorem queueEvent_spec {q : Eventq ε} (sound : Sound q) (isCpu : ε → Bool) (when : Nat)
    (action : ε) : Sound (queueEvent isCpu when action q) ∧
      events (queueEvent isCpu when action q) =
        EventQueue.insert (isCpu action) when ⟨when, q.nextSerial, action⟩ (events q) ∧
      (queueEvent isCpu when action q).simCycle = q.simCycle ∧
      (queueEvent isCpu when action q).nextSerial = q.nextSerial + 1 := by
  obtain ⟨new, p, taken, off, desc, pending, id, cycle, nodup, bound⟩ := getFree_spec sound
  simp only [queueEvent, taken]
  have both := (insertNew_perm (isCpu action) when
    (Function.update p.desc new ⟨when, p.nextSerial, action⟩) new p.pending).append_right p.free
  refine ⟨⟨both.nodup_iff.mpr nodup, fun d hd => bound d (both.mem_iff.mp hd)⟩, ?_, cycle, ?_⟩
  · have here : Function.update p.desc new ⟨when, p.nextSerial, action⟩ new =
        ⟨when, p.nextSerial, action⟩ := Function.update_self _ _ _
    have inserted := insertNew_events (isCpu action)
      (Function.update p.desc new ⟨when, p.nextSerial, action⟩) new p.pending
    rw [here] at inserted
    rw [events, events, inserted, id, pending, desc]
    refine congrArg _ (List.map_congr_left fun d hd => ?_)
    rw [Function.update_of_ne (fun same : d = new => off (same ▸ hd))]
  · rw [id]

theorem nextEvent_spec {q p : Eventq ε} {e : Desc ε} (sound : Sound q)
    (next : nextEvent q = some (e, p)) :
    Sound p ∧ events q = stamped e :: events p ∧ p.simCycle = e.when ∧ p.nextSerial = q.nextSerial := by
  obtain ⟨nodup, bound⟩ := sound
  rw [nextEvent] at next
  split at next
  · cases next
  · rename_i ev rest pending
    cases next
    rw [pending, List.cons_append] at nodup bound
    refine ⟨⟨List.perm_middle.nodup_iff.mpr nodup,
      fun d hd => bound d (List.perm_middle.mem_iff.mp hd)⟩, ?_, rfl, rfl⟩
    rw [events, pending]
    rfl

end Descriptors

section Service

/-- The loop with its history: all events that were queued and those that were run, from the
oldest on. -/
structure Service (ε : Type*) where
  q : Eventq ε
  queued : List (Desc ε) := []
  ran : List (Desc ε) := []

/-- A handler queues an event, or returns and the next event is run. -/
inductive Act (ε : Type*)
  | queue (when : Nat) (action : ε)
  | serve

variable (isCpu : ε → Bool)

def Service.queue (when : Nat) (action : ε) (s : Service ε) : Service ε :=
  { s with
    q := queueEvent isCpu when action s.q
    queued := s.queued ++ [⟨when, s.q.nextSerial, action⟩] }

def Service.serve (s : Service ε) : Option (Service ε) :=
  (nextEvent s.q).map fun (e, q) => { s with q, ran := s.ran ++ [e] }

/-- Events are queued for the current time or later. -/
def step (s : Service ε) : Act ε → Option (Service ε)
  | .queue when action => if s.q.simCycle ≤ when then some (s.queue isCpu when action) else none
  | .serve => s.serve

/-- No event is pending, and no descriptor allocated. -/
def start (desc : Nat → Desc ε) : Service ε where
  q := { desc }

/-- The events in the order in which they run: those that did, and the pending ones. -/
def order (s : Service ε) : List (Nat × Desc ε) := s.ran.map stamped ++ events s.q

/-- The pending events are sorted and not before the current time; every event that was
queued has run or is pending, once; and `cpu_execute` events of one time are in the order in
which they were queued. -/
structure Ordered (s : Service ε) : Prop where
  sound : Sound s.q
  past : ∀ e ∈ s.ran, e.when ≤ s.q.simCycle
  future : ∀ x ∈ events s.q, s.q.simCycle ≤ x.1
  sorted : (events s.q).Pairwise fun a b => a.1 ≤ b.1
  perm : (order s).Perm (s.queued.map stamped)
  serials : ∀ e ∈ s.queued, e.serial < s.q.nextSerial
  distinct : s.queued.Pairwise fun a b => a.serial < b.serial
  fifo : (order s).Pairwise fun a b =>
    isCpu a.2.action = true → isCpu b.2.action = true → a.1 = b.1 → a.2.serial < b.2.serial

variable {isCpu} {s t : Service ε}

theorem queue_order (sound : Sound s.q) (when : Nat) (action : ε) :
    order (s.queue isCpu when action) = s.ran.map stamped ++
      EventQueue.insert (isCpu action) when ⟨when, s.q.nextSerial, action⟩ (events s.q) :=
  congrArg _ (queueEvent_spec sound isCpu when action).2.1

theorem serve_spec (sound : Sound s.q) (h : s.serve = some t) :
    ∃ e p, nextEvent s.q = some (e, p) ∧ t = { s with q := p, ran := s.ran ++ [e] } ∧
      order t = order s := by
  obtain ⟨⟨e, p⟩, next, rfl⟩ := Option.map_eq_some_iff.mp h
  refine ⟨e, p, next, rfl, ?_⟩
  obtain ⟨-, head, -, -⟩ := nextEvent_spec sound next
  simp only [order, head, List.map_append, List.map_cons, List.map_nil, List.append_assoc,
    List.cons_append, List.nil_append]

theorem ordered_start (desc : Nat → Desc ε) : Ordered isCpu (start desc) where
  sound := ⟨List.nodup_nil, fun _ hd => nomatch hd⟩
  past := fun _ he => nomatch he
  future := fun _ hx => nomatch hx
  sorted := .nil
  perm := .refl _
  serials := fun _ he => nomatch he
  distinct := .nil
  fifo := .nil

theorem Ordered.queue (h : Ordered isCpu s) {when : Nat} (now : s.q.simCycle ≤ when) (action : ε) :
    Ordered isCpu (s.queue isCpu when action) := by
  obtain ⟨sound, pending, cycle, id⟩ := queueEvent_spec h.sound isCpu when action
  have ids : ∀ x ∈ order s, x.2.serial < s.q.nextSerial := by
    intro x hx
    obtain ⟨e, he, rfl⟩ := List.mem_map.mp (h.perm.mem_iff.mp hx)
    exact h.serials e he
  have ran : ∀ x ∈ s.ran.map stamped, x.2.serial < s.q.nextSerial :=
    fun x hx => ids x (List.mem_append_left _ hx)
  obtain ⟨firstRan, firstPending, across⟩ := List.pairwise_append.mp h.fifo
  refine ⟨sound, ?_, ?_, ?_, ?_, ?_, ?_, ?_⟩
  · intro e he
    exact cycle.symm ▸ h.past e he
  · intro x hx
    change (queueEvent isCpu when action s.q).simCycle ≤ x.1
    rw [cycle]
    rcases EventQueue.mem_insert.mp (pending ▸ hx) with rfl | hx
    · exact now
    · exact h.future x hx
  · exact pending ▸ EventQueue.sorted_insert h.sorted
  · have front := (EventQueue.insert_perm (isCpu action) when ⟨when, s.q.nextSerial, action⟩
      (events s.q)).append_left (s.ran.map stamped)
    have back := (List.perm_middle.trans (h.perm.cons _)).trans
      (List.perm_append_singleton (stamped ⟨when, s.q.nextSerial, action⟩) _).symm
    rw [queue_order h.sound]
    change List.Perm _ ((s.queued ++ [_]).map stamped)
    rw [List.map_append]
    exact front.trans back
  · intro e he
    change e.serial < (queueEvent isCpu when action s.q).nextSerial
    rw [id]
    rcases List.mem_append.mp he with he | he
    · exact Nat.lt_succ_of_lt (h.serials e he)
    · rw [List.mem_singleton.mp he]
      exact Nat.lt_succ_self _
  · refine List.pairwise_append.mpr ⟨h.distinct, List.pairwise_singleton _ _, ?_⟩
    intro e he f hf
    rw [List.mem_singleton.mp hf]
    exact h.serials e he
  · rw [queue_order h.sound]
    refine List.pairwise_append.mpr ⟨firstRan, ?_, ?_⟩
    · refine EventQueue.pairwise_insert_sorted h.sorted firstPending ?_ ?_
      · exact fun x hx _ _ _ _ => ids x (List.mem_append_right _ hx)
      · intro x hx stop cpu _ same
        simp only [EventQueue.passes, show isCpu action = true from cpu, if_true,
          decide_eq_false_iff_not] at stop
        exact absurd (Nat.le_of_eq (show when = x.1 from same).symm) stop
    · intro x hx y hy
      rcases EventQueue.mem_insert.mp hy with rfl | hy
      · exact fun _ _ _ => ran x hx
      · exact across x hx y hy

theorem Ordered.serve (h : Ordered isCpu s) (next : s.serve = some t) : Ordered isCpu t := by
  obtain ⟨e, p, moved, rfl, same⟩ := serve_spec h.sound next
  obtain ⟨sound, head, cycle, id⟩ := nextEvent_spec h.sound moved
  have first := h.future (stamped e) (head ▸ List.mem_cons_self)
  obtain ⟨later, sorted⟩ := List.pairwise_cons.mp (head ▸ h.sorted)
  refine ⟨sound, ?_, ?_, sorted, same ▸ h.perm, ?_, h.distinct, same ▸ h.fifo⟩
  · intro f hf
    change f.when ≤ p.simCycle
    rw [cycle]
    rcases List.mem_append.mp hf with hf | hf
    · exact Nat.le_trans (h.past f hf) first
    · exact Nat.le_of_eq (congrArg Desc.when (List.mem_singleton.mp hf))
  · intro x hx
    change p.simCycle ≤ x.1
    rw [cycle]
    exact later x hx
  · intro f hf
    change f.serial < p.nextSerial
    rw [id]
    exact h.serials f hf

theorem Ordered.step (h : Ordered isCpu s) (a : Act ε) (moved : step isCpu s a = some t) :
    Ordered isCpu t := by
  cases a with
  | queue when action =>
    obtain ⟨now, rfl⟩ := Option.ite_none_right_eq_some.mp moved |>.imp id Option.some.inj
    exact h.queue now action
  | serve => exact h.serve moved

/-- What later steps keep: the time does not go back, and what is run stays run and what has
an order keeps it. -/
structure Later (s t : Service ε) : Prop where
  time : s.q.simCycle ≤ t.q.simCycle
  order : (order s).Sublist (order t)
  ran : s.ran <+: t.ran

theorem Later.trans {u : Service ε} (h : Later s t) (k : Later t u) : Later s u :=
  ⟨Nat.le_trans h.time k.time, h.order.trans k.order, h.ran.trans k.ran⟩

theorem later_step (h : Ordered isCpu s) (a : Act ε) (moved : step isCpu s a = some t) :
    Later s t := by
  cases a with
  | queue when action =>
    obtain ⟨-, rfl⟩ := Option.ite_none_right_eq_some.mp moved |>.imp id Option.some.inj
    refine ⟨Nat.le_of_eq (queueEvent_spec h.sound isCpu when action).2.2.1.symm, ?_,
      List.prefix_refl _⟩
    rw [queue_order h.sound]
    exact (EventQueue.sublist_insert _ _ _ _).append_left _
  | serve =>
    obtain ⟨e, p, next, rfl, same⟩ := serve_spec h.sound moved
    obtain ⟨-, head, cycle, -⟩ := nextEvent_spec h.sound next
    refine ⟨?_, same ▸ List.Sublist.refl _, List.prefix_append _ _⟩
    change s.q.simCycle ≤ p.simCycle
    rw [cycle]
    exact h.future (stamped e) (head ▸ List.mem_cons_self)

theorem ordered_run {acts : List (Act ε)} (h : Ordered isCpu s)
    (ran : acts.foldlM (step isCpu) s = some t) : Ordered isCpu t ∧ Later s t := by
  refine Runs.invariant (I := fun u => Ordered isCpu u ∧ Later s u) ?_
    ⟨h, Nat.le_refl _, List.Sublist.refl _, List.prefix_refl _⟩ ran
  rintro u a w ⟨ordered, later⟩ moved
  exact ⟨ordered.step a moved, later.trans (later_step ordered a moved)⟩

/-- An event other than `cpu_execute` is put in front of all pending events of its time. -/
theorem queue_front (h : Ordered isCpu s) {when : Nat} {action : ε} (other : isCpu action = false)
    {x : Nat × Desc ε} (hx : x ∈ events s.q) (same : x.1 = when) :
    [stamped ⟨when, s.q.nextSerial, action⟩, x].Sublist (order (s.queue isCpu when action)) := by
  obtain ⟨l, r, split, inserted, before, -⟩ := EventQueue.insert_split_sorted
    (isCpu action) when ⟨when, s.q.nextSerial, action⟩ h.sorted
  have behind : x ∈ r := by
    rcases List.mem_append.mp (split ▸ hx) with hl | hr
    · have past := before x hl
      simp only [EventQueue.passes, other, Bool.false_eq_true, if_false, same, Nat.lt_irrefl,
        decide_false] at past
    · exact hr
  rw [queue_order h.sound, inserted]
  exact ((List.singleton_sublist.mpr behind).cons_cons _).trans
    ((List.sublist_append_right l _).trans (List.sublist_append_right _ _))

end Service

section Rotation

/-- The callbacks of `cpu_execute` among all events, by the number of their core. -/
structure CpuEvents (ε : Type*) where
  cpu : ε → Option Nat
  execute : Nat → ε
  cpu_execute : ∀ k, cpu (execute k) = some k

def CpuEvents.isCpu (C : CpuEvents ε) (a : ε) : Bool := (C.cpu a).isSome

/-- The loop with the core that is in `cpu_execute`, and the cores that returned from it
without queueing themselves again. -/
structure Rota (ε : Type*) where
  service : Service ε
  current : Option Nat := none
  stopped : List Nat := []

inductive RotaAct (ε : Type*)
  | queue (when : Nat) (action : ε)
  | requeue
  | stop
  | serve

variable (C : CpuEvents ε)

/-- A core in `cpu_execute` queues itself once more, `period` later, or stops. All other
events that are queued are not of `cpu_execute`. -/
def rotaStep (period : Nat) (r : Rota ε) : RotaAct ε → Option (Rota ε)
  | .queue when action =>
    if C.isCpu action = false ∧ r.service.q.simCycle ≤ when then
      some { r with service := r.service.queue C.isCpu when action }
    else none
  | .requeue => r.current.map fun k => { r with
      service := r.service.queue C.isCpu (r.service.q.simCycle + period) (C.execute k)
      current := none }
  | .stop => r.current.map fun k => { r with current := none, stopped := k :: r.stopped }
  | .serve =>
    if r.current.isSome then none
    else (nextEvent r.service.q).map fun (e, q) => { r with
      service := { r.service with q, ran := r.service.ran ++ [e] }
      current := C.cpu e.action }

/-- All cores are queued for time 0, in the order of their numbers. -/
def rotaStart (desc : Nat → Desc ε) (cores : Nat) : Rota ε where
  service := (List.range cores).foldl (fun s k => s.queue C.isCpu 0 (C.execute k)) (start desc)

/-- The time and the core of an activation. -/
def turn (x : Nat × Desc ε) : Option (Nat × Nat) := (C.cpu x.2.action).map fun k => (x.1, k)

/-- The activations, in the order in which they run. -/
def turns (s : Service ε) : List (Nat × Nat) := (order s).filterMap (turn C)

/-- The activations that have run. -/
def ranTurns (s : Service ε) : List (Nat × Nat) := (s.ran.map stamped).filterMap (turn C)

/-- The cores that are activated at a time. -/
def lap (s : Service ε) (time : Nat) : List Nat :=
  (turns C s).filterMap fun x => if x.1 = time then some x.2 else none

/-- The activations behind the first ones are those of the cores that queued themselves
again, in the order in which they ran. -/
structure Rotating (period cores : Nat) (r : Rota ε) : Prop where
  ordered : Ordered C.isCpu r.service
  laps : ∃ done again, turns C r.service = (List.range cores).map (fun k => (0, k)) ++ again ∧
    ranTurns C r.service = done ++ (r.current.map fun k => (r.service.q.simCycle, k)).toList ∧
    again.Sublist (done.map fun x => (x.1 + period, x.2)) ∧
    ∀ x ∈ done, x.2 ∉ r.stopped → (x.1 + period, x.2) ∈ again
  multiple : ∀ x ∈ turns C r.service, period ∣ x.1

variable {C} {period cores : Nat} {r r' : Rota ε} {s : Service ε}

theorem ranTurns_front (s : Service ε) : ranTurns C s <+: turns C s := by
  rw [turns, order, List.filterMap_append]
  exact List.prefix_append _ _

theorem ranTurns_past (h : Ordered C.isCpu s) {x : Nat × Nat} (hx : x ∈ ranTurns C s) :
    x.1 ≤ s.q.simCycle := by
  obtain ⟨y, hy, turn⟩ := List.mem_filterMap.mp hx
  obtain ⟨e, he, rfl⟩ := List.mem_map.mp hy
  obtain ⟨k, -, rfl⟩ := Option.map_eq_some_iff.mp turn
  exact h.past e he

/-- Queueing another event leaves the activations as they are. -/
theorem turns_queue_other (h : Ordered C.isCpu s) (when : Nat) {action : ε}
    (other : C.isCpu action = false) : turns C (s.queue C.isCpu when action) = turns C s := by
  have none : turn C (when, ⟨when, s.q.nextSerial, action⟩) = none := by
    have no : C.cpu action = Option.none := by simpa [CpuEvents.isCpu] using other
    rw [turn, no]
    rfl
  rw [turns, turns, queue_order h.sound, order, List.filterMap_append, List.filterMap_append,
    EventQueue.filterMap_insert_none _ none]

/-- An activation that is queued is the last, unless one for a later time is pending. -/
theorem turns_queue_cpu (h : Ordered C.isCpu s) (when k : Nat)
    (last : ∀ x ∈ turns C s, x.1 ≤ when) :
    turns C (s.queue C.isCpu when (C.execute k)) = turns C s ++ [(when, k)] := by
  have cpu : C.isCpu (C.execute k) = true := by rw [CpuEvents.isCpu, C.cpu_execute]; rfl
  obtain ⟨l, q, split, inserted, -, after⟩ := EventQueue.insert_split_sorted
    (C.isCpu (C.execute k)) when ⟨when, s.q.nextSerial, C.execute k⟩ h.sorted
  have none : q.filterMap (turn C) = [] := by
    refine List.filterMap_eq_nil_iff.mpr fun x hx => ?_
    by_contra some
    obtain ⟨y, hy⟩ := Option.ne_none_iff_exists'.mp some
    have early := last y (List.mem_filterMap.mpr
      ⟨x, List.mem_append_right _ (split ▸ List.mem_append_right _ hx), hy⟩)
    obtain ⟨m, -, rfl⟩ := Option.map_eq_some_iff.mp hy
    have late := after x hx
    simp only [EventQueue.passes, cpu, if_true, decide_eq_false_iff_not] at late
    exact late early
  have new : turn C (when, ⟨when, s.q.nextSerial, C.execute k⟩) = some (when, k) := by
    rw [turn, C.cpu_execute]
    rfl
  rw [turns, turns, queue_order h.sound, order, inserted, split]
  simp only [List.filterMap_append, List.filterMap_cons_some new, none, List.append_nil,
    List.append_assoc]

theorem Rotating.past (h : Rotating C period cores r) {x : Nat × Nat}
    (hx : x ∈ turns C r.service) : x.1 ≤ r.service.q.simCycle + period := by
  obtain ⟨done, again, split, ran, sub, -⟩ := h.laps
  rw [split] at hx
  rcases List.mem_append.mp hx with hx | hx
  · obtain ⟨k, -, rfl⟩ := List.mem_map.mp hx
    exact Nat.zero_le _
  · obtain ⟨y, hy, rfl⟩ := List.mem_map.mp (sub.subset hx)
    exact Nat.add_le_add_right
      (ranTurns_past h.ordered (ran ▸ List.mem_append_left _ hy)) period

theorem Rotating.queue (h : Rotating C period cores r) {when : Nat} {action : ε}
    (other : C.isCpu action = false) (now : r.service.q.simCycle ≤ when) :
    Rotating C period cores { r with service := r.service.queue C.isCpu when action } := by
  have same := turns_queue_other h.ordered when other
  have cycle := (queueEvent_spec h.ordered.sound C.isCpu when action).2.2.1
  obtain ⟨done, again, split, ran, rest⟩ := h.laps
  refine ⟨h.ordered.queue now action, ⟨done, again, same.trans split, ?_, rest⟩, ?_⟩
  · change ranTurns C r.service =
      done ++ (r.current.map fun k => ((queueEvent C.isCpu when action r.service.q).simCycle, k)).toList
    rw [cycle, ran]
  · exact fun x hx => h.multiple x (same ▸ hx)

theorem Rotating.requeue (h : Rotating C period cores r) {k : Nat} (here : r.current = some k) :
    Rotating C period cores { r with
      service := r.service.queue C.isCpu (r.service.q.simCycle + period) (C.execute k)
      current := none } := by
  have new := turns_queue_cpu h.ordered _ k fun x hx => h.past hx
  obtain ⟨done, again, split, ran, sub, kept⟩ := h.laps
  rw [here] at ran
  have now : (r.service.q.simCycle, k) ∈ turns C r.service :=
    (ranTurns_front r.service).subset (ran ▸ List.mem_append_right _ (List.mem_singleton_self _))
  refine ⟨h.ordered.queue (Nat.le_add_right _ _) _,
    ⟨done ++ [(r.service.q.simCycle, k)], again ++ [(r.service.q.simCycle + period, k)], ?_, ?_,
      ?_, ?_⟩, ?_⟩
  · rw [new, split, List.append_assoc]
  · exact ran.trans (List.append_nil _).symm
  · rw [List.map_append]
    exact sub.append (List.Sublist.refl _)
  · intro x hx running
    rcases List.mem_append.mp hx with hx | hx
    · exact List.mem_append_left _ (kept x hx running)
    · rw [List.mem_singleton.mp hx]
      exact List.mem_append_right _ (List.mem_singleton_self _)
  · intro x hx
    rw [new] at hx
    rcases List.mem_append.mp hx with hx | hx
    · exact h.multiple x hx
    · rw [List.mem_singleton.mp hx]
      exact (Nat.dvd_add_right (h.multiple _ now)).mpr (Nat.dvd_refl period)

theorem Rotating.stop (h : Rotating C period cores r) {k : Nat} (here : r.current = some k) :
    Rotating C period cores { r with current := none, stopped := k :: r.stopped } := by
  obtain ⟨done, again, split, ran, sub, kept⟩ := h.laps
  rw [here] at ran
  refine ⟨h.ordered, ⟨done ++ [(r.service.q.simCycle, k)], again, split,
    ran.trans (List.append_nil _).symm, ?_, ?_⟩, h.multiple⟩
  · rw [List.map_append]
    exact sub.trans (List.sublist_append_left _ _)
  · intro x hx running
    obtain ⟨other, running⟩ := not_or.mp (List.mem_cons.not.mp running)
    rcases List.mem_append.mp hx with hx | hx
    · exact kept x hx running
    · rw [List.mem_singleton.mp hx] at other
      exact absurd rfl other

theorem Rotating.serve (h : Rotating C period cores r) (none : r.current = none) {e : Desc ε}
    {q : Eventq ε} (next : nextEvent r.service.q = some (e, q)) :
    Rotating C period cores { r with
      service := { r.service with q, ran := r.service.ran ++ [e] }
      current := C.cpu e.action } := by
  have moved : r.service.serve = some { r.service with q, ran := r.service.ran ++ [e] } := by
    rw [Service.serve, next]
    rfl
  obtain ⟨e', q', next', eq, same⟩ := serve_spec h.ordered.sound moved
  obtain ⟨-, -, cycle, -⟩ := nextEvent_spec h.ordered.sound next
  have turns : turns C { r.service with q, ran := r.service.ran ++ [e] } = turns C r.service :=
    congrArg (List.filterMap (turn C)) same
  obtain ⟨done, again, split, ran, rest⟩ := h.laps
  rw [none, Option.map_none, Option.toList_none, List.append_nil] at ran
  refine ⟨h.ordered.serve moved, ⟨done, again, turns.trans split, ?_, rest⟩, ?_⟩
  · have all : ranTurns C { r.service with q, ran := r.service.ran ++ [e] } =
        ranTurns C r.service ++ [stamped e].filterMap (turn C) := by
      rw [ranTurns, List.map_append, List.filterMap_append]
      rfl
    rw [all, ran]
    refine congrArg _ ?_
    change _ = ((C.cpu e.action).map fun k => (q.simCycle, k)).toList
    rw [cycle]
    cases core : C.cpu e.action with
    | none => simp [turn, stamped, core]
    | some k => simp [turn, stamped, core]
  · exact fun x hx => h.multiple x (turns ▸ hx)

theorem Rotating.step (h : Rotating C period cores r) (a : RotaAct ε)
    (moved : rotaStep C period r a = some r') : Rotating C period cores r' := by
  cases a with
  | queue when action =>
    obtain ⟨⟨other, now⟩, eq⟩ := Option.ite_none_right_eq_some.mp moved
    cases eq
    exact h.queue other now
  | requeue =>
    obtain ⟨k, here, rfl⟩ := Option.map_eq_some_iff.mp moved
    exact h.requeue here
  | stop =>
    obtain ⟨k, here, rfl⟩ := Option.map_eq_some_iff.mp moved
    exact h.stop here
  | serve =>
    obtain ⟨none, moved⟩ := Option.ite_none_left_eq_some.mp moved
    obtain ⟨⟨e, q⟩, next, rfl⟩ := Option.map_eq_some_iff.mp moved
    exact h.serve (Option.not_isSome_iff_eq_none.mp none) next

theorem rotaStart_spec (C : CpuEvents ε) (desc : Nat → Desc ε) (cores : Nat) :
    Ordered C.isCpu (rotaStart C desc cores).service ∧
      turns C (rotaStart C desc cores).service = (List.range cores).map (fun k => (0, k)) ∧
      (rotaStart C desc cores).service.ran = [] ∧
      (rotaStart C desc cores).service.q.simCycle = 0 ∧
      ∃ acts : List (Act ε),
        acts.foldlM (step C.isCpu) (start desc) = some (rotaStart C desc cores).service := by
  induction cores with
  | zero => exact ⟨ordered_start desc, rfl, rfl, rfl, [], rfl⟩
  | succ n ih =>
    obtain ⟨ordered, turned, ran, cycle, acts, runs⟩ := ih
    have next : (rotaStart C desc (n + 1)).service =
        (rotaStart C desc n).service.queue C.isCpu 0 (C.execute n) := by
      simp only [rotaStart, List.range_succ, List.foldl_append, List.foldl_cons, List.foldl_nil]
    have now : (rotaStart C desc n).service.q.simCycle ≤ 0 := Nat.le_of_eq cycle
    rw [next]
    refine ⟨ordered.queue now _, ?_, ran, ?_, acts ++ [.queue 0 (C.execute n)], ?_⟩
    · rw [turns_queue_cpu ordered 0 n, turned, List.range_succ, List.map_append]
      · rfl
      · intro x hx
        obtain ⟨k, -, rfl⟩ := List.mem_map.mp (turned ▸ hx)
        exact Nat.le_refl 0
    · exact ((queueEvent_spec ordered.sound C.isCpu 0 (C.execute n)).2.2.1).trans cycle
    · exact Runs.run_append.mpr ⟨_, runs, Runs.run_cons.mpr ⟨_, if_pos now, rfl⟩⟩

theorem rotating_start (desc : Nat → Desc ε) : Rotating C period cores (rotaStart C desc cores) := by
  obtain ⟨ordered, turned, ran, -, -⟩ := rotaStart_spec C desc cores
  refine ⟨ordered, ⟨[], [], ?_, ?_, List.Sublist.refl _, fun _ hx => nomatch hx⟩, ?_⟩
  · exact turned.trans (List.append_nil _).symm
  · rw [ranTurns, ran]
    rfl
  · intro x hx
    obtain ⟨k, -, rfl⟩ := List.mem_map.mp (turned ▸ hx)
    exact Nat.dvd_zero period

/-- A step of the rotation is a step of the loop, or none. -/
theorem rota_service (a : RotaAct ε) (moved : rotaStep C period r a = some r') :
    ∃ acts : List (Act ε), acts.foldlM (step C.isCpu) r.service = some r'.service := by
  cases a with
  | queue when action =>
    obtain ⟨⟨-, now⟩, eq⟩ := Option.ite_none_right_eq_some.mp moved
    cases eq
    exact ⟨[.queue when action], Runs.run_cons.mpr ⟨_, if_pos now, rfl⟩⟩
  | requeue =>
    obtain ⟨k, -, rfl⟩ := Option.map_eq_some_iff.mp moved
    exact ⟨[.queue _ (C.execute k)],
      Runs.run_cons.mpr ⟨_, if_pos (Nat.le_add_right _ period), rfl⟩⟩
  | stop =>
    obtain ⟨k, -, rfl⟩ := Option.map_eq_some_iff.mp moved
    exact ⟨[], rfl⟩
  | serve =>
    obtain ⟨-, moved⟩ := Option.ite_none_left_eq_some.mp moved
    obtain ⟨⟨e, q⟩, next, rfl⟩ := Option.map_eq_some_iff.mp moved
    refine ⟨[.serve], Runs.run_cons.mpr ⟨_, ?_, rfl⟩⟩
    rw [step, Service.serve, next]
    rfl

theorem filterMap_shift (l : List (Nat × Nat)) (period time : Nat) :
    (l.map fun x => (x.1 + period, x.2)).filterMap
        (fun x => if x.1 = time + period then some x.2 else none) =
      l.filterMap fun x => if x.1 = time then some x.2 else none := by
  rw [List.filterMap_map]
  refine List.filterMap_congr fun x _ => ?_
  simp only [Function.comp, Nat.add_right_cancel_iff]

theorem filterMap_first (cores : Nat) {time : Nat} (later : 0 < time) :
    ((List.range cores).map fun k => (0, k)).filterMap
      (fun x : Nat × Nat => if x.1 = time then some x.2 else none) = [] := by
  refine List.filterMap_eq_nil_iff.mpr fun x hx => ?_
  obtain ⟨k, -, rfl⟩ := List.mem_map.mp hx
  exact if_neg (Nat.ne_of_lt later)

/-- The first lap is that of all cores. -/
theorem Rotating.first_lap (h : Rotating C period cores r) (positive : 0 < period) :
    lap C r.service 0 = List.range cores := by
  obtain ⟨done, again, split, -, sub, -⟩ := h.laps
  have none : again.filterMap (fun x => if x.1 = 0 then some x.2 else Option.none) = [] := by
    refine List.filterMap_eq_nil_iff.mpr fun x hx => ?_
    obtain ⟨y, -, rfl⟩ := List.mem_map.mp (sub.subset hx)
    exact if_neg (by omega)
  rw [lap, split, List.filterMap_append, none, List.append_nil, List.filterMap_map]
  exact List.filterMap_some

/-- The cores of a lap are among those of the lap before, in the same order. -/
theorem Rotating.next_lap (h : Rotating C period cores r) (positive : 0 < period) (time : Nat) :
    (lap C r.service (time + period)).Sublist (lap C r.service time) := by
  obtain ⟨done, again, split, ran, sub, -⟩ := h.laps
  have before : done.Sublist (turns C r.service) :=
    (ran ▸ List.sublist_append_left _ _ : done.Sublist (ranTurns C r.service)).trans
      (ranTurns_front r.service).sublist
  have shifted := sub.filterMap fun x => if x.1 = time + period then some x.2 else none
  rw [filterMap_shift] at shifted
  have whole : lap C r.service (time + period) =
      again.filterMap fun x => if x.1 = time + period then some x.2 else none := by
    rw [lap, split, List.filterMap_append, filterMap_first cores (by omega), List.nil_append]
  exact whole ▸ shifted.trans (before.filterMap _)

/-- A core that has run and goes on is in the next lap. -/
theorem Rotating.goes_on (h : Rotating C period cores r) {time k : Nat}
    (ran : (time, k) ∈ ranTurns C r.service) (running : k ∉ r.stopped)
    (returned : r.current ≠ some k) : k ∈ lap C r.service (time + period) := by
  obtain ⟨done, again, split, all, -, kept⟩ := h.laps
  have here : (time, k) ∈ done := by
    rcases List.mem_append.mp (all ▸ ran) with done | current
    · exact done
    · obtain ⟨m, core, same⟩ := Option.map_eq_some_iff.mp (Option.mem_toList.mp current)
      cases same
      exact absurd core returned
  refine List.mem_filterMap.mpr ⟨(time + period, k), ?_, if_pos rfl⟩
  rw [split]
  exact List.mem_append_right _ (kept _ here running)

/-- The order of the events. In every state of the loop the pending events are sorted, all
that was queued has run or is pending, once, and `cpu_execute` events of one time run first-in
first-out; from there the time never decreases, what has an order keeps it, and another event
runs before all events of its time that are pending when it is queued. Cores that queue
themselves again with one period run in laps: each goes on in the next, in the same order. -/
theorem event_order (C : CpuEvents ε) (desc : Nat → Desc ε) :
    (∀ (acts : List (Act ε)) s, acts.foldlM (step C.isCpu) (start desc) = some s →
      Ordered C.isCpu s ∧
      (∀ (later : List (Act ε)) t, later.foldlM (step C.isCpu) s = some t → Later s t) ∧
      ∀ when action, C.isCpu action = false → s.q.simCycle ≤ when →
        ∀ x ∈ events s.q, x.1 = when → ∀ (later : List (Act ε)) t,
          later.foldlM (step C.isCpu) (s.queue C.isCpu when action) = some t →
            [stamped ⟨when, s.q.nextSerial, action⟩, x].Sublist (order t)) ∧
    ∀ (period cores : Nat) (acts : List (RotaAct ε)) r, 0 < period →
      acts.foldlM (rotaStep C period) (rotaStart C desc cores) = some r →
      (∃ runs : List (Act ε), runs.foldlM (step C.isCpu) (start desc) = some r.service) ∧
      (∀ x ∈ turns C r.service, period ∣ x.1) ∧ lap C r.service 0 = List.range cores ∧
      (∀ time, (lap C r.service (time + period)).Sublist (lap C r.service time)) ∧
      ∀ time k, (time, k) ∈ ranTurns C r.service → k ∉ r.stopped → r.current ≠ some k →
        k ∈ lap C r.service (time + period) := by
  constructor
  · intro acts s ran
    have ordered := (ordered_run (ordered_start desc) ran).1
    refine ⟨ordered, fun later t more => (ordered_run ordered more).2, ?_⟩
    intro when action other now x hx same later t more
    exact (queue_front ordered other hx same).trans
      (ordered_run (ordered.queue now action) more).2.order
  · intro period cores acts r positive ran
    have rotating := Runs.invariant (I := Rotating C period cores)
      (fun s a t h moved => h.step a moved) (rotating_start desc) ran
    have runs := Runs.invariant
      (I := fun r => ∃ runs : List (Act ε), runs.foldlM (step C.isCpu) (start desc) = some r.service)
      (fun s a t h moved => by
        obtain ⟨first, now⟩ := h
        obtain ⟨rest, after⟩ := rota_service a moved
        exact ⟨first ++ rest, Runs.run_append.mpr ⟨_, now, after⟩⟩)
      (rotaStart_spec C desc cores).2.2.2.2 ran
    exact ⟨runs, rotating.multiple, rotating.first_lap positive, rotating.next_lap positive,
      fun time k => rotating.goes_on⟩

/-- Events that are either of `cpu_execute` or of another kind. -/
def sampleEvents : CpuEvents (Option Nat) where
  cpu := id
  execute := some
  cpu_execute := fun _ => rfl

def blank : Nat → Desc (Option Nat) := fun _ => ⟨0, 0, none⟩

/-- Core 0 is queued for time 0, and then another event is: it runs first. Two cores queue
themselves, the first returns: it is in the next lap. -/
theorem event_order_sample :
    (∃ s t, [Act.queue 0 (some 0)].foldlM (step sampleEvents.isCpu) (start blank) = some s ∧
      [Act.serve].foldlM (step sampleEvents.isCpu) (s.queue sampleEvents.isCpu 0 none) = some t ∧
      [stamped ⟨0, 2, none⟩, stamped ⟨0, 1, some 0⟩].Sublist (order t)) ∧
    ∃ r, [RotaAct.serve, .requeue, .serve].foldlM (rotaStep sampleEvents 1)
        (rotaStart sampleEvents blank 2) = some r ∧ 0 ∈ lap sampleEvents r.service 1 := by
  obtain ⟨loop, rotation⟩ := event_order sampleEvents blank
  constructor
  · refine ⟨_, _, rfl, rfl, ?_⟩
    exact (loop [.queue 0 (some 0)] _ rfl).2.2 0 none rfl (Nat.le_refl 0) (stamped ⟨0, 1, some 0⟩)
      (.head _) rfl [.serve] _ rfl
  · refine ⟨_, rfl, ?_⟩
    exact (rotation 1 2 [.serve, .requeue, .serve] _ Nat.one_pos rfl).2.2.2.2 0 0 (.head _)
      (by decide) (by decide)

end Rotation

end Godson.Events

import Godson.Panics

/-! The stages of a cycle. When they run in the order of the main loop, each memory operation has one
event at most, it is delivered in the cycle behind the one that scheduled it, and no stage behind
`decode_stage` fails while the pool has links. -/
namespace Godson.Backend

open Mips

variable {cfg : BackendConfig} {s t u : Backend} {roq done kept : List Nat} {d limit : Nat}

/-- What the events of an instruction and its choice by a unit depend on. -/
structure SameJob (d e : Descript) : Prop where
  mem : e.mem = d.mem
  issued : e.issued = d.issued
  completed : d.mem = true → e.completed = d.completed
  tag : e.tag = d.tag

/-- The events, the choices of the units and the instructions `kept` stay, and the pool has
fewer links by `taken` at most. -/
structure Keeps (taken : Nat) (kept : List Nat) (s t : Backend) : Prop where
  event : t.eventQueue = s.eventQueue
  chosen : t.nextIssueItem = s.nextIssueItem
  clock : t.simCycle = s.simCycle
  pool : s.poolSize ≤ t.poolSize + taken
  job : ∀ d ∈ kept, SameJob (s.desc d) (t.desc d)

/-- The events of the memory operations: one at most for each, none when it is completed, and none
behind the cycle `limit`. -/
structure Paced (limit : Nat) (s : Backend) (roq : List Nat) : Prop where
  once : ∀ d ∈ roq, (s.desc d).mem = true →
    s.eventQueue.countP (s.marks d) ≤ if (s.desc d).completed then 0 else 1
  soon : ∀ d ∈ roq, (s.desc d).mem = true → ∀ x ∈ s.eventQueue, s.marks d x = true → x.1 ≤ limit
  sorted : s.eventQueue.Pairwise fun x y => x.1 ≤ y.1

/-- No memory operation has an event. -/
def Quiet (s : Backend) (roq : List Nat) : Prop :=
  ∀ d ∈ roq, (s.desc d).mem = true → s.eventQueue.countP (s.marks d) = 0

/-- An operation that stands in address calculation keeps the memory unit busy. -/
def Ported (s : Backend) : Prop := s.lsqIssuei = none ∨ s.unitBusy 2 ≠ 0

/-- The instruction that a unit has chosen is not issued. -/
def Undone (s : Backend) (roq : List Nat) (fu : Nat) : Prop :=
  ∀ l, s.nextIssueItem fu = some l → s.rslinkValid l = true → l.rs ∈ roq →
    (s.desc l.rs).issued = false

section Clock

theorem simCycle_wakeOne {x : Nat × RsLink} (e : s.wakeOne x = some t) :
    t.simCycle = s.simCycle := by
  rcases wakeOne_some e with ⟨-, rfl⟩ | ⟨-, -, ⟨-, rfl⟩ | ⟨-, u, entered, rfl⟩⟩
  · rfl
  · rfl
  · obtain ⟨id, pool, -, rfl⟩ := readyqEnqueue_some entered
    rfl

theorem simCycle_clearLevels (rs out name n level : Nat) (s : Backend) :
    (s.clearLevels rs out name n level).simCycle = s.simCycle := by
  induction n generalizing level s with
  | zero => rfl
  | succ n ih =>
    rw [clearLevels]
    split
    · exact ih _ _
    · rfl

theorem simCycle_broadcast {rs out : Nat} (e : s.broadcast rs out = some t) :
    t.simCycle = s.simCycle := by
  have cleared (out : Nat) (u : Backend) : (updateOutput rs u out).simCycle = u.simCycle := by
    simp only [updateOutput]
    split
    · rfl
    · exact simCycle_clearLevels ..
  have woken {l : List (Nat × RsLink)} {u v : Backend} (e : l.foldlM wakeOne u = some v) :
      v.simCycle = u.simCycle := by
    induction l generalizing u with
    | nil =>
      cases e
      rfl
    | cons x l ih =>
      obtain ⟨w, first, e⟩ := Option.bind_eq_some_iff.mp e
      exact (ih e).trans (simCycle_wakeOne first)
  rcases broadcast_some e with ⟨-, rfl⟩ | ⟨-, u, all, rfl⟩
  · rfl
  · exact (woken all).trans ((cleared 1 _).trans (cleared 0 s))

theorem simCycle_markSlot {rs : Nat} (e : s.markSlot rs = some t) : t.simCycle = s.simCycle := by
  simp only [markSlot] at e
  split at e
  · cases e
    rfl
  · split at e
    · cases e
    · cases e
      rfl

theorem simCycle_enterSpec {o : Outcome} {rs : Nat} (e : s.enterSpec cfg o rs = some t) :
    t.simCycle = s.simCycle := by
  have level {u v : Backend} (e : u.enterLevel cfg = some v) : v.simCycle = u.simCycle := by
    rw [enterLevel] at e
    split_ifs at e
    cases e
    rfl
  simp only [enterSpec] at e
  split_ifs at e
  · obtain ⟨u, entered, rfl⟩ := Option.map_eq_some_iff.mp e
    have first : u.simCycle = (s.modDesc rs _).simCycle := level entered
    exact first
  · have first : t.simCycle = ((s.modDesc rs _).modDesc rs _).simCycle := level e
    exact first
  · cases e
    rfl
  · cases e
    rfl

theorem simCycle_redirect (o : Outcome) (rs : Nat) (s : Backend) :
    (s.redirect o rs).simCycle = s.simCycle := by
  simp only [redirect]
  split
  · rw [foldl_returnToFreeList]
  · split <;> rfl

theorem simCycle_rename {rs : Nat} (e : s.rename rs = some t) : t.simCycle = s.simCycle := by
  have link {u v : Backend} {num name : Nat} (e : u.roqLinkIdep rs num name = some v) :
      v.simCycle = u.simCycle := by
    rcases roqLinkIdep_some e with ⟨-, rfl⟩ | ⟨p, out, id, pool, -, -, -, rfl⟩
    · rfl
    · rfl
  have install (num name : Nat) (u : Backend) :
      (u.roqInstallOdep rs num name).simCycle = u.simCycle := by
    simp only [Backend.roqInstallOdep]
    split <;> rfl
  simp only [rename] at e
  obtain ⟨u₁, first, e⟩ := Option.bind_eq_some_iff.mp e
  obtain ⟨u₂, second, e⟩ := Option.bind_eq_some_iff.mp e
  obtain ⟨u₃, third, rfl⟩ := Option.map_eq_some_iff.mp e
  rw [install, install, link third, link second, link first]
  rfl

theorem simCycle_decodeInst {o : Nat → Outcome} {rest : List Nat} {more : Bool}
    (queue : s.fetchData = d :: rest) (e : s.decodeInst cfg o = some (t, more)) :
    t.simCycle = s.simCycle := by
  simp only [Backend.decodeInst, queue] at e
  obtain ⟨u, marked, e⟩ := Option.bind_eq_some_iff.mp e
  have start := simCycle_markSlot marked
  split_ifs at e
  · cases e
    exact start
  · obtain ⟨v, decoded, same⟩ := Option.map_eq_some_iff.mp e
    cases same
    simp only [decodeNext] at decoded
    obtain ⟨w, named, decoded⟩ := Option.bind_eq_some_iff.mp decoded
    obtain ⟨x, entered, rfl⟩ := Option.map_eq_some_iff.mp decoded
    have branch : (if (w.desc d).ctrl = true then { w with lastIsBranch := true }
        else w).simCycle = w.simCycle := by
      split <;> rfl
    have behind : x.simCycle = w.simCycle :=
      (simCycle_enterSpec entered).trans ((simCycle_redirect ..).trans branch)
    exact behind.trans ((simCycle_rename named).trans start)

theorem simCycle_deliver {l : RsLink} {rest : List (Nat × RsLink)}
    (e : s.deliver l rest = some t) : t.simCycle = s.simCycle := by
  simp only [Backend.deliver] at e
  split at e
  · obtain ⟨-, u, first, second⟩ := finish_some e
    have clock := simCycle_broadcast first
    exact (simCycle_broadcast second).trans clock
  · cases e
    rfl

theorem simCycle_dcache (a : LsqAnswer) (s : Backend) : (s.dcache a).simCycle = s.simCycle := by
  simp only [Backend.dcache]
  split <;> split <;> rfl

end Clock

namespace Keeps

theorem refl (kept : List Nat) (s : Backend) : Keeps 0 kept s s :=
  ⟨rfl, rfl, rfl, Nat.le_refl _, fun _ _ => ⟨rfl, rfl, fun _ => rfl, rfl⟩⟩

theorem trans {less : List Nat} {m n : Nat} (h : Keeps m kept s t) (h' : Keeps n less t u)
    (sub : less ⊆ kept) : Keeps (m + n) less s u where
  event := h'.event.trans h.event
  chosen := h'.chosen.trans h.chosen
  clock := h'.clock.trans h.clock
  pool := by
    have first := h.pool
    have second := h'.pool
    omega
  job d hd := by
    have first := h.job d (sub hd)
    have second := h'.job d hd
    exact ⟨second.mem.trans first.mem, second.issued.trans first.issued,
      fun mem => (second.completed (first.mem.trans mem)).trans (first.completed mem),
      second.tag.trans first.tag⟩

theorem paced {n : Nat} (k : Keeps n kept s t) (h : Paced limit s roq) (sub : kept ⊆ roq) :
    Paced limit t kept where
  once d hd mem := by
    have job := k.job d hd
    have before := job.mem.symm.trans mem
    rw [k.event, marks_congr job.tag, job.completed before]
    exact h.once d (sub hd) before
  soon d hd mem x hx mine := by
    have job := k.job d hd
    rw [k.event] at hx
    rw [marks_congr job.tag] at mine
    exact h.soon d (sub hd) (job.mem.symm.trans mem) x hx mine
  sorted := k.event ▸ h.sorted

theorem undone {n fu : Nat} (k : Keeps n kept s t) (h : s.Undone roq fu) (sub : kept ⊆ roq) :
    t.Undone kept fu := by
  intro l which valid here
  have job := k.job l.rs here
  rw [k.chosen] at which
  rw [rslinkValid, job.tag] at valid
  rw [job.issued]
  exact h l which valid (sub here)

section Squash

theorem bumped (apart : d ∉ kept) (s : Backend) : Keeps 0 kept s (Coherent.bumped d s) where
  event := rfl
  chosen := rfl
  clock := rfl
  pool := Nat.le_refl _
  job j hj := by
    have ne : j ≠ d := by
      rintro rfl
      exact apart hj
    rw [Coherent.desc_bumped, if_neg ne]
    exact ⟨rfl, rfl, fun _ => rfl, rfl⟩

theorem retire (kept : List Nat) (e : s.retire cfg d = some t) : Keeps 0 kept s t := by
  obtain ⟨-, -, -, rfl⟩ := retire_some e
  exact ⟨rfl, rfl, rfl, Nat.le_refl _, fun _ _ => ⟨rfl, rfl, fun _ => rfl, rfl⟩⟩

theorem squashLast (flow : Passage cfg s.place (roq ++ [d]) done)
    (e : s.squashLast cfg = some t) : Keeps 0 roq s t := by
  have apart : d ∉ roq := by
    have once := flow.nodup
    rw [List.nodup_append] at once
    exact fun hd => once.2.2 d hd d (by simp) rfl
  obtain ⟨-, rfl⟩ := squashLast_some flow.last e
  refine ⟨rfl, rfl, rfl, ?_, fun j hj => ?_⟩
  · simp [poolSize]
  · have ne : j ≠ d := by
      rintro rfl
      exact apart hj
    simp only [Function.update_of_ne ne]
    exact ⟨rfl, rfl, fun _ => rfl, rfl⟩

theorem squashAll {gone : List Nat} (flow : Passage cfg s.place (roq ++ gone) done)
    (e : s.squashAll cfg gone.length = some t) : Keeps 0 roq s t := by
  refine (squashAll_invariant (P := fun l u => Passage cfg u.place l done ∧ Keeps 0 l s u)
    (fun l d u v h e => ?_) ⟨flow, refl _ s⟩ e).2
  exact ⟨flow_squashLast h.1 e, h.2.trans (squashLast h.1 e) (List.subset_append_left l [d])⟩

theorem tracerRecover (flow : Passage cfg s.place roq done) (level : Nat) :
    Keeps 0 roq s (s.tracerRecover level) := by
  rw [tracerRecover_eq (decode_nodup flow)]
  refine ⟨rfl, rfl, rfl, ?_, fun j hj => ?_⟩
  · simp [poolSize]
  · obtain ⟨-, fetched, decoded, -⟩ := flow.apart hj
    have none : s.fetchData.count j = 0 := List.count_eq_zero.mpr fetched
    have outside : j ∉ s.decodeData := decoded
    simp only [outside, if_false, none]
    exact ⟨rfl, rfl, fun _ => rfl, rfl⟩

theorem pipelineFlush (flow : Passage cfg s.place roq done) (e : s.pipelineFlush cfg = some t) :
    Keeps 0 [] s t := by
  obtain ⟨u, dropped, all, rfl⟩ := pipelineFlush_some flow e
  have both := (tracerRecover flow 0).trans (squashAll dropped all) (List.nil_subset _)
  exact ⟨both.event, both.chosen, both.clock, both.pool, both.job⟩

theorem brerrRecover {i : Nat} (flow : Passage cfg s.place roq done) (hi : i < roq.length)
    (slot : i + 1 < roq.length) (e : s.brerrRecover cfg roq[i] = some t) :
    Keeps 0 (roq.take (lastKept (s.desc roq[i]) i + 1)) s t := by
  obtain ⟨u, squashed, rfl⟩ := brerrRecover_some flow hi slot e
  generalize lastKept (s.desc roq[i]) i + 1 = n at *
  have whole := List.take_append_drop n roq
  rw [← whole] at flow
  rw [← List.length_drop] at squashed
  exact (squashAll flow squashed).trans (tracerRecover (flow_squashAll flow squashed) _)
    (List.Subset.refl _)

/-- A branch is no memory operation. -/
theorem resolved (ctrl : (s.desc d).ctrl = true) (kept : List Nat) :
    Keeps 0 kept s (s.resolved d) := by
  refine ⟨rfl, rfl, rfl, Nat.le_refl _, fun j _ => ?_⟩
  by_cases eq : j = d
  · rw [eq, Backend.resolved, modDesc_self]
    exact ⟨rfl, rfl, fun mem => absurd ((mem_ctrl mem).symm.trans ctrl) Bool.false_ne_true, rfl⟩
  · rw [Backend.resolved, modDesc_of_ne s eq]
    exact ⟨rfl, rfl, fun _ => rfl, rfl⟩

theorem commitInst {more : Bool} (h : Coherent cfg s roq done) (filled : 0 < s.roqNum)
    (e : s.commitInst cfg = some (t, more)) :
    ∃ rest done, Coherent cfg t rest done ∧ Keeps 0 rest s t ∧ rest ⊆ roq := by
  obtain ⟨d, rest, rfl, same | ⟨completed, -, cases⟩⟩ := h.commit_cases filled e
  · exact ⟨_, done, same ▸ h, same ▸ refl _ _, List.Subset.refl _⟩
  · have new := (List.nodup_cons.mp h.flow.nodup).1
    have before := h.bumped_coherent d
    rcases cases with flushed | left
    · have k := (bumped (List.not_mem_nil (a := d)) s).trans (pipelineFlush before.flow flushed)
        (List.Subset.refl _)
      exact ⟨[], done, before.flush flushed, k, List.nil_subset _⟩
    · obtain ⟨done', next⟩ := h.retire completed left
      have k := (bumped new s).trans (retire rest left) (List.Subset.refl _)
      exact ⟨rest, done', next, k, List.subset_cons_self d rest⟩

theorem checkBrq (h : Coherent cfg s roq done) (e : s.checkBrq cfg = some t) :
    ∃ kept, Coherent cfg t kept done ∧ Keeps 0 kept s t ∧ kept ⊆ roq := by
  rcases h.checkBrq_cases e with
    same | ⟨i, hi, ctrl, back, ⟨right, same⟩ | ⟨wrong, slot, -, e⟩⟩
  · exact ⟨roq, same ▸ h, same ▸ refl _ _, List.Subset.refl _⟩
  · have next := h.right (List.getElem_mem hi) ctrl back right
    exact ⟨roq, same ▸ next, same ▸ resolved ctrl roq, List.Subset.refl _⟩
  · have flow : Passage cfg (s.resolved roq[i]).place roq done :=
      (layout_eq.mp (Coherent.layout_resolved roq[i] s)).1 ▸ h.flow
    have kept : lastKept ((s.resolved roq[i]).desc roq[i]) i = lastKept (s.desc roq[i]) i := by
      rw [Backend.resolved, modDesc_self]
      rfl
    have k := (resolved ctrl _).trans (brerrRecover flow hi slot e) (List.Subset.refl _)
    rw [kept] at k
    exact ⟨_, h.recover hi slot ctrl back wrong e, k, List.take_subset _ _⟩

end Squash

section Front

theorem mapInst {rest : List Nat} (outside : d ∉ kept) (queue : s.decodeData = d :: rest)
    (e : s.mapInst cfg = some t) : Keeps 1 kept s t := by
  have next : Keeps 0 kept s (s.placed cfg d rest) := by
    refine ⟨rfl, rfl, rfl, Nat.le_refl _, fun j hj => ?_⟩
    have ne : j ≠ d := by
      rintro rfl
      exact outside hj
    simp only [placed, Function.update_of_ne ne]
    exact ⟨rfl, rfl, fun _ => rfl, rfl⟩
  rw [mapInst_eq cfg queue] at e
  split_ifs at e
  · obtain ⟨id, pool, filled, rfl⟩ := readyqEnqueue_some e
    have less : (s.placed cfg d rest).poolSize = pool.length + 1 := by
      rw [poolSize, filled, List.length_cons]
    refine ⟨next.event, next.chosen, next.clock, less ▸ next.pool, fun j hj => ?_⟩
    have ne : j ≠ d := by
      rintro rfl
      exact outside hj
    simp only [Function.update_of_ne ne]
    exact next.job j hj
  · cases e
    exact ⟨next.event, next.chosen, next.clock, Nat.le_succ_of_le next.pool, next.job⟩

/-- A step on an instruction in front of the reorder queue. -/
theorem beside (same : Coherent.Beside d s t) (outside : d ∉ kept)
    (chosen : t.nextIssueItem = s.nextIssueItem) (clock : t.simCycle = s.simCycle) :
    Keeps s.poolSize kept s t := by
  refine ⟨same.event, chosen, clock, Nat.le_add_left _ _, fun j hj => ?_⟩
  have ne : j ≠ d := by
    rintro rfl
    exact outside hj
  obtain ⟨seat, standing⟩ := same.other j ne
  exact ⟨congrArg Seat.mem seat, congrArg Standing.issued standing,
    fun _ => congrArg Standing.completed standing, same.tag j⟩

theorem chosen_roqLinkIdep {rs num name : Nat} (e : s.roqLinkIdep rs num name = some t) :
    t.nextIssueItem = s.nextIssueItem := by
  rcases roqLinkIdep_some e with ⟨-, rfl⟩ | ⟨p, out, id, pool, -, -, -, rfl⟩
  · rfl
  · rfl

theorem chosen_roqInstallOdep (rs num name : Nat) (s : Backend) :
    (s.roqInstallOdep rs num name).nextIssueItem = s.nextIssueItem := by
  simp only [Backend.roqInstallOdep]
  split <;> rfl

theorem chosen_decodeNext {o : Outcome} {rs : Nat} (e : s.decodeNext cfg o rs = some t) :
    t.nextIssueItem = s.nextIssueItem := by
  simp only [decodeNext] at e
  obtain ⟨u, named, e⟩ := Option.bind_eq_some_iff.mp e
  obtain ⟨v, entered, rfl⟩ := Option.map_eq_some_iff.mp e
  have branch : (if (u.desc rs).ctrl = true then { u with lastIsBranch := true } else u).wiring =
      u.wiring := by
    split <;> rfl
  have behind : v.nextIssueItem = u.nextIssueItem :=
    congrArg Wiring.chosen ((wiring_enterSpec entered).trans ((wiring_redirect ..).trans branch))
  refine behind.trans ?_
  simp only [rename] at named
  obtain ⟨u₁, first, named⟩ := Option.bind_eq_some_iff.mp named
  obtain ⟨u₂, second, named⟩ := Option.bind_eq_some_iff.mp named
  obtain ⟨u₃, third, rfl⟩ := Option.map_eq_some_iff.mp named
  rw [chosen_roqInstallOdep, chosen_roqInstallOdep, chosen_roqLinkIdep third,
    chosen_roqLinkIdep second, chosen_roqLinkIdep first]
  rfl

theorem decodeInst {o : Nat → Outcome} {rest : List Nat} {more : Bool} (outside : d ∉ kept)
    (queue : s.fetchData = d :: rest) (e : s.decodeInst cfg o = some (t, more)) :
    Keeps s.poolSize kept s t := by
  refine beside (Coherent.Only.decodeInst queue e).toBeside outside ?_ (simCycle_decodeInst queue e)
  simp only [Backend.decodeInst, queue] at e
  obtain ⟨u, marked, e⟩ := Option.bind_eq_some_iff.mp e
  have start : u.nextIssueItem = s.nextIssueItem := congrArg Wiring.chosen (wiring_markSlot marked)
  split at e
  · cases e
    exact start
  · split at e
    · cases e
    · obtain ⟨v, decoded, same⟩ := Option.map_eq_some_iff.mp e
      cases same
      exact (chosen_decodeNext decoded).trans start

theorem chosen_fetchInst (f : Fetched) (room : FetchRoom cfg f s.fetchData.length) :
    (s.fetchInst cfg f).1.nextIssueItem = s.nextIssueItem ∧
      (s.fetchInst cfg f).1.simCycle = s.simCycle := by
  have pushed (ir : Word) (op : Op) (trap : Bool) (u : Backend) :
      (u.pushed cfg ir op trap).nextIssueItem = u.nextIssueItem ∧
        (u.pushed cfg ir op trap).simCycle = u.simCycle := by
    obtain ⟨d, free, fresh, got, -⟩ := getFromFreeList_some u
    rw [Backend.pushed, got]
    exact ⟨rfl, rfl⟩
  obtain ⟨ir, -, ⟨d, l, fresh, -, moved⟩ | moved | ⟨half, -, moved⟩⟩ := fetchInst_cases f room
  · rw [moved]
    exact ⟨rfl, rfl⟩
  · rw [moved]
    exact pushed ..
  · rw [moved]
    exact ⟨(pushed ..).1.trans (pushed ..).1, (pushed ..).2.trans (pushed ..).2⟩

theorem fetchInst (coherent : Coherent cfg s roq done) (f : Fetched)
    (free : s.fetchData.length < cfg.fetchIfqSize) (room : FetchRoom cfg f s.fetchData.length) :
    Keeps s.poolSize roq s (s.fetchInst cfg f).1 := by
  refine ⟨?_, (chosen_fetchInst f room).1, (chosen_fetchInst f room).2, Nat.le_add_left _ _, ?_⟩
  · exact coherent.fetchInst_beside (P := fun u => u.eventQueue = s.eventQueue) f free room
      (fun _ _ _ same step _ => step.event.trans same) rfl
  · refine coherent.fetchInst_beside (P := fun u => ∀ j ∈ roq, SameJob (s.desc j) (u.desc j)) f free
      room (fun u v d same step outside j hj => ?_) fun _ _ => ⟨rfl, rfl, fun _ => rfl, rfl⟩
    have ne : j ≠ d := by
      rintro rfl
      exact outside hj
    obtain ⟨seat, standing⟩ := step.other j ne
    have job := same j hj
    exact ⟨(congrArg Seat.mem seat).trans job.mem,
      (congrArg Standing.issued standing).trans job.issued,
      fun mem => (congrArg Standing.completed standing).trans (job.completed mem),
      (step.tag j).trans job.tag⟩

end Front

theorem broadcast {out : Nat} (kept : List Nat) (e : s.broadcast d out = some t) :
    Keeps s.poolSize kept s t := by
  obtain ⟨place, -, -⟩ := layout_eq.mp (layout_broadcast e)
  obtain ⟨event, tag⟩ := events_broadcast e
  have works := works_broadcast e
  have chosen : t.nextIssueItem = s.nextIssueItem := by
    rcases broadcast_some e with ⟨-, rfl⟩ | ⟨-, u, woken, rfl⟩
    · rfl
    · obtain ⟨free, ready, moved⟩ := wiring_wakeAll woken
      have first : u.nextIssueItem = (s.updateCreateVector d).nextIssueItem :=
        congrArg Wiring.chosen moved
      exact first.trans (congrArg Wiring.chosen (wiring_updateCreateVector d s).1)
  refine ⟨event, chosen, simCycle_broadcast e, Nat.le_add_left _ _, fun j _ => ?_⟩
  obtain ⟨-, -, issued, completed⟩ := work_eq works j
  exact ⟨congrArg (fun p : Place => (p.seat j).mem) place, issued, fun _ => completed,
    congrFun tag j⟩

end Keeps

/-- The state of a core between two steps of its stages. -/
structure Going (cfg : BackendConfig) (limit : Nat) (s : Backend) (roq done : List Nat) : Prop where
  coherent : Coherent cfg s roq done
  paced : Paced limit s roq
  undone : cfg.simHasBypass = false → ∀ fu, s.Undone roq fu

namespace Going

theorem keep {kept done' : List Nat} {n : Nat} (h : Going cfg limit s roq done)
    (next : Coherent cfg t kept done') (k : Keeps n kept s t) (sub : kept ⊆ roq) :
    Going cfg limit t kept done' :=
  ⟨next, k.paced h.paced sub, fun plain fu => k.undone (h.undone plain fu) sub⟩

/-- A step keeps what is said of the instructions that wait. -/
theorem alert_step {next done' : List Nat} {tight : Prop} {safe : Backend → Prop}
    (h : Alert cfg s roq done) (step : Micro cfg tight safe s t)
    (coherent : Coherent cfg t next done') : ∃ done, Alert cfg t next done := by
  obtain ⟨roq', done', alert⟩ := h.micro step
  have same : roq' = next := alert.coherent.inRoq_eq.symm.trans coherent.inRoq_eq
  exact ⟨done', same ▸ alert⟩

section Commit

theorem commitInst {more : Bool} (h : Going cfg limit s roq done) (filled : 0 < s.roqNum)
    (e : s.commitInst cfg = some (t, more)) :
    ∃ roq done, Going cfg limit t roq done ∧ s.poolSize ≤ t.poolSize := by
  obtain ⟨rest, done', next, k, sub⟩ := Keeps.commitInst h.coherent filled e
  exact ⟨rest, done', h.keep next k sub, k.pool⟩

theorem commitLoop {n : Nat} (h : Going cfg limit s roq done) (e : s.commitLoop cfg n = some t) :
    ∃ roq done, Going cfg limit t roq done ∧ s.poolSize ≤ t.poolSize := by
  induction n generalizing s roq done with
  | zero =>
    cases e
    exact ⟨roq, done, h, Nat.le_refl _⟩
  | succ n ih =>
    rw [Backend.commitLoop] at e
    split at e
    · rename_i filled
      obtain ⟨⟨u, more⟩, first, e⟩ := Option.bind_eq_some_iff.mp e
      obtain ⟨roq', done', next, pool⟩ := h.commitInst filled first
      cases more with
      | true =>
        obtain ⟨roq'', done'', last, pool'⟩ := ih next e
        exact ⟨roq'', done'', last, Nat.le_trans pool pool'⟩
      | false =>
        cases e
        exact ⟨roq', done', next, pool⟩
    · cases e
      exact ⟨roq, done, h, Nat.le_refl _⟩

theorem checkBrq (h : Going cfg limit s roq done) (e : s.checkBrq cfg = some t) :
    ∃ roq done, Going cfg limit t roq done ∧ s.poolSize ≤ t.poolSize := by
  obtain ⟨kept, next, k, sub⟩ := Keeps.checkBrq h.coherent e
  exact ⟨kept, done, h.keep next k sub, k.pool⟩

end Commit

section Front

/-- A mapped instruction has no event and is not issued. -/
theorem mapInst {rest : List Nat} (h : Going cfg limit s roq done)
    (queue : s.decodeData = d :: rest) (room : Room cfg s 1) (e : s.mapInst cfg = some t) :
    Going cfg limit t (roq ++ [d]) done := by
  have coherent := h.coherent
  have front : d ∈ s.decodeData := by
    rw [queue]
    exact List.mem_cons_self
  have outside : d ∉ roq := fun hd => (coherent.flow.apart hd).2.2.1 front
  have fresh : (s.desc d).issued = false := (coherent.booked.decoded d front).1.issued
  have k := Keeps.mapInst outside queue e
  have old := k.paced h.paced (List.Subset.refl _)
  have mine : (t.desc d).tag = (s.desc d).tag ∧ (t.desc d).issued = (s.desc d).issued := by
    rw [mapInst_eq cfg queue] at e
    split_ifs at e
    · obtain ⟨id, pool, -, rfl⟩ := readyqEnqueue_some e
      simp [placed]
    · cases e
      simp [placed]
  have none : ∀ x ∈ t.eventQueue, t.marks d x = false := by
    intro x hx
    rw [marks_congr mine.1, marks, Bool.and_eq_false_iff]
    rw [k.event] at hx
    by_contra held
    rw [not_or, Bool.not_eq_false, Bool.not_eq_false] at held
    have inside := (coherent.accesses.event x hx held.1).1
    rw [eq_of_beq held.2] at inside
    exact outside inside
  refine ⟨coherent.mapInst queue room e, ⟨fun j hj mem => ?_, fun j hj mem x hx marked => ?_,
    old.sorted⟩, fun plain fu l which valid here => ?_⟩
  · rcases List.mem_append.mp hj with before | new
    · exact old.once j before mem
    · rw [List.mem_singleton.mp new, List.countP_eq_zero.mpr fun x hx => by simp [none x hx]]
      exact Nat.zero_le _
  · rcases List.mem_append.mp hj with before | new
    · exact old.soon j before mem x hx marked
    · rw [List.mem_singleton.mp new, none x hx] at marked
      cases marked
  · rcases List.mem_append.mp here with before | new
    · exact k.undone (h.undone plain fu) (List.Subset.refl _) l which valid before
    · rw [List.mem_singleton.mp new, mine.2, fresh]

theorem mapLoop {n : Nat} (h : Going cfg limit s roq done) (room : Room cfg s n)
    (e : s.mapLoop cfg n = some t) : ∃ roq done, Going cfg limit t roq done := by
  induction n generalizing s roq done with
  | zero =>
    cases e
    exact ⟨roq, done, h⟩
  | succ n ih =>
    obtain ⟨u, first, e⟩ := Option.bind_eq_some_iff.mp e
    cases queue : s.decodeData with
    | nil =>
      rw [Backend.mapInst, queue] at first
      cases first
      refine ih h ?_ e
      obtain ⟨roq, lsq, intIssue, fpIssue, intRename, fpRename⟩ := room
      constructor <;> omega
    | cons d rest =>
      have single := h.coherent.single d (queue ▸ List.mem_cons_self)
      have one : Room cfg s 1 := by
        obtain ⟨roq, lsq, intIssue, fpIssue, intRename, fpRename⟩ := room
        constructor <;> omega
      exact ih (h.mapInst queue one first) (mapInst_room queue single room first) e

theorem decodeLoop {o : Nat → Outcome} {n cnt : Nat} (h : Going cfg limit s roq done)
    (e : s.decodeLoop cfg o n cnt = some t) : ∃ roq done, Going cfg limit t roq done := by
  induction n generalizing s cnt with
  | zero =>
    cases e
    exact ⟨roq, done, h⟩
  | succ n ih =>
    rw [Backend.decodeLoop] at e
    split at e
    · rename_i room
      obtain ⟨⟨u, more⟩, first, e⟩ := Option.bind_eq_some_iff.mp e
      obtain ⟨rs, rest, queue⟩ := List.exists_cons_of_ne_nil room.1
      have outside : rs ∉ roq := front_apart h.coherent.flow queue
      have next := h.keep (h.coherent.decodeInst queue first)
        (Keeps.decodeInst outside queue first) (List.Subset.refl _)
      cases more with
      | true => exact ih next e
      | false =>
        cases e
        exact ⟨roq, done, next⟩
    · cases e
      exact ⟨roq, done, h⟩

theorem fetchLoop {fs : List Fetched} (h : Going cfg limit s roq done)
    (fits : FetchFits cfg fs s.fetchData.length) :
    Going cfg limit (s.fetchLoop cfg fs) roq done := by
  induction fs generalizing s with
  | nil => exact h
  | cons f fs ih =>
    rw [Backend.fetchLoop]
    split
    · rename_i free
      obtain ⟨room, later⟩ := fits free
      have next := h.keep (h.coherent.fetchInst f free room)
        (Keeps.fetchInst h.coherent f free room) (List.Subset.refl _)
      obtain ⟨length, goes⟩ := @fetchInst_length cfg f s
      cases more : (s.fetchInst cfg f).2 with
      | false => simpa [more] using next
      | true =>
        simp only [more, if_true]
        refine ih next ?_
        rw [length]
        cases split : (mdSetOpcode (if f.valid then f.ir else nopInst)).isSplit with
        | true =>
          rw [split, if_pos rfl] at later
          rw [if_pos rfl, if_neg (goes more split)]
          exact later (goes more split)
        | false =>
          rw [split, if_neg Bool.false_ne_true] at later
          exact later
    · exact h

end Front

section Memory

/-- A step on the load/store queue. -/
theorem still {done' : List Nat} (h : Going cfg limit s roq done) (next : Coherent cfg t roq done')
    (event : t.eventQueue = s.eventQueue) (chosen : t.nextIssueItem = s.nextIssueItem)
    (clock : t.simCycle = s.simCycle) (pool : t.poolSize = s.poolSize) (desc : t.desc = s.desc) :
    Going cfg limit t roq done' := by
  have k : Keeps 0 roq s t := by
    refine ⟨event, chosen, clock, Nat.le_of_eq pool.symm, fun j _ => ?_⟩
    rw [desc]
    exact ⟨rfl, rfl, fun _ => rfl, rfl⟩
  exact h.keep next k (List.Subset.refl _)

/-- The operation that `lsq_stage` writes back has read the cache and has not been there. -/
theorem look_selected (ports : s.Ports) {a : LsqAnswer} {i : Nat}
    (which : (({ s with lsqWtbki := s.lsqSelect cfg a }.dtagcmp a).markEx a).lsqWtbki = some i) :
    ((({ s with lsqWtbki := s.lsqSelect cfg a }.dtagcmp a).markEx a).lsq i).state = .readcache ∧
      (s.lsq i).state ≠ .writeback := by
  simp only [dtagcmp, markEx] at which ⊢
  split at which
  · rename_i j _ port
    have state := ports.dtagcmp j port
    simp only [modLsq] at which ⊢
    by_cases eq : i = j
    · subst eq
      simp [state]
    · rw [Function.update_of_ne eq]
      rcases ite_eq_iff.mp which with ⟨-, same⟩ | ⟨-, selected⟩
      · exact absurd (Option.some.inj same).symm eq
      · have reads : (s.lsq i).state = .readcache := lsqSelect_state selected
        simp [reads]
  · have reads : (s.lsq i).state = .readcache := lsqSelect_state (s := s) which
    simp [reads]

/-- What `lsq_stage` looks at is what was there, but for the entry in tag compare. -/
theorem look_same (a : LsqAnswer) (s : Backend) : ∀ u : Backend,
    u = ({ s with lsqWtbki := s.lsqSelect cfg a }.dtagcmp a).markEx a →
      u.desc = s.desc ∧ u.eventQueue = s.eventQueue ∧ u.nextIssueItem = s.nextIssueItem ∧
        u.rslinkFreeList = s.rslinkFreeList ∧ u.simCycle = s.simCycle := by
  rintro u rfl
  simp only [dtagcmp, markEx]
  split <;> exact ⟨rfl, rfl, rfl, rfl, rfl⟩

theorem lsqLook_eq (a : LsqAnswer) (s : Backend) : s.lsqLook cfg a =
    match (({ s with lsqWtbki := s.lsqSelect cfg a }.dtagcmp a).markEx a).lsqWtbki with
    | some i => (({ s with lsqWtbki := s.lsqSelect cfg a }.dtagcmp a).markEx a).eventqQueueEvent
        ((({ s with lsqWtbki := s.lsqSelect cfg a }.dtagcmp a).markEx a).lsq i).rs
        ((({ s with lsqWtbki := s.lsqSelect cfg a }.dtagcmp a).markEx a).simCycle + 1)
    | none => some (({ s with lsqWtbki := s.lsqSelect cfg a }.dtagcmp a).markEx a) := rfl

/-- `lsq_stage` can write an operation back when there is a link. -/
theorem lsqLook_total (h : Going cfg limit s roq done) (pool : 0 < s.poolSize) (a : LsqAnswer) :
    ∃ t, s.lsqLook cfg a = some t := by
  have coherent := h.coherent
  have before : ({ s with lsqWtbki := s.lsqSelect cfg a } : Backend).Ports :=
    ⟨coherent.ports.issue, coherent.ports.dcache, coherent.ports.dtagcmp⟩
  have place : (({ s with lsqWtbki := s.lsqSelect cfg a }.dtagcmp a).markEx a).place = s.place :=
    place_dtagcmp before a
  have selected {i : Nat} := @look_selected cfg s coherent.ports a i
  have look := @lsqLook_eq cfg a s
  obtain ⟨desc, -, -, free, -⟩ := @look_same cfg a s _ rfl
  generalize ({ s with lsqWtbki := s.lsqSelect cfg a }.dtagcmp a).markEx a = u at *
  have spare : u.poolSize = s.poolSize := congrArg List.length free
  cases which : u.lsqWtbki with
  | none =>
    rw [which] at look
    exact ⟨u, look⟩
  | some i =>
    rw [which] at look
    obtain ⟨state, early⟩ := selected which
    have flow : Passage cfg u.place roq done := place ▸ coherent.flow
    obtain ⟨here, mem, entry⟩ :=
      Scheduled.slot_own flow (by rw [state]; decide) (by rw [state]; rfl)
    rw [desc] at mem entry
    have unfinished : (s.desc (u.lsq i).rs).completed = false := by
      by_contra completed
      have written := coherent.accesses.done _ here mem (Bool.eq_true_of_not_eq_false completed)
      rw [lsqState, entry] at written
      exact early written
    have later : u.simCycle < u.simCycle + 1 := Nat.lt_succ_self _
    obtain ⟨id, rest, filled, queued⟩ :=
      eventqQueueEvent_total (spare ▸ pool) (desc ▸ unfinished) later
    exact ⟨_, look.trans queued⟩

/-- When no memory operation has an event, `lsq_stage` schedules one at most. -/
theorem lsqLook {a : LsqAnswer} (h : Going cfg limit s roq done) (quiet : s.Quiet roq)
    (e : s.lsqLook cfg a = some t) :
    Going cfg (s.simCycle + 1) t roq done ∧ s.poolSize ≤ t.poolSize + 1 := by
  have next := h.coherent.lsqLook e
  have calm : Paced (s.simCycle + 1) s roq := by
    refine ⟨h.paced.once, fun d hd mem x hx marked => ?_, h.paced.sorted⟩
    exact absurd marked (List.countP_eq_zero.mp (quiet d hd mem) x hx)
  rw [lsqLook_eq] at e
  obtain ⟨desc, event, chosen, free, clock⟩ := @look_same cfg a s _ rfl
  generalize ({ s with lsqWtbki := s.lsqSelect cfg a }.dtagcmp a).markEx a = u at *
  have spare : u.poolSize = s.poolSize := congrArg List.length free
  have start : Going cfg (s.simCycle + 1) s roq done := ⟨h.coherent, calm, h.undone⟩
  cases which : u.lsqWtbki with
  | none =>
    rw [which] at e
    cases e
    exact ⟨start.still next event chosen clock spare desc, by omega⟩
  | some i =>
    rw [which] at e
    obtain ⟨unfinished, id, rest, filled, new⟩ := eventqQueueEvent_some e
    rw [desc] at unfinished
    have same : t.desc = s.desc ∧ t.nextIssueItem = s.nextIssueItem ∧ t.eventQueue =
        EventQueue.insert false (s.simCycle + 1) (u.linkTo (u.lsq i).rs id) s.eventQueue := by
      rw [new, ← desc, ← chosen, ← event, ← clock]
      exact ⟨rfl, rfl, rfl⟩
    have less : s.poolSize = t.poolSize + 1 := by
      rw [← spare, poolSize, filled, new]
      rfl
    obtain ⟨desc', chosen', event'⟩ := same
    have marks (j : Nat) : t.marks j = s.marks j := marks_congr (by rw [desc'])
    refine ⟨⟨next, ⟨fun j hj kind => ?_, fun j hj kind x hx marked => ?_, ?_⟩,
      fun plain fu l held valid inside => ?_⟩, Nat.le_of_eq less⟩
    · rw [desc'] at kind ⊢
      rw [event', EventQueue.countP_insert, marks, quiet j hj kind]
      by_cases eq : (u.lsq i).rs = j
      · rw [← eq, unfinished]
        split <;> simp
      · have other : s.marks j (s.simCycle + 1, u.linkTo (u.lsq i).rs id) = false := by
          rw [Backend.marks, linkTo, beq_false_of_ne eq, Bool.and_false]
        simp [other]
    · rw [desc'] at kind
      rw [marks] at marked
      rw [event'] at hx
      rcases EventQueue.mem_insert.mp hx with rfl | old
      · exact Nat.le_refl _
      · exact absurd marked (List.countP_eq_zero.mp (quiet j hj kind) x old)
    · rw [event']
      exact EventQueue.sorted_insert h.paced.sorted
    · rw [chosen'] at held
      rw [rslinkValid, desc'] at valid
      rw [desc']
      exact h.undone plain fu l held valid inside

theorem freeDone (n : Nat) (h : Going cfg limit s roq done) :
    ∃ done, Going cfg limit (s.freeDone cfg n) roq done := by
  induction n generalizing s done with
  | zero => exact ⟨done, h⟩
  | succ n ih =>
    rw [Backend.freeDone]
    split_ifs with state
    · obtain ⟨done', next⟩ := h.coherent.freeOne state
      exact ih (h.still next rfl rfl rfl rfl rfl)
    · exact ⟨done, h⟩

theorem drainLoads (n : Nat) (h : Going cfg limit s roq done) :
    Going cfg limit (s.drainLoads cfg n) roq done := by
  induction n generalizing s with
  | zero => exact h
  | succ n ih =>
    rw [Backend.drainLoads]
    split_ifs with state
    · exact ih (h.still (h.coherent.drainOne state.1) rfl rfl rfl rfl rfl)
    · exact h

theorem drain {written : Bool} (h : Going cfg limit s roq done)
    (head : written = true → (s.lsq s.lsqHead).state = LsqState.commit) :
    ∃ done, Going cfg limit (s.drain cfg written) roq done := by
  obtain ⟨done', next⟩ := h.freeDone cfg.lsqIfqSize
  simp only [Backend.drain]
  split_ifs with leaves
  · have committed : ((s.freeDone cfg cfg.lsqIfqSize).lsq
        (s.freeDone cfg cfg.lsqIfqSize).lsqHead).state = LsqState.commit := by
      rcases Bool.or_eq_true_iff.mp leaves with write | load
      · exact freeDone_commit _ (head write)
      · exact eq_of_beq (Bool.and_eq_true_iff.mp load).2
    exact ⟨done', drainLoads 3 (next.still (next.coherent.drainOne committed) rfl rfl rfl rfl rfl)⟩
  · exact ⟨done', next⟩

theorem dcache (h : Going cfg limit s roq done) (a : LsqAnswer) :
    Going cfg limit (s.dcache a) roq done := by
  obtain ⟨desc, -, chosen⟩ := Alert.dcache_same a s
  refine h.still (h.coherent.dcache a) ?_ chosen (simCycle_dcache a s) ?_ desc
  · exact congrArg Wiring.event (Coherent.wiring_dcache a s)
  · exact congrArg (fun w : Wiring => w.free.length) (Coherent.wiring_dcache a s)

theorem poolSize_freeDone (n : Nat) (s : Backend) : (s.freeDone cfg n).poolSize = s.poolSize := by
  induction n generalizing s with
  | zero => rfl
  | succ n ih =>
    rw [Backend.freeDone]
    split_ifs with state
    · exact ih _
    · rfl

theorem poolSize_drainLoads (n : Nat) (s : Backend) :
    (s.drainLoads cfg n).poolSize = s.poolSize := by
  induction n generalizing s with
  | zero => rfl
  | succ n ih =>
    rw [Backend.drainLoads]
    split_ifs with state
    · exact ih _
    · rfl

theorem poolSize_drain (written : Bool) (s : Backend) :
    (s.drain cfg written).poolSize = s.poolSize := by
  simp only [Backend.drain]
  split
  · exact (poolSize_drainLoads 3 _).trans (poolSize_freeDone _ s)
  · exact poolSize_freeDone _ s

/-- A memory operation belongs to the unit behind the memory ports. -/
theorem unit_mem (h : Coherent cfg s roq done) (here : d ∈ roq) (mem : (s.desc d).mem = true) :
    (s.desc d).fu.unit = 2 := by
  have seated := h.booked.seated d here
  have trap : (s.desc d).trap = false := by
    apply Bool.eq_false_iff.mpr
    intro trap
    have other : (s.desc d).mem = false := h.flow.trap_mem trap
    exact absurd (other.symm.trans mem) Bool.false_ne_true
  have cls : (s.desc d).fu.cls =
      if (!(s.desc d).trap && (s.desc d).op.fuClass != .na) = true then (s.desc d).op.fuClass
      else .intALU := seated.cls
  have unit : (s.desc d).fu.unit ∈ (s.desc d).fu.cls.units := seated.unit
  rw [cls, trap] at unit
  rw [Descript.mem] at mem
  revert mem unit
  generalize (s.desc d).fu.unit = u
  cases (s.desc d).op <;> simp [Op.has, Op.flags, Op.fuClass, FuClass.units]

theorem dcache_ported (h : Coherent cfg s roq done) (a : LsqAnswer) : (s.dcache a).Ported := by
  have front : (s.toDtagcmp a).lsqIssuei = s.lsqIssuei ∧ (s.toDtagcmp a).desc = s.desc ∧
      ∀ i, ((s.toDtagcmp a).lsq i).rs = (s.lsq i).rs := by
    rw [toDtagcmp]
    split
    · rename_i j _ _
      refine ⟨rfl, rfl, fun i => ?_⟩
      by_cases eq : i = j
      · simp [modLsq, eq]
      · simp [modLsq, eq]
    · exact ⟨rfl, rfl, fun _ => rfl⟩
  obtain ⟨port, desc, rs⟩ := front
  rw [dcache_eq, toDcache]
  split
  · exact .inl rfl
  · rename_i i _ held
    rw [port] at held
    have state := h.ports.issue i held
    obtain ⟨here, mem, -⟩ := Scheduled.slot_own h.flow (i := i) (by rw [state]; decide)
      (by rw [state]; rfl)
    refine .inr ?_
    rw [desc, rs, unit_mem h here mem]
    simp
  · rename_i none
    exact .inl none

/-- `lsq_stage` runs through when there is a link for the operation that it writes back. -/
theorem lsqStage_total (h : Going cfg limit s roq done) (pool : 0 < s.poolSize) (a : LsqAnswer) :
    ∃ t, s.lsqStage cfg a = some t := by
  obtain ⟨u, look⟩ := h.lsqLook_total pool a
  exact ⟨_, Option.map_eq_some_iff.mpr ⟨u, look, rfl⟩⟩

/-- It schedules an event for the next cycle when those of the cycle before are delivered. -/
theorem lsqStage {a : LsqAnswer} (h : Going cfg limit s roq done) (quiet : s.Quiet roq)
    (e : s.lsqStage cfg a = some t) : ∃ done, Going cfg (s.simCycle + 1) t roq done ∧
      s.poolSize ≤ t.poolSize + 1 ∧ t.Ported := by
  obtain ⟨u, look, rfl⟩ := Option.map_eq_some_iff.mp e
  obtain ⟨next, less⟩ := h.lsqLook quiet look
  have committed (write : ((s.lsq s.lsqHead).state == LsqState.commit &&
      (s.lsq s.lsqHead).op.has .store && a.rdy s.lsqHead && a.write) = true) :
      (u.lsq u.lsqHead).state = LsqState.commit := by
    simp only [Bool.and_eq_true] at write
    exact lsqLook_commit h.coherent.ports look (eq_of_beq write.1.1.1)
  obtain ⟨done', drained⟩ := next.drain committed
  refine ⟨done', drained.dcache a, ?_, dcache_ported drained.coherent a⟩
  have same (v : Backend) : (v.dcache a).poolSize = v.poolSize :=
    congrArg (fun w : Wiring => w.free.length) (Coherent.wiring_dcache a v)
  rw [same, poolSize_drain]
  exact less

end Memory

section Writeback

theorem mem_finished (rs : Nat) (s : Backend) (j : Nat) :
    ((s.finished rs).desc j).mem = (s.desc j).mem := by
  by_cases eq : j = rs
  · simp only [finished, eq, Function.update_self]
    split <;> rfl
  · simp only [finished, Function.update_of_ne eq]

/-- The event in front is taken out. What leaves its unit with it has no other. -/
theorem deliver {time : Nat} {l : RsLink} {rest : List (Nat × RsLink)}
    (h : Going cfg limit s roq done) (queue : s.eventQueue = (time, l) :: rest)
    (e : s.deliver l rest = some t) : Going cfg limit t roq done ∧ t.eventQueue = rest := by
  have next := h.coherent.deliver queue e
  have count (j : Nat) : s.eventQueue.countP (s.marks j) =
      rest.countP (s.marks j) + if s.marks j (time, l) then 1 else 0 := by
    rw [queue, List.countP_cons]
  have sub {x : Nat × RsLink} (hx : x ∈ rest) : x ∈ s.eventQueue := by
    rw [queue]
    exact List.mem_cons_of_mem _ hx
  have sorted : rest.Pairwise fun x y => x.1 ≤ y.1 := by
    have sorted := h.paced.sorted
    rw [queue] at sorted
    exact (List.pairwise_cons.mp sorted).2
  simp only [Backend.deliver] at e
  split at e
  · rename_i valid
    obtain ⟨-, u, first, second⟩ := finish_some e
    have desc {j : Nat} (ne : j ≠ l.rs) :
        (({ s with eventQueue := rest }.rslinkFree l).finished l.rs).desc j = s.desc j := by
      simp only [finished, rslinkFree, Function.update_of_ne ne]
    have kind (j : Nat) :
        ((({ s with eventQueue := rest }.rslinkFree l).finished l.rs).desc j).mem =
          (s.desc j).mem := mem_finished l.rs _ j
    have wires := wiring_finished l.rs ({ s with eventQueue := rest }.rslinkFree l)
    have tag (j : Nat) : ((({ s with eventQueue := rest }.rslinkFree l).finished l.rs).desc j).tag =
        (s.desc j).tag := congrArg (fun w : Wiring => w.tag j) wires
    have issued (j : Nat) :
        ((({ s with eventQueue := rest }.rslinkFree l).finished l.rs).desc j).issued =
          (s.desc j).issued := (desc_finished l.rs _ j).2.2.2.1
    have event : (({ s with eventQueue := rest }.rslinkFree l).finished l.rs).eventQueue = rest :=
      rfl
    have chosen : (({ s with eventQueue := rest }.rslinkFree l).finished l.rs).nextIssueItem =
        s.nextIssueItem := rfl
    generalize ({ s with eventQueue := rest }.rslinkFree l).finished l.rs = v at *
    have paced : Paced limit v roq := by
      refine ⟨fun j hj mem => ?_, fun j hj mem x hx marked => ?_, event ▸ sorted⟩
      · rw [event, marks_congr (tag j)]
        by_cases eq : j = l.rs
        · subst eq
          have once := h.paced.once l.rs hj ((kind l.rs).symm.trans mem)
          rw [count, marks, valid, beq_self_eq_true, Bool.and_self, if_pos rfl] at once
          split at once <;> omega
        · rw [desc eq] at mem ⊢
          have once := h.paced.once j hj mem
          rw [count] at once
          exact Nat.le_trans (Nat.le_add_right _ _) once
      · rw [event] at hx
        rw [marks_congr (tag j)] at marked
        exact h.paced.soon j hj ((kind j).symm.trans mem) x (sub hx) marked
    have undone (plain : cfg.simHasBypass = false) (fu : Nat) : v.Undone roq fu := by
      intro l' which lives here
      rw [chosen] at which
      rw [rslinkValid, tag] at lives
      rw [issued]
      exact h.undone plain fu l' which lives here
    have k := (Keeps.broadcast roq first).trans (Keeps.broadcast roq second) (List.Subset.refl _)
    exact ⟨⟨next, k.paced paced (List.Subset.refl _),
      fun plain fu => k.undone (undone plain fu) (List.Subset.refl _)⟩, k.event.trans event⟩
  · cases e
    refine ⟨⟨next, ⟨fun j hj mem => ?_, fun j hj mem x hx marked => ?_, sorted⟩, h.undone⟩, rfl⟩
    · have once := h.paced.once j hj mem
      rw [count] at once
      exact Nat.le_trans (Nat.le_add_right _ _) once
    · exact h.paced.soon j hj mem x (sub hx) marked

/-- All events that are due are delivered, those of the memory operations among them. -/
theorem writebackLoop {n : Nat} (h : Going cfg s.simCycle s roq done) (alert : Alert cfg s roq done)
    (sched : Scheduled s roq) (enough : s.eventQueue.length ≤ n) :
    ∃ t roq done, s.writebackLoop n = some t ∧ s.poolSize ≤ t.poolSize ∧
      t.simCycle = s.simCycle ∧ Going cfg s.simCycle t roq done ∧ t.Quiet roq := by
  induction n generalizing s roq done with
  | zero =>
    have empty : s.eventQueue = [] := List.eq_nil_of_length_eq_zero (Nat.le_zero.mp enough)
    refine ⟨s, roq, done, rfl, Nat.le_refl _, rfl, h, fun d _ _ => ?_⟩
    rw [empty, List.countP_nil]
  | succ n ih =>
    rw [Backend.writebackLoop]
    cases queue : s.eventQueue with
    | nil =>
      refine ⟨s, roq, done, rfl, Nat.le_refl _, rfl, h, fun d _ _ => ?_⟩
      rw [queue, List.countP_nil]
    | cons x rest =>
      obtain ⟨time, l⟩ := x
      by_cases due : time ≤ s.simCycle
      · have front : (time, l) ∈ s.eventQueue := by
          rw [queue]
          exact List.mem_cons_self
        obtain ⟨u, first, more⟩ := deliver_total alert sched queue fun valid mem => by
          have here := (alert.coherent.accesses.event _ front valid).1
          have once := h.paced.once l.rs here mem
          have some : 0 < s.eventQueue.countP (s.marks l.rs) := by
            refine List.countP_pos_iff.mpr ⟨_, front, ?_⟩
            rw [marks, valid, beq_self_eq_true]
            rfl
          by_contra completed
          rw [if_pos (Bool.eq_true_of_not_eq_false completed)] at once
          omega
        have clock := simCycle_deliver first
        obtain ⟨next, popped⟩ := h.deliver queue first
        have step : Micro cfg True (fun _ => True) s u := .deliver queue first
        obtain ⟨done', alert'⟩ := alert_step alert step next.coherent
        have sched' := sched.deliver alert.coherent queue first
        rw [queue, List.length_cons] at enough
        have going : Going cfg u.simCycle u roq done' :=
          ⟨alert'.coherent, clock ▸ next.paced, next.undone⟩
        obtain ⟨t, roq'', done'', all, most, clock', last, quiet⟩ :=
          ih going alert' sched' (popped ▸ Nat.le_of_succ_le_succ enough)
        refine ⟨t, roq'', done'', ?_, by omega, clock'.trans clock, clock ▸ last, quiet⟩
        simp only [if_pos due]
        have moved : (if s.rslinkValid l then
            ({ s with eventQueue := rest }.rslinkFree l).finish l.rs
            else some ({ s with eventQueue := rest }.rslinkFree l)) = some u := first
        rw [moved]
        exact all
      · refine ⟨s, roq, done, by simp only [if_neg due], Nat.le_refl _, rfl, h, fun d hd mem => ?_⟩
        refine List.countP_eq_zero.mpr fun y hy marked => ?_
        have soon := h.paced.soon d hd mem y hy marked
        have sorted := h.paced.sorted
        rw [queue] at hy sorted
        rcases List.mem_cons.mp hy with rfl | later
        · exact due soon
        · have behind := (List.pairwise_cons.mp sorted).1 y later
          exact due (Nat.le_trans behind soon)

end Writeback

section Issue

theorem issueInst_eq (l : RsLink) (s : Backend) : s.issueInst l =
    (if (s.desc l.rs).mem then (s.issued l.rs).lsqIssue l.rs
      else (s.issued l.rs).eventqQueueEvent l.rs (s.simCycle +
        if (s.desc l.rs).fu.cls = .intDIV then (s.desc l.rs).divDelay + 1
        else (s.desc l.rs).fu.cls.oplat)).bind fun u =>
      (u.countIssue (u.desc l.rs).inIntq (-1)).deleteNode l (s.desc l.rs).fu.unit := by
  simp only [Backend.issueInst, issued, modDesc, Function.update_self, Descript.mem]
  rfl

/-- The link of a chosen instruction is valid and in the ready queue of its unit. -/
theorem chosen_held {fu : Nat} {l : RsLink} (h : Going cfg limit s roq done)
    (alert : Alert cfg s roq done)
    (front : cfg.simHasBypass = true → ∃ u : Backend, s = u.nextValidNode fu)
    (which : s.chosen cfg fu = some l) :
    s.rslinkValid l = true ∧ ∃ x ∈ s.readyQueue fu, x.2 = l := by
  cases bypass : cfg.simHasBypass with
  | true =>
    obtain ⟨u, rfl⟩ := front bypass
    rw [chosen, if_pos bypass] at which
    refine ⟨nextValidNode_head which, ?_⟩
    obtain ⟨x, first, rfl⟩ := Option.map_eq_some_iff.mp which
    exact ⟨x, List.mem_of_mem_head? first, rfl⟩
  | false =>
    have which' := which
    rw [chosen, if_neg (by simp [bypass])] at which'
    obtain ⟨held, valid⟩ := Option.filter_eq_some_iff.mp which'
    refine ⟨valid, chosen_ready alert.awake which valid ?_⟩
    have inside := ((h.coherent.wired.known l (.chosen held)).2 (eq_of_beq valid)).1
    rcases List.mem_append.mp inside with here | front
    · exact h.undone bypass fu l held valid here
    · exact (h.coherent.booked.decoded l.rs front).1.issued

/-- The oldest ready instruction of a unit that is not busy can be issued. -/
theorem issueInst_total {fu : Nat} {x : Nat × RsLink} (h : Going cfg limit s roq done)
    (sched : Scheduled s roq) (ported : s.Ported) (pool : 0 < s.poolSize)
    (inside : x ∈ s.readyQueue fu) (here : x.2.rs ∈ roq)
    (unit : (s.desc x.2.rs).fu.unit = fu) (test : issuable (s.desc x.2.rs) = true)
    (idle : s.unitBusy fu = 0) : ∃ t, s.issueInst x.2 = some t ∧ s.poolSize ≤ t.poolSize ∧
      t.Ported := by
  have coherent := h.coherent
  have seated := coherent.booked.seated x.2.rs here
  simp only [issuable, Bool.and_eq_true, Bool.not_eq_true'] at test
  obtain ⟨⟨-, fresh⟩, unfinished⟩ := test
  have leaves (u : Backend) (ready : u.readyQueue = s.readyQueue) :
      (u.countIssue (u.desc x.2.rs).inIntq (-1)).deleteNode x.2 (s.desc x.2.rs).fu.unit =
        some ({ u.countIssue (u.desc x.2.rs).inIntq (-1) with
          readyQueue := Function.update u.readyQueue (s.desc x.2.rs).fu.unit
            ((u.readyQueue (s.desc x.2.rs).fu.unit).eraseP fun y => y.2.id == x.2.id) }.rslinkFree
              x.2) := by
    have found : ((u.readyQueue (s.desc x.2.rs).fu.unit).any fun y => y.2.id == x.2.id) = true := by
      rw [ready, unit]
      exact List.any_eq_true.mpr ⟨x, inside, beq_self_eq_true _⟩
    rw [countIssue_eq, deleteNode, if_pos found]
  rw [issueInst_eq]
  cases mem : (s.desc x.2.rs).mem with
  | true =>
    have state : (s.lsq (s.desc x.2.rs).lsqid).state = .enter :=
      (sched.enter x.2.rs here mem).mpr fresh
    have held : s.place.lsq (s.desc x.2.rs).lsqid = some x.2.rs :=
      (coherent.flow.lsqid x.2.rs here mem).2
    have owner : (s.lsq (s.desc x.2.rs).lsqid).rs = x.2.rs := by
      simpa [place, LsqItem.slot, state] using held
    have two := unit_mem coherent here mem
    have port : s.lsqIssuei = none := by
      rcases ported with none | busy
      · exact none
      · exact absurd ((two.symm.trans unit) ▸ idle) busy
    rw [if_pos rfl]
    have issue : (s.issued x.2.rs).lsqIssue x.2.rs =
        some { ((s.issued x.2.rs).modLsq (s.desc x.2.rs).lsqid fun l => { l with state := .issue })
          with lsqIssuei := some (s.desc x.2.rs).lsqid } := by
      simp only [lsqIssue, issued, Function.update_self]
      rw [if_pos ⟨owner, state, port⟩]
    rw [issue, Option.bind_some]
    refine ⟨_, leaves _ rfl, ?_, .inr ?_⟩
    · rw [countIssue_eq]
      exact Nat.le_succ s.poolSize
    · rw [countIssue_eq]
      simp [rslinkFree, modLsq, issued, two]
  | false =>
    have cls : (s.desc x.2.rs).fu.unit ∈ (s.desc x.2.rs).fu.cls.units := seated.unit
    have works : 0 < if (s.desc x.2.rs).fu.cls = .intDIV then (s.desc x.2.rs).divDelay + 1
        else (s.desc x.2.rs).fu.cls.oplat := by
      cases kind : (s.desc x.2.rs).fu.cls with
      | na =>
        rw [kind] at cls
        cases cls
      | _ => simp [FuClass.oplat]
    generalize (if (s.desc x.2.rs).fu.cls = .intDIV then (s.desc x.2.rs).divDelay + 1
        else (s.desc x.2.rs).fu.cls.oplat) = oplat at *
    have running : ((s.issued x.2.rs).desc x.2.rs).completed = false := by
      simp [issued, unfinished]
    have later : (s.issued x.2.rs).simCycle < s.simCycle + oplat := by
      change s.simCycle < s.simCycle + oplat
      omega
    obtain ⟨id, rest, filled, queued⟩ := @eventqQueueEvent_total (s.issued x.2.rs) x.2.rs
      (s.simCycle + oplat) pool running later
    rw [if_neg Bool.false_ne_true, queued, Option.bind_some]
    refine ⟨_, leaves _ rfl, ?_, ?_⟩
    · have less : s.poolSize = rest.length + 1 := congrArg List.length filled
      rw [countIssue_eq]
      exact Nat.le_of_eq less
    · rw [countIssue_eq]
      rcases ported with none | busy
      · exact .inl none
      · refine .inr ?_
        change Function.update s.unitBusy (s.desc x.2.rs).fu.unit 1 2 ≠ 0
        by_cases eq : 2 = (s.desc x.2.rs).fu.unit
        · rw [← eq, Function.update_self]
          exact Nat.one_ne_zero
        · rwa [Function.update_of_ne eq]

/-- What an issue does to the instructions, the choices and the events. -/
theorem issueInst_effect {l : RsLink} (e : s.issueInst l = some t) :
    t.desc = (s.issued l.rs).desc ∧ t.nextIssueItem = s.nextIssueItem ∧
      (t.eventQueue = s.eventQueue ∨ (s.desc l.rs).mem = false ∧ ∃ time id, t.eventQueue =
        EventQueue.insert false time ((s.issued l.rs).linkTo l.rs id) s.eventQueue) := by
  obtain ⟨u, v, oplat, first, rfl, e⟩ := issueInst_some e
  obtain ⟨-, rfl⟩ := deleteNode_some e
  rw [countIssue_eq]
  split at first
  · obtain ⟨-, -, -, rfl⟩ := lsqIssue_some first
    exact ⟨rfl, rfl, .inl rfl⟩
  · rename_i kind
    obtain ⟨-, id, pool, -, rfl⟩ := eventqQueueEvent_some first
    exact ⟨rfl, rfl, .inr ⟨Bool.eq_false_of_not_eq_true kind, _, id, rfl⟩⟩

/-- An issue schedules no event of a memory operation, and the other units keep what they have
chosen. -/
theorem issueInst_paced {fu : Nat} {l : RsLink} (h : Going cfg limit s roq done)
    (alert : Alert cfg s roq done) (unit : (s.desc l.rs).fu.unit = fu)
    (e : s.issueInst l = some t) : Paced limit t roq ∧
      (cfg.simHasBypass = false → ∀ u ≠ fu, t.Undone roq u) := by
  obtain ⟨desc, chosen, event⟩ := issueInst_effect e
  have job (j : Nat) : (t.desc j).mem = (s.desc j).mem ∧
      (t.desc j).completed = (s.desc j).completed ∧ (t.desc j).tag = (s.desc j).tag ∧
      (j ≠ l.rs → (t.desc j).issued = (s.desc j).issued) := by
    rw [desc]
    by_cases eq : j = l.rs
    · simp [issued, eq, Descript.mem]
    · simp [issued, Function.update_of_ne eq]
  have marks (j : Nat) : t.marks j = s.marks j := marks_congr (job j).2.2.1
  have added {j : Nat} (mem : (s.desc j).mem = true) (x : Nat × RsLink) (hx : x ∈ t.eventQueue)
      (marked : s.marks j x = true) : x ∈ s.eventQueue := by
    rcases event with same | ⟨plain, time, id, more⟩
    · rwa [same] at hx
    · rw [more] at hx
      rcases EventQueue.mem_insert.mp hx with rfl | old
      · rw [Backend.marks, Bool.and_eq_true] at marked
        have same : l.rs = j := eq_of_beq marked.2
        rw [same] at plain
        exact absurd (plain.symm.trans mem) Bool.false_ne_true
      · exact old
  have count {j : Nat} (mem : (s.desc j).mem = true) :
      t.eventQueue.countP (s.marks j) = s.eventQueue.countP (s.marks j) := by
    rcases event with same | ⟨plain, time, id, more⟩
    · rw [same]
    · have ne : l.rs ≠ j := by
        rintro rfl
        exact absurd (plain.symm.trans mem) Bool.false_ne_true
      have other : s.marks j (time, (s.issued l.rs).linkTo l.rs id) = false := by
        rw [Backend.marks, linkTo, beq_false_of_ne ne, Bool.and_false]
      rw [more, EventQueue.countP_insert, other]
      rfl
  refine ⟨⟨fun j hj mem => ?_, fun j hj mem x hx marked => ?_, ?_⟩, fun plain u ne l' held valid
    inside => ?_⟩
  · have kind := (job j).1.symm.trans mem
    rw [marks, count kind, (job j).2.1]
    exact h.paced.once j hj kind
  · have kind := (job j).1.symm.trans mem
    rw [marks] at marked
    exact h.paced.soon j hj kind x (added kind x hx marked) marked
  · rcases event with same | ⟨-, time, id, more⟩
    · exact same ▸ h.paced.sorted
    · exact more ▸ EventQueue.sorted_insert h.paced.sorted
  · rw [chosen] at held
    rw [rslinkValid, (job l'.rs).2.2.1] at valid
    have fresh := h.undone plain u l' held valid inside
    have other : l'.rs ≠ l.rs := by
      intro same
      rcases alert.awake.chosen u l' held valid with ⟨x, queued, rfl⟩ | gone
      · have due := (alert.ready_due queued valid).2.1
        have unit' := (issuable_of_due alert.coherent (List.mem_append_left _ inside) due).2.1
        rw [same, unit] at unit'
        exact ne unit'.symm
      · have issued : (s.desc l'.rs).issued = true := gone
        exact absurd (fresh.symm.trans issued) Bool.false_ne_true
    rw [(job l'.rs).2.2.2 other]
    exact fresh

/-- The state of a core between two units of `issue_stage`. -/
structure Issuing (cfg : BackendConfig) (limit : Nat) (s : Backend) (roq done : List Nat) :
    Prop where
  alert : Alert cfg s roq done
  paced : Paced limit s roq
  sched : Scheduled s roq
  undone : cfg.simHasBypass = false → ∀ u, s.Undone roq u

namespace Issuing

theorem going (h : Issuing cfg limit s roq done) : Going cfg limit s roq done :=
  ⟨h.alert.coherent, h.paced, h.undone⟩

theorem ported_nextValidNode (fu : Nat) (h : s.Ported) : (s.nextValidNode fu).Ported := by
  rw [Backend.nextValidNode, rslinkFreeAll_eq]
  exact h

theorem poolSize_nextValidNode (fu : Nat) (s : Backend) :
    s.poolSize ≤ (s.nextValidNode fu).poolSize := by
  rw [Backend.nextValidNode, rslinkFreeAll_eq]
  simp [poolSize]

theorem nextValidNode {fu : Nat} (h : Issuing cfg limit s roq done) (unit : fu < numFu) :
    ∃ done, Issuing cfg limit (s.nextValidNode fu) roq done := by
  have step : Micro cfg True (fun _ => True) s (s.nextValidNode fu) := .nextValidNode unit
  obtain ⟨done', alert⟩ := alert_step h.alert step (h.alert.coherent.nextValidNode unit)
  rw [Backend.nextValidNode, rslinkFreeAll_eq] at alert ⊢
  exact ⟨done', alert, ⟨h.paced.once, h.paced.soon, h.paced.sorted⟩,
    ⟨h.sched.plain, h.sched.enter⟩, h.undone⟩

/-- What a unit chooses is not issued. -/
theorem choose (fu : Nat) (alert : Alert cfg s roq done) (paced : Paced limit s roq)
    (sched : Scheduled s roq)
    (others : cfg.simHasBypass = false → ∀ u ≠ fu, s.Undone roq u) :
    ∃ done, Issuing cfg limit (s.choose fu) roq done := by
  have step : Micro cfg True (fun _ => True) s (s.choose fu) := .choose fu
  obtain ⟨done', alert'⟩ := alert_step alert step (alert.coherent.choose fu)
  refine ⟨done', alert', ⟨paced.once, paced.soon, paced.sorted⟩, ⟨sched.plain, sched.enter⟩,
    fun plain u l held valid here => ?_⟩
  change Function.update s.nextIssueItem fu _ u = some l at held
  by_cases eq : u = fu
  · rw [eq, Function.update_self] at held
    obtain ⟨x, first, rfl⟩ := Option.map_eq_some_iff.mp held
    have queued : x ∈ s.readyQueue fu := List.mem_of_mem_head? first
    have due := (alert.ready_due queued valid).2.1
    obtain ⟨-, -, test⟩ := issuable_of_due alert.coherent (List.mem_append_left _ here) due
    simp only [issuable, Bool.and_eq_true, Bool.not_eq_true'] at test
    exact test.1.2
  · rw [Function.update_of_ne eq] at held
    exact others plain u eq l held valid here

end Issuing

/-- What a unit does with the instruction that it has chosen. -/
def pick (cfg : BackendConfig) (fu : Nat) (s : Backend) : Option Backend :=
  match s.chosen cfg fu with
  | none => some s
  | some l =>
    if !issuable (s.desc l.rs) then none
    else if s.unitBusy (s.desc l.rs).fu.unit ≠ 0 ∨ s.fuBusy (s.desc l.rs).fu then some s
    else if (s.desc l.rs).fu.unit ≠ fu then none
    else s.issueInst l

theorem issueUnit_eq (fu : Nat) (s : Backend) : s.issueUnit cfg fu =
    if cfg.simHasBypass then pick cfg fu (s.nextValidNode fu)
    else (pick cfg fu s).map fun u => (u.nextValidNode fu).choose fu := by
  cases bypass : cfg.simHasBypass with
  | true =>
    simp only [issueUnit, bypass, if_true]
    exact Option.map_id'
  | false =>
    simp only [issueUnit, bypass, Bool.false_eq_true, if_false]
    rfl

/-- The chosen instruction is issued or waits. -/
theorem pick_cases {fu : Nat} (h : Issuing cfg limit s roq done)
    (front : cfg.simHasBypass = true → ∃ u : Backend, s = u.nextValidNode fu) :
    pick cfg fu s = some s ∨ ∃ x ∈ s.readyQueue fu, s.chosen cfg fu = some x.2 ∧
      s.rslinkValid x.2 = true ∧ x.2.rs ∈ roq ∧ (s.desc x.2.rs).fu.unit = fu ∧
      issuable (s.desc x.2.rs) = true ∧ s.unitBusy fu = 0 ∧
      s.fuBusy (s.desc x.2.rs).fu = false ∧ pick cfg fu s = s.issueInst x.2 := by
  cases which : s.chosen cfg fu with
  | none =>
    left
    rw [pick, which]
  | some l =>
    obtain ⟨valid, x, inside, rfl⟩ := h.going.chosen_held h.alert front which
    obtain ⟨flight, due, -⟩ := h.alert.ready_due inside valid
    obtain ⟨here, unit, test⟩ := issuable_of_due h.alert.coherent flight due
    have pass : ¬(!issuable (s.desc x.2.rs)) = true := by simp [test]
    simp only [pick, which, if_neg pass]
    split_ifs with busy other
    · exact .inl rfl
    · exact absurd unit other
    · rw [not_or, not_not, Bool.not_eq_true] at busy
      exact .inr ⟨x, inside, rfl, valid, here, unit, test, unit ▸ busy.1, busy.2, rfl⟩

theorem pick_total {fu : Nat} (h : Issuing cfg limit s roq done) (ported : s.Ported)
    (pool : 0 < s.poolSize)
    (front : cfg.simHasBypass = true → ∃ u : Backend, s = u.nextValidNode fu) :
    ∃ t, pick cfg fu s = some t ∧ t.Ported ∧ s.poolSize ≤ t.poolSize := by
  rcases pick_cases h front with same | ⟨x, inside, -, -, here, unit, test, idle, -, same⟩
  · exact ⟨s, same, ported, Nat.le_refl _⟩
  · obtain ⟨t, e, more, ported'⟩ :=
      h.going.issueInst_total h.sched ported pool inside here unit test idle
    exact ⟨t, same.trans e, ported', more⟩

theorem pick_issuing {fu : Nat} (h : Issuing cfg limit s roq done)
    (front : cfg.simHasBypass = true → ∃ u : Backend, s = u.nextValidNode fu)
    (e : pick cfg fu s = some t) : ∃ done, Alert cfg t roq done ∧ Paced limit t roq ∧
      Scheduled t roq ∧ (cfg.simHasBypass = false → ∀ u ≠ fu, t.Undone roq u) := by
  rcases pick_cases h front with
    same | ⟨x, inside, which, valid, here, unit, test, -, free, same⟩
  · cases same.symm.trans e
    exact ⟨done, h.alert, h.paced, h.sched, fun plain u _ => h.undone plain u⟩
  · replace e := same.symm.trans e
    obtain ⟨paced, others⟩ := h.going.issueInst_paced h.alert unit e
    have step : Micro cfg True (fun _ => True) s t := .issueInst which valid test free unit e
    have coherent := h.alert.coherent.issueInst which valid test e
    obtain ⟨done', alert⟩ := alert_step h.alert step coherent
    exact ⟨done', alert, paced, h.sched.issueInst h.alert.coherent here test e, others⟩

theorem issueUnit {fu : Nat} (unit : fu < numFu) (h : Issuing cfg limit s roq done)
    (e : s.issueUnit cfg fu = some t) : ∃ done, Issuing cfg limit t roq done := by
  rw [issueUnit_eq] at e
  split_ifs at e with bypass
  · obtain ⟨done', next⟩ := h.nextValidNode unit
    obtain ⟨done'', alert, paced, sched, -⟩ := pick_issuing next (fun _ => ⟨s, rfl⟩) e
    exact ⟨done'', alert, paced, sched, fun no => Bool.noConfusion (bypass.symm.trans no)⟩
  · obtain ⟨u, picked, rfl⟩ := Option.map_eq_some_iff.mp e
    obtain ⟨done', alert, paced, sched, others⟩ :=
      pick_issuing h (fun yes => absurd yes bypass) picked
    have step : Micro cfg True (fun _ => True) u (u.nextValidNode fu) := .nextValidNode unit
    obtain ⟨done'', alert'⟩ := alert_step alert step (alert.coherent.nextValidNode unit)
    rw [Backend.nextValidNode, rslinkFreeAll_eq] at alert' ⊢
    exact Issuing.choose fu alert' ⟨paced.once, paced.soon, paced.sorted⟩
      ⟨sched.plain, sched.enter⟩ others

/-- A unit of `issue_stage` never fails. -/
theorem issueUnit_total {fu : Nat} (unit : fu < numFu) (h : Issuing cfg limit s roq done)
    (ported : s.Ported) (pool : 0 < s.poolSize) :
    ∃ t, s.issueUnit cfg fu = some t ∧ t.Ported ∧ s.poolSize ≤ t.poolSize := by
  rw [issueUnit_eq]
  split_ifs with bypass
  · obtain ⟨done', next⟩ := h.nextValidNode unit
    have more := Issuing.poolSize_nextValidNode fu s
    obtain ⟨t, e, ported', kept⟩ := pick_total next (Issuing.ported_nextValidNode fu ported)
      (Nat.lt_of_lt_of_le pool more) fun _ => ⟨s, rfl⟩
    exact ⟨t, e, ported', more.trans kept⟩
  · obtain ⟨u, e, ported', kept⟩ := pick_total h ported pool fun yes => absurd yes bypass
    have more := Issuing.poolSize_nextValidNode fu u
    have pruned : (u.nextValidNode fu).Ported := Issuing.ported_nextValidNode fu ported'
    exact ⟨_, Option.map_eq_some_iff.mpr ⟨u, e, rfl⟩, pruned, kept.trans more⟩

theorem issueUnits {l : List Nat} (units : ∀ fu ∈ l, fu < numFu)
    (h : Issuing cfg limit s roq done)
    (e : l.foldlM (fun s fu => s.issueUnit cfg fu) s = some t) :
    ∃ done, Issuing cfg limit t roq done := by
  induction l generalizing s done with
  | nil =>
    cases e
    exact ⟨done, h⟩
  | cons fu l ih =>
    obtain ⟨u, first, e⟩ := Option.bind_eq_some_iff.mp e
    obtain ⟨done', next⟩ := issueUnit (units fu List.mem_cons_self) h first
    exact ih (fun v hv => units v (List.mem_cons_of_mem _ hv)) next e

/-- All the units of `issue_stage`. -/
theorem issueUnits_total {l : List Nat} (units : ∀ fu ∈ l, fu < numFu)
    (h : Issuing cfg limit s roq done) (ported : s.Ported) (pool : 0 < s.poolSize) :
    ∃ t, l.foldlM (fun s fu => s.issueUnit cfg fu) s = some t ∧ s.poolSize ≤ t.poolSize := by
  induction l generalizing s done with
  | nil => exact ⟨s, rfl, Nat.le_refl _⟩
  | cons fu l ih =>
    obtain ⟨u, e, ported', more⟩ := issueUnit_total (units fu List.mem_cons_self) h ported pool
    obtain ⟨done', next⟩ := issueUnit (units fu List.mem_cons_self) h e
    obtain ⟨t, rest, kept⟩ := ih (fun v hv => units v (List.mem_cons_of_mem _ hv)) next ported'
      (Nat.lt_of_lt_of_le pool more)
    refine ⟨t, ?_, more.trans kept⟩
    rw [List.foldlM_cons, e]
    exact rest

theorem issueStage (h : Going cfg limit s roq done) (alert : Alert cfg s roq done)
    (sched : Scheduled s roq) (e : s.issueStage cfg = some t) :
    ∃ done, Going cfg limit t roq done := by
  obtain ⟨done', issuing⟩ := issueUnits (fun _ hu => List.mem_range.mp hu)
    ⟨alert, h.paced, sched, h.undone⟩ e
  exact ⟨done', issuing.going⟩

/-- `issue_stage` never fails, and leaves as many free links as there were. -/
theorem issueStage_total (h : Going cfg limit s roq done) (alert : Alert cfg s roq done)
    (sched : Scheduled s roq) (ported : s.Ported) (pool : 0 < s.poolSize) :
    ∃ t, s.issueStage cfg = some t ∧ s.poolSize ≤ t.poolSize :=
  issueUnits_total (fun _ hu => List.mem_range.mp hu) ⟨alert, h.paced, sched, h.undone⟩ ported pool

end Issue

section Map

/-- `map_inst` takes a link at most, and fails without one only. -/
theorem mapInst_total (pool : 0 < s.poolSize) : ∃ t, s.mapInst cfg = some t := by
  cases queue : s.decodeData with
  | nil => exact ⟨s, by rw [Backend.mapInst, queue]⟩
  | cons d rest =>
    rw [mapInst_eq cfg queue]
    split
    · obtain ⟨t, entered, -⟩ := @readyqEnqueue_total (s.placed cfg d rest) pool d
      exact ⟨t, entered⟩
    · exact ⟨_, rfl⟩

theorem mapLoop_total {n : Nat} (h : Going cfg limit s roq done) (room : Room cfg s n)
    (pool : n ≤ s.poolSize) : ∃ t, s.mapLoop cfg n = some t := by
  induction n generalizing s roq done with
  | zero => exact ⟨s, rfl⟩
  | succ n ih =>
    obtain ⟨u, first⟩ := @mapInst_total cfg s (by omega)
    rw [Backend.mapLoop, first, Option.bind_some]
    cases queue : s.decodeData with
    | nil =>
      rw [Backend.mapInst, queue] at first
      cases first
      refine ih h ?_ (by omega)
      obtain ⟨roq, lsq, intIssue, fpIssue, intRename, fpRename⟩ := room
      constructor <;> omega
    | cons d rest =>
      have front : d ∈ s.decodeData := queue ▸ List.mem_cons_self
      have single := h.coherent.single d front
      have one : Room cfg s 1 := by
        obtain ⟨roq, lsq, intIssue, fpIssue, intRename, fpRename⟩ := room
        constructor <;> omega
      have outside : d ∉ roq := fun hd => (h.coherent.flow.apart hd).2.2.1 front
      have less := (Keeps.mapInst outside queue first).pool
      exact ih (h.mapInst queue one first) (mapInst_room queue single room first) (by omega)

theorem mapStage_total (h : Going cfg limit s roq done) (pool : cfg.mapWidth ≤ s.poolSize) :
    ∃ t, s.mapStage cfg = some t := by
  rw [mapStage]
  split_ifs with full
  · exact ⟨s, rfl⟩
  · exact h.mapLoop_total (room_of_space (Bool.eq_false_of_not_eq_true full))
      (Nat.le_trans (Nat.min_le_left ..) pool)

theorem mapStage (h : Going cfg limit s roq done) (e : s.mapStage cfg = some t) :
    ∃ roq done, Going cfg limit t roq done := by
  rw [Backend.mapStage] at e
  split_ifs at e with full
  · cases e
    exact ⟨roq, done, h⟩
  · exact h.mapLoop (room_of_space (Bool.eq_false_of_not_eq_true full)) e

end Map

end Going

end Godson.Backend

import Godson.Coherent

/-! What the steps of the pipeline change in the work of the instructions: their numbers,
operations and units, and how far they have come. -/
namespace Godson.Backend

open Mips

variable {cfg : BackendConfig} {s t u : Backend} {d : Nat}

section Frames

/-- The work of the instructions, and what is counted of it. -/
structure Works where
  counters : Coherent.Counters
  fuBusy : Fu → Bool
  instSeq : Nat
  retired : List Nat
  seq : Nat → Nat
  op : Nat → Op
  fu : Nat → Fu
  issued : Nat → Bool
  completed : Nat → Bool

def works (s : Backend) : Works :=
  ⟨Coherent.counters s, s.fuBusy, s.instSeq, s.retired, fun d => (s.desc d).seq, fun d => (s.desc d).op,
    fun d => (s.desc d).fu, fun d => (s.desc d).issued, fun d => (s.desc d).completed⟩

theorem work_eq (same : t.works = s.works) (d : Nat) : (t.desc d).op = (s.desc d).op ∧
    (t.desc d).fu = (s.desc d).fu ∧ (t.desc d).issued = (s.desc d).issued ∧
    (t.desc d).completed = (s.desc d).completed :=
  ⟨congrFun (congrArg Works.op same) d, congrFun (congrArg Works.fu same) d,
    congrFun (congrArg Works.issued same) d, congrFun (congrArg Works.completed same) d⟩

theorem busy_eq (same : t.works = s.works) : t.fuBusy = s.fuBusy := congrArg Works.fuBusy same

theorem works_modDesc {rs : Nat} (f : Descript → Descript)
    (same : (f (s.desc rs)).seq = (s.desc rs).seq ∧ (f (s.desc rs)).op = (s.desc rs).op ∧
      (f (s.desc rs)).fu = (s.desc rs).fu ∧
      (f (s.desc rs)).issued = (s.desc rs).issued ∧
      (f (s.desc rs)).completed = (s.desc rs).completed) :
    (s.modDesc rs f).works = s.works := by
  obtain ⟨seq, op, fu, issued, completed⟩ := same
  simp only [works, modDesc, Works.mk.injEq, true_and]
  refine ⟨rfl, ?_, ?_, ?_, ?_, ?_⟩ <;> funext d <;> by_cases eq : d = rs <;> simp [*]

theorem works_readyqEnqueue {rs : Nat} (e : s.readyqEnqueue rs = some t) : t.works = s.works := by
  obtain ⟨id, pool, -, rfl⟩ := readyqEnqueue_some e
  have same : (s.modDesc rs fun d => { d with queued := true }).works = s.works :=
    works_modDesc _ ⟨rfl, rfl, rfl, rfl, rfl⟩
  exact same

theorem works_eventqQueueEvent {rs time : Nat} (e : s.eventqQueueEvent rs time = some t) :
    t.works = s.works := by
  obtain ⟨-, id, pool, -, rfl⟩ := eventqQueueEvent_some e
  rfl

theorem works_clearLevels (rs out name n level : Nat) (s : Backend) :
    (s.clearLevels rs out name n level).works = s.works := by
  induction n generalizing level s with
  | zero => rfl
  | succ n ih =>
    rw [clearLevels]
    split
    · rw [ih]
      rfl
    · rfl

theorem works_updateCreateVector (rs : Nat) (s : Backend) :
    (s.updateCreateVector rs).works = s.works := by
  have one (out : Nat) (u : Backend) : (updateOutput rs u out).works = u.works := by
    simp only [updateOutput]
    split
    · rfl
    · exact works_clearLevels ..
  exact (one 1 _).trans (one 0 s)

theorem works_wakeOne {x : Nat × RsLink} (e : s.wakeOne x = some t) : t.works = s.works := by
  have ready : (s.ready x).works = s.works := works_modDesc _ ⟨rfl, rfl, rfl, rfl, rfl⟩
  rcases wakeOne_some e with ⟨-, rfl⟩ | ⟨-, -, ⟨-, rfl⟩ | ⟨-, u, entered, rfl⟩⟩
  · rfl
  · exact ready
  · exact (works_readyqEnqueue entered).trans ready

theorem works_broadcast {rs out : Nat} (e : s.broadcast rs out = some t) : t.works = s.works := by
  rcases broadcast_some e with ⟨-, rfl⟩ | ⟨-, u, woken, rfl⟩
  · rfl
  · have all {l : List (Nat × RsLink)} {v : Backend} (e : l.foldlM wakeOne v = some u) :
        u.works = v.works := by
      induction l generalizing v with
      | nil =>
        cases e
        rfl
      | cons x l ih =>
        obtain ⟨w, first, e⟩ := Option.bind_eq_some_iff.mp e
        exact (ih e).trans (works_wakeOne first)
    rw [works_modDesc _ ⟨rfl, rfl, rfl, rfl, rfl⟩, all woken, works_updateCreateVector]

theorem works_finish {rs : Nat} (e : s.finish rs = some t) : t.works = (s.finished rs).works := by
  obtain ⟨-, u, first, second⟩ := finish_some e
  exact (works_broadcast second).trans (works_broadcast first)

/-- An instruction that is issued leaves its issue queue. -/
theorem works_issueInst {l : RsLink} (e : s.issueInst l = some t) :
    t.works = { (s.issued l.rs).works with
      counters := { Coherent.counters s with
        intIssue := t.intIssueNum, fpIssue := t.fpIssueNum } } ∧
      t.intIssueNum ≤ s.intIssueNum ∧ t.fpIssueNum ≤ s.fpIssueNum := by
  obtain ⟨u, v, oplat, first, rfl, e⟩ := issueInst_some e
  obtain ⟨-, rfl⟩ := deleteNode_some e
  have same : u.works = (s.issued l.rs).works := by
    split at first
    · obtain ⟨-, -, -, rfl⟩ := lsqIssue_some first
      rfl
    · exact works_eventqQueueEvent first
  have int : u.intIssueNum = s.intIssueNum :=
    congrArg (fun w : Works => w.counters.intIssue) same
  have fp : u.fpIssueNum = s.fpIssueNum := congrArg (fun w : Works => w.counters.fpIssue) same
  have less (b : Bool) (n : Int) : (if b = true then n + -1 else n) ≤ n ∧
      (if b = true then n else n + -1) ≤ n := by
    constructor <;> split <;> omega
  refine ⟨?_, ?_, ?_⟩
  · have whole := congrArg (fun w : Works => { w with
      counters := { w.counters with
        intIssue := (u.countIssue (u.desc l.rs).inIntq (-1)).intIssueNum
        fpIssue := (u.countIssue (u.desc l.rs).inIntq (-1)).fpIssueNum } }) same
    rw [countIssue_eq] at whole ⊢
    exact whole
  · rw [countIssue_eq]
    exact (less _ _).1.trans int.le
  · rw [countIssue_eq]
    exact (less _ _).2.trans fp.le

theorem works_tracerRecover (once : s.decodeData.Nodup) (level : Nat) :
    (s.tracerRecover level).works = s.works := by
  rw [tracerRecover_eq once]
  simp only [works, Works.mk.injEq, true_and]
  refine ⟨rfl, ?_, ?_, ?_, ?_, ?_⟩ <;> funext d <;> by_cases decoded : d ∈ s.decodeData <;>
    simp [decoded, squashed]

theorem works_dcache (a : LsqAnswer) (s : Backend) : (s.dcache a).works = s.works := by
  rw [dcache_eq]
  have first : (s.toDtagcmp a).works = s.works := by
    unfold toDtagcmp
    split <;> rfl
  rw [← first]
  unfold toDcache
  split <;> rfl

theorem works_lsqLook {a : LsqAnswer} (e : s.lsqLook cfg a = some t) : t.works = s.works := by
  have first (u : Backend) : (u.dtagcmp a).works = u.works := by
    unfold dtagcmp
    split <;> rfl
  simp only [lsqLook] at e
  split at e
  · exact (works_eventqQueueEvent e).trans (first { s with lsqWtbki := s.lsqSelect cfg a })
  · cases e
    exact first { s with lsqWtbki := s.lsqSelect cfg a }

theorem works_nextValidNode (fu : Nat) (s : Backend) : (s.nextValidNode fu).works = s.works := by
  rw [nextValidNode, rslinkFreeAll_eq]
  rfl

end Frames

end Godson.Backend

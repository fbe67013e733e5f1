import Godson.Works

/-! The branch queue holds the branches of the reorder queue, in their order, and the counters
of the resources stay within what the processor has, when `map_stage` takes no more branches
than fit. -/
namespace Godson.Backend

open Mips

variable {cfg : BackendConfig} {s t u : Backend} {roq done : List Nat} {d : Nat}

/-- The branches among the instructions. -/
def branches (s : Backend) (l : List Nat) : List Nat := l.filter fun d => (s.desc d).ctrl

/-- The branch queue with the instructions `roq` in the reorder queue. -/
structure Branches (cfg : BackendConfig) (s : Backend) (roq : List Nat) : Prop where
  ring : Ring.Holds cfg.brqIfqSize s.brq s.brqHead (s.branches roq)
  num : s.brqNum = (s.branches roq).length
  tail : s.brqTail = (s.brqHead + (s.branches roq).length) % cfg.brqIfqSize
  brqid : ∀ i, ∀ hi : i < (s.branches roq).length,
    (s.desc (s.branches roq)[i]).brqid = (s.brqHead + i) % cfg.brqIfqSize

/-- The counters are within their limits. -/
structure Bounded (cfg : BackendConfig) (c : Coherent.Counters) : Prop where
  intRename : c.intRename ≤ cfg.intRenameRegSize
  fpRename : c.fpRename ≤ cfg.fpRenameRegSize
  intIssue : c.intIssue ≤ cfg.intIssueIfqSize
  fpIssue : c.fpIssue ≤ cfg.fpIssueIfqSize

theorem branches_snoc (s : Backend) (l : List Nat) (d : Nat) : s.branches (l ++ [d]) =
    s.branches l ++ if (s.desc d).ctrl = true then [d] else [] := by
  rw [branches, List.filter_append, List.filter_singleton, Bool.cond_eq_ite, branches]

namespace Branches

theorem branches_eq (seat : ∀ d ∈ roq, (t.desc d).seat = (s.desc d).seat) :
    t.branches roq = s.branches roq :=
  List.filter_congr fun d hd => congrArg Seat.ctrl (seat d hd)

theorem congr (h : Branches cfg s roq) (count : Coherent.counters t = Coherent.counters s)
    (seat : ∀ d ∈ roq, (t.desc d).seat = (s.desc d).seat) :
    Branches cfg t roq := by
  have same := branches_eq seat
  have brq : t.brq = s.brq := congrArg Coherent.Counters.brq count
  have head : t.brqHead = s.brqHead := congrArg Coherent.Counters.brqHead count
  have tail : t.brqTail = s.brqTail := congrArg Coherent.Counters.brqTail count
  have num : t.brqNum = s.brqNum := congrArg Coherent.Counters.brqNum count
  constructor
  case ring =>
    rw [same, brq, head]
    exact h.ring
  case num =>
    rw [same, num]
    exact h.num
  case tail =>
    rw [same, tail, head]
    exact h.tail
  case brqid =>
    rw [same, head]
    intro i hi
    have here : (s.branches roq)[i] ∈ roq := List.mem_of_mem_filter (List.getElem_mem hi)
    rw [show (t.desc _).brqid = _ from congrArg Seat.brqid (seat _ here)]
    exact h.brqid i hi

/-- A step that moves no instruction. -/
theorem still (h : Branches cfg s roq) (works : t.works = s.works) (place : t.place = s.place) :
    Branches cfg t roq :=
  h.congr (congrArg Works.counters works) fun d _ => congrFun (congrArg Place.seat place) d

/-- The oldest instruction leaves, and with it the first entry when it is a branch. -/
theorem retire (h : Branches cfg s (d :: roq)) (e : s.retire cfg d = some t) :
    Branches cfg t roq := by
  obtain ⟨first, -, -, moved⟩ := retire_some e
  have desc : t.desc = s.desc := by rw [moved]
  have same : t.branches roq = s.branches roq := by rw [branches, branches, desc]
  by_cases ctrl : (s.desc d).ctrl = true
  · have cons : s.branches (d :: roq) = d :: s.branches roq := List.filter_cons_of_pos ctrl
    have brq : t.brq = Function.update s.brq s.brqHead none := by
      rw [moved]
      exact if_pos ctrl
    have head : t.brqHead = (s.brqHead + 1) % cfg.brqIfqSize := by
      rw [moved]
      exact if_pos ctrl
    have tail : t.brqTail = s.brqTail := by rw [moved]
    have num : t.brqNum = s.brqNum - 1 := by
      rw [moved]
      exact if_pos ctrl
    obtain ⟨ring, count, last, brqid⟩ := h
    rw [cons] at ring count last
    simp only [cons] at brqid
    constructor
    case ring =>
      rw [same, brq, head]
      exact ring.pop
    case num =>
      rw [same, num, count, List.length_cons]
      omega
    case tail =>
      rw [same, tail, head, last, List.length_cons, Nat.mod_add_mod]
      congr 1
      omega
    case brqid =>
      intro i hi
      simp only [same] at hi ⊢
      have next := brqid (i + 1) (by rw [List.length_cons]; omega)
      rw [List.getElem_cons_succ] at next
      rw [desc, head, next, Nat.mod_add_mod]
      congr 1
      omega
  · have cons : s.branches (d :: roq) = s.branches roq := List.filter_cons_of_neg ctrl
    have brq : t.brq = s.brq := by
      rw [moved]
      exact if_neg ctrl
    have head : t.brqHead = s.brqHead := by
      rw [moved]
      exact if_neg ctrl
    have tail : t.brqTail = s.brqTail := by rw [moved]
    have num : t.brqNum = s.brqNum := by
      rw [moved]
      exact if_neg ctrl
    obtain ⟨ring, count, last, brqid⟩ := h
    rw [cons] at ring count last
    simp only [cons] at brqid
    constructor
    case ring => rwa [same, brq, head]
    case num => rwa [same, num]
    case tail => rwa [same, tail, head]
    case brqid => simpa only [same, desc, head] using brqid

/-- The youngest instruction is squashed, and with it the last entry when it is a branch. -/
theorem squashLast (h : Branches cfg s (roq ++ [d])) (flow : Passage cfg s.place (roq ++ [d]) done)
    (e : s.squashLast cfg = some t) : Branches cfg t roq := by
  obtain ⟨-, moved⟩ := squashLast_some flow.last e
  have seat (j : Nat) : (t.desc j).seat = (s.desc j).seat := by
    rw [moved]
    by_cases eq : j = d <;> simp [eq, squashed, Descript.seat]
  have same : t.branches roq = s.branches roq := branches_eq fun j _ => seat j
  have ids (j : Nat) : (t.desc j).brqid = (s.desc j).brqid := congrArg Seat.brqid (seat j)
  have head : t.brqHead = s.brqHead := by rw [moved]
  by_cases ctrl : (s.desc d).ctrl = true
  · have snoc : s.branches (roq ++ [d]) = s.branches roq ++ [d] := by
      rw [branches_snoc, if_pos ctrl]
    have brq : t.brq = Function.update s.brq (s.desc d).brqid none := by
      rw [moved]
      exact if_pos ctrl
    have tail : t.brqTail = (s.brqTail + cfg.brqIfqSize - 1) % cfg.brqIfqSize := by
      rw [moved]
      exact if_pos ctrl
    have num : t.brqNum = s.brqNum - 1 := by
      rw [moved]
      exact if_pos ctrl
    obtain ⟨ring, count, last, brqid⟩ := h
    rw [snoc] at ring count last
    simp only [snoc] at brqid
    have id : (s.desc d).brqid = (s.brqHead + (s.branches roq).length) % cfg.brqIfqSize := by
      have own := brqid (s.branches roq).length (by simp)
      simpa using own
    have room : 0 < cfg.brqIfqSize := by
      have le := ring.length_le
      rw [List.length_append, List.length_singleton] at le
      omega
    constructor
    case ring =>
      rw [same, brq, head, id]
      exact ring.unput
    case num =>
      rw [same, num, count, List.length_append, List.length_singleton]
      omega
    case tail =>
      rw [same, tail, head, last, List.length_append, List.length_singleton]
      have back := Nat.mod_add_mod (s.brqHead + ((s.branches roq).length + 1)) cfg.brqIfqSize
        (cfg.brqIfqSize - 1)
      rw [show ∀ a, a + cfg.brqIfqSize - 1 = a + (cfg.brqIfqSize - 1) from fun a => by omega, back]
      have whole : s.brqHead + ((s.branches roq).length + 1) + (cfg.brqIfqSize - 1) =
          s.brqHead + (s.branches roq).length + cfg.brqIfqSize := by omega
      rw [whole, Nat.add_mod_right]
    case brqid =>
      intro i hi
      simp only [same] at hi ⊢
      have own := brqid i (by rw [List.length_append]; omega)
      rw [List.getElem_append_left hi] at own
      rw [ids, head, own]
  · have snoc : s.branches (roq ++ [d]) = s.branches roq := by
      rw [branches_snoc, if_neg ctrl, List.append_nil]
    have brq : t.brq = s.brq := by
      rw [moved]
      exact if_neg ctrl
    have tail : t.brqTail = s.brqTail := by
      rw [moved]
      exact if_neg ctrl
    have num : t.brqNum = s.brqNum := by
      rw [moved]
      exact if_neg ctrl
    obtain ⟨ring, count, last, brqid⟩ := h
    rw [snoc] at ring count last
    simp only [snoc] at brqid
    constructor
    case ring => rwa [same, brq, head]
    case num => rwa [same, num]
    case tail => rwa [same, tail, head]
    case brqid => simpa only [same, ids, head] using brqid

/-- A branch goes to the end of the branch queue. -/
theorem mapInst {rest : List Nat} (h : Branches cfg s roq) (outside : d ∉ roq)
    (queue : s.decodeData = d :: rest)
    (room : (s.desc d).ctrl = true → s.brqNum < cfg.brqIfqSize)
    (e : s.mapInst cfg = some t) : Branches cfg t (roq ++ [d]) := by
  have placed : Branches cfg (s.placed cfg d rest) (roq ++ [d]) := by
    have other {j : Nat} (hj : j ∈ roq) : (s.placed cfg d rest).desc j = s.desc j := by
      refine Function.update_of_ne ?_ ..
      rintro rfl
      exact outside hj
    have old : (s.placed cfg d rest).branches roq = s.branches roq :=
      List.filter_congr fun j hj => by rw [other hj]
    have kind : ((s.placed cfg d rest).desc d).ctrl = (s.desc d).ctrl := by
      simp [Backend.placed, Descript.ctrl]
    have id : ((s.placed cfg d rest).desc d).brqid = s.brqTail := by simp [Backend.placed]
    have head : (s.placed cfg d rest).brqHead = s.brqHead := rfl
    have num := h.num
    by_cases ctrl : (s.desc d).ctrl = true
    · have space := room ctrl
      have snoc : (s.placed cfg d rest).branches (roq ++ [d]) = s.branches roq ++ [d] := by
        rw [branches_snoc, if_pos (kind.trans ctrl), old]
      have brq : (s.placed cfg d rest).brq = Function.update s.brq s.brqTail (some d) := by
        simp only [Backend.placed, if_pos ctrl]
      have tail : (s.placed cfg d rest).brqTail = (s.brqTail + 1) % cfg.brqIfqSize := by
        simp only [Backend.placed, if_pos ctrl]
      have more : (s.placed cfg d rest).brqNum = s.brqNum + 1 := by
        simp only [Backend.placed, if_pos ctrl]
      constructor
      case ring =>
        rw [snoc, brq, head, h.tail]
        exact h.ring.put (by omega) d
      case num =>
        rw [snoc, more, num, List.length_append, List.length_singleton]
        omega
      case tail =>
        rw [snoc, tail, head, h.tail, Nat.mod_add_mod, List.length_append, List.length_singleton,
          Nat.add_assoc]
      case brqid =>
        intro i hi
        simp only [snoc] at hi ⊢
        rw [List.length_append, List.length_singleton] at hi
        by_cases before : i < (s.branches roq).length
        · rw [List.getElem_append_left before,
            other (List.mem_of_mem_filter (List.getElem_mem before))]
          exact h.brqid i before
        · obtain rfl : i = (s.branches roq).length := by omega
          simp only [List.getElem_append_right (Nat.le_refl _), Nat.sub_self,
            List.getElem_cons_zero]
          rw [id, h.tail]
          rfl
    · have snoc : (s.placed cfg d rest).branches (roq ++ [d]) = s.branches roq := by
        rw [branches_snoc, if_neg fun is => ctrl (kind.symm.trans is), List.append_nil, old]
      have brq : (s.placed cfg d rest).brq = s.brq := by simp only [Backend.placed, if_neg ctrl]
      have tail : (s.placed cfg d rest).brqTail = s.brqTail := by
        simp only [Backend.placed, if_neg ctrl]
      have more : (s.placed cfg d rest).brqNum = s.brqNum := by
        simp only [Backend.placed, if_neg ctrl]
      constructor
      case ring =>
        rw [snoc, brq, head]
        exact h.ring
      case num => rw [snoc, more, num]
      case tail =>
        rw [snoc, tail, head]
        exact h.tail
      case brqid =>
        intro i hi
        simp only [snoc] at hi ⊢
        rw [other (List.mem_of_mem_filter (List.getElem_mem hi))]
        exact h.brqid i hi
  rw [mapInst_eq cfg queue] at e
  split_ifs at e
  · refine placed.congr (congrArg Works.counters (works_readyqEnqueue e)) fun j _ => ?_
    exact congrFun (congrArg Place.seat (layout_eq.mp (layout_readyqEnqueue e)).1) j
  · cases e
    exact placed

theorem squashAll {gone : List Nat} (h : Branches cfg s (roq ++ gone))
    (flow : Passage cfg s.place (roq ++ gone) done) (e : s.squashAll cfg gone.length = some t) :
    Branches cfg t roq := by
  refine (squashAll_invariant (P := fun roq u => Branches cfg u roq ∧ Passage cfg u.place roq done)
    (fun roq d u v h e => ?_) ⟨h, flow⟩ e).1
  exact ⟨h.1.squashLast h.2 e, flow_squashLast h.2 e⟩

theorem tracerRecover (h : Branches cfg s roq) (once : s.decodeData.Nodup) (level : Nat) :
    Branches cfg (s.tracerRecover level) roq := by
  rw [tracerRecover_eq once]
  refine h.congr rfl fun d _ => ?_
  by_cases decoded : d ∈ s.decodeData <;> simp [decoded, squashed, Descript.seat]

theorem pipelineFlush (h : Branches cfg s roq) (flow : Passage cfg s.place roq done)
    (e : s.pipelineFlush cfg = some t) : Branches cfg t [] := by
  obtain ⟨u, dropped, all, rfl⟩ := pipelineFlush_some flow e
  have before : Branches cfg (s.tracerRecover 0) ([] ++ roq) := h.tracerRecover (decode_nodup flow) 0
  exact (before.squashAll dropped all).congr rfl fun _ _ => rfl

theorem brerrRecover {i : Nat} (h : Branches cfg s roq) (flow : Passage cfg s.place roq done)
    (hi : i < roq.length) (slot : i + 1 < roq.length) (e : s.brerrRecover cfg roq[i] = some t) :
    Branches cfg t (roq.take (lastKept (s.desc roq[i]) i + 1)) := by
  obtain ⟨u, squashed, rfl⟩ := brerrRecover_some flow hi slot e
  generalize lastKept (s.desc roq[i]) i + 1 = n at *
  have whole := List.take_append_drop n roq
  rw [← whole] at flow h
  rw [← List.length_drop] at squashed
  exact (h.squashAll flow squashed).tracerRecover (decode_nodup (flow_squashAll flow squashed)) _

end Branches

namespace Bounded

/-- Resources are given back. -/
theorem mono {c c' : Coherent.Counters} (h : Bounded cfg c)
    (less : c'.intRename ≤ c.intRename ∧ c'.fpRename ≤ c.fpRename ∧ c'.intIssue ≤ c.intIssue ∧
      c'.fpIssue ≤ c.fpIssue) : Bounded cfg c' :=
  ⟨less.1.trans h.intRename, less.2.1.trans h.fpRename, less.2.2.1.trans h.intIssue,
    less.2.2.2.trans h.fpIssue⟩

theorem squashLast (h : Bounded cfg (Coherent.counters s))
    (flow : Passage cfg s.place (roq ++ [d]) done) (e : s.squashLast cfg = some t) :
    Bounded cfg (Coherent.counters t) := by
  obtain ⟨-, rfl⟩ := squashLast_some flow.last e
  refine h.mono ⟨?_, ?_, ?_, ?_⟩ <;> simp only [Coherent.counters]
  · omega
  · omega
  · split <;> omega
  · split <;> omega

theorem squashAll {gone : List Nat} (h : Bounded cfg (Coherent.counters s))
    (flow : Passage cfg s.place (roq ++ gone) done) (e : s.squashAll cfg gone.length = some t) :
    Bounded cfg (Coherent.counters t) := by
  refine (squashAll_invariant (P := fun roq u => Bounded cfg (Coherent.counters u) ∧
    Passage cfg u.place roq done) (fun roq d u v h e => ?_) ⟨h, flow⟩ e).1
  exact ⟨h.1.squashLast h.2 e, flow_squashLast h.2 e⟩

theorem tracerRecover (h : Bounded cfg (Coherent.counters s)) (once : s.decodeData.Nodup)
    (level : Nat) : Bounded cfg (Coherent.counters (s.tracerRecover level)) := by
  rw [tracerRecover_eq once]
  exact h

theorem pipelineFlush (h : Bounded cfg (Coherent.counters s))
    (flow : Passage cfg s.place roq done) (e : s.pipelineFlush cfg = some t) :
    Bounded cfg (Coherent.counters t) := by
  obtain ⟨u, dropped, all, rfl⟩ := pipelineFlush_some flow e
  have after : Bounded cfg (Coherent.counters u) :=
    (h.tracerRecover (decode_nodup flow) 0).squashAll dropped all
  exact after

theorem brerrRecover {i : Nat} (h : Bounded cfg (Coherent.counters s))
    (flow : Passage cfg s.place roq done) (hi : i < roq.length) (slot : i + 1 < roq.length)
    (e : s.brerrRecover cfg roq[i] = some t) : Bounded cfg (Coherent.counters t) := by
  obtain ⟨u, squashed, rfl⟩ := brerrRecover_some flow hi slot e
  generalize lastKept (s.desc roq[i]) i + 1 = n at *
  rw [← List.take_append_drop n roq] at flow
  rw [← List.length_drop] at squashed
  exact (h.squashAll flow squashed).tracerRecover (decode_nodup (flow_squashAll flow squashed)) _

theorem retire (h : Bounded cfg (Coherent.counters s)) (e : s.retire cfg d = some t) :
    Bounded cfg (Coherent.counters t) := by
  obtain ⟨-, -, -, rfl⟩ := retire_some e
  refine h.mono ⟨?_, ?_, ?_, ?_⟩ <;> simp only [Coherent.counters] <;> omega

/-- An instruction takes one register, and one place in an issue queue. -/
theorem mapInst {rest : List Nat}
    (single : (s.desc d).onames 1 = 0) (queue : s.decodeData = d :: rest) (room : Room cfg s 1)
    (e : s.mapInst cfg = some t) : Bounded cfg (Coherent.counters t) := by
  have int : intRegs (s.desc d) ≤ 1 := by
    rw [intRegs, single]
    simp only [ne_eq, not_true_eq_false, false_and, if_false, Nat.add_zero]
    split <;> omega
  have fp : fpRegs (s.desc d) ≤ 1 := by
    rw [fpRegs, single]
    simp only [ne_eq, not_true_eq_false, false_and, if_false, Nat.add_zero]
    split <;> omega
  have placed : Bounded cfg (Coherent.counters (s.placed cfg d rest)) := by
    obtain ⟨-, -, intIssue, fpIssue, intRename, fpRename⟩ := room
    constructor <;> simp only [Coherent.counters, Backend.placed]
    · omega
    · omega
    · split <;> omega
    · split <;> omega
  rw [mapInst_eq cfg queue] at e
  split_ifs at e
  · have same := congrArg Works.counters (works_readyqEnqueue e)
    change Coherent.counters t = _ at same
    rw [same]
    exact placed
  · cases e
    exact placed

end Bounded

section Runs

/-- The resources in a state of the pipeline. -/
def Stocked (cfg : BackendConfig) (s : Backend) : Prop :=
  ∃ roq done, Coherent cfg s roq done ∧ Branches cfg s roq ∧ Bounded cfg (Coherent.counters s)

namespace Stocked

/-- A step that moves no instruction. -/
theorem still (coherent : Coherent cfg t roq done) (brq : Branches cfg s roq)
    (bound : Bounded cfg (Coherent.counters s)) (works : t.works = s.works)
    (place : t.place = s.place) : Stocked cfg t := by
  have count : Coherent.counters t = Coherent.counters s := congrArg Works.counters works
  exact ⟨roq, done, coherent, brq.still works place, count ▸ bound⟩

/-- A step on one instruction in front of the reorder queue. -/
theorem beside (h : Branches cfg s roq ∧ Bounded cfg (Coherent.counters s))
    (same : Coherent.Beside d s t) (outside : d ∉ roq) :
    Branches cfg t roq ∧ Bounded cfg (Coherent.counters t) := by
  refine ⟨h.1.congr same.counters fun j hj => ?_, same.counters ▸ h.2⟩
  have ne : j ≠ d := by
    rintro rfl
    exact outside hj
  exact (same.other j ne).1

theorem deliver {time : Nat} {l : RsLink} {rest : List (Nat × RsLink)}
    (h : Coherent cfg s roq done) (next : Coherent cfg t roq done) (brq : Branches cfg s roq)
    (bound : Bounded cfg (Coherent.counters s)) (queue : s.eventQueue = (time, l) :: rest)
    (e : s.deliver l rest = some t) : Stocked cfg t := by
  have popped : Branches cfg ({ s with eventQueue := rest }.rslinkFree l) roq :=
    brq.congr rfl fun _ _ => rfl
  simp only [Backend.deliver] at e
  split at e
  · rename_i valid
    have front : (time, l) ∈ s.eventQueue := by
      rw [queue]
      exact List.mem_cons_self
    have held : ((s.desc l.rs).mem → (s.lsq (s.desc l.rs).lsqid).state = LsqState.readcache) :=
      fun mem => (h.accesses.event _ front valid).2 mem (finish_some e).1.2.2.2
    have ports : ({ s with eventQueue := rest }.rslinkFree l).Ports :=
      ⟨h.ports.issue, h.ports.dcache, h.ports.dtagcmp⟩
    have place : t.place = s.place := (finish_frame ports e held).1
    have count : Coherent.counters t = Coherent.counters s :=
      congrArg Works.counters (works_finish e)
    exact ⟨roq, done, next, brq.congr count fun d _ => congrFun (congrArg Place.seat place) d, count ▸ bound⟩
  · cases e
    exact ⟨roq, done, next, popped, bound⟩

theorem checkBrq (coherent : Coherent cfg s roq done) (brq : Branches cfg s roq)
    (bound : Bounded cfg (Coherent.counters s)) (e : s.checkBrq cfg = some t) : Stocked cfg t := by
  have resolved (d : Nat) : Branches cfg (s.resolved d) roq := by
    have place := (layout_eq.mp (Coherent.layout_resolved d s)).1
    exact brq.congr rfl fun j _ => congrFun (congrArg Place.seat place) j
  rcases coherent.checkBrq_cases e with
    same | ⟨i, hi, ctrl, back, ⟨right, same⟩ | ⟨wrong, slot, -, e⟩⟩
  · exact same ▸ ⟨roq, done, coherent, brq, bound⟩
  · have next := coherent.right (List.getElem_mem hi) ctrl back right
    exact same ▸ ⟨roq, done, next, resolved roq[i], bound⟩
  · have flow : Passage cfg (s.resolved roq[i]).place roq done :=
      (layout_eq.mp (Coherent.layout_resolved roq[i] s)).1 ▸ coherent.flow
    have kept : lastKept ((s.resolved roq[i]).desc roq[i]) i = lastKept (s.desc roq[i]) i := by
      rw [Backend.resolved, modDesc_self]
      rfl
    have after := (resolved roq[i]).brerrRecover flow hi slot e
    have within : Bounded cfg (Coherent.counters (s.resolved roq[i])) := bound
    exact ⟨_, done, coherent.recover hi slot ctrl back wrong e, kept ▸ after,
      within.brerrRecover flow hi slot e⟩

theorem commitInst {more : Bool} (coherent : Coherent cfg s roq done) (brq : Branches cfg s roq)
    (bound : Bounded cfg (Coherent.counters s)) (filled : 0 < s.roqNum)
    (e : s.commitInst cfg = some (t, more)) : Stocked cfg t := by
  obtain ⟨d, rest, rfl, same | ⟨completed, -, flushed | left⟩⟩ := coherent.commit_cases filled e
  · exact same ▸ ⟨_, done, coherent, brq, bound⟩
  · have before := coherent.bumped_coherent d
    have bumped : Branches cfg (Coherent.bumped d s) (d :: rest) :=
      brq.still (works_modDesc _ ⟨rfl, rfl, rfl, rfl, rfl⟩) (layout_eq.mp (layout_modDesc _ rfl)).1
    have within : Bounded cfg (Coherent.counters (Coherent.bumped d s)) := bound
    exact ⟨[], done, before.flush flushed, bumped.pipelineFlush before.flow flushed,
      within.pipelineFlush before.flow flushed⟩
  · obtain ⟨done, next⟩ := coherent.retire completed left
    have bumped : Branches cfg (Coherent.bumped d s) (d :: rest) :=
      brq.still (works_modDesc _ ⟨rfl, rfl, rfl, rfl, rfl⟩) (layout_eq.mp (layout_modDesc _ rfl)).1
    have within : Bounded cfg (Coherent.counters (Coherent.bumped d s)) := bound
    exact ⟨rest, done, next, bumped.retire left, within.retire left⟩

theorem micro {safe : Backend → Prop} (h : Stocked cfg s) (step : Micro cfg True safe s t) :
    Stocked cfg t := by
  obtain ⟨roq, done, coherent, brq, bound⟩ := h
  cases step with
  | tick => exact ⟨roq, done, coherent.tick, brq.congr rfl fun _ _ => rfl, bound⟩
  | releaseFu => exact ⟨roq, done, coherent.releaseFu, brq.congr rfl fun _ _ => rfl, bound⟩
  | commit filled e => exact commitInst coherent brq bound filled e
  | checkBrq _ e => exact checkBrq coherent brq bound e
  | deliver queue e => exact deliver coherent (coherent.deliver queue e) brq bound queue e
  | lsqLook a e =>
    exact still (coherent.lsqLook e) brq bound (works_lsqLook e) (look_frame coherent.ports e).1
  | freeOne state =>
    obtain ⟨done, next⟩ := coherent.freeOne state
    exact ⟨roq, done, next, brq.congr rfl fun _ _ => rfl, bound⟩
  | drainOne head =>
    exact ⟨roq, done, coherent.drainOne head, brq.congr rfl fun _ _ => rfl, bound⟩
  | dcache a =>
    exact still (coherent.dcache a) brq bound (works_dcache a s) (dcache_frame coherent.ports a).1
  | nextValidNode unit =>
    exact still (coherent.nextValidNode unit) brq bound (works_nextValidNode _ s)
      (layout_eq.mp (nextValidNode_layout _ s)).1
  | choose fu => exact ⟨roq, done, coherent.choose fu, brq.congr rfl fun _ _ => rfl, bound⟩
  | issueInst which valid ready _ _ e =>
    have place := (issueInst_frame coherent.ports e).1
    obtain ⟨works, int, fp⟩ := works_issueInst e
    have count := congrArg Works.counters works
    change Coherent.counters t = _ at count
    refine ⟨roq, done, coherent.issueInst which valid ready e, ?_, ?_⟩
    · have queued : Branches cfg { s with
          intIssueNum := t.intIssueNum, fpIssueNum := t.fpIssueNum } roq :=
        ⟨brq.ring, brq.num, brq.tail, brq.brqid⟩
      exact queued.congr count fun d _ => congrFun (congrArg Place.seat place) d
    · rw [count]
      exact bound.mono ⟨le_rfl, le_rfl, int, fp⟩
  | mapInst queue room tight e =>
    have once := coherent.flight_nodup
    rw [queue] at once
    have outside := fun hd => List.disjoint_of_nodup_append once hd List.mem_cons_self
    have single := coherent.single _ (queue ▸ List.mem_cons_self)
    exact ⟨_, done, coherent.mapInst queue room e, brq.mapInst outside queue (tight trivial) e,
      Bounded.mapInst single queue room e⟩
  | decodeInst o queue e =>
    exact ⟨roq, done, coherent.decodeInst queue e, beside ⟨brq, bound⟩
      (Coherent.Only.decodeInst queue e).toBeside (front_apart coherent.flow queue)⟩
  | fetchInst f free room =>
    exact ⟨roq, done, coherent.fetchInst f free room,
      coherent.fetchInst_beside (P := fun u => Branches cfg u roq ∧ Bounded cfg (Coherent.counters u))
        f free room (fun _ _ _ h same outside => beside h same outside) ⟨brq, bound⟩⟩

theorem reachable (h : Reachable cfg (fun s a => Fits cfg s a ∧ BranchesFit cfg s a) s) :
    Stocked cfg s := by
  have room : ∀ s a, Fits cfg s a ∧ BranchesFit cfg s a →
      Fits cfg s a ∧ (True → BranchesFit cfg s a) ∧ (a = .checkBrq → True) :=
    fun s a fits => ⟨fits.1, fun _ => fits.2, fun _ => trivial⟩
  have start : Stocked cfg Backend.start := by
    refine ⟨[], [], Coherent.start cfg, ⟨Ring.Holds.nil _, rfl, ?_, ?_⟩, ?_⟩
    · rw [branches, List.filter_nil]
      exact (Nat.zero_mod _).symm
    · intro i hi
      cases hi
    · constructor <;> exact Int.natCast_nonneg _
  refine reachable_invariant (I := Stocked cfg) room start (fun s t h step => micro h step) ?_ ?_ h
  · rintro s ⟨roq, done, coherent, -⟩
    exact coherent.ports
  · rintro s ⟨roq, done, coherent, -⟩
    exact coherent.single

end Stocked

/-- The queues with the instructions `roq` in the reorder queue and the committed memory
operations `done`. -/
structure Consistent (cfg : BackendConfig) (s : Backend) (roq done : List Nat) : Prop where
  ring : Ring.Holds cfg.roqIfqSize s.roq s.roqHead roq
  roqNum : s.roqNum = roq.length
  roqTail : s.roqTail = (s.roqHead + roq.length) % cfg.roqIfqSize
  brq : Ring.Holds cfg.brqIfqSize s.brq s.brqHead (roq.filter fun d => (s.desc d).ctrl)
  brqNum : s.brqNum = (roq.filter fun d => (s.desc d).ctrl).length
  brqTail : s.brqTail =
    (s.brqHead + (roq.filter fun d => (s.desc d).ctrl).length) % cfg.brqIfqSize
  lsq : Ring.Holds cfg.lsqIfqSize (fun i => (s.lsq i).slot) s.lsqHead1
    (done ++ roq.filter fun d => (s.desc d).mem)
  lsqNum : s.lsqNum = (done ++ roq.filter fun d => (s.desc d).mem).length
  lsqTail : s.lsqTail = (s.lsqHead1 + (done ++ roq.filter fun d => (s.desc d).mem).length) %
    cfg.lsqIfqSize
  committed : ∀ i d, (s.lsq i).slot = some d → ((s.lsq i).state.committed = true ↔ d ∈ done)
  intRename : s.intRenameRegNum = (roq.map fun d => (s.desc d).usedIntRenameReg).sum ∧
    s.intRenameRegNum ≤ cfg.intRenameRegSize
  fpRename : s.fpRenameRegNum = (roq.map fun d => (s.desc d).usedFpRenameReg).sum ∧
    s.fpRenameRegNum ≤ cfg.fpRenameRegSize
  intIssue : s.intIssueNum = roq.countP (fun d => (s.desc d).queued && (s.desc d).inIntq) ∧
    s.intIssueNum ≤ cfg.intIssueIfqSize
  fpIssue : s.fpIssueNum = roq.countP (fun d => (s.desc d).queued && !(s.desc d).inIntq) ∧
    s.fpIssueNum ≤ cfg.fpIssueIfqSize

theorem Stocked.consistent (h : Stocked cfg s) :
    ∃ done, Consistent cfg s (s.inRoq cfg) done := by
  obtain ⟨roq, done, coherent, brq, bound⟩ := h
  rw [coherent.inRoq_eq]
  have flow := coherent.flow
  have booked := coherent.booked
  refine ⟨done, ⟨flow.ring, flow.roqNum, flow.roqTail, brq.ring, brq.num, brq.tail, flow.memory,
    ?_, ?_, flow.committed, ⟨booked.intRename, bound.intRename⟩, ⟨booked.fpRename, bound.fpRename⟩,
    ⟨booked.intIssue, bound.intIssue⟩, ⟨booked.fpIssue, bound.fpIssue⟩⟩⟩
  · have num : s.lsqNum = done.length + (roq.filter fun d => (s.desc d).mem).length := flow.lsqNum
    rw [num, List.length_append, Int.natCast_add]
  · have tail := flow.lsqTail
    rw [← List.length_append] at tail
    exact tail

end Runs

end Godson.Backend

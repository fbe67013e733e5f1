import Godson.QueueLoops

/-! The structure of the load/store queue in every reachable state: the ring, the stage
registers, the loops of `lsq_stage` and the cancelling of a suffix. -/
namespace Godson

open Loops LsqPart

variable {cfg : Config} {k n d e : Nat} {c : Cpu} {s : Sys}

/-- Every loop of `lsq_stage` terminates with the value the model gives it. The loops of the
tag compare run behind its first statements. -/
structure StageLoops (cfg : Config) (c : Cpu) : Prop where
  select : ∀ p, ∃ i, DoWhile (selectTest c) (selectBody cfg.lsqIfqSize p) (c.lsqHead, none)
    (i, (lsqScan cfg c).find? p)
  sweep : ∀ f, DoWhile sweepTest (sweepBody cfg.lsqIfqSize f) (c.lsqHead, c)
    (c.lsqTail, mapRing cfg (fun _ => f) c)
  refill : ∀ p, DoWhile sweepTest (refillBody cfg.lsqIfqSize p) (c.lsqHead, c) (c.lsqTail,
    { mapRing cfg (fun _ => LsqEntry.onRefill p) c with lsqMissi := refillMissi cfg p c })
  search : ∀ lsqid, c.lsqDtagcmpi = some lsqid → ∀ bytemask,
    ∃ i, While (searchTest (stepDown cfg.lsqIfqSize c.lsqHead1) bytemask)
      (searchBody cfg.lsqIfqSize (compareEnter lsqid c) lsqid bytemask)
      (stepDown cfg.lsqIfqSize lsqid, 0xff)
      (i, notFoundMask cfg (compareEnter lsqid c) lsqid bytemask)
  speculate : ∀ lsqid, c.lsqDtagcmpi = some lsqid →
    ∃ i, While (speculateTest (stepDown cfg.lsqIfqSize c.lsqHead1))
      (speculateBody cfg.lsqIfqSize (compareEnter lsqid c)) (stepDown cfg.lsqIfqSize lsqid, none)
      (i, (ringBefore cfg.lsqIfqSize lsqid c.lsqHead1).find? fun j =>
        ((compareEnter lsqid c).lsq j).opLoad &&
          ((compareEnter lsqid c).lsq j).state.beforeWriteback)
  forward : ∀ lsqid, c.lsqDtagcmpi = some lsqid → ∀ bytemask,
    ∃ i, While (forwardTest bytemask) (forwardBody cfg.lsqIfqSize lsqid bytemask)
      (stepUp cfg.lsqIfqSize lsqid, (compareEnter lsqid c, 0xff))
      (i, (ringAfter cfg.lsqIfqSize lsqid c.lsqTail).foldl (forwardStep lsqid bytemask)
        (compareEnter lsqid c, 0xff))
  free : ∃ i c', While freeTest (freeBody cfg.lsqIfqSize) (c.lsqHead1, c) (i, c') ∧
    freeDone cfg c = { c' with lsqHead1 := i }
  drain : ∀ i c, ∃ i' j' c', While drainTest (drainBody cfg.lsqIfqSize) (i, (0, c)) (i', (j', c')) ∧
    drainLoads cfg 3 i c = { c' with lsqHead := i' }

/-- The entry a stage register names is one of the operations the pipeline has not committed. -/
def LsqPart.Inside (n e : Nat) (q : LsqPart) (reg : Option Nat) : Prop :=
  ∀ i, reg = some i → ∃ j, e ≤ j ∧ j < q.num ∧ i = slot n q.head1 j

theorem LsqPart.Shape.inside {q : LsqPart} {reg : Option Nat} {a : LsqState} (hs : q.Shape n d e)
    (named : Names reg q.entry a) (pending : a ≠ .empty ∧ a ≠ .commit ∧ a ≠ .delay1) :
    q.Inside n e reg := by
  intro i hi
  have state := (named i).mp hi
  obtain ⟨j, hj, rfl⟩ := hs.exists_nth (i := i) (state ▸ pending.1)
  have hjn : j < n := lt_of_lt_of_le hj hs.num_le
  have uncommitted := mt (hs.committed j hjn).mpr (by rw [LsqPart.nth, state]; exact pending.2.1)
  have undrained := mt (hs.drained j hjn).mpr (by rw [LsqPart.nth, state]; exact pending.2.2)
  exact ⟨j, by omega, hj, rfl⟩

theorem stageLoops_of_wellFormed (wf : c.lsqPart.WellFormed cfg.lsqIfqSize) : StageLoops cfg c := by
  obtain ⟨⟨d, e, hs⟩, hr⟩ := wf
  have size := hs.size_pos
  have head1 : c.lsqHead1 < cfg.lsqIfqSize := hs.head1_lt
  have head : c.lsqHead < cfg.lsqIfqSize := lt_of_eq_of_lt hs.head_eq (slot_lt size d)
  have tail : c.lsqTail < cfg.lsqIfqSize := lt_of_eq_of_lt hs.tail_eq (slot_lt size _)
  have compared : ∀ lsqid, c.lsqDtagcmpi = some lsqid → lsqid < cfg.lsqIfqSize := by
    intro lsqid hi
    obtain ⟨j, -, -, rfl⟩ := hs.inside hr.dtagcmp (by decide) lsqid hi
    exact slot_lt size j
  constructor
  · exact fun p => select_loop p head tail
  · exact fun f => sweep_loop f head tail
  · exact fun p => refill_loop p head tail
  · exact fun lsqid hi bytemask => search_back_loop (c := compareEnter lsqid c) bytemask
      (compared lsqid hi) head1
  · exact fun lsqid hi => speculate_loop (c := compareEnter lsqid c) (compared lsqid hi) head1
  · exact fun lsqid hi bytemask => forward_loop (c := compareEnter lsqid c) bytemask
      (compared lsqid hi) tail
  · exact free_loop head1
  · exact drain_loop

/-! ### Cancelling a suffix -/

/-- `lsq_cancel_one` for the youngest `m` entries, as the squashes call it from the tail. -/
def cancelSuffix (cfg : Config) : Nat → Cpu → Cpu
  | 0, c => c
  | m + 1, c =>
    cancelSuffix cfg m (lsqCancelOne ((c.lsqTail + cfg.lsqIfqSize - 1) % cfg.lsqIfqSize) c)

/-- Cancelling a suffix behind the commit head keeps the queue in order. -/
theorem shape_cancelSuffix {m : Nat} (hs : c.lsqPart.Shape cfg.lsqIfqSize d e)
    (hr : c.lsqPart.Stations) (hm : m ≤ c.lsqNum - d) :
    (cancelSuffix cfg m c).lsqPart.Shape cfg.lsqIfqSize d (min e (c.lsqNum - m)) ∧
      (cancelSuffix cfg m c).lsqPart.Stations ∧ (cancelSuffix cfg m c).lsqNum = c.lsqNum - m := by
  induction m generalizing c e with
  | zero =>
    have all : min e c.lsqNum = e := Nat.min_eq_left hs.committed_le
    rw [Nat.sub_zero, all]
    exact ⟨hs, hr, rfl⟩
  | succ m ih =>
    have part := lsqPart_cancelOne ((c.lsqTail + cfg.lsqIfqSize - 1) % cfg.lsqIfqSize) c
    have shape := hs.cancelOne (show d < c.lsqNum by omega)
    have stations := hr.cancelOne ((c.lsqTail + cfg.lsqIfqSize - 1) % cfg.lsqIfqSize)
    have num : (lsqCancelOne ((c.lsqTail + cfg.lsqIfqSize - 1) % cfg.lsqIfqSize) c).lsqNum =
        c.lsqNum - 1 := congrArg LsqPart.num part
    obtain ⟨shape', stations', num'⟩ := ih (part ▸ shape) (part ▸ stations) (by omega)
    rw [num] at shape' num'
    have cut : min (min e (c.lsqNum - 1)) (c.lsqNum - 1 - m) = min e (c.lsqNum - (m + 1)) := by omega
    refine ⟨?_, stations', by rw [cancelSuffix, num']; omega⟩
    rw [cancelSuffix, ← cut]
    exact shape'

/-- In every reachable state the ring is exact, each stage register names the only operation in
its state, inside the ring, and no register is overwritten by a step. At address calculation an
operation and a refill may both wait, at the data cache and at the tag compare they may not. All
loops terminate, and cancelling a suffix behind the commit head keeps all of this. -/
theorem lsq_structure (h : Machine.Reachable cfg s) (k : Nat) :
    ∃ d e, (s.cpus k).lsqPart.Shape cfg.lsqIfqSize d e ∧ (s.cpus k).lsqPart.Stations ∧
      (∀ reg ∈ [(s.cpus k).lsqIssuei, (s.cpus k).lsqDcachei, (s.cpus k).lsqDtagcmpi],
        (s.cpus k).lsqPart.Inside cfg.lsqIfqSize e reg) ∧
      StageLoops cfg (s.cpus k) ∧
      (∀ ch s', Machine.step cfg ch s = some s' →
        (s.cpus k).lsqPart.Advances (s'.cpus k).lsqPart) ∧
      ∀ m ≤ (s.cpus k).lsqNum - d,
        (cancelSuffix cfg m (s.cpus k)).lsqPart.Shape cfg.lsqIfqSize d
            (min e ((s.cpus k).lsqNum - m)) ∧
          (cancelSuffix cfg m (s.cpus k)).lsqPart.Stations ∧
          (∀ reg ∈ [(cancelSuffix cfg m (s.cpus k)).lsqIssuei,
              (cancelSuffix cfg m (s.cpus k)).lsqDcachei,
              (cancelSuffix cfg m (s.cpus k)).lsqDtagcmpi],
            (cancelSuffix cfg m (s.cpus k)).lsqPart.Inside cfg.lsqIfqSize
              (min e ((s.cpus k).lsqNum - m)) reg) ∧
          StageLoops cfg (cancelSuffix cfg m (s.cpus k)) := by
  have inv := invariant_reachable h k
  obtain ⟨⟨d, e, hs⟩, hr⟩ := inv.wellFormed
  have inside : ∀ {c : Cpu} {e : Nat}, c.lsqPart.Shape cfg.lsqIfqSize d e → c.lsqPart.Stations →
      ∀ reg ∈ [c.lsqIssuei, c.lsqDcachei, c.lsqDtagcmpi],
        c.lsqPart.Inside cfg.lsqIfqSize e reg := by
    intro c e hs hr reg hreg
    simp only [List.mem_cons, List.not_mem_nil, or_false] at hreg
    obtain rfl | rfl | rfl := hreg
    · exact hs.inside hr.issue (by decide)
    · exact hs.inside hr.dcache (by decide)
    · exact hs.inside hr.dtagcmp (by decide)
  refine ⟨d, e, hs, hr, inside hs hr, stageLoops_of_wellFormed ⟨⟨d, e, hs⟩, hr⟩, ?_, ?_⟩
  · exact fun ch s' step => (invariant_step (lsqStep_of_step step k) inv).2
  · intro m hm
    obtain ⟨shape, stations, -⟩ := shape_cancelSuffix hs hr hm
    exact ⟨shape, stations, inside shape stations,
      stageLoops_of_wellFormed ⟨⟨d, _, shape⟩, stations⟩⟩

/-- One core of its own. -/
def Config.mono : Config where
  cpuBits := 0
  cpuBits_le := Nat.zero_le 4
  missqIfqSize := 4
  missq_pos := Nat.succ_pos 3
  wtbkqIfqSize := 2
  wtbkq_pos := Nat.succ_pos 1
  lsqIfqSize := 4
  lsq_pos := Nat.succ_pos 3
  memqIfqSize := 1
  memReadFirstDelay := 1
  memReadIntervalDelay := 0
  memWriteDelay := 1
  icache := ⟨0, 1, Nat.one_pos⟩
  dcache := ⟨0, 1, Nat.one_pos⟩
  l2 := ⟨0, 1, Nat.one_pos⟩
  isSplash := false
  programs := 1
  optMaxInsts := 0

namespace Machine

/-- Steps without an operation of the pipeline, then the operations. -/
def waitThen (n : Nat) (ops : List PipeOp) : List Choice :=
  List.replicate n ({} : Choice) ++ ops.map fun op => { op := some op }

/-- A load misses, and its refill comes back when the next load has just been issued. -/
def refillRun : List Choice :=
  waitThen 51 [.enqueue .lw 64, .enqueue .lw 128] ++ waitThen 26 [.issue 0] ++
    waitThen 469 [.issue 1] ++ waitThen 20 []

/-- A move to a floating point register goes through the queue. -/
def drainRun : List Choice :=
  waitThen 51 [.enqueue .mtc1 64] ++ waitThen 26 [.issue 0] ++
    waitThen 106 [.writeback, .commit] ++ waitThen 25 []

theorem refillRun_waits : ∃ s, Reachable .mono s ∧ (s.cpus 0).lsqNum = 2 ∧
    (s.cpus 0).lsqIssuei = some 1 ∧ (s.cpus 0).lsqRefill.isSome := by
  have h : (run .mono refillRun (initial .mono)).any (fun s =>
      ((s.cpus 0).lsqNum, (s.cpus 0).lsqIssuei) == (2, some 1) &&
        (s.cpus 0).lsqRefill.isSome) = true := by
    decide +kernel
  obtain ⟨s, hrun, hs⟩ := (Option.any_eq_true _ _).mp h
  simp only [Bool.and_eq_true, beq_iff_eq, Prod.mk.injEq] at hs
  exact ⟨s, reachable_run .mono .initial hrun, hs.1.1, hs.1.2, hs.2⟩

theorem drainRun_drains : ∃ s, Reachable .mono s ∧ (s.cpus 0).lsqHead1 = 0 ∧
    (s.cpus 0).lsqHead = 1 ∧ (s.cpus 0).lsqNum = 1 := by
  have h : (run .mono drainRun (initial .mono)).any (fun s =>
      ((s.cpus 0).lsqHead1, (s.cpus 0).lsqHead, (s.cpus 0).lsqNum) == (0, 1, 1)) = true := by
    decide +kernel
  obtain ⟨s, hrun, hs⟩ := (Option.any_eq_true _ _).mp h
  simp only [beq_iff_eq, Prod.mk.injEq] at hs
  exact ⟨s, reachable_run .mono .initial hrun, hs⟩

end Machine

theorem lsq_structure_mono : ∃ s, Machine.Reachable .mono s ∧ (s.cpus 0).lsqNum = 2 ∧
    (s.cpus 0).lsqIssuei = some 1 ∧ (s.cpus 0).lsqRefill.isSome ∧
    ∃ d e, (s.cpus 0).lsqPart.Shape 4 d e ∧ (s.cpus 0).lsqPart.Stations ∧
      (s.cpus 0).lsqPart.Inside 4 e (some 1) := by
  obtain ⟨s, reached, num, issue, refill⟩ := Machine.refillRun_waits
  obtain ⟨d, e, shape, stations, inside, -⟩ := lsq_structure reached 0
  exact ⟨s, reached, num, issue, refill, d, e, shape, stations, issue ▸ inside _ (.head _)⟩

/-- An operation and a refill wait at address calculation in the same cycle, and cancelling the
whole queue with its drained entry leaves no ring. -/
theorem lsq_structure_limits :
    (∃ s, Machine.Reachable .mono s ∧ (s.cpus 0).lsqIssuei.isSome ∧ (s.cpus 0).lsqRefill.isSome) ∧
      ∃ s, Machine.Reachable .mono s ∧
        ¬ ∃ d e, (cancelSuffix .mono (s.cpus 0).lsqNum (s.cpus 0)).lsqPart.Shape 4 d e := by
  obtain ⟨s, hs, head1, head, num⟩ := Machine.drainRun_drains
  obtain ⟨s', hs', -, issue, refill⟩ := Machine.refillRun_waits
  refine ⟨⟨s', hs', by rw [issue]; rfl, refill⟩, s, hs, ?_⟩
  rintro ⟨d, e, shape⟩
  rw [num] at shape
  have part := lsqPart_cancelOne (((s.cpus 0).lsqTail + 4 - 1) % 4) (s.cpus 0)
  have none_left : (cancelSuffix .mono 1 (s.cpus 0)).lsqPart =
      (s.cpus 0).lsqPart.cancelOne (((s.cpus 0).lsqTail + 4 - 1) % 4) := part
  have bounds := And.intro shape.drained_le shape.committed_le
  have at_head := shape.head_eq
  rw [none_left] at bounds at_head
  have num : ((s.cpus 0).lsqPart.cancelOne (((s.cpus 0).lsqTail + 4 - 1) % 4)).num = 0 := by
    simp [LsqPart.cancelOne, Cpu.lsqPart, num]
  have moved : (s.cpus 0).lsqHead = slot 4 (s.cpus 0).lsqHead1 d := at_head
  obtain rfl : d = 0 := by omega
  rw [head, head1] at moved
  cases moved

end Godson

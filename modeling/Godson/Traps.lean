import Godson.Depth

/-! Trap instructions execute at decode. The loop of `decode_stage` lets one wait while the
reorder queue holds an instruction, and does not look at its own queue. -/
namespace Godson.Core

open Mips

variable {cfg : CoreConfig} {s : Core}

/-- The instruction that a round of `decode_stage` comes to, with its delay-slot mark. -/
def comesTo (s : Core) : Option InstDescript :=
  match s.fetchData with
  | [] => none
  | d :: _ => s.delaySlot d

/-- A round of `decode_stage` comes to a trap instruction. -/
def AtTrap (s : Core) : Prop := ∃ d, s.comesTo = some d ∧ d.op.has .trap = true

/-- A trap instruction executes. -/
def ExecutesTrap (s : Core) : Prop :=
  ∃ s' d, s.executing = some (s', d) ∧ d.op.has .trap = true

/-- The panic `drained and speculative`. -/
def DrainedAndSpeculative (s : Core) : Prop := s.AtTrap ∧ s.roq = [] ∧ s.specLevel ≠ 0

/-- A trap instruction has the machine for itself, and the panic is not reached. -/
def TrapAlone (s : Core) : Prop :=
  (s.ExecutesTrap → s.roq = [] ∧ s.decodeData = [] ∧ s.specLevel = 0) ∧
    ¬ s.DrainedAndSpeculative

theorem comesTo_executing {s' : Core} {d : InstDescript} (up : s.executing = some (s', d)) :
    s.comesTo = some d := by
  obtain ⟨d₀, rest, queue, slot, -⟩ := executing_some up
  unfold comesTo
  rw [queue]
  exact slot

/-- What a trap instruction does when its turn comes. -/
theorem trap_executing {d : InstDescript} (up : s.comesTo = some d) (trap : d.op.has .trap = true) :
    s.executing = if s.roq = [] ∧ s.specLevel = 0 then
      some (s.atDecode d s.fetchData.tail, d) else none := by
  unfold comesTo at up
  unfold executing
  cases queue : s.fetchData with
  | nil => simp [queue] at up
  | cons d₀ rest =>
    rw [queue] at up
    dsimp only at up
    cases roq : s.roq <;> by_cases level : s.specLevel = 0 <;>
      simp [up, trap, roq, level, atDecode]

/-- On an empty reorder queue a trap instruction either executes or ends in the panic. -/
theorem TrapAlone.drained (alone : s.TrapAlone) (at_trap : s.AtTrap) (empty : s.roq = []) :
    s.decodeData = [] := by
  obtain ⟨d, up, trap⟩ := at_trap
  have level : s.specLevel = 0 := by
    by_contra deep
    exact alone.2 ⟨⟨d, up, trap⟩, empty, deep⟩
  have ran := trap_executing up trap
  rw [if_pos ⟨empty, level⟩] at ran
  exact (alone.1 ⟨_, d, ran, trap⟩).2.1

theorem trapAlone_of_waits (waits : s.AtTrap → s.roq ≠ []) : s.TrapAlone := by
  constructor
  · rintro ⟨s', d, up, trap⟩
    have up' := comesTo_executing up
    have ran := trap_executing up' trap
    rw [up, if_neg fun both => waits ⟨d, up', trap⟩ both.1] at ran
    cases ran
  · exact fun panic => waits panic.1 panic.2.1

/-- Below the first level there is always a branch in flight. -/
theorem Deep.drained (deep : Deep s) (empty : s.live = []) : s.specLevel = 0 := by
  by_contra level
  obtain ⟨d, hd, -⟩ := deep.covered 0 (Nat.pos_of_ne_zero level)
  rw [empty] at hd
  cases hd

theorem Deep.trapAlone (deep : Deep s) (empty : s.decodeData = []) : s.TrapAlone := by
  have level : s.roq = [] → s.specLevel = 0 := by
    intro roq
    apply deep.drained
    rw [live, roq, empty, List.append_nil]
  constructor
  · rintro ⟨s', d, up, trap⟩
    have ran := trap_executing (comesTo_executing up) trap
    rw [up] at ran
    split at ran
    · rename_i both
      exact ⟨both.1, empty, both.2⟩
    · cases ran
  · exact fun panic => panic.2.2 (level panic.2.1)

namespace Counted

variable {cfg : CoreConfig} {width : Nat} {brq : BrqSize} {c : Counted} {h : History}
  {p : Prediction} {ps : List Prediction} {branchCnt : Nat} {roq : List InstDescript}

/-- The states in which the loop of `decode_stage` begins a round. -/
def loopRounds (cfg : CoreConfig) : List Prediction → Nat → History → List Core
  | [], _, _ => []
  | p :: ps, branchCnt, h =>
    if h.core.fetchData.isEmpty || decide (decodeIfqSize ≤ h.core.decodeData.length) ||
        decide (decodeSpeed ≤ branchCnt) then []
    else
      h.core :: match h.core.executing with
        | none => []
        | some (s, d) =>
          match execute cfg s d with
          | none => []
          | some x =>
            loopRounds cfg ps (if h.core.lastIsBranch then branchCnt + 1 else branchCnt)
              (h.enter cfg p x)

/-- The rounds of a call of `decode_stage`. -/
def decodeRounds (cfg : CoreConfig) (width : Nat) (c : Counted) (ps : List Prediction) :
    List Core :=
  if decodeIfqSize < c.core.decodeData.length + decodeWidth then []
  else loopRounds cfg ps 0 (c.history.updateGhr width)

/-- A round is left behind only by an instruction that enters the decode queue. -/
theorem loopRounds_behind (some_decoded : h.core.decodeData ≠ []) :
    ∀ s ∈ loopRounds cfg ps branchCnt h, s.roq = h.core.roq ∧ s.decodeData ≠ [] := by
  induction ps generalizing h branchCnt with
  | nil =>
    intro s hs
    cases hs
  | cons p ps ih =>
    intro s hs
    unfold loopRounds at hs
    split at hs
    · cases hs
    · rcases List.mem_cons.mp hs with rfl | hs
      · exact ⟨rfl, some_decoded⟩
      · split at hs
        · cases hs
        · rename_i s' d up
          split at hs
          · cases hs
          · rename_i x ran
            obtain ⟨queue, d', decodeData, -⟩ := enqueue_queues (p := p) up ran
            have later := ih (h := h.enter cfg p x) (by
              change (enqueue cfg p x).decodeData ≠ []
              rw [decodeData]
              simp) s hs
            exact ⟨later.1.trans queue, later.2⟩

theorem loopRounds_cases (cfg : CoreConfig) (ps : List Prediction) (branchCnt : Nat)
    (h : History) : loopRounds cfg ps branchCnt h = [] ∨
    ∃ later, loopRounds cfg ps branchCnt h = h.core :: later ∧
      ∀ s ∈ later, s.roq = h.core.roq ∧ s.decodeData ≠ [] := by
  cases ps with
  | nil => exact .inl rfl
  | cons p ps =>
    unfold loopRounds
    split
    · exact .inl rfl
    · refine .inr ⟨_, rfl, ?_⟩
      intro s hs
      split at hs
      · cases hs
      · rename_i s' d up
        split at hs
        · cases hs
        · rename_i x ran
          obtain ⟨queue, d', decodeData, -⟩ := enqueue_queues (p := p) up ran
          have behind := loopRounds_behind (h := h.enter cfg p x) (by
            change (enqueue cfg p x).decodeData ≠ []
            rw [decodeData]
            simp) s hs
          exact ⟨behind.1.trans queue, behind.2⟩

/-- In every state of a run, in a call of `decode_stage` each trap instruction executes alone
and the panic is not reached, if and only if the call does not come to a trap instruction
behind one that it has decoded, with the reorder queue empty. -/
theorem traps_alone {arch : Arch} {ghr : Word} {stages : List Stage} (ps : List Prediction)
    (ran : stages.foldlM (stage cfg width brq) (start cfg arch ghr) = some c) :
    (∀ s ∈ c.decodeRounds cfg width ps, s.TrapAlone) ↔
      (c.core.roq = [] → ∀ s ∈ (c.decodeRounds cfg width ps).tail, ¬ s.AtTrap) := by
  have bounded := bounded_run ran
  unfold decodeRounds
  split
  · simp
  · rename_i room
    have empty := no_group c room
    rcases loopRounds_cases cfg ps 0 (c.history.updateGhr width) with
      none | ⟨later, rounds, behind⟩
    · simp [none]
    · rw [rounds, List.tail_cons]
      constructor
      · intro alone drained s hs at_trap
        obtain ⟨roq, decodeData⟩ := behind s hs
        exact decodeData ((alone s (List.mem_cons_of_mem _ hs)).drained at_trap
          (roq.trans drained))
      · intro first s hs
        rcases List.mem_cons.mp hs with rfl | hs
        · exact bounded.deep.trapAlone empty
        · refine trapAlone_of_waits fun at_trap drained => ?_
          exact first ((behind s hs).1.symm.trans drained) s hs at_trap

section Example

/-- What a round shows of the trap instruction it comes to. -/
def shownTrap (s : Core) : Option Op × Option Op × Bool × Bool × Nat :=
  (s.comesTo.map InstDescript.op, s.executing.map fun up => up.2.op,
    s.roq.isEmpty, s.decodeData.isEmpty, s.specLevel)

theorem shown_round {run : Option Counted} {ps : List Prediction} {i : Nat}
    {shown : Option Op × Option Op × Bool × Bool × Nat}
    (seen : run.map (fun c => (c.decodeRounds cfg width ps)[i]?.map shownTrap) =
      some (some shown)) :
    ∃ c s, run = some c ∧ s ∈ c.decodeRounds cfg width ps ∧ shownTrap s = shown := by
  obtain ⟨c, ran, at_i⟩ := Option.map_eq_some_iff.mp seen
  obtain ⟨s, hs, view⟩ := Option.map_eq_some_iff.mp at_i
  exact ⟨c, s, ran, List.mem_of_getElem? hs, view⟩

/-- A `syscall` behind `addiu $2, $0, 1`. -/
def trapBehind : Arch where
  mem := writeMem (writeMem (fun _ => 0) .word 0x400000 0x24020001) .word 0x400004 0xc

/-- A `syscall` in the delay slot of `bnel $0, $0`, which is predicted taken. -/
def trapInSlot : Arch where
  mem := writeMem (writeMem (fun _ => 0) .word 0x400000 0x54000004) .word 0x400004 0xc

/-- A `syscall` alone. -/
def trapFirst : Arch where
  mem := writeMem (fun _ => 0) .word 0x400000 0xc

def fetchTwo : List Stage := [.fetch {}, .fetch {}]

/-- In the first program the trap instruction executes behind an older instruction, in the
second one it is reached in speculative mode. -/
theorem traps_not_alone :
    (∃ c s, fetchTwo.foldlM (stage smallConfig 9 ⟨3, by decide⟩)
        (Counted.start smallConfig trapBehind 0) = some c ∧
      s ∈ c.decodeRounds smallConfig 9 [{}, {}] ∧ s.ExecutesTrap ∧ s.decodeData ≠ []) ∧
    ∃ c s, fetchTwo.foldlM (stage smallConfig 9 ⟨3, by decide⟩)
        (Counted.start smallConfig trapInSlot 0) = some c ∧
      s ∈ c.decodeRounds smallConfig 9 [{}, {}] ∧ s.DrainedAndSpeculative := by
  constructor
  · have seen : (fetchTwo.foldlM (stage smallConfig 9 ⟨3, by decide⟩)
        (Counted.start smallConfig trapBehind 0)).map (fun c =>
          (c.decodeRounds smallConfig 9 [{}, {}])[1]?.map shownTrap) =
        some (some (some .syscall, some .syscall, true, false, 0)) := by decide
    obtain ⟨c, s, ran, hs, seen⟩ := shown_round seen
    simp only [shownTrap, Prod.mk.injEq] at seen
    obtain ⟨-, executed, -, waiting, -⟩ := seen
    obtain ⟨⟨s', d⟩, up, op⟩ := Option.map_eq_some_iff.mp executed
    refine ⟨c, s, ran, hs, ⟨s', d, up, ?_⟩, ?_⟩
    · rw [show d.op = .syscall from op]
      decide
    · simpa using waiting
  · have seen : (fetchTwo.foldlM (stage smallConfig 9 ⟨3, by decide⟩)
        (Counted.start smallConfig trapInSlot 0)).map (fun c =>
          (c.decodeRounds smallConfig 9 [{}, {}])[1]?.map shownTrap) =
        some (some (some .syscall, none, true, false, 1)) := by decide
    obtain ⟨c, s, ran, hs, seen⟩ := shown_round seen
    simp only [shownTrap, Prod.mk.injEq] at seen
    obtain ⟨reached, -, drained, -, level⟩ := seen
    obtain ⟨d, up, op⟩ := Option.map_eq_some_iff.mp reached
    refine ⟨c, s, ran, hs, ⟨d, up, ?_⟩, by simpa using drained, by omega⟩
    rw [op]
    decide

theorem single_round (c : Counted) (p : Prediction) :
    (c.decodeRounds cfg width [p]).tail = [] := by
  unfold decodeRounds
  split
  · rfl
  · unfold loopRounds
    split
    · rfl
    · dsimp only [List.tail_cons]
      split
      · rfl
      · split <;> rfl

theorem traps_alone_first : ∃ c s,
    [Stage.fetch {}].foldlM (stage smallConfig 9 ⟨3, by decide⟩)
      (Counted.start smallConfig trapFirst 0) = some c ∧
    s ∈ c.decodeRounds smallConfig 9 [{}] ∧ s.ExecutesTrap ∧ s.TrapAlone := by
  have seen : ([Stage.fetch {}].foldlM (stage smallConfig 9 ⟨3, by decide⟩)
      (Counted.start smallConfig trapFirst 0)).map (fun c =>
        (c.decodeRounds smallConfig 9 [{}])[0]?.map shownTrap) =
      some (some (some .syscall, some .syscall, true, true, 0)) := by decide
  obtain ⟨c, s, ran, hs, seen⟩ := shown_round seen
  have alone := (traps_alone [{}] ran).mpr fun _ s hs => by
    rw [single_round] at hs
    cases hs
  simp only [shownTrap, Prod.mk.injEq] at seen
  obtain ⟨⟨s', d⟩, up, op⟩ := Option.map_eq_some_iff.mp seen.2.1
  refine ⟨c, s, ran, hs, ⟨s', d, up, ?_⟩, alone s hs⟩
  rw [show d.op = .syscall from op]
  decide

end Example

end Counted

end Godson.Core

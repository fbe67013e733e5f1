import Godson.Flush
import Godson.Runs

/-! What instructions read from general register 0. Decode clears the architectural copy in
front of every instruction; the copy of a speculation level keeps what is written to it, and
is copied to the deeper levels. -/
namespace Godson.Core

open Mips

variable {cfg : CoreConfig}

/-- What an instruction sees at its start. -/
def operands (cfg : CoreConfig) (s : Core) : View :=
  view cfg { s with arch := s.arch.clearZero }

/-- What it sees when it reads `GPR(RS)` a last time: calls do so behind their link. -/
def lastOperands (cfg : CoreConfig) (s : Core) (d : InstDescript) : View :=
  match d.op with
  | .jalr => (operands cfg s).put (.gpr (rd d.ir) (d.pc + 8))
  | .bltzal | .bltzall | .bgezal | .bgezall => (operands cfg s).put (.gpr 31 (d.pc + 8))
  | _ => operands cfg s

/-- An instruction that reads register 0 gets zero. -/
structure ReadsZero (cfg : CoreConfig) (s : Core) (d : InstDescript) : Prop where
  first : (operands cfg s).gpr 0 = 0
  last : rs d.ir = 0 → (lastOperands cfg s d).gpr (rs d.ir) = 0

/-- A write leaves register 0 clear. -/
def Clean (w : Write) : Prop := ∀ v, w = .gpr 0 v → v = 0

/-- On a wrong path, and in the delay slot of a mispredicted branch, nothing but zero is
written to register 0. No `jalr` has register 0 for its target and for its link. -/
structure SparesZero (cfg : CoreConfig) (s : Core) (d : InstDescript) : Prop where
  clean : s.specLevel ≠ 0 ∨ s.enteringSpec = true → ∀ w ∈ (effect cfg s d).writes, Clean w
  link : d.op = .jalr → rs d.ir = 0 → rd d.ir ≠ 0

/-- The copy of every level has register 0 clear. -/
def ZeroLevels (regs : Nat → Regs) : Prop := ∀ level ≠ 0, (regs level).regsR 0 = 0

theorem put_zero {r : Regs} {w : Write} (zero : r.regsR 0 = 0) (clean : Clean w) :
    (r.put w).regsR 0 = 0 := by
  cases w with
  | gpr n v =>
    simp only [Regs.put]
    split
    · rename_i first
      exact clean v (by rw [← first])
    · exact zero
  | _ => exact zero

theorem putAll_zero {ws : List Write} {a : Arch} (zero : a.regs.regsR 0 = 0)
    (clean : ∀ w ∈ ws, Clean w) : (a.putAll ws).1.regs.regsR 0 = 0 := by
  induction ws generalizing a with
  | nil => exact zero
  | cons w ws ih =>
    obtain ⟨now, later⟩ := List.forall_mem_cons.mp clean
    refine ih ?_ later
    cases w with
    | store w addr v =>
      simp only [Arch.put]
      split <;> exact zero
    | _ => exact put_zero zero now

theorem specStore_regs (s : Core) (w : Width) (addr v : Word) :
    (s.specStore cfg w addr v).specRegs = s.specRegs := by
  simp only [specStore]
  split
  · rfl
  · split <;> rfl

theorem specPut_zero {s : Core} {w : Write} (zero : ZeroLevels s.specRegs) (clean : Clean w) :
    ZeroLevels (s.specPut cfg w).specRegs := by
  have update : ZeroLevels (Function.update s.specRegs s.specLevel
      ((s.specRegs s.specLevel).put w)) := by
    intro level ne
    rw [Function.update_apply]
    split
    · rename_i same
      exact put_zero (zero _ (same ▸ ne)) clean
    · exact zero level ne
  cases w with
  | store w addr v =>
    simp only [specPut, specStore_regs]
    exact zero
  | _ => exact update

theorem foldl_specPut_zero {ws : List Write} {s : Core} (zero : ZeroLevels s.specRegs)
    (clean : ∀ w ∈ ws, Clean w) : ZeroLevels (ws.foldl (specPut cfg) s).specRegs := by
  induction ws generalizing s with
  | nil => exact zero
  | cons w ws ih =>
    obtain ⟨now, later⟩ := List.forall_mem_cons.mp clean
    exact ih (specPut_zero zero now) later

/-- A likely branch writes to no register but 31. -/
theorem likely_clean {s : Core} {d : InstDescript} (likely : d.likely = true) :
    ∀ w ∈ (effect cfg s d).writes, Clean w := by
  unfold effect
  simp only [InstDescript.likely] at likely
  generalize d.op = op at likely ⊢
  cases op <;> first | (exact absurd likely (by decide)) | skip
  all_goals
    simp [impl, implCtrl, Effect.branch, Effect.branchLink, Clean]

theorem operands_zero {s : Core} (zero : ZeroLevels s.specRegs) :
    (operands cfg s).gpr 0 = 0 := by
  unfold operands view View.gpr
  split
  · rfl
  · rename_i wrong
    exact zero s.specLevel wrong

theorem readsZero {s : Core} {d : InstDescript} (zero : ZeroLevels s.specRegs)
    (spares : SparesZero cfg s d) : ReadsZero cfg s d := by
  have first : (operands cfg s).gpr 0 = 0 := operands_zero zero
  refine ⟨first, ?_⟩
  intro target
  rw [target]
  unfold lastOperands
  split
  · rename_i jalr
    have link : ¬ (0 : Reg) = rd d.ir := fun same => spares.link jalr target same.symm
    simp only [View.put, View.gpr, Regs.put, if_neg link]
    exact first
  all_goals exact first

/-- An instruction that spares register 0 leaves it clear: in the copies of the levels, and
in the architectural copy when that one is to be copied. -/
theorem execute_zero {s : Core} {d : InstDescript} {x : Executed} (zero : ZeroLevels s.specRegs)
    (spares : SparesZero cfg s d) (h : execute cfg s d = some x) :
    ZeroLevels x.core.specRegs ∧ (x.core.specLevel = 0 →
      x.core.enteringSpec = true ∨ x.inst.likely = true → x.core.arch.regs.regsR 0 = 0) := by
  simp only [execute] at h
  split at h
  · split at h
    · cases h
    · cases h
      refine ⟨zero, fun _ copied => ?_⟩
      refine putAll_zero rfl ?_
      rcases copied with entering | likely
      · exact spares.clean (.inr entering)
      · exact likely_clean likely
  · rename_i wrong
    cases h
    refine ⟨foldl_specPut_zero zero (spares.clean (.inl wrong)), fun right => ?_⟩
    obtain ⟨r, l, same⟩ := @foldl_specPut cfg (effect cfg s d).writes
      { s with arch := s.arch.clearZero, targetPC := (effect cfg s d).target.getD s.targetPC }
    rw [same] at right
    exact absurd right wrong

theorem enterLevel_zero {s : Core} (zero : ZeroLevels s.specRegs)
    (copied : s.specLevel = 0 → s.arch.regs.regsR 0 = 0) : ZeroLevels s.enterLevel.specRegs := by
  intro level ne
  simp only [enterLevel, Function.update_apply]
  split
  · split
    · rename_i right
      exact copied right
    · rename_i wrong
      exact zero s.specLevel wrong
  · exact zero level ne

theorem correctPc_regs (p : Prediction) (x : Executed) :
    (correctPc cfg p x).1.specRegs = x.core.specRegs ∧
      (correctPc cfg p x).1.arch = x.core.arch ∧
      (correctPc cfg p x).1.specLevel = x.core.specLevel ∧
      (correctPc cfg p x).1.enteringSpec = x.core.enteringSpec := by
  obtain ⟨f, l, n, c, pp, same, -⟩ := correctPc_spec cfg p x
  rw [same]
  exact ⟨rfl, rfl, rfl, rfl⟩

theorem enterSpec_zero {x : Executed} {s : Core} {pp : Word} (zero : ZeroLevels s.specRegs)
    (copied : s.specLevel = 0 → s.enteringSpec = true ∨ x.inst.likely = true →
      s.arch.regs.regsR 0 = 0) : ZeroLevels (enterSpec x s pp).1.specRegs := by
  simp only [enterSpec]
  split
  · rename_i entering
    exact enterLevel_zero zero fun right => copied right (.inl entering)
  · split
    · split
      · rename_i likely
        exact enterLevel_zero zero fun right => copied right (.inr likely)
      · exact zero
    · exact zero

theorem enqueue_zero {p : Prediction} {x : Executed} (zero : ZeroLevels x.core.specRegs)
    (copied : x.core.specLevel = 0 → x.core.enteringSpec = true ∨ x.inst.likely = true →
      x.core.arch.regs.regsR 0 = 0) : ZeroLevels (enqueue cfg p x).specRegs := by
  simp only [enqueue]
  split
  all_goals
    apply enterSpec_zero
    · rw [(correctPc_regs p _).1]
      exact zero
    · intro right entering
      rw [(correctPc_regs p _).2.1]
      rw [(correctPc_regs p _).2.2.1] at right
      rw [(correctPc_regs p _).2.2.2] at entering
      exact copied right entering

/-- The condition on a step: the instruction it executes, if any, spares register 0. -/
def Spares (cfg : CoreConfig) (s : Core) : Act → Prop
  | .decode _ => ∀ s' d, s.executing = some (s', d) → SparesZero cfg s' d
  | _ => True

/-- The instruction that the step executes, if any, reads zero from register 0. -/
def Reads (cfg : CoreConfig) (s : Core) : Act → Prop
  | .decode _ => ∀ s' d, s.executing = some (s', d) → ReadsZero cfg s' d
  | _ => True

theorem brerrRecover_regs (s : Core) (older : List InstDescript) (rs : InstDescript)
    (younger : List InstDescript) : (s.brerrRecover older rs younger).specRegs = s.specRegs := rfl

theorem checkBrq_regs (s : Core) : s.checkBrq.specRegs = s.specRegs := by
  rcases checkBrq_cases s with same | ⟨older, rs, younger, -, -, -, done | ⟨-, -, done⟩⟩
  · rw [same]
  · rw [done.2]
  · rw [done, brerrRecover_regs]

theorem commit_regs {s t : Core} (h : s.commit = some t) : t.specRegs = s.specRegs := by
  unfold commit at h
  split at h
  · cases h
    rfl
  · split_ifs at h
    · cases h
      rfl
    · cases h
      rfl
    · cases h
      rfl

theorem mapInst_regs (s : Core) : s.mapInst.specRegs = s.specRegs := by
  unfold mapInst
  split <;> rfl

theorem executing_regs {s s' : Core} {d : InstDescript} (h : s.executing = some (s', d)) :
    s.specRegs = s'.specRegs := by
  obtain ⟨d', rest, -, -, rfl⟩ := executing_some h
  rfl

theorem act_zero {s t : Core} {a : Act} (zero : ZeroLevels s.specRegs) (spares : Spares cfg s a)
    (h : act cfg s a = some t) : ZeroLevels t.specRegs := by
  cases a with
  | commit => exact commit_regs h ▸ zero
  | checkBrq =>
    cases h
    exact (checkBrq_regs s).symm ▸ zero
  | writeback i =>
    cases h
    exact zero
  | markEx i =>
    cases h
    exact zero
  | mapInst =>
    cases h
    exact (mapInst_regs s).symm ▸ zero
  | decode p =>
    rcases decodeInst_executing h with ⟨-, idle⟩ | ⟨s', d, x, up, ran, rfl⟩
    · rcases idle with rfl | ⟨d, rest, rfl⟩
      · exact zero
      · exact zero
    · obtain ⟨levels, copied⟩ := execute_zero (executing_regs up ▸ zero) (spares s' d up) ran
      exact enqueue_zero levels copied
  | fetch p =>
    cases h
    exact zero

/-- In a run whose instructions spare register 0, every instruction that reads register 0
gets zero, at every level and after every recovery. -/
theorem register_zero (cfg : CoreConfig) (arch : Arch) (acts : List Act)
    (spares : Runs.Along (act cfg) (Spares cfg) (start cfg arch) acts) :
    Runs.Along (act cfg) (Reads cfg) (start cfg arch) acts := by
  intro past a rest s split ran
  have zero : ZeroLevels s.specRegs := by
    have front : Runs.Along (act cfg) (Spares cfg) (start cfg arch) past :=
      Runs.Along.front (split ▸ spares)
    exact front.invariant (I := fun s => ZeroLevels s.specRegs)
      (fun s a t zero now step => act_zero zero now step) (fun _ _ => rfl) ran
  have now := spares past a rest s split ran
  cases a with
  | decode p =>
    intro s' d up
    exact readsZero (executing_regs up ▸ zero) (now s' d up)
  | _ => trivial

section Example

/-- The test of a step. -/
def sparesStep (cfg : CoreConfig) (s : Core) : Act → Bool
  | .decode _ => s.executing.all fun (s', d) =>
      (s'.specLevel == 0 && !s'.enteringSpec || (effect cfg s' d).writes.all fun
        | .gpr n v => n != 0 || v == 0
        | _ => true) && !(d.op == .jalr && rs d.ir == 0 && rd d.ir == 0)
  | _ => true

theorem spares_of_step (s : Core) (a : Act) (h : sparesStep cfg s a = true) : Spares cfg s a := by
  cases a with
  | decode p =>
    intro s' d up
    simp only [sparesStep, up, Option.all_some, Bool.and_eq_true, Bool.or_eq_true,
      List.all_eq_true, Bool.not_eq_true', Bool.and_eq_false_iff] at h
    constructor
    · rintro wrong w hw v rfl
      rcases h.1 with right | clean
      · simp only [beq_iff_eq] at right
        rcases wrong with wrong | entering
        · exact absurd right.1 wrong
        · rw [entering] at right
          cases right.2
      · simpa using clean _ hw
    · intro jalr target
      simpa [jalr, target] using h.2
  | _ => trivial

/-- A branch over its delay slot and two instructions, the words at 0x400008 and 0x40000c. -/
def branchOver (first second : Word) : Arch where
  mem := writeMem (writeMem (writeMem (fun _ => 0) .word 0x400000 0x10000003) .word 0x400008 first)
    .word 0x40000c second

/-- The branch is predicted not taken, and the first instruction behind its slot executes. -/
def wrongPath : List Act :=
  [.fetch {}, .fetch {}, .fetch {}, .fetch {}, .decode {}, .decode {}, .decode {}]

/-- `addiu $0,$0,0` and `addu $1,$0,$0` -/
theorem register_zero_spared : ∃ s s' d,
    run smallConfig (branchOver 0x24000000 0x00000821) wrongPath = some s ∧
      s.executing = some (s', d) ∧ s'.specLevel = 1 ∧ rs d.ir = 0 ∧
      ReadsZero smallConfig s' d := by
  have seen : ((run smallConfig (branchOver 0x24000000 0x00000821) wrongPath).bind fun s =>
      s.executing.map fun (s', d) => (s'.specLevel, rs d.ir)) = some (1, 0) := by decide
  obtain ⟨s, ran, seen⟩ := Option.bind_eq_some_iff.mp seen
  obtain ⟨⟨s', d⟩, up, seen⟩ := Option.map_eq_some_iff.mp seen
  simp only [Prod.mk.injEq] at seen
  have along := register_zero smallConfig (branchOver 0x24000000 0x00000821)
    (wrongPath ++ [.decode {}]) (Runs.along_of_check spares_of_step (by decide))
  exact ⟨s, s', d, ran, up, seen.1, seen.2, along wrongPath (.decode {}) [] s rfl ran s' d up⟩

/-- `addiu $0,$0,5` and `addu $1,$0,$0` -/
theorem register_zero_written : ∃ s s' d,
    run smallConfig (branchOver 0x24000005 0x00000821) wrongPath = some s ∧
      s.executing = some (s', d) ∧ d.op = .addu ∧ rs d.ir = 0 ∧
      (operands smallConfig s').gpr (rs d.ir) = 5 := by
  have seen : ((run smallConfig (branchOver 0x24000005 0x00000821) wrongPath).bind fun s =>
      s.executing.map fun (s', d) => (d.op, rs d.ir, (operands smallConfig s').gpr (rs d.ir))) =
        some (.addu, 0, 5) := by decide
  obtain ⟨s, ran, seen⟩ := Option.bind_eq_some_iff.mp seen
  obtain ⟨⟨s', d⟩, up, seen⟩ := Option.map_eq_some_iff.mp seen
  simp only [Prod.mk.injEq] at seen
  exact ⟨s, s', d, ran, up, seen.1, seen.2.1, seen.2.2⟩

end Example

end Godson.Core

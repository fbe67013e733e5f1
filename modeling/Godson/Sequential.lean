import Godson.RightPath

/-! The sequential machine that a core is measured against: one instruction after the
other, with delay slots, and with the delay slot of a likely branch annulled when the
branch is not taken. -/
namespace Godson

open Mips

/-- The state of the sequential machine. The instruction at `npc` is executed after the
one at `pc`. -/
structure Seq where
  arch : Arch
  pc : Word
  npc : Word

/-- The instruction word at an address. Outside of the text there is a `nop`. -/
def codeAt (cfg : CoreConfig) (mem : Word → Byte) (pc : Word) : Word :=
  if Core.inText cfg pc && pc.toNat % 4 == 0 then readWord mem pc else nopInst

/-- The architectural registers and memory as the instructions see them. -/
def archView (a : Arch) : View where
  regs := a.regs
  read := fun w x => if w.aligned x then .ok (readMem a.mem w x) else .error .alignment
  writeFault := fun w x => if w.aligned x then none else some .alignment

/-- The state behind an instruction that left this effect and this architectural state. -/
def Seq.after (σ : Seq) (arch : Arch) (isJump likely : Bool) (target : Word) : Seq :=
  if isJump then { arch, pc := σ.npc, npc := target }
  else if likely then { arch, pc := σ.npc + 4, npc := σ.npc + 8 }
  else { arch, pc := σ.npc, npc := σ.npc + 4 }

/-- One instruction. A fault stops the machine. -/
def Seq.step (cfg : CoreConfig) (σ : Seq) : Option Seq :=
  let inst := codeAt cfg σ.arch.mem σ.pc
  let op := mdSetOpcode inst
  let e := impl cfg.fpu inst σ.pc (archView σ.arch.clearZero) op
  if e.fault.isSome then none
  else some (σ.after (σ.arch.clearZero.putAll e.writes).1 e.isJump (op.has .ctrlLikely)
    (e.target.getD (σ.npc + 4)))

def Seq.start (cfg : CoreConfig) (arch : Arch) : Seq where
  arch
  pc := cfg.ldProgEntry
  npc := cfg.ldProgEntry + 4

/-- The PCs of the next `n` instructions, and the state behind them. -/
def Seq.steps (cfg : CoreConfig) : Nat → Seq → Option (List Word × Seq)
  | 0, σ => some ([], σ)
  | n + 1, σ => do
    let ρ ← σ.step cfg
    let (pcs, τ) ← ρ.steps cfg n
    return (σ.pc :: pcs, τ)

namespace Core

variable {cfg : CoreConfig}

/-- A decoded instruction is the next one of the sequential machine; the second half of a
split operation adds nothing to the first. -/
def Stepped (cfg : CoreConfig) (σ : Seq) (d : InstDescript) (ρ : Seq) : Prop :=
  d.before = σ.arch.clearZero ∧
    (d.half = true ∧ d.op.has .mem = false ∧ ρ = σ ∨
      d.half = false ∧ d.pc = σ.pc ∧ (d.bd = false → σ.npc = σ.pc + 4) ∧ σ.step cfg = some ρ)

/-- The instructions are the way of the sequential machine from one state to another. -/
def Tracks (cfg : CoreConfig) : Seq → List InstDescript → Seq → Prop
  | σ, [], τ => τ = σ
  | σ, d :: l, τ => ∃ ρ, Stepped cfg σ d ρ ∧ Tracks cfg ρ l τ

theorem tracks_append {σ τ : Seq} {l q : List InstDescript} :
    Tracks cfg σ (l ++ q) τ ↔ ∃ ρ, Tracks cfg σ l ρ ∧ Tracks cfg ρ q τ := by
  induction l generalizing σ with
  | nil => simp [Tracks]
  | cons d l ih =>
    simp only [List.cons_append, Tracks, ih]
    constructor
    · rintro ⟨ρ, step, π, rest, last⟩
      exact ⟨π, ⟨ρ, step, rest⟩, last⟩
    · rintro ⟨π, ⟨ρ, step, rest⟩, last⟩
      exact ⟨ρ, step, π, rest, last⟩

theorem tracks_single {σ τ : Seq} {d : InstDescript} :
    Tracks cfg σ [d] τ ↔ Stepped cfg σ d τ := by
  simp [Tracks]

theorem tracks_marked {l l' : List InstDescript} (h : List.Forall₂ Marked l l') {σ τ : Seq}
    (k : Tracks cfg σ l τ) : Tracks cfg σ l' τ := by
  induction h generalizing σ with
  | nil => exact k
  | cons hd _ ih =>
    obtain ⟨ρ, step, rest⟩ := k
    obtain ⟨⟨_, _, _, _, rfl⟩, -⟩ := hd
    exact ⟨ρ, step, ih rest⟩

/-- The instructions of the program among these. -/
def whole (l : List InstDescript) : List InstDescript := l.filter fun d => !d.half

/-- Tracking instructions is running the sequential machine. -/
theorem Tracks.steps {σ τ : Seq} {l : List InstDescript} (h : Tracks cfg σ l τ) :
    σ.steps cfg (whole l).length = some ((whole l).map InstDescript.pc, τ) := by
  induction l generalizing σ with
  | nil =>
    cases h
    rfl
  | cons d l ih =>
    obtain ⟨ρ, ⟨-, ⟨half, -, rfl⟩ | ⟨first, pc, -, step⟩⟩, rest⟩ := h
    · have skip : whole (d :: l) = whole l := by simp [whole, half]
      rw [skip]
      exact ih rest
    · have take : whole (d :: l) = d :: whole l := by simp [whole, first]
      rw [take]
      simp [Seq.steps, step, ih rest, pc]

/-- The instructions of the right path. -/
def right (l : List InstDescript) : List InstDescript := l.filter fun d => d.specLevel == 0

theorem right_append (l q : List InstDescript) : right (l ++ q) = right l ++ right q :=
  List.filter_append l q

theorem right_wrong {l : List InstDescript} (h : Wrong l) : right l = [] := by
  apply List.filter_eq_nil_iff.mpr
  intro d hd
  simpa using h d hd

theorem right_all {l : List InstDescript} (h : ∀ d ∈ l, d.specLevel = 0) : right l = l := by
  apply List.filter_eq_self.mpr
  intro d hd
  simpa using h d hd

theorem right_marked {l l' : List InstDescript} (h : List.Forall₂ Marked l l') :
    List.Forall₂ Marked (right l) (right l') := by
  induction h with
  | nil => exact .nil
  | @cons d d' l l' hd _ ih =>
    have level : d'.specLevel = d.specLevel := by
      obtain ⟨⟨_, _, _, _, rfl⟩, -⟩ := hd
      rfl
    by_cases zero : d.specLevel = 0
    · simp only [right, List.filter_cons, level, zero, beq_self_eq_true, if_true]
      exact .cons hd ih
    · have off : (d.specLevel == 0) = false := by simpa using zero
      simp only [right, List.filter_cons, level, off, Bool.false_eq_true, if_false]
      exact ih

end Core

end Godson

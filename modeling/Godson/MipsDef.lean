import Godson.Arch

/-! The instruction semantics of `mips.def`. An instruction reads its operands through a
view of the registers and the memory, so that the same text serves the architectural
state and the layers of speculative state; it answers with its writes in program order,
a fault and a jump. -/
namespace Godson.Mips

/-- `md_fault_type` -/
inductive Fault
  | alignment | overflow | div0 | brk
  deriving DecidableEq, Repr

/-- What the accessor macros `GPR`, `FPR_L`, `HI`, `LO`, `FCC` and the memory reads see.
`writeFault` is the fault a store to an address answers with. -/
structure View where
  regs : Regs
  read : Width → Word → Except Fault Word
  writeFault : Width → Word → Option Fault

namespace View

variable (v : View)

def gpr (n : Reg) : Word := v.regs.regsR n
def fpr (n : Reg) : Word := v.regs.regsF n
def fprD (n : Reg) : DWord := readDouble v.regs.regsF (n.extractLsb' 1 4)

/-- The view after a write of the same instruction. -/
def put (w : Write) : View := { v with regs := v.regs.put w }

end View

/-- Binary, unary, rounding and comparing operations of the floating-point unit. -/
inductive FpBin | add | sub | mul | div deriving DecidableEq
inductive FpUn | sqrt | abs | neg deriving DecidableEq
inductive FpRound | round | trunc | ceil | floor | cvt deriving DecidableEq
inductive FpCmp | eq | lt | le deriving DecidableEq

/-- The floating-point arithmetic of the host, on the bit patterns of its operands. -/
structure Fpu where
  binS : FpBin → Word → Word → Word
  binD : FpBin → DWord → DWord → DWord
  unS : FpUn → Word → Word
  unD : FpUn → DWord → DWord
  toWordS : FpRound → Word → Word
  toWordD : FpRound → DWord → Word
  cmpS : FpCmp → Word → Word → Bool
  cmpD : FpCmp → DWord → DWord → Bool
  cvtDS : Word → DWord
  cvtSD : DWord → Word
  cvtSW : Word → Word
  cvtDW : Word → DWord

/-- An arithmetic for programs that compute nothing in floating point. -/
def noFpu : Fpu where
  binS _ _ _ := 0
  binD _ _ _ := 0
  unS _ _ := 0
  unD _ _ := 0
  toWordS _ _ := 0
  toWordD _ _ := 0
  cmpS _ _ _ := false
  cmpD _ _ _ := false
  cvtDS _ := 0
  cvtSD _ := 0
  cvtSW _ := 0
  cvtDW _ := 0

/-- The outcome of an instruction. `target` is what `SET_TPC` leaves, if it runs. -/
structure Effect where
  writes : List Write := []
  fault : Option Fault := none
  target : Option Word := none
  isJump : Bool := false

namespace Effect

def wr (w : Write) : Effect := { writes := [w] }

/-- `DECLARE_FAULT` ends the instruction. -/
def fail (f : Fault) : Effect := { fault := some f }

/-- An alignment test that comes before everything else. -/
def aligned (bad : Bool) (e : Effect) : Effect := if bad then fail .alignment else e

/-- A read from memory, which may fault, and what is done with its value. -/
def load (v : View) (w : Width) (a : Word) (k : Word → Effect) : Effect :=
  match v.read w a with
  | .error f => fail f
  | .ok x => k x

/-- A store and the writes after it, which a fault of the store leaves out. -/
def store (v : View) (w : Width) (a x : Word) (rest : Effect) : Effect :=
  match v.writeFault w a with
  | some f => { writes := [.store w a x], fault := some f }
  | none => { rest with writes := .store w a x :: rest.writes }

/-- A branch to the target in its offset field. -/
def branch (inst pc : Word) (taken : Bool) : Effect :=
  { target := some (pc + 4 + (imm inst <<< 2)), isJump := taken }

/-- A branch that leaves its return address in register 31 before it tests. -/
def branchLink (v : View) (inst pc : Word) (test : View → Bool) : Effect :=
  let link := Write.gpr 31 (pc + 8)
  { branch inst pc (test (v.put link)) with writes := [link] }

end Effect

section Arithmetic

def slt (x y : Word) : Bool := x.slt y

/-- `OVER` -/
def overflows (x y : Word) : Bool :=
  slt 0 x && slt 0 y && slt (0x7fffffff - x) y || slt x 0 && slt y 0 && slt y (-0x7fffffff - x)

/-- `UNDER` -/
def under (x y : Word) : Bool :=
  slt 0 x && slt y 0 && slt (0x7fffffff + y) x || slt x 0 && slt 0 y && slt x (-0x7fffffff + y)

/-- `extractl(word, pos, 1)` -/
def bitAt (x : Word) (pos : Nat) : Word := (x >>> pos) &&& 1

/-- One round of the shift-and-add loop of `MULT` and `MULTU`. -/
def multStep (op₁ op₂ : Word) (hl : Word × Word) (i : Nat) : Word × Word :=
  let hi := (hl.1 <<< 1) + bitAt hl.2 31
  let lo := hl.2 <<< 1
  if bitAt op₁ (30 - i) = 1 then
    (if (0xffffffff - lo).ult op₂ then hi + 1 else hi, lo + op₂)
  else (hi, lo)

/-- The loop of `MULTU`, which starts from the top bit of the first operand. -/
def multLoop (op₁ op₂ : Word) : Word × Word :=
  (List.range 31).foldl (multStep op₁ op₂) (0, if op₁.msb then op₂ else 0)

/-- `MULT` multiplies the magnitudes and negates the result when the signs differ. -/
def multSigned (x y : Word) : Word × Word :=
  let hl := multLoop (if x.msb then ~~~x + 1 else x) (if y.msb then ~~~y + 1 else y)
  if x.msb != y.msb then
    let lo := ~~~hl.2
    let hi := ~~~hl.1
    (if lo = 0xffffffff then hi + 1 else hi, lo + 1)
  else hl

/-- `md_lr_masks` on a little-endian host. -/
def lrMask : Nat → Word
  | 0 => 0xffffffff
  | 1 => 0x00ffffff
  | 2 => 0x0000ffff
  | 3 => 0x000000ff
  | _ => 0

def wlSize (a : Word) : Nat := 4 - a.toNat % 4
def wrSize (a : Word) : Nat := a.toNat % 4 + 1

def boolWord (b : Bool) : Word := if b then 1 else 0

end Arithmetic

section Impl

variable (fpu : Fpu) (inst pc : Word) (v : View)

/-- The address of a load or store. -/
def memAddr : Word := v.gpr (rs inst) + imm inst

def odd (r : Reg) : Bool := r.getLsbD 0

/-- Two operands and a result, in even registers. -/
def fpThree (w : Write) : Effect :=
  .aligned (odd (fd inst) || odd (fs inst) || odd (ft inst)) (.wr w)

/-- One operand and a result. -/
def fpTwo (w : Write) : Effect := .aligned (odd (fd inst) || odd (fs inst)) (.wr w)

/-- A comparison sets the condition code. -/
def fpCmp (b : Bool) : Effect := .aligned (odd (fs inst) || odd (ft inst)) (.wr (.fcc (boolWord b)))

/-- `FPR_D(FD)` as the target of a write. -/
def wrD (x : DWord) : Write := .fprD ((fd inst).extractLsb' 1 4) x

/-- Double-precision arithmetic. All other opcodes are bogus and do nothing. -/
def implDouble : Op → Effect
  | .faddD => fpThree inst (wrD inst (fpu.binD .add (v.fprD (fs inst)) (v.fprD (ft inst))))
  | .fsubD => fpThree inst (wrD inst (fpu.binD .sub (v.fprD (fs inst)) (v.fprD (ft inst))))
  | .fmulD => fpThree inst (wrD inst (fpu.binD .mul (v.fprD (fs inst)) (v.fprD (ft inst))))
  | .fdivD => fpThree inst (wrD inst (fpu.binD .div (v.fprD (fs inst)) (v.fprD (ft inst))))
  | .fsqrtD => fpTwo inst (wrD inst (fpu.unD .sqrt (v.fprD (fs inst))))
  | .fabsD => fpTwo inst (wrD inst (fpu.unD .abs (v.fprD (fs inst))))
  | .fmovD => fpTwo inst (wrD inst (quietD (v.fprD (fs inst))))
  | .fnegD => fpTwo inst (wrD inst (fpu.unD .neg (v.fprD (fs inst))))
  | .roundWD => fpTwo inst (.fpr (fd inst) (fpu.toWordD .round (v.fprD (fs inst))))
  | .truncWD => fpTwo inst (.fpr (fd inst) (fpu.toWordD .trunc (v.fprD (fs inst))))
  | .ceilWD => fpTwo inst (.fpr (fd inst) (fpu.toWordD .ceil (v.fprD (fs inst))))
  | .floorWD => fpTwo inst (.fpr (fd inst) (fpu.toWordD .floor (v.fprD (fs inst))))
  | .cvtSD => fpTwo inst (.fpr (fd inst) (fpu.cvtSD (v.fprD (fs inst))))
  | .cvtWD => fpTwo inst (.fpr (fd inst) (fpu.toWordD .cvt (v.fprD (fs inst))))
  | .cEqD => fpCmp inst (fpu.cmpD .eq (v.fprD (fs inst)) (v.fprD (ft inst)))
  | .cLtD => fpCmp inst (fpu.cmpD .lt (v.fprD (fs inst)) (v.fprD (ft inst)))
  | .cLeD => fpCmp inst (fpu.cmpD .le (v.fprD (fs inst)) (v.fprD (ft inst)))
  | _ => {}

/-- Single-precision arithmetic. -/
def implSingle : Op → Effect
  | .faddS => fpThree inst (.fpr (fd inst) (fpu.binS .add (v.fpr (fs inst)) (v.fpr (ft inst))))
  | .fsubS => fpThree inst (.fpr (fd inst) (fpu.binS .sub (v.fpr (fs inst)) (v.fpr (ft inst))))
  | .fmulS => fpThree inst (.fpr (fd inst) (fpu.binS .mul (v.fpr (fs inst)) (v.fpr (ft inst))))
  | .fdivS => fpThree inst (.fpr (fd inst) (fpu.binS .div (v.fpr (fs inst)) (v.fpr (ft inst))))
  | .fsqrtS => fpTwo inst (.fpr (fd inst) (fpu.unS .sqrt (v.fpr (fs inst))))
  | .fabsS => fpTwo inst (.fpr (fd inst) (fpu.unS .abs (v.fpr (fs inst))))
  | .fmovS => fpTwo inst (.fpr (fd inst) (quietS (v.fpr (fs inst))))
  | .fnegS => fpTwo inst (.fpr (fd inst) (fpu.unS .neg (v.fpr (fs inst))))
  | .roundWS => fpTwo inst (.fpr (fd inst) (fpu.toWordS .round (v.fpr (fs inst))))
  | .truncWS => fpTwo inst (.fpr (fd inst) (fpu.toWordS .trunc (v.fpr (fs inst))))
  | .ceilWS => fpTwo inst (.fpr (fd inst) (fpu.toWordS .ceil (v.fpr (fs inst))))
  | .floorWS => fpTwo inst (.fpr (fd inst) (fpu.toWordS .floor (v.fpr (fs inst))))
  | .cvtDS => fpTwo inst (wrD inst (fpu.cvtDS (v.fpr (fs inst))))
  | .cvtWS => fpTwo inst (.fpr (fd inst) (fpu.toWordS .cvt (v.fpr (fs inst))))
  | .cEqS => fpCmp inst (fpu.cmpS .eq (v.fpr (fs inst)) (v.fpr (ft inst)))
  | .cLtS => fpCmp inst (fpu.cmpS .lt (v.fpr (fs inst)) (v.fpr (ft inst)))
  | .cLeS => fpCmp inst (fpu.cmpS .le (v.fpr (fs inst)) (v.fpr (ft inst)))
  | .cvtSW => fpTwo inst (.fpr (fd inst) (fpu.cvtSW (v.fpr (fs inst))))
  | .cvtDW => fpTwo inst (wrD inst (fpu.cvtDW (v.fpr (fs inst))))
  | op => implDouble fpu inst v op

/-- Loads, stores and the moves between the register files. -/
def implMem : Op → Effect
  | .lb => .load v .byte (memAddr inst v) fun x => .wr (.gpr (rt inst) ((x.setWidth 8).signExtend 32))
  | .lh => .load v .half (memAddr inst v) fun x => .wr (.gpr (rt inst) ((x.setWidth 16).signExtend 32))
  | .lw | .ll => .load v .word (memAddr inst v) fun x => .wr (.gpr (rt inst) x)
  | .lbu => .load v .byte (memAddr inst v) fun x => .wr (.gpr (rt inst) x)
  | .lhu => .load v .half (memAddr inst v) fun x => .wr (.gpr (rt inst) x)
  | .lwc1 => .load v .word (memAddr inst v) fun x => .wr (.fpr (ft inst) x)
  | .ldc1 =>
    .aligned (odd (ft inst)) (.load v .word (memAddr inst v) fun x =>
      .load v .word (memAddr inst v + 4) fun y =>
        { writes := [.fpr (ft inst) x, .fpr (ft inst + 1) y] })
  | .lwl =>
    let a := memAddr inst v
    let keep := lrMask (wrSize a)
    .load v .word (wordBase a) fun x => .wr (.gpr (rt inst)
      ((v.gpr (rt inst) &&& keep) ||| ((x <<< (8 * (wlSize a - 1))) &&& ~~~keep)))
  | .lwr =>
    let a := memAddr inst v
    let take := lrMask (4 - wlSize a)
    .load v .word (wordBase a) fun x => .wr (.gpr (rt inst)
      ((v.gpr (rt inst) &&& ~~~take) ||| ((x >>> (8 * (wrSize a - 1))) &&& take)))
  | .sb => .store v .byte (memAddr inst v) (v.gpr (rt inst)) {}
  | .sh => .store v .half (memAddr inst v) (v.gpr (rt inst)) {}
  | .sw => .store v .word (memAddr inst v) (v.gpr (rt inst)) {}
  | .swc1 => .store v .word (memAddr inst v) (v.fpr (ft inst)) {}
  | .sdc1 =>
    .aligned (odd (ft inst)) (.store v .word (memAddr inst v) (v.fpr (ft inst))
      (.store v .word (memAddr inst v + 4) (v.fpr (ft inst + 1)) {}))
  | .swl =>
    let a := memAddr inst v
    let take := lrMask (4 - wrSize a)
    .load v .word (wordBase a) fun x => .store v .word (wordBase a)
      (((v.gpr (rt inst)).sshiftRight (8 * (4 - wrSize a)) &&& take) ||| (x &&& ~~~take)) {}
  | .swr =>
    let a := memAddr inst v
    let keep := lrMask (wlSize a)
    .load v .word (wordBase a) fun x => .store v .word (wordBase a)
      (((v.gpr (rt inst) <<< (8 * (4 - wlSize a))) &&& ~~~keep) ||| (x &&& keep)) {}
  | .sc => .store v .word (memAddr inst v) (v.gpr (rt inst)) (.wr (.gpr (rt inst) 1))
  | .mfc1 => .wr (.gpr (rt inst) (v.fpr (fs inst)))
  | .dmfc1 =>
    .aligned (odd (rt inst) || odd (fs inst))
      { writes := [.gpr (rt inst) (v.fpr (fs inst)), .gpr (rt inst + 1) (v.fpr (fs inst + 1))] }
  | .mtc1 => .wr (.fpr (fs inst) (v.gpr (rt inst)))
  | .dmtc1 =>
    .aligned (odd (fs inst) || odd (rt inst))
      { writes := [.fpr (fs inst) (v.gpr (rt inst)), .fpr (fs inst + 1) (v.gpr (rt inst + 1))] }
  | op => implSingle fpu inst v op

/-- Jumps and branches. -/
def implCtrl : Op → Effect
  | .jump => { target := some ((pc &&& 0xf0000000) ||| (targ inst <<< 2)), isJump := true }
  | .jal =>
    { writes := [.gpr 31 (pc + 8)]
      target := some ((pc &&& 0xf0000000) ||| (targ inst <<< 2)), isJump := true }
  | .jr =>
    .aligned (v.gpr (rs inst) &&& 3 != 0) { target := some (v.gpr (rs inst)), isJump := true }
  | .jalr =>
    let link := Write.gpr (rd inst) (pc + 8)
    .aligned (v.gpr (rs inst) &&& 3 != 0)
      { writes := [link], target := some ((v.put link).gpr (rs inst)), isJump := true }
  | .beq | .beql => .branch inst pc (v.gpr (rs inst) == v.gpr (rt inst))
  | .bne | .bnel => .branch inst pc (v.gpr (rs inst) != v.gpr (rt inst))
  | .blez | .blezl => .branch inst pc (!slt 0 (v.gpr (rs inst)))
  | .bgtz | .bgtzl => .branch inst pc (slt 0 (v.gpr (rs inst)))
  | .bltz | .bltzl => .branch inst pc (slt (v.gpr (rs inst)) 0)
  | .bgez | .bgezl => .branch inst pc (!slt (v.gpr (rs inst)) 0)
  | .bltzal | .bltzall => .branchLink v inst pc fun v => slt (v.gpr (rs inst)) 0
  | .bgezal | .bgezall => .branchLink v inst pc fun v => !slt (v.gpr (rs inst)) 0
  | .bc1f | .bc1fl => .branch inst pc (v.regs.fcc == 0)
  | .bc1t | .bc1tl => .branch inst pc (v.regs.fcc != 0)
  | op => implMem fpu inst v op

/-- The `_IMPL` of an opcode: arithmetic and moves of general registers here, the other
groups above. The body of `sys_syscall` is empty. -/
def impl : Op → Effect
  | .addi =>
    if overflows (v.gpr (rs inst)) (imm inst) then .fail .overflow
    else .wr (.gpr (rt inst) (v.gpr (rs inst) + imm inst))
  | .addiu => .wr (.gpr (rt inst) (v.gpr (rs inst) + imm inst))
  | .slti => .wr (.gpr (rt inst) (boolWord (slt (v.gpr (rs inst)) (imm inst))))
  | .sltiu => .wr (.gpr (rt inst) (boolWord ((v.gpr (rs inst)).ult (imm inst))))
  | .andi => .wr (.gpr (rt inst) (v.gpr (rs inst) &&& uimm inst))
  | .ori => .wr (.gpr (rt inst) (v.gpr (rs inst) ||| uimm inst))
  | .xori => .wr (.gpr (rt inst) (v.gpr (rs inst) ^^^ uimm inst))
  | .lui => .wr (.gpr (rt inst) (uimm inst <<< 16))
  | .sll => .wr (.gpr (rd inst) (v.gpr (rt inst) <<< (shamt inst).toNat))
  | .sllv => .wr (.gpr (rd inst) (v.gpr (rt inst) <<< (v.gpr (rs inst) &&& 0x1f).toNat))
  | .srl => .wr (.gpr (rd inst) (v.gpr (rt inst) >>> (shamt inst).toNat))
  | .srlv => .wr (.gpr (rd inst) (v.gpr (rt inst) >>> (v.gpr (rs inst) &&& 0x1f).toNat))
  | .sra => .wr (.gpr (rd inst) ((v.gpr (rt inst)).sshiftRight (shamt inst).toNat))
  | .srav =>
    .wr (.gpr (rd inst) ((v.gpr (rt inst)).sshiftRight (v.gpr (rs inst) &&& 0x1f).toNat))
  | .mfhi => .wr (.gpr (rd inst) v.regs.hi)
  | .mthi => .wr (.hi (v.gpr (rs inst)))
  | .mflo => .wr (.gpr (rd inst) v.regs.lo)
  | .mtlo => .wr (.lo (v.gpr (rs inst)))
  | .mult =>
    let hl := multSigned (v.gpr (rs inst)) (v.gpr (rt inst))
    { writes := [.hi hl.1, .lo hl.2] }
  | .multu =>
    let hl := multLoop (v.gpr (rs inst)) (v.gpr (rt inst))
    { writes := [.hi hl.1, .lo hl.2] }
  | .div =>
    if v.gpr (rt inst) = 0 then .fail .div0
    else { writes := [.lo ((v.gpr (rs inst)).sdiv (v.gpr (rt inst))),
                      .hi ((v.gpr (rs inst)).srem (v.gpr (rt inst)))] }
  | .divu =>
    if v.gpr (rt inst) = 0 then .fail .div0
    else { writes := [.lo (v.gpr (rs inst) / v.gpr (rt inst)),
                      .hi (v.gpr (rs inst) % v.gpr (rt inst))] }
  | .add =>
    if overflows (v.gpr (rs inst)) (v.gpr (rt inst)) then .fail .overflow
    else .wr (.gpr (rd inst) (v.gpr (rs inst) + v.gpr (rt inst)))
  | .addu => .wr (.gpr (rd inst) (v.gpr (rs inst) + v.gpr (rt inst)))
  | .sub =>
    if under (v.gpr (rs inst)) (v.gpr (rt inst)) then .fail .overflow
    else .wr (.gpr (rd inst) (v.gpr (rs inst) - v.gpr (rt inst)))
  | .subu => .wr (.gpr (rd inst) (v.gpr (rs inst) - v.gpr (rt inst)))
  | .and => .wr (.gpr (rd inst) (v.gpr (rs inst) &&& v.gpr (rt inst)))
  | .or => .wr (.gpr (rd inst) (v.gpr (rs inst) ||| v.gpr (rt inst)))
  | .xor => .wr (.gpr (rd inst) (v.gpr (rs inst) ^^^ v.gpr (rt inst)))
  | .nor => .wr (.gpr (rd inst) (~~~(v.gpr (rs inst) ||| v.gpr (rt inst))))
  | .slt => .wr (.gpr (rd inst) (boolWord (slt (v.gpr (rs inst)) (v.gpr (rt inst)))))
  | .sltu => .wr (.gpr (rd inst) (boolWord ((v.gpr (rs inst)).ult (v.gpr (rt inst)))))
  | .brk => .fail .brk
  | op => implCtrl fpu inst pc v op

end Impl

section Separate

/-- The writes of an instruction touch different cells, and two saves hold them. -/
def Effect.Saved (e : Effect) : Prop := Separate e.writes ∧ e.writes.length ≤ 2

namespace Effect

theorem saved_one {e : Effect} {w : Write} (h : e.writes = [w]) : e.Saved := by
  simp [Saved, h, Separate]

theorem saved_none {e : Effect} (h : e.writes = []) : e.Saved := by
  simp [Saved, h, Separate]

theorem saved_two {e : Effect} {w x : Write} (h : e.writes = [w, x])
    (apart : Disjoint w.cells x.cells) : e.Saved := by
  simp [Saved, h, Separate, apart]

theorem saved_aligned {bad : Bool} {e : Effect} (h : e.Saved) : (aligned bad e).Saved := by
  unfold aligned
  split
  · exact saved_none rfl
  · exact h

theorem saved_load {v : View} {w : Width} {a : Word} {k : Word → Effect}
    (h : ∀ x, (k x).Saved) : (load v w a k).Saved := by
  unfold load
  split
  · exact saved_none rfl
  · exact h _

theorem saved_store {v : View} {w : Width} {a x : Word} {rest : Effect}
    (h : rest.writes = [] ∨
      ∃ y, rest.writes = [y] ∧ Disjoint (Write.store w a x).cells y.cells) :
    (store v w a x rest).Saved := by
  unfold store
  split
  · exact saved_one rfl
  · rcases h with h | ⟨y, h, apart⟩
    · apply saved_one (w := .store w a x)
      simp only [h]
    · apply saved_two _ apart
      simp only [h]

end Effect

theorem next_word_apart (w u : Width) (a x y : Word) :
    Disjoint (Write.store w a x).cells (Write.store u (a + 4) y).cells := by
  rw [Set.disjoint_left]
  rintro c ⟨p, hp, near⟩ ⟨q, hq, near'⟩
  subst hp
  cases hq
  have base := wordBase_toNat a
  have base' := wordBase_toNat (a + 4)
  have small := a.isLt
  rw [BitVec.toNat_sub] at near near'
  have four : (4 : Word).toNat = 4 := rfl
  rw [BitVec.toNat_add, four] at base'
  omega

theorem next_gpr_apart (n : Reg) (x y : Word) :
    Disjoint (Write.gpr n x).cells (Write.gpr (n + 1) y).cells := by
  simp [Write.cells]

theorem next_fpr_apart (n : Reg) (x y : Word) :
    Disjoint (Write.fpr n x).cells (Write.fpr (n + 1) y).cells := by
  simp [Write.cells]

theorem hi_lo_apart (x y : Word) : Disjoint (Write.hi x).cells (Write.lo y).cells := by
  simp [Write.cells]

theorem store_gpr_apart (w : Width) (a x : Word) (n : Reg) (y : Word) :
    Disjoint (Write.store w a x).cells (Write.gpr n y).cells := by
  rw [Set.disjoint_left]
  rintro c ⟨p, hp, -⟩ hc
  subst hp
  cases hc

open Effect

variable (fpu : Fpu) (inst pc : Word) (v : View)

theorem implDouble_saved (op : Op) : (implDouble fpu inst v op).Saved := by
  cases op <;> first
    | exact saved_none rfl
    | exact saved_aligned (saved_one rfl)

theorem implSingle_saved (op : Op) : (implSingle fpu inst v op).Saved := by
  cases op <;> first
    | exact implDouble_saved fpu inst v _
    | exact saved_aligned (saved_one rfl)

theorem implMem_saved (op : Op) : (implMem fpu inst v op).Saved := by
  cases op with
  | lb | lh | lw | lbu | lhu | lwc1 | lwl | lwr | ll => exact saved_load fun _ => saved_one rfl
  | ldc1 =>
    apply saved_aligned
    exact saved_load fun _ => saved_load fun _ => saved_two rfl (next_fpr_apart _ _ _)
  | sb | sh | sw | swc1 => exact saved_store (.inl rfl)
  | sdc1 =>
    apply saved_aligned
    apply saved_store
    right
    unfold store
    split
    · exact ⟨_, rfl, next_word_apart _ _ _ _ _⟩
    · exact ⟨_, rfl, next_word_apart _ _ _ _ _⟩
  | swl | swr => exact saved_load fun _ => saved_store (.inl rfl)
  | sc => exact saved_store (.inr ⟨_, rfl, store_gpr_apart _ _ _ _ _⟩)
  | mfc1 | mtc1 => exact saved_one rfl
  | dmfc1 => exact saved_aligned (saved_two rfl (next_gpr_apart _ _ _))
  | dmtc1 => exact saved_aligned (saved_two rfl (next_fpr_apart _ _ _))
  | _ => exact implSingle_saved fpu inst v _

theorem implCtrl_saved (op : Op) : (implCtrl fpu inst pc v op).Saved := by
  cases op with
  | jump | beq | bne | blez | bgtz | beql | bnel | blezl | bgtzl | bltz | bgez | bltzl | bgezl
  | bc1f | bc1t | bc1fl | bc1tl => exact saved_none rfl
  | jal | bltzal | bgezal | bltzall | bgezall => exact saved_one rfl
  | jr => exact saved_aligned (saved_none rfl)
  | jalr => exact saved_aligned (saved_one rfl)
  | _ => exact implMem_saved fpu inst v _

/-- Every instruction writes at most two places, and never one twice. -/
theorem impl_saved (op : Op) : (impl fpu inst pc v op).Saved := by
  cases op with
  | mult | multu => exact saved_two rfl (hi_lo_apart _ _)
  | div | divu =>
    simp only [impl]
    split
    · exact saved_none rfl
    · exact saved_two rfl (hi_lo_apart _ _).symm
  | addi | add | sub =>
    simp only [impl]
    split
    · exact saved_none rfl
    · exact saved_one rfl
  | addiu | slti | sltiu | andi | ori | xori | lui | sll | sllv | srl | srlv | sra | srav
  | mfhi | mthi | mflo | mtlo | addu | subu | and | or | xor | nor | slt | sltu =>
    exact saved_one rfl
  | brk => exact saved_none rfl
  | _ => exact implCtrl_saved fpu inst pc v _

end Separate

section Straight

open Effect

/-- The instruction does not jump. -/
def Effect.Straight (e : Effect) : Prop := e.isJump = false

theorem straight_aligned {bad : Bool} {e : Effect} (h : e.Straight) : (aligned bad e).Straight := by
  unfold aligned
  split
  · rfl
  · exact h

theorem straight_load {v : View} {w : Width} {a : Word} {k : Word → Effect}
    (h : ∀ x, (k x).Straight) : (load v w a k).Straight := by
  unfold load
  split
  · rfl
  · exact h _

theorem straight_store {v : View} {w : Width} {a x : Word} {rest : Effect}
    (h : rest.Straight) : (store v w a x rest).Straight := by
  unfold store
  split
  · rfl
  · exact h

variable (fpu : Fpu) (inst pc : Word) (v : View)

theorem implDouble_straight (op : Op) : (implDouble fpu inst v op).Straight := by
  cases op <;> first
    | rfl
    | exact straight_aligned rfl

theorem implSingle_straight (op : Op) : (implSingle fpu inst v op).Straight := by
  cases op <;> first
    | exact implDouble_straight fpu inst v _
    | exact straight_aligned rfl

theorem implMem_straight (op : Op) : (implMem fpu inst v op).Straight := by
  cases op with
  | lb | lh | lw | lbu | lhu | lwc1 | lwl | lwr | ll => exact straight_load fun _ => rfl
  | ldc1 => exact straight_aligned (straight_load fun _ => straight_load fun _ => rfl)
  | sb | sh | sw | swc1 | sc => exact straight_store rfl
  | sdc1 => exact straight_aligned (straight_store (straight_store rfl))
  | swl | swr => exact straight_load fun _ => straight_store rfl
  | mfc1 | mtc1 => rfl
  | dmfc1 | dmtc1 => exact straight_aligned rfl
  | _ => exact implSingle_straight fpu inst v _

/-- Only control instructions jump. -/
theorem impl_straight (op : Op) (h : op.has .ctrl = false) :
    (impl fpu inst pc v op).Straight := by
  cases op with
  | jump | jal | beq | bne | blez | bgtz | beql | bnel | blezl | bgtzl | bltz | bgez | bltzl
  | bgezl | bltzal | bgezal | bltzall | bgezall | bc1f | bc1t | bc1fl | bc1tl | jr | jalr =>
    exact absurd h (by decide)
  | div | divu | addi | add | sub =>
    simp only [impl]
    split
    · rfl
    · rfl
  | brk | mult | multu | addiu | slti | sltiu | andi | ori | xori | lui | sll | sllv | srl
  | srlv | sra | srav | mfhi | mthi | mflo | mtlo | addu | subu | and | or | xor | nor | slt
  | sltu => rfl
  | _ => exact implMem_straight fpu inst v _

/-- A control instruction that does not fault knows its target, and one that takes it
from a register always jumps. -/
theorem impl_ctrl (op : Op) (h : op.has .ctrl = true) (ok : (impl fpu inst pc v op).fault = none) :
    (impl fpu inst pc v op).target.isSome = true ∧
      (op.has .dirjmp = false → (impl fpu inst pc v op).isJump = true) := by
  cases op with
  | jump | jal => exact ⟨rfl, fun _ => rfl⟩
  | beq | bne | blez | bgtz | beql | bnel | blezl | bgtzl | bltz | bgez | bltzl | bgezl | bltzal
  | bgezal | bltzall | bgezall | bc1f | bc1t | bc1fl | bc1tl =>
    exact ⟨rfl, fun direct => absurd direct (by decide)⟩
  | jr | jalr =>
    simp only [impl, implCtrl, aligned] at ok ⊢
    split at ok
    · cases ok
    · rename_i bad
      rw [if_neg bad]
      exact ⟨rfl, fun _ => rfl⟩
  | _ => exact absurd h (by decide)

end Straight

end Godson.Mips

import Godson.Operands
import Godson.Arithmetic

/-! The registers that instructions read and write, against the inputs and outputs that
`mips.def` declares for them. -/
namespace Godson.Mips

/-- The name of the register that a write changes. Register 0 is not counted. -/
def Write.name : Write → Option Nat
  | .gpr n _ => if n = 0 then none else some (dgpr n)
  | .fpr n _ => some (dfpr n)
  | .fprD n _ => some (32 + 2 * n.toNat)
  | .hi _ => some dhi
  | .lo _ => some dlo
  | .fcc _ => some dfcc
  | .store .. => none

def Names.Input (n : Names) (k : Nat) : Prop := k = n.in1 ∨ k = n.in2 ∨ k = n.in3

def Names.Output (n : Names) (k : Nat) : Prop := k = n.out1 ∨ k = n.out2

/-- The second half of a multiply or divide, which fetch adds behind the first. -/
def Op.half (op : Op) : Op := if op = .mult ∨ op = .multu then .splitmul else .splitdiv

/-- Two views of the same memory that hold the same values in the inputs and in register 0. -/
structure Agree (n : Names) (v v' : View) : Prop where
  zero : v.gpr 0 = v'.gpr 0
  gpr : ∀ r, n.Input (dgpr r) → v.gpr r = v'.gpr r
  fpr : ∀ r, n.Input (dfpr r) → v.fpr r = v'.fpr r
  hi : n.Input dhi → v.regs.hi = v'.regs.hi
  lo : n.Input dlo → v.regs.lo = v'.regs.lo
  fcc : n.Input dfcc → v.regs.fcc = v'.regs.fcc
  read : v.read = v'.read
  writeFault : v.writeFault = v'.writeFault

/-- No register but the declared inputs makes a difference to the instruction. -/
def Op.ReadsInputs (op : Op) (inst : Word) : Prop :=
  ∀ fpu pc v v', Agree (op.names inst) v v' → impl fpu inst pc v op = impl fpu inst pc v' op

/-- Every register that the instruction writes is a declared output, of itself or of the
second half it is split into. -/
def Op.WritesOutputs (op : Op) (inst : Word) : Prop :=
  ∀ fpu pc v, ∀ w ∈ (impl fpu inst pc v op).writes, ∀ k, w.name = some k →
    (op.names inst).Output k ∨ op.isSplit = true ∧ (op.half.names inst).Output k

section Reads

variable {inst : Word} {n : Names} {v v' : View}

theorem Agree.fprD (agree : Agree n v v') {r : Reg} (input : n.Input (dfpr r)) :
    v.fprD r = v'.fprD r := by
  have pair (b : BitVec 1) : dfpr (r.extractLsb' 1 4 ++ b) = dfpr r := by
    have hb := b.isLt
    have hr := r.isLt
    rw [dfpr, dfpr, BitVec.toNat_append, ← Nat.shiftLeft_add_eq_or_of_lt hb,
      BitVec.extractLsb'_toNat, Nat.shiftLeft_eq, Nat.shiftRight_eq_div_pow]
    omega
  have high := agree.fpr _ (pair 1#1 ▸ input)
  have low := agree.fpr _ (pair 0#1 ▸ input)
  simp only [View.fprD, readDouble]
  exact congrArg₂ (· ++ ·) high low

/-- The next register of an even one is the other half of its pair. -/
theorem dfpr_next {r : Reg} (even : odd r = false) : dfpr (r + 1) = dfpr r := by
  have hr := r.isLt
  have bit : r.toNat % 2 = 0 := by
    simpa [odd, BitVec.getLsbD, Nat.testBit_zero] using even
  have one : (1 : Reg).toNat = 1 := rfl
  rw [dfpr, dfpr, BitVec.toNat_add, one]
  omega

theorem implDouble_reads (fpu : Fpu) {op : Op} (agree : Agree (op.names inst) v v') :
    implDouble fpu inst v op = implDouble fpu inst v' op := by
  cases op with
  | faddD | fsubD | fmulD | fdivD | cEqD | cLtD | cLeD =>
    have hs := agree.fprD (r := fs inst) (.inl rfl)
    have ht := agree.fprD (r := ft inst) (.inr (.inl rfl))
    simp only [implDouble, hs, ht]
  | fsqrtD | fabsD | fmovD | fnegD | roundWD | truncWD | ceilWD | floorWD | cvtSD | cvtWD =>
    have hs := agree.fprD (r := fs inst) (.inl rfl)
    simp only [implDouble, hs]
  | _ => rfl

theorem implSingle_reads (fpu : Fpu) {op : Op} (agree : Agree (op.names inst) v v') :
    implSingle fpu inst v op = implSingle fpu inst v' op := by
  cases op with
  | faddS | fsubS | fmulS | fdivS | cEqS | cLtS | cLeS =>
    have hs := agree.fpr (fs inst) (.inl rfl)
    have ht := agree.fpr (ft inst) (.inr (.inl rfl))
    simp only [implSingle, hs, ht]
  | fsqrtS | fabsS | fmovS | fnegS | roundWS | truncWS | ceilWS | floorWS | cvtDS | cvtWS
  | cvtSW | cvtDW =>
    have hs := agree.fpr (fs inst) (.inl rfl)
    simp only [implSingle, hs]
  | _ => exact implDouble_reads fpu agree

/-- The encodings whose declared names are all that the instruction reads and writes. -/
def Op.Declared (op : Op) (inst : Word) : Prop :=
  match op with
  | .bltzal | .bgezal | .bltzall | .bgezall => False
  | .lwl | .lwr => rt inst = 0 ∨ rt inst = rs inst
  | .sc => rt inst = 0
  | .dmfc1 | .dmtc1 => odd (rt inst) = true ∨ odd (fs inst) = true
  | _ => True

theorem implMem_reads (fpu : Fpu) {op : Op} (agree : Agree (op.names inst) v v')
    (declared : op.Declared inst) : implMem fpu inst v op = implMem fpu inst v' op := by
  have memory := agree.read
  have stores := agree.writeFault
  cases op with
  | lb | lh | lw | ll | lbu | lhu | lwc1 | ldc1 =>
    have hs := agree.gpr (rs inst) (.inr (.inl rfl))
    simp only [implMem, memAddr, Effect.load, hs, memory]
  | lwl | lwr =>
    have hs := agree.gpr (rs inst) (.inr (.inl rfl))
    have ht : v.gpr (rt inst) = v'.gpr (rt inst) := by
      rcases declared with none | same
      · exact none ▸ agree.zero
      · exact same ▸ hs
    simp only [implMem, memAddr, Effect.load, hs, ht, memory]
  | sb | sh | sw | sc | swl | swr =>
    have ht := agree.gpr (rt inst) (.inl rfl)
    have hs := agree.gpr (rs inst) (.inr (.inl rfl))
    simp only [implMem, memAddr, Effect.load, Effect.store, ht, hs, memory, stores]
  | swc1 =>
    have ht := agree.fpr (ft inst) (.inl rfl)
    have hs := agree.gpr (rs inst) (.inr (.inl rfl))
    simp only [implMem, memAddr, Effect.store, ht, hs, stores]
  | sdc1 =>
    have ht := agree.fpr (ft inst) (.inl rfl)
    have hs := agree.gpr (rs inst) (.inr (.inl rfl))
    cases even : odd (ft inst) with
    | true => simp only [implMem, Effect.aligned, even, if_true]
    | false =>
      have next := agree.fpr (ft inst + 1) (.inl (dfpr_next even))
      simp only [implMem, memAddr, Effect.store, ht, hs, next, stores]
  | mfc1 =>
    have hs := agree.fpr (fs inst) (.inl rfl)
    simp only [implMem, hs]
  | mtc1 =>
    have ht := agree.gpr (rt inst) (.inl rfl)
    simp only [implMem, ht]
  | dmfc1 | dmtc1 =>
    have misaligned : (odd (rt inst) || odd (fs inst)) = true := Bool.or_eq_true_iff.mpr declared
    have misaligned' : (odd (fs inst) || odd (rt inst)) = true := Bool.or_comm _ _ ▸ misaligned
    simp only [implMem, Effect.aligned, misaligned, misaligned', if_true]
  | _ => exact implSingle_reads fpu agree

theorem implCtrl_reads (fpu : Fpu) (pc : Word) {op : Op} (agree : Agree (op.names inst) v v')
    (declared : op.Declared inst) : implCtrl fpu inst pc v op = implCtrl fpu inst pc v' op := by
  cases op with
  | jump | jal => rfl
  | beq | beql | bne | bnel =>
    have hs := agree.gpr (rs inst) (.inl rfl)
    have ht := agree.gpr (rt inst) (.inr (.inl rfl))
    simp only [implCtrl, hs, ht]
  | jr | blez | blezl | bgtz | bgtzl | bltz | bltzl | bgez | bgezl =>
    have hs := agree.gpr (rs inst) (.inl rfl)
    simp only [implCtrl, hs]
  | jalr =>
    have hs : v.regs.regsR (rs inst) = v'.regs.regsR (rs inst) := agree.gpr (rs inst) (.inl rfl)
    simp only [implCtrl, View.gpr, View.put, Regs.put, hs]
  | bltzal | bltzall | bgezal | bgezall => exact declared.elim
  | bc1f | bc1t | bc1fl | bc1tl =>
    have flag := agree.fcc (.inl rfl)
    simp only [implCtrl, flag]
  | _ => exact implMem_reads fpu agree declared

/-- An instruction whose names are declared reads its inputs only. -/
theorem impl_reads {op : Op} (declared : op.Declared inst) : op.ReadsInputs inst := by
  intro fpu pc v v' agree
  cases op with
  | addi | addiu | slti | sltiu | andi | ori | xori | mthi | mtlo =>
    have hs := agree.gpr (rs inst) (.inl rfl)
    simp only [impl, hs]
  | lui | brk => rfl
  | sll | srl | sra =>
    have ht := agree.gpr (rt inst) (.inl rfl)
    simp only [impl, ht]
  | sllv | srlv | srav | mult | multu | div | divu =>
    have ht := agree.gpr (rt inst) (.inl rfl)
    have hs := agree.gpr (rs inst) (.inr (.inl rfl))
    simp only [impl, ht, hs]
  | mfhi =>
    have high := agree.hi (.inl rfl)
    simp only [impl, high]
  | mflo =>
    have low := agree.lo (.inl rfl)
    simp only [impl, low]
  | add | addu | sub | subu | and | or | xor | nor | slt | sltu =>
    have hs := agree.gpr (rs inst) (.inl rfl)
    have ht := agree.gpr (rt inst) (.inr (.inl rfl))
    simp only [impl, hs, ht]
  | _ => exact implCtrl_reads fpu pc agree declared

end Reads

section Writes

/-- Every register that the instruction writes is an output that it declares. -/
def Effect.Outputs (e : Effect) (n : Names) : Prop :=
  ∀ w ∈ e.writes, ∀ k, w.name = some k → n.Output k

variable {n : Names} {e : Effect}

theorem outputs_none (h : e.writes = []) : e.Outputs n := by
  simp [Effect.Outputs, h]

theorem outputs_one {w : Write} (h : e.writes = [w])
    (declared : ∀ k, w.name = some k → n.Output k) : e.Outputs n := by
  simp only [Effect.Outputs, h, List.mem_singleton]
  rintro _ rfl
  exact declared

theorem outputs_two {w x : Write} (h : e.writes = [w, x])
    (first : ∀ k, w.name = some k → n.Output k) (second : ∀ k, x.name = some k → n.Output k) :
    e.Outputs n := by
  simp only [Effect.Outputs, h, List.mem_cons, List.not_mem_nil, or_false]
  rintro _ (rfl | rfl)
  · exact first
  · exact second

theorem outputs_aligned {bad : Bool} (h : bad = false → e.Outputs n) :
    (Effect.aligned bad e).Outputs n := by
  cases bad with
  | true => exact outputs_none rfl
  | false => exact h rfl

theorem outputs_load {v : View} {w : Width} {a : Word} {k : Word → Effect}
    (h : ∀ x, (k x).Outputs n) : (Effect.load v w a k).Outputs n := by
  rw [Effect.load]
  split
  · exact outputs_none rfl
  · exact h _

theorem outputs_store {v : View} {w : Width} {a x : Word} (h : e.Outputs n) :
    (Effect.store v w a x e).Outputs n := by
  rw [Effect.store]
  split
  · exact outputs_one rfl nofun
  · intro w hw k name
    rcases List.mem_cons.mp hw with rfl | hw
    · cases name
    · exact h w hw k name

/-- A write of a general register that is declared as the first output. -/
theorem gpr_output {r : Reg} {x : Word} (h : n.out1 = dgpr r) (k : Nat)
    (name : (Write.gpr r x).name = some k) : n.Output k := by
  simp only [Write.name] at name
  split at name
  · cases name
  · exact .inl ((Option.some.inj name).symm.trans h.symm)

theorem fpr_output {r : Reg} {x : Word} (h : n.out1 = dfpr r) (k : Nat)
    (name : (Write.fpr r x).name = some k) : n.Output k :=
  .inl ((Option.some.inj name).symm.trans h.symm)

theorem fprD_output {inst : Word} {x : DWord} (h : n.out1 = dfpr (fd inst)) (k : Nat)
    (name : (wrD inst x).name = some k) : n.Output k := by
  refine .inl ((Option.some.inj name).symm.trans (Eq.trans ?_ h.symm))
  have hr := (fd inst).isLt
  rw [dfpr, BitVec.extractLsb'_toNat, Nat.shiftRight_eq_div_pow]
  omega

variable (fpu : Fpu) (inst pc : Word) (v : View)

theorem implDouble_writes (op : Op) : (implDouble fpu inst v op).Outputs (op.names inst) := by
  cases op with
  | faddD | fsubD | fmulD | fdivD | fsqrtD | fabsD | fmovD | fnegD =>
    exact outputs_aligned fun _ => outputs_one rfl (fprD_output rfl)
  | roundWD | truncWD | ceilWD | floorWD | cvtSD | cvtWD =>
    exact outputs_aligned fun _ => outputs_one rfl (fpr_output rfl)
  | cEqD | cLtD | cLeD =>
    exact outputs_aligned fun _ => outputs_one rfl fun _ name => .inl (Option.some.inj name).symm
  | _ => exact outputs_none rfl

theorem implSingle_writes (op : Op) : (implSingle fpu inst v op).Outputs (op.names inst) := by
  cases op with
  | faddS | fsubS | fmulS | fdivS | fsqrtS | fabsS | fmovS | fnegS
  | roundWS | truncWS | ceilWS | floorWS | cvtWS | cvtSW =>
    exact outputs_aligned fun _ => outputs_one rfl (fpr_output rfl)
  | cvtDS | cvtDW => exact outputs_aligned fun _ => outputs_one rfl (fprD_output rfl)
  | cEqS | cLtS | cLeS =>
    exact outputs_aligned fun _ => outputs_one rfl fun _ name => .inl (Option.some.inj name).symm
  | _ => exact implDouble_writes fpu inst v _

theorem implMem_writes {op : Op} (declared : op.Declared inst) :
    (implMem fpu inst v op).Outputs (op.names inst) := by
  cases op with
  | lb | lh | lw | ll | lbu | lhu | lwl | lwr =>
    exact outputs_load fun _ => outputs_one rfl (gpr_output rfl)
  | lwc1 => exact outputs_load fun _ => outputs_one rfl (fpr_output rfl)
  | ldc1 =>
    exact outputs_aligned fun even => outputs_load fun _ => outputs_load fun _ =>
      outputs_two rfl (fpr_output rfl) (fpr_output (dfpr_next even).symm)
  | sb | sh | sw | swc1 => exact outputs_store (outputs_none rfl)
  | sdc1 => exact outputs_aligned fun _ => outputs_store (outputs_store (outputs_none rfl))
  | swl | swr => exact outputs_load fun _ => outputs_store (outputs_none rfl)
  | sc =>
    refine outputs_store (outputs_one rfl fun k name => ?_)
    rw [Write.name, if_pos (show rt inst = 0 from declared)] at name
    cases name
  | mfc1 => exact outputs_one rfl (gpr_output rfl)
  | mtc1 => exact outputs_one rfl (fpr_output rfl)
  | dmfc1 =>
    refine outputs_aligned fun even => ?_
    rw [Bool.or_eq_false_iff] at even
    rcases declared with bad | bad
    · exact absurd (bad.symm.trans even.1) (by decide)
    · exact absurd (bad.symm.trans even.2) (by decide)
  | dmtc1 =>
    refine outputs_aligned fun even => ?_
    rw [Bool.or_eq_false_iff] at even
    exact outputs_two rfl (fpr_output rfl) (fpr_output (dfpr_next even.1).symm)
  | _ => exact implSingle_writes fpu inst v _

theorem implCtrl_writes {op : Op} (declared : op.Declared inst) :
    (implCtrl fpu inst pc v op).Outputs (op.names inst) := by
  cases op with
  | jump | beq | beql | bne | bnel | blez | blezl | bgtz | bgtzl | bltz | bltzl | bgez | bgezl
  | bc1f | bc1fl | bc1t | bc1tl => exact outputs_none rfl
  | jal => exact outputs_one rfl (gpr_output rfl)
  | jr => exact outputs_aligned fun _ => outputs_none rfl
  | jalr => exact outputs_aligned fun _ => outputs_one rfl (gpr_output rfl)
  | bltzal | bltzall | bgezal | bgezall => exact declared.elim
  | _ => exact implMem_writes fpu inst v declared

/-- An instruction whose names are declared writes its outputs only. -/
theorem impl_writes {op : Op} (declared : op.Declared inst) : op.WritesOutputs inst := by
  intro fpu pc v w hw k name
  have straight (h : (impl fpu inst pc v op).Outputs (op.names inst)) :
      (op.names inst).Output k ∨ op.isSplit = true ∧ (op.half.names inst).Output k :=
    .inl (h w hw k name)
  cases op with
  | mult | multu =>
    rcases List.mem_pair.mp hw with rfl | rfl
    · exact .inr ⟨rfl, .inl (Option.some.inj name).symm⟩
    · exact .inl (.inl (Option.some.inj name).symm)
  | div | divu =>
    simp only [impl] at hw
    split at hw
    · cases hw
    · rcases List.mem_pair.mp hw with rfl | rfl
      · exact .inl (.inl (Option.some.inj name).symm)
      · exact .inr ⟨rfl, .inl (Option.some.inj name).symm⟩
  | addi | add | sub =>
    refine straight ?_
    simp only [impl]
    split
    · exact outputs_none rfl
    · exact outputs_one rfl (gpr_output rfl)
  | addiu | slti | sltiu | andi | ori | xori | lui | sll | sllv | srl | srlv | sra | srav
  | mfhi | mflo | addu | subu | and | or | xor | nor | slt | sltu =>
    exact straight (outputs_one rfl (gpr_output rfl))
  | mthi | mtlo => exact straight (outputs_one rfl fun _ name => .inl (Option.some.inj name).symm)
  | brk => exact straight (outputs_none rfl)
  | _ => exact straight (implCtrl_writes fpu inst pc v declared)

end Writes

section Undeclared

variable {inst : Word}

/-- These general registers, and a memory of zeros. -/
def View.ofGprs (f : Reg → Word) : View where
  regs := { regsR := f }
  read := fun _ _ => .ok 0
  writeFault := fun _ _ => none

/-- Two register files that differ in one register are views that agree on all names but that
register's. -/
theorem agree_off {n : Names} {r : Reg} {f g : Reg → Word} (nonzero : r ≠ 0)
    (same : ∀ m, m ≠ r → f m = g m) (off : ¬ n.Input (dgpr r)) :
    Agree n (.ofGprs f) (.ofGprs g) where
  zero := same 0 nonzero.symm
  gpr := fun m input => same m fun h => off (h ▸ input)
  fpr := fun _ _ => rfl
  hi := fun _ => rfl
  lo := fun _ => rfl
  fcc := fun _ => rfl
  read := rfl
  writeFault := rfl

theorem dgpr_ne {r m : Reg} (h : r ≠ m) : dgpr r ≠ dgpr m := fun same => h (BitVec.eq_of_toNat_eq same)

/-- An undeclared write of a general register that is not split off. -/
theorem undeclared_write (op : Op) {v : View} {r : Reg} {x : Word} (fpu : Fpu) (pc : Word)
    (split : op.isSplit = false) (hw : Write.gpr r x ∈ (impl fpu inst pc v op).writes)
    (nonzero : r ≠ 0) (other : dgpr r ≠ (op.names inst).out1) : ¬ op.WritesOutputs inst := by
  intro writes
  rcases writes fpu pc v _ hw (dgpr r) (if_neg nonzero) with (h | h) | ⟨h, -⟩
  · exact other h
  · rw [Op.names_out2] at h
    exact dgpr_ne nonzero h
  · exact absurd (split.symm.trans h) (by decide)

/-- A register file with a base address and a value in the destination. -/
def merging (base dest : Reg) (b x : Word) : Reg → Word := fun n =>
  if n = base then b else if n = dest then x else 0

theorem merging_agree {n : Names} (base : Reg) {dest : Reg} (b x : Word) (nonzero : dest ≠ 0)
    (off : ¬ n.Input (dgpr dest)) :
    Agree n (.ofGprs (merging base dest b 0)) (.ofGprs (merging base dest b x)) := by
  refine agree_off nonzero (fun m hm => ?_) off
  simp only [merging, hm, if_false]

theorem merging_dest {base dest : Reg} {b x : Word} (other : dest ≠ base) :
    (View.ofGprs (merging base dest b x)).gpr dest = x := by
  simp only [View.gpr, View.ofGprs, merging, other, if_false, if_true]

theorem merging_addr (b x : Word) :
    memAddr inst (View.ofGprs (merging (rs inst) (rt inst) (b - imm inst) x)) = b := by
  simp only [memAddr, View.gpr, View.ofGprs, merging, if_true, BitVec.sub_add_cancel]

/-- A load that merges depends on its destination, if it keeps something at the address. -/
theorem merge_undeclared {op : Op} (keep take : Word → Word) (shift : Word → Word → Word) (b : Word)
    (merges : ∀ v : View, v.read = (fun _ _ => .ok 0) → impl noFpu inst 0 v op =
      .wr (.gpr (rt inst) ((v.gpr (rt inst) &&& keep (memAddr inst v)) |||
        (shift (memAddr inst v) 0 &&& take (memAddr inst v)))))
    (empty : ∀ a, shift a 0 = 0) (off : ¬ (op.names inst).Input (dgpr (rt inst)))
    (nonzero : rt inst ≠ 0) (other : rt inst ≠ rs inst) (kept : keep b ≠ 0) :
    ¬ op.ReadsInputs inst := by
  intro reads
  have same := reads noFpu 0 _ _
    (merging_agree (rs inst) (b - imm inst) (BitVec.allOnes 32) nonzero off)
  rw [merges _ rfl, merges _ rfl, merging_addr, merging_addr, merging_dest other,
    merging_dest other, empty] at same
  injection same with writes
  simp only [List.cons.injEq, Write.gpr.injEq, true_and, and_true, BitVec.ofNat_eq_ofNat,
    BitVec.zero_and, BitVec.or_zero, BitVec.allOnes_and] at writes
  exact kept writes.symm

theorem not_input {n : Names} {r : Reg} (first : dgpr r ≠ n.in1) (second : dgpr r ≠ n.in2)
    (third : dgpr r ≠ n.in3) : ¬ n.Input (dgpr r) := by
  rintro (h | h | h)
  · exact first h
  · exact second h
  · exact third h

theorem next_ne {r : Reg} (even : odd r = false) : r + 1 ≠ 0 ∧ dgpr (r + 1) ≠ dgprD r := by
  have hr := r.isLt
  have bit : r.toNat % 2 = 0 := by
    simpa [odd, BitVec.getLsbD, Nat.testBit_zero] using even
  have one : (1 : Reg).toNat = 1 := rfl
  have next : (r + 1).toNat = r.toNat + 1 := by
    rw [BitVec.toNat_add, one]
    omega
  constructor
  · intro zero
    rw [zero] at next
    exact absurd next (by simp)
  · rw [dgpr, dgprD, next]
    omega

/-- An instruction whose names are not declared reads or writes another register. -/
theorem undeclared {op : Op} (h : ¬ op.Declared inst) :
    ¬ (op.ReadsInputs inst ∧ op.WritesOutputs inst) := by
  rintro ⟨reads, writes⟩
  cases op with
  | bltzal | bgezal | bltzall | bgezall =>
    exact undeclared_write _ (v := .ofGprs fun _ => 0) noFpu 0 rfl (.head _) (by decide)
      (show dgpr 31 ≠ 0 by decide) writes
  | lwl =>
    obtain ⟨nonzero, other⟩ := not_or.mp h
    refine merge_undeclared (fun a => lrMask (wrSize a)) (fun a => ~~~lrMask (wrSize a))
      (fun a x => x <<< (8 * (wlSize a - 1))) 0 (fun v memory => ?_)
      (fun a => BitVec.zero_shiftLeft _)
      (not_input (dgpr_ne nonzero) (dgpr_ne other) (dgpr_ne nonzero)) nonzero other (by decide) reads
    simp only [impl, implCtrl, implMem, Effect.load, memory]
  | lwr =>
    obtain ⟨nonzero, other⟩ := not_or.mp h
    refine merge_undeclared (fun a => ~~~lrMask (4 - wlSize a)) (fun a => lrMask (4 - wlSize a))
      (fun a x => x >>> (8 * (wrSize a - 1))) 1 (fun v memory => ?_)
      (fun a => BitVec.zero_ushiftRight)
      (not_input (dgpr_ne nonzero) (dgpr_ne other) (dgpr_ne nonzero)) nonzero other (by decide) reads
    simp only [impl, implCtrl, implMem, Effect.load, memory]
  | sc =>
    exact undeclared_write .sc (v := .ofGprs fun _ => 0) noFpu 0 rfl (.tail _ (.head _)) h
      (dgpr_ne h) writes
  | dmfc1 =>
    simp only [Op.Declared, not_or, Bool.not_eq_true] at h
    obtain ⟨nonzero, other⟩ := next_ne h.1
    have aligned : impl noFpu inst 0 (.ofGprs fun _ => 0) .dmfc1 =
        { writes := [.gpr (rt inst) 0, .gpr (rt inst + 1) 0] } := by
      simp only [impl, implCtrl, implMem, Effect.aligned, h.1, h.2, Bool.or_self]
      rfl
    exact undeclared_write .dmfc1 (r := rt inst + 1) noFpu 0 rfl
      (by rw [aligned]; exact .tail _ (.head _)) nonzero other writes
  | dmtc1 =>
    simp only [Op.Declared, not_or, Bool.not_eq_true] at h
    obtain ⟨nonzero, other⟩ := next_ne h.1
    have input : ¬ (Op.dmtc1.names inst).Input (dgpr (rt inst + 1)) :=
      not_input other (dgpr_ne nonzero) (dgpr_ne nonzero)
    have same := reads noFpu 0 _ _
      (merging_agree 0 0 1 nonzero input)
    have next (x : Word) := merging_dest (b := 0) (x := x) nonzero
    simp only [impl, implCtrl, implMem, Effect.aligned, h.1, h.2, Bool.or_self, next] at same
    injection same with writes
    simp at writes
  | _ => exact h trivial

end Undeclared

/-- The declared names are all that an instruction reads and writes, except for the link
register of `BLTZAL` and its kind, the destination that `LWL` and `LWR` merge into, the flag
of `SC` and the second register of a doubleword move. -/
theorem declared_iff (op : Op) (inst : Word) :
    op.ReadsInputs inst ∧ op.WritesOutputs inst ↔ op.Declared inst := by
  constructor
  · intro covered
    by_contra h
    exact undeclared h covered
  · exact fun h => ⟨impl_reads h, impl_writes inst h⟩

/-- `bltzal $1` does not declare that it writes register 31. -/
theorem bltzal_undeclared : ¬ ((mdSetOpcode 0x04300000).ReadsInputs 0x04300000 ∧
    (mdSetOpcode 0x04300000).WritesOutputs 0x04300000) := by
  have op : mdSetOpcode 0x04300000 = .bltzal := by decide
  rw [op]
  rintro ⟨-, writes⟩
  exact undeclared_write .bltzal (v := .ofGprs fun _ => 0) noFpu 0 rfl (.head _) (by decide)
    (show dgpr 31 ≠ 0 by decide) writes

end Godson.Mips

import Godson.Mips

/-! The register names and the function unit classes that `mips.def` declares for each
operation, and the units of `resource.c`. -/
namespace Godson.Mips

/-- `md_fu_class` -/
inductive FuClass
  | na | intALU | intMULT | intDIV | floatADD | floatCMP | floatCVT | floatMULT | floatDIV
  | floatSQRT | rdPort | wrPort | intBR | fpBR
  deriving DecidableEq, Repr

/-- `MD_OP_FUCLASS` -/
def Op.fuClass : Op → FuClass
  | .jump | .jal | .beq | .bne | .blez | .bgtz | .beql | .bnel | .blezl | .bgtzl
  | .jr | .jalr | .syscall | .brk
  | .bltz | .bgez | .bltzl | .bgezl | .bltzal | .bgezal | .bltzall | .bgezall => .intBR
  | .lb | .lh | .lw | .lbu | .lhu | .lwc1 | .ldc1 | .lwl | .lwr | .ll
  | .mfc1 | .dmfc1 | .cfc1 | .mtc1 | .dmtc1 | .ctc1 => .rdPort
  | .sb | .sh | .sw | .swc1 | .sdc1 | .swl | .swr | .sc => .wrPort
  | .splitmul | .mult | .multu => .intMULT
  | .splitdiv | .div | .divu => .intDIV
  | .bc1f | .bc1t | .bc1fl | .bc1tl => .fpBR
  | .faddS | .fsubS | .fabsS | .fmovS | .fnegS
  | .faddD | .fsubD | .fabsD | .fmovD | .fnegD => .floatADD
  | .fmulS | .fmulD => .floatMULT
  | .fdivS | .fdivD => .floatDIV
  | .fsqrtS | .fsqrtD => .floatSQRT
  | .roundWS | .truncWS | .ceilWS | .floorWS | .cvtDS | .cvtWS
  | .roundWD | .truncWD | .ceilWD | .floorWD | .cvtSD | .cvtWD | .cvtSW | .cvtDW => .floatCVT
  | .cEqS | .cLtS | .cLeS | .cEqD | .cLtD | .cLeD => .floatCMP
  | .na | .specialInst | .regimmInst | .cop1Inst
  | .fpbrInst | .fpspInst | .fpdpInst | .fpwInst => .na
  | .addi | .addiu | .slti | .sltiu | .andi | .ori | .xori | .lui
  | .sll | .sllv | .srl | .srlv | .sra | .srav | .mfhi | .mthi | .mflo | .mtlo
  | .add | .addu | .sub | .subu | .and | .or | .xor | .nor | .slt | .sltu => .intALU

/-- `is_intq_op` -/
def Op.isIntq (op : Op) : Bool :=
  match op.fuClass with
  | .intALU | .intBR | .intMULT | .intDIV | .rdPort | .wrPort => true
  | _ => false

/-- The names of the inputs and outputs of an instruction; `0` is `DNA`. -/
structure Names where
  in1 : Nat := 0
  in2 : Nat := 0
  in3 : Nat := 0
  out1 : Nat := 0
  out2 : Nat := 0

/-- `DGPR` -/
def dgpr (r : Reg) : Nat := r.toNat

/-- `DGPR_D` -/
def dgprD (r : Reg) : Nat := r.toNat / 2 * 2

/-- `DFPR_L`, `DFPR_F` and `DFPR_D`: the registers of a pair have one name. -/
def dfpr (r : Reg) : Nat := (r.toNat + 32) / 2 * 2

def dhi : Nat := 64
def dlo : Nat := 65
def dfcc : Nat := 66

/-- The fields `O1` to `I3` of `DEFINST`. -/
def Op.names (op : Op) (inst : Word) : Names :=
  match op with
  | .jal => { out1 := dgpr 31 }
  | .beq | .bne | .beql | .bnel => { in1 := dgpr (rs inst), in2 := dgpr (rt inst) }
  | .blez | .bgtz | .blezl | .bgtzl | .jr
  | .bltz | .bgez | .bltzl | .bgezl | .bltzal | .bgezal | .bltzall | .bgezall =>
    { in1 := dgpr (rs inst) }
  | .addi | .addiu | .slti | .sltiu | .andi | .ori | .xori =>
    { out1 := dgpr (rt inst), in1 := dgpr (rs inst) }
  | .lui => { out1 := dgpr (rt inst) }
  | .lb | .lh | .lw | .lbu | .lhu | .lwl | .lwr | .ll =>
    { out1 := dgpr (rt inst), in2 := dgpr (rs inst) }
  | .lwc1 => { out1 := dfpr (ft inst), in1 := dfpr (ft inst), in2 := dgpr (rs inst) }
  | .ldc1 => { out1 := dfpr (ft inst), in2 := dgpr (rs inst) }
  | .sb | .sh | .sw | .swl | .swr | .sc => { in1 := dgpr (rt inst), in2 := dgpr (rs inst) }
  | .swc1 | .sdc1 => { in1 := dfpr (ft inst), in2 := dgpr (rs inst) }
  | .sll | .srl | .sra => { out1 := dgpr (rd inst), in1 := dgpr (rt inst) }
  | .sllv | .srlv | .srav =>
    { out1 := dgpr (rd inst), in1 := dgpr (rt inst), in2 := dgpr (rs inst) }
  | .jalr => { out1 := dgpr (rd inst), in1 := dgpr (rs inst) }
  | .mfhi => { out1 := dgpr (rd inst), in1 := dhi }
  | .mthi => { out1 := dhi, in1 := dgpr (rs inst) }
  | .mflo => { out1 := dgpr (rd inst), in1 := dlo }
  | .mtlo => { out1 := dlo, in1 := dgpr (rs inst) }
  | .splitmul | .splitdiv => { out1 := dhi, in1 := dgpr (rt inst), in2 := dgpr (rs inst) }
  | .mult | .multu | .div | .divu =>
    { out1 := dlo, in1 := dgpr (rt inst), in2 := dgpr (rs inst) }
  | .add | .addu | .sub | .subu | .and | .or | .xor | .nor | .slt | .sltu =>
    { out1 := dgpr (rd inst), in1 := dgpr (rs inst), in2 := dgpr (rt inst) }
  | .mfc1 => { out1 := dgpr (rt inst), in1 := dfpr (fs inst) }
  | .dmfc1 => { out1 := dgprD (rt inst), in1 := dfpr (fs inst) }
  | .mtc1 => { out1 := dfpr (fs inst), in1 := dgpr (rt inst), in2 := dfpr (fs inst) }
  | .dmtc1 => { out1 := dfpr (fs inst), in1 := dgprD (rt inst) }
  | .bc1f | .bc1t | .bc1fl | .bc1tl => { in1 := dfcc }
  | .faddS | .fsubS | .fmulS | .fdivS | .faddD | .fsubD | .fmulD | .fdivD =>
    { out1 := dfpr (fd inst), in1 := dfpr (fs inst), in2 := dfpr (ft inst) }
  | .fsqrtS | .fabsS | .fmovS | .fnegS | .fsqrtD | .fabsD | .fmovD | .fnegD
  | .roundWS | .truncWS | .ceilWS | .floorWS | .cvtDS | .cvtWS
  | .roundWD | .truncWD | .ceilWD | .floorWD | .cvtSD | .cvtWD | .cvtSW | .cvtDW =>
    { out1 := dfpr (fd inst), in1 := dfpr (fs inst) }
  | .cEqS | .cLtS | .cLeS | .cEqD | .cLtD | .cLeD =>
    { out1 := dfcc, in1 := dfpr (fs inst), in2 := dfpr (ft inst) }
  | .jump | .syscall | .brk | .cfc1 | .ctc1 | .na | .specialInst | .regimmInst | .cop1Inst
  | .fpbrInst | .fpspInst | .fpdpInst | .fpwInst => {}

/-- No operation declares a second output. -/
theorem Op.names_out2 (op : Op) (inst : Word) : (op.names inst).out2 = 0 := by
  cases op <;> rfl

/-- A function unit template: a unit of `fu_config` in one of its classes. -/
structure Fu where
  unit : Nat
  cls : FuClass
  deriving DecidableEq, Repr

/-- The number of units. -/
def numFu : Nat := 5

/-- The units that serve a class, in the order of `fu_config`. -/
def FuClass.units : FuClass → List Nat
  | .na => []
  | .intALU => [0, 1]
  | .intBR => [0]
  | .intMULT | .intDIV => [1]
  | .rdPort | .wrPort => [2]
  | .fpBR | .floatADD | .floatCMP | .floatCVT => [3]
  | .floatMULT | .floatDIV | .floatSQRT => [4]

/-- The latency of an operation of a class. The integer divider sets its own when it
accepts an operation. -/
def FuClass.oplat : FuClass → Nat
  | .na => 0
  | .intALU | .intBR => 1
  | .intMULT | .rdPort | .wrPort | .floatMULT | .floatDIV | .floatSQRT => 4
  | .intDIV => 13
  | .fpBR | .floatADD | .floatCMP | .floatCVT => 3

end Godson.Mips

import Mathlib.Data.BitVec

/-! The instruction set of `mips.def`: opcodes, their flags, the decode tables that
`md_init_decoder` builds and the fields of an instruction word. -/
namespace Godson.Mips

abbrev Word := BitVec 32
abbrev DWord := BitVec 64
abbrev Byte := BitVec 8

/-- A register number, as it stands in an instruction. -/
abbrev Reg := BitVec 5

/-- `md_opcode`. The names ending in `Inst` are the links of the decode tables. -/
inductive Op
  | na | specialInst | regimmInst | cop1Inst
  | jump | jal | beq | bne | blez | bgtz
  | addi | addiu | slti | sltiu | andi | ori | xori | lui
  | beql | bnel | blezl | bgtzl
  | lb | lh | lw | lbu | lhu | lwc1 | ldc1 | lwl | lwr
  | sb | sh | sw | swc1 | sdc1 | swl | swr | ll | sc
  | sll | sllv | srl | srlv | sra | srav
  | jr | jalr | syscall | brk
  | mfhi | mthi | mflo | mtlo | splitmul | splitdiv
  | mult | multu | div | divu
  | add | addu | sub | subu | and | or | xor | nor | slt | sltu
  | bltz | bgez | bltzl | bgezl | bltzal | bgezal | bltzall | bgezall
  | mfc1 | dmfc1 | cfc1 | mtc1 | dmtc1 | ctc1
  | fpbrInst | fpspInst | fpdpInst | fpwInst
  | bc1f | bc1t | bc1fl | bc1tl
  | faddS | fsubS | fmulS | fdivS | fsqrtS | fabsS | fmovS | fnegS
  | roundWS | truncWS | ceilWS | floorWS | cvtDS | cvtWS | cEqS | cLtS | cLeS
  | faddD | fsubD | fmulD | fdivD | fsqrtD | fabsD | fmovD | fnegD
  | roundWD | truncWD | ceilWD | floorWD | cvtSD | cvtWD | cEqD | cLtD | cLeD
  | cvtSW | cvtDW
  deriving DecidableEq, Repr

/-- The instruction flags the front end looks at. -/
inductive Flag
  | ctrl | uncond | dirjmp | ctrlLikely | trap | mem | load | store
  deriving DecidableEq, Repr

/-- `MD_OP_FLAGS` -/
def Op.flags : Op → List Flag
  | .jump | .jal => [.ctrl, .uncond, .dirjmp]
  | .jr | .jalr => [.ctrl, .uncond]
  | .beq | .bne | .blez | .bgtz | .bltz | .bgez | .bltzal | .bgezal | .bc1f | .bc1t =>
    [.ctrl, .dirjmp]
  | .beql | .bnel | .blezl | .bgtzl | .bltzl | .bgezl | .bltzall | .bgezall | .bc1fl
  | .bc1tl => [.ctrl, .dirjmp, .ctrlLikely]
  | .syscall | .brk => [.trap]
  | .lb | .lh | .lw | .lbu | .lhu | .lwc1 | .ldc1 | .lwl | .lwr | .ll => [.mem, .load]
  | .sb | .sh | .sw | .swc1 | .sdc1 | .swl | .swr | .sc => [.mem, .store]
  | .mfc1 | .dmfc1 | .cfc1 | .mtc1 | .dmtc1 | .ctc1 => [.mem]
  | _ => []

/-- `MD_OP_FLAGS(op) & F` -/
def Op.has (op : Op) (f : Flag) : Bool := op.flags.contains f

/-- `is_split_op` -/
def Op.isSplit (op : Op) : Bool := op == .mult || op == .multu || op == .div || op == .divu

section Decoder

def topOp : Nat → Op
  | 0x00 => .specialInst | 0x01 => .regimmInst | 0x11 => .cop1Inst
  | 0x02 => .jump | 0x03 => .jal | 0x04 => .beq | 0x05 => .bne | 0x06 => .blez
  | 0x07 => .bgtz | 0x08 => .addi | 0x09 => .addiu | 0x0a => .slti | 0x0b => .sltiu
  | 0x0c => .andi | 0x0d => .ori | 0x0e => .xori | 0x0f => .lui
  | 0x14 => .beql | 0x15 => .bnel | 0x16 => .blezl | 0x17 => .bgtzl
  | 0x20 => .lb | 0x21 => .lh | 0x22 => .lwl | 0x23 => .lw | 0x24 => .lbu | 0x25 => .lhu
  | 0x26 => .lwr | 0x28 => .sb | 0x29 => .sh | 0x2a => .swl | 0x2b => .sw | 0x2e => .swr
  | 0x30 => .ll | 0x31 => .lwc1 | 0x35 => .ldc1 | 0x38 => .sc | 0x39 => .swc1
  | 0x3d => .sdc1 | _ => .na

def specialOp : Nat → Op
  | 0x00 => .sll | 0x02 => .srl | 0x03 => .sra | 0x04 => .sllv | 0x06 => .srlv
  | 0x07 => .srav | 0x08 => .jr | 0x09 => .jalr | 0x0c => .syscall | 0x0d => .brk
  | 0x10 => .mfhi | 0x11 => .mthi | 0x12 => .mflo | 0x13 => .mtlo | 0x16 => .splitmul
  | 0x17 => .splitdiv | 0x18 => .mult | 0x19 => .multu | 0x1a => .div | 0x1b => .divu
  | 0x20 => .add | 0x21 => .addu | 0x22 => .sub | 0x23 => .subu | 0x24 => .and
  | 0x25 => .or | 0x26 => .xor | 0x27 => .nor | 0x2a => .slt | 0x2b => .sltu | _ => .na

def regimmOp : Nat → Op
  | 0x00 => .bltz | 0x01 => .bgez | 0x02 => .bltzl | 0x03 => .bgezl
  | 0x10 => .bltzal | 0x11 => .bgezal | 0x12 => .bltzall | 0x13 => .bgezall | _ => .na

def cop1Op : Nat → Op
  | 0x00 => .mfc1 | 0x01 => .dmfc1 | 0x02 => .cfc1 | 0x04 => .mtc1 | 0x05 => .dmtc1
  | 0x06 => .ctc1 | 0x08 => .fpbrInst | 0x10 => .fpspInst | 0x11 => .fpdpInst
  | 0x14 => .fpwInst | _ => .na

def fpbrOp : Nat → Op
  | 0x00 => .bc1f | 0x01 => .bc1t | 0x02 => .bc1fl | 0x03 => .bc1tl | _ => .na

def fpspOp : Nat → Op
  | 0x00 => .faddS | 0x01 => .fsubS | 0x02 => .fmulS | 0x03 => .fdivS | 0x04 => .fsqrtS
  | 0x05 => .fabsS | 0x06 => .fmovS | 0x07 => .fnegS | 0x0c => .roundWS | 0x0d => .truncWS
  | 0x0e => .ceilWS | 0x0f => .floorWS | 0x21 => .cvtDS | 0x24 => .cvtWS | 0x32 => .cEqS
  | 0x3c => .cLtS | 0x3e => .cLeS | _ => .na

def fpdpOp : Nat → Op
  | 0x00 => .faddD | 0x01 => .fsubD | 0x02 => .fmulD | 0x03 => .fdivD | 0x04 => .fsqrtD
  | 0x05 => .fabsD | 0x06 => .fmovD | 0x07 => .fnegD | 0x0c => .roundWD | 0x0d => .truncWD
  | 0x0e => .ceilWD | 0x0f => .floorWD | 0x20 => .cvtSD | 0x24 => .cvtWD | 0x32 => .cEqD
  | 0x3c => .cLtD | 0x3e => .cLeD | _ => .na

def fpwOp : Nat → Op
  | 0x20 => .cvtSW | 0x21 => .cvtDW | _ => .na

/-- `md_mask2op`: `CONNECT` lays each table directly behind the largest entry of the one
before, so a code above the largest of its own table falls into the next. -/
def mdMask2op (i : Nat) : Op :=
  if i < 62 then topOp i
  else if i < 106 then specialOp (i - 62)
  else if i < 126 then regimmOp (i - 106)
  else if i < 147 then cop1Op (i - 126)
  else if i < 151 then fpbrOp (i - 147)
  else if i < 214 then fpspOp (i - 151)
  else if i < 277 then fpdpOp (i - 214)
  else fpwOp (i - 277)

/-- `md_opshift`, `md_opmask` and `md_opoffset` of a link. -/
def Op.link : Op → Option (Nat × Nat × Nat)
  | .specialInst => some (0, 0x3f, 62)
  | .regimmInst => some (16, 0x1f, 106)
  | .cop1Inst => some (21, 0x1f, 126)
  | .fpbrInst => some (16, 0x1f, 147)
  | .fpspInst => some (0, 0x3f, 151)
  | .fpdpInst => some (0, 0x3f, 214)
  | .fpwInst => some (0, 0x3f, 277)
  | _ => none

/-- The loop of `MD_SET_OPCODE`. Links lead to tables further behind, so the nesting of
the tables bounds it. -/
def followLinks (inst : Word) : Nat → Op → Op
  | 0, op => op
  | n + 1, op =>
    match op.link with
    | none => op
    | some (shift, mask, offset) =>
      followLinks inst n (mdMask2op ((inst.toNat >>> shift &&& mask) + offset))

/-- `MD_SET_OPCODE` -/
def mdSetOpcode (inst : Word) : Op := followLinks inst 4 (mdMask2op (inst.toNat >>> 26))

end Decoder

section Fields

variable (inst : Word)

def rs : Reg := inst.extractLsb' 21 5
def rt : Reg := inst.extractLsb' 16 5
def rd : Reg := inst.extractLsb' 11 5
def shamt : Reg := inst.extractLsb' 6 5
def fs : Reg := rd inst
def ft : Reg := rt inst
def fd : Reg := inst.extractLsb' 6 5

/-- `IMM`, also the displacement `OFS`. -/
def imm : Word := (inst.extractLsb' 0 16).signExtend 32
def uimm : Word := (inst.extractLsb' 0 16).setWidth 32
def targ : Word := (inst.extractLsb' 0 26).setWidth 32

end Fields

/-- `MD_NOP_INST` -/
def nopInst : Word := 0

example : mdSetOpcode 0x8c820004 = .lw ∧ mdSetOpcode 0x46241102 = .fmulD := by decide

end Godson.Mips

import Mathlib.Algebra.Order.Ring.Abs
import Mathlib.Algebra.Order.Ring.Int
import Mathlib.Tactic.NormNum
import Godson.MipsDef

/-! What the arithmetic of `mips.def` leaves in the registers: the products of `MULT` and
`MULTU`, the results of `DIV` and `DIVU` with the delay that `decode.c` computes for them,
and the overflow traps of `ADD`, `ADDI` and `SUB`. -/
namespace Godson.Mips

/-- The registers behind the writes of an instruction. -/
def Effect.regs (e : Effect) (r : Regs) : Regs := e.writes.foldl Regs.put r

/-- The 64-bit value of `HI:LO`. -/
def Regs.product (r : Regs) : DWord := r.hi ++ r.lo

section Product

/-- The 64-bit value of a pair of words. -/
def pairNat (hl : Word × Word) : Nat := hl.1.toNat * 2 ^ 32 + hl.2.toNat

theorem pairNat_append (hi lo : Word) : (hi ++ lo).toNat = pairNat (hi, lo) := by
  rw [BitVec.toNat_append, pairNat, Nat.shiftLeft_eq, Nat.mul_comm, ← Nat.two_pow_add_eq_or_of_lt lo.isLt]

theorem bitAt_toNat (x : Word) (pos : Nat) : (bitAt x pos).toNat = x.toNat / 2 ^ pos % 2 := by
  simp [bitAt, Nat.shiftRight_eq_div_pow, Nat.and_one_is_mod]

theorem bitAt_eq_one (x : Word) (pos : Nat) : bitAt x pos = 1 ↔ x.toNat / 2 ^ pos % 2 = 1 := by
  rw [← bitAt_toNat, ← BitVec.toNat_inj]
  rfl

/-- A shift of a pair by one place. -/
theorem shift_pair (hi lo : Word) (fits : 2 * pairNat (hi, lo) < 2 ^ 64) :
    pairNat ((hi <<< 1) + bitAt lo 31, lo <<< 1) = 2 * pairNat (hi, lo) := by
  have hlo := lo.isLt
  simp only [pairNat, BitVec.toNat_add, BitVec.toNat_shiftLeft, bitAt_toNat, Nat.shiftLeft_eq] at fits ⊢
  omega

/-- An addition to a pair, with the carry as the loop detects it. -/
theorem add_pair {hi lo y : Word} (fits : pairNat (hi, lo) + y.toNat < 2 ^ 64) :
    pairNat (if (0xffffffff - lo).ult y then hi + 1 else hi, lo + y) =
      pairNat (hi, lo) + y.toNat := by
  have hlo := lo.isLt
  have hy := y.isLt
  have top : (0xffffffff - lo).toNat = 2 ^ 32 - 1 - lo.toNat := by
    rw [BitVec.toNat_sub]
    have : (0xffffffff : Word).toNat = 2 ^ 32 - 1 := rfl
    omega
  have one : (1 : Word).toNat = 1 := rfl
  simp only [pairNat, BitVec.ult, top] at fits ⊢
  by_cases carry : 2 ^ 32 - 1 - lo.toNat < y.toNat
  · simp only [carry, decide_true, if_true, BitVec.toNat_add, one]
    omega
  · simp only [carry, decide_false, Bool.false_eq_true, if_false, BitVec.toNat_add]
    omega

/-- One round doubles the partial product and adds the next bit's share. -/
theorem multStep_spec {x y : Word} {hl : Word × Word} {i : Nat}
    (fits : 2 * pairNat hl + x.toNat / 2 ^ (30 - i) % 2 * y.toNat < 2 ^ 64) :
    pairNat (multStep x y hl i) = 2 * pairNat hl + x.toNat / 2 ^ (30 - i) % 2 * y.toNat := by
  obtain ⟨hi, lo⟩ := hl
  have shifted := shift_pair hi lo (by omega)
  simp only [multStep, bitAt_eq_one]
  rcases Nat.mod_two_eq_zero_or_one (x.toNat / 2 ^ (30 - i)) with bit | bit
  · rw [bit] at fits ⊢
    rw [if_neg (by decide), shifted]
    omega
  · rw [bit] at fits ⊢
    rw [if_pos rfl, add_pair (by omega), shifted]
    omega

/-- After `n` rounds the pair is the product with the top `n + 1` bits. -/
theorem multLoop_rounds (x y : Word) {n : Nat} (hn : n ≤ 31) :
    pairNat ((List.range n).foldl (multStep x y) (0, if x.msb then y else 0)) =
      x.toNat / 2 ^ (31 - n) * y.toNat := by
  have hx := x.isLt
  have hy := y.isLt
  induction n with
  | zero =>
    simp only [List.range_zero, List.foldl_nil, pairNat, BitVec.msb_eq_decide]
    by_cases top : 2 ^ (32 - 1) ≤ x.toNat
    · have one : x.toNat / 2 ^ (31 - 0) = 1 := by omega
      rw [one, if_pos (decide_eq_true top)]
      simp
    · have none : x.toNat / 2 ^ (31 - 0) = 0 := by omega
      rw [none, if_neg (by simpa using top)]
      simp
  | succ n ih =>
    have before := ih (by omega)
    have split : x.toNat / 2 ^ (31 - (n + 1)) =
        2 * (x.toNat / 2 ^ (31 - n)) + x.toNat / 2 ^ (30 - n) % 2 := by
      have half : x.toNat / 2 ^ (31 - n) = x.toNat / 2 ^ (30 - n) / 2 := by
        rw [Nat.div_div_eq_div_mul, ← Nat.pow_succ]
        congr 2
        omega
      rw [half, show 31 - (n + 1) = 30 - n by omega]
      omega
    have value : x.toNat / 2 ^ (31 - (n + 1)) * y.toNat =
        2 * (x.toNat / 2 ^ (31 - n) * y.toNat) + x.toNat / 2 ^ (30 - n) % 2 * y.toNat := by
      rw [split, Nat.add_mul, Nat.mul_assoc]
    have small : x.toNat / 2 ^ (31 - (n + 1)) * y.toNat < 2 ^ 64 := by
      have : x.toNat / 2 ^ (31 - (n + 1)) ≤ x.toNat := Nat.div_le_self _ _
      calc x.toNat / 2 ^ (31 - (n + 1)) * y.toNat
          ≤ (2 ^ 32 - 1) * (2 ^ 32 - 1) := Nat.mul_le_mul (by omega) (by omega)
        _ < 2 ^ 64 := by norm_num
    rw [List.range_succ, List.foldl_append, List.foldl_cons, List.foldl_nil,
      multStep_spec (by rw [before]; omega), before, value]

/-- The loop computes the product of two unsigned words. -/
theorem multLoop_spec (x y : Word) : pairNat (multLoop x y) = x.toNat * y.toNat := by
  rw [multLoop, multLoop_rounds x y (Nat.le_refl 31)]
  simp

/-- The magnitude of a word, as `MULT` takes it. -/
theorem magnitude_toNat (x : Word) :
    (if x.msb then ~~~x + 1 else x).toNat = x.toInt.natAbs := by
  have hx := x.isLt
  rw [BitVec.toInt_eq_msb_cond]
  cases h : x.msb with
  | false => simp
  | true =>
    rw [BitVec.msb_eq_decide, decide_eq_true_eq] at h
    have one : (1 : Word).toNat = 1 := rfl
    simp only [if_true, BitVec.toNat_add, BitVec.toNat_not, one]
    omega

/-- The two's complement of a pair, with the carry from `LO` into `HI`. -/
theorem negate_pair (hi lo : Word) :
    pairNat (if ~~~lo = 0xffffffff then ~~~hi + 1 else ~~~hi, ~~~lo + 1) =
      (2 ^ 64 - pairNat (hi, lo)) % 2 ^ 64 := by
  have hh := hi.isLt
  have hl := lo.isLt
  have one : (1 : Word).toNat = 1 := rfl
  have carry : ~~~lo = 0xffffffff ↔ lo.toNat = 0 := by
    rw [← BitVec.toNat_inj, BitVec.toNat_not]
    have : (0xffffffff : Word).toNat = 2 ^ 32 - 1 := rfl
    omega
  simp only [pairNat, carry]
  by_cases zero : lo.toNat = 0
  · simp only [zero, if_true, BitVec.toNat_add, BitVec.toNat_not, one]
    omega
  · simp only [zero, if_false, BitVec.toNat_add, BitVec.toNat_not, one]
    omega

/-- The signed value of a 64-bit pair. -/
theorem pair_toInt (hi lo : Word) : (hi ++ lo).toInt =
    if pairNat (hi, lo) < 2 ^ 63 then (pairNat (hi, lo) : Int) else pairNat (hi, lo) - 2 ^ 64 := by
  rw [BitVec.toInt_eq_toNat_cond, pairNat_append]
  split_ifs <;> omega

/-- `MULT` computes the signed product. -/
theorem multSigned_spec (x y : Word) :
    ((multSigned x y).1 ++ (multSigned x y).2).toInt = x.toInt * y.toInt := by
  have product := multLoop_spec (if x.msb then ~~~x + 1 else x) (if y.msb then ~~~y + 1 else y)
  rw [magnitude_toNat, magnitude_toNat] at product
  have absolute : (x.toInt.natAbs : Int) * y.toInt.natAbs = |x.toInt * y.toInt| := by
    rw [abs_mul, Int.abs_eq_natAbs, Int.abs_eq_natAbs]
  have bound : x.toInt.natAbs * y.toInt.natAbs ≤ 2 ^ 62 := by
    have hx : x.toInt.natAbs ≤ 2 ^ 31 := by
      have := BitVec.toInt_lt (x := x)
      have := BitVec.le_toInt (x := x)
      omega
    have hy : y.toInt.natAbs ≤ 2 ^ 31 := by
      have := BitVec.toInt_lt (x := y)
      have := BitVec.le_toInt (x := y)
      omega
    calc x.toInt.natAbs * y.toInt.natAbs ≤ 2 ^ 31 * 2 ^ 31 := Nat.mul_le_mul hx hy
      _ = 2 ^ 62 := by norm_num
  have xsign : x.msb = true ↔ x.toInt < 0 := BitVec.msb_eq_toInt ▸ decide_eq_true_iff
  have ysign : y.msb = true ↔ y.toInt < 0 := BitVec.msb_eq_toInt ▸ decide_eq_true_iff
  rw [multSigned]
  generalize multLoop _ _ = hl at product
  obtain ⟨hi, lo⟩ := hl
  by_cases same : x.msb = y.msb
  · have sign : 0 ≤ x.toInt * y.toInt := by
      rcases lt_or_ge x.toInt 0 with neg | pos
      · have : y.toInt < 0 := ysign.mp (same ▸ xsign.mpr neg)
        exact mul_nonneg_of_nonpos_of_nonpos neg.le this.le
      · have : ¬ y.toInt < 0 := fun neg => absurd (xsign.mp (same ▸ ysign.mpr neg)) (not_lt.mpr pos)
        exact mul_nonneg pos (not_lt.mp this)
    rw [abs_of_nonneg sign] at absolute
    rw [if_neg (by simp [same]), pair_toInt, product, if_pos (by omega), Nat.cast_mul, absolute]
  · have sign : x.toInt * y.toInt ≤ 0 := by
      rcases lt_or_ge x.toInt 0 with neg | pos
      · have : ¬ y.toInt < 0 := fun h => same ((xsign.mpr neg).trans (ysign.mpr h).symm)
        exact mul_nonpos_of_nonpos_of_nonneg neg.le (not_lt.mp this)
      · have : y.toInt < 0 := by
          by_contra h
          refine same ?_
          rw [Bool.eq_iff_iff, xsign, ysign]
          omega
        exact mul_nonpos_of_nonneg_of_nonpos pos this.le
    rw [abs_of_nonpos sign] at absolute
    rw [if_pos (by simp [same]), pair_toInt, negate_pair, product]
    rw [← Nat.cast_mul] at absolute
    split_ifs with low
    · omega
    · omega

/-- `MULT` and `MULTU` leave the 64-bit product of their operands in `HI` and `LO`. -/
theorem mult_product (fpu : Fpu) (inst pc : Word) (v : View) :
    ((impl fpu inst pc v .mult).regs v.regs).product.toInt =
        (v.gpr (rs inst)).toInt * (v.gpr (rt inst)).toInt ∧
      ((impl fpu inst pc v .multu).regs v.regs).product.toNat =
        (v.gpr (rs inst)).toNat * (v.gpr (rt inst)).toNat := by
  constructor
  · exact multSigned_spec _ _
  · exact (pairNat_append _ _).trans (multLoop_spec _ _)

end Product

section Overflow

/-- The integer is the value of a signed word. -/
def Fits (z : Int) : Prop := -2 ^ 31 ≤ z ∧ z < 2 ^ 31

/-- The instruction raises the overflow fault if and only if its result `z` does not fit,
and otherwise writes it to the register. -/
def Effect.Exact (e : Effect) (r : Reg) (z : Int) : Prop :=
  (e.fault = some .overflow ↔ ¬ Fits z) ∧ (Fits z → e.writes = [.gpr r (BitVec.ofInt 32 z)])

theorem toInt_bounds (x : Word) : Fits x.toInt := by
  have below := BitVec.toInt_lt (x := x)
  have above := BitVec.le_toInt (x := x)
  exact ⟨by omega, by omega⟩

theorem slt_zero_left (x : Word) : slt 0 x = decide (0 < x.toInt) := rfl

theorem slt_zero_right (x : Word) : slt x 0 = decide (x.toInt < 0) := rfl

/-- An integer in the range of a word is the value of its word. -/
theorem toInt_word {z : Int} (h : Fits z) : (BitVec.ofInt 32 z).toInt = z := by
  obtain ⟨low, high⟩ := h
  rw [BitVec.toInt_ofInt, Int.bmod_def]
  omega

/-- A comparison with a bound that is computed without a wrap. -/
theorem slt_bound {x y : Word} {z w : Int} (hx : x = BitVec.ofInt 32 z) (hz : Fits z)
    (hy : y = BitVec.ofInt 32 w) (hw : Fits w) : slt x y = decide (z < w) := by
  rw [slt, BitVec.slt, hx, hy, toInt_word hz, toInt_word hw]

theorem ofInt_self (x : Word) : x = BitVec.ofInt 32 x.toInt := BitVec.ofInt_toInt.symm

theorem ofInt_difference (x y : Int) :
    BitVec.ofInt 32 (x - y) = BitVec.ofInt 32 x - BitVec.ofInt 32 y := by
  rw [Int.sub_eq_add_neg, BitVec.ofInt_add, BitVec.ofInt_neg, BitVec.sub_eq_add_neg]

/-- `OVER` tests for sums above the range, and for negative sums below `-0x7fffffff`. -/
theorem overflows_iff (x y : Word) : overflows x y = true ↔
    2 ^ 31 ≤ x.toInt + y.toInt ∨ x.toInt < 0 ∧ y.toInt < 0 ∧ x.toInt + y.toInt ≤ -2 ^ 31 := by
  obtain ⟨xlow, xhigh⟩ := toInt_bounds x
  obtain ⟨ylow, yhigh⟩ := toInt_bounds y
  have upper : (0x7fffffff - x : Word) = BitVec.ofInt 32 (2 ^ 31 - 1 - x.toInt) := by
    rw [ofInt_difference, ← ofInt_self]
    rfl
  have lower : (-0x7fffffff - x : Word) = BitVec.ofInt 32 (-(2 ^ 31 - 1) - x.toInt) := by
    rw [ofInt_difference, ← ofInt_self]
    rfl
  rw [overflows, slt_zero_left, slt_zero_left, slt_zero_right, slt_zero_right, Bool.or_eq_true,
    Bool.and_eq_true, Bool.and_eq_true, Bool.and_eq_true, Bool.and_eq_true]
  simp only [decide_eq_true_eq]
  constructor
  · rintro (⟨⟨hx, hy⟩, h⟩ | ⟨⟨hx, hy⟩, h⟩)
    · rw [slt_bound upper ⟨by omega, by omega⟩ (ofInt_self y) (toInt_bounds y),
        decide_eq_true_eq] at h
      left
      omega
    · rw [slt_bound (ofInt_self y) (toInt_bounds y) lower ⟨by omega, by omega⟩,
        decide_eq_true_eq] at h
      right
      omega
  · rintro (h | ⟨hx, hy, h⟩)
    · refine .inl ⟨⟨by omega, by omega⟩, ?_⟩
      rw [slt_bound upper ⟨by omega, by omega⟩ (ofInt_self y) (toInt_bounds y), decide_eq_true_eq]
      omega
    · refine .inr ⟨⟨hx, hy⟩, ?_⟩
      rw [slt_bound (ofInt_self y) (toInt_bounds y) lower ⟨by omega, by omega⟩, decide_eq_true_eq]
      omega

/-- `UNDER` leaves out a zero from which the most negative value is subtracted. -/
theorem under_iff (x y : Word) : under x y = true ↔
    0 < x.toInt ∧ 2 ^ 31 ≤ x.toInt - y.toInt ∨
      x.toInt < 0 ∧ 0 < y.toInt ∧ x.toInt - y.toInt ≤ -2 ^ 31 := by
  obtain ⟨xlow, xhigh⟩ := toInt_bounds x
  obtain ⟨ylow, yhigh⟩ := toInt_bounds y
  have upper : (0x7fffffff + y : Word) = BitVec.ofInt 32 (2 ^ 31 - 1 + y.toInt) := by
    rw [BitVec.ofInt_add, ← ofInt_self]
    rfl
  have lower : (-0x7fffffff + y : Word) = BitVec.ofInt 32 (-(2 ^ 31 - 1) + y.toInt) := by
    rw [BitVec.ofInt_add, ← ofInt_self]
    rfl
  rw [under, slt_zero_left, slt_zero_left, slt_zero_right, slt_zero_right, Bool.or_eq_true,
    Bool.and_eq_true, Bool.and_eq_true, Bool.and_eq_true, Bool.and_eq_true]
  simp only [decide_eq_true_eq]
  constructor
  · rintro (⟨⟨hx, hy⟩, h⟩ | ⟨⟨hx, hy⟩, h⟩)
    · rw [slt_bound upper ⟨by omega, by omega⟩ (ofInt_self x) (toInt_bounds x),
        decide_eq_true_eq] at h
      left
      omega
    · rw [slt_bound (ofInt_self x) (toInt_bounds x) lower ⟨by omega, by omega⟩,
        decide_eq_true_eq] at h
      right
      omega
  · rintro (⟨hx, h⟩ | ⟨hx, hy, h⟩)
    · refine .inl ⟨⟨hx, by omega⟩, ?_⟩
      rw [slt_bound upper ⟨by omega, by omega⟩ (ofInt_self x) (toInt_bounds x), decide_eq_true_eq]
      omega
    · refine .inr ⟨⟨hx, hy⟩, ?_⟩
      rw [slt_bound (ofInt_self x) (toInt_bounds x) lower ⟨by omega, by omega⟩, decide_eq_true_eq]
      omega

/-- A guarded addition or subtraction is exact when its guard is. -/
theorem exact_iff {guard : Bool} {r : Reg} {w : Word} {z : Int} (result : w = BitVec.ofInt 32 z) :
    (if guard then .fail .overflow else .wr (.gpr r w) : Effect).Exact r z ↔
      (guard = true ↔ ¬ Fits z) := by
  cases guard with
  | false => simp [Effect.Exact, Effect.wr, result]
  | true =>
    simp only [if_true, Effect.Exact, Effect.fail, true_iff]
    constructor
    · exact fun h => h.1
    · exact fun h => ⟨h, fun fits => absurd fits h⟩

/-- The sum is exact unless two negative operands add up to the most negative value. -/
theorem sum_exact_iff (x y : Word) :
    (overflows x y = true ↔ ¬ Fits (x.toInt + y.toInt)) ↔
      ¬ (x.toInt < 0 ∧ y.toInt < 0 ∧ x.toInt + y.toInt = -2 ^ 31) := by
  obtain ⟨xlow, xhigh⟩ := toInt_bounds x
  obtain ⟨ylow, yhigh⟩ := toInt_bounds y
  rw [overflows_iff, Fits]
  omega

/-- The difference is exact unless it is the most negative value, from a negative and a
positive operand, or the most negative value is subtracted from zero. -/
theorem difference_exact_iff (x y : Word) :
    (under x y = true ↔ ¬ Fits (x.toInt - y.toInt)) ↔
      ¬ (x.toInt < 0 ∧ 0 < y.toInt ∧ x.toInt - y.toInt = -2 ^ 31) ∧
        ¬ (x.toInt = 0 ∧ y.toInt = -2 ^ 31) := by
  obtain ⟨xlow, xhigh⟩ := toInt_bounds x
  obtain ⟨ylow, yhigh⟩ := toInt_bounds y
  rw [under_iff, Fits]
  omega

theorem overflow_exact_iff (fpu : Fpu) (inst pc : Word) (v : View) :
    let x := (v.gpr (rs inst)).toInt
    let y := (v.gpr (rt inst)).toInt
    let i := (imm inst).toInt
    ((impl fpu inst pc v .add).Exact (rd inst) (x + y) ↔ ¬ (x < 0 ∧ y < 0 ∧ x + y = -2 ^ 31)) ∧
      ((impl fpu inst pc v .addi).Exact (rt inst) (x + i) ↔
        ¬ (x < 0 ∧ i < 0 ∧ x + i = -2 ^ 31)) ∧
      ((impl fpu inst pc v .sub).Exact (rd inst) (x - y) ↔
        ¬ (x < 0 ∧ 0 < y ∧ x - y = -2 ^ 31) ∧ ¬ (x = 0 ∧ y = -2 ^ 31)) := by
  refine ⟨?_, ?_, ?_⟩
  · rw [← sum_exact_iff, ← exact_iff (by rw [BitVec.ofInt_add, ← ofInt_self, ← ofInt_self])]
    rfl
  · rw [← sum_exact_iff, ← exact_iff (by rw [BitVec.ofInt_add, ← ofInt_self, ← ofInt_self])]
    rfl
  · rw [← difference_exact_iff,
      ← exact_iff (by rw [ofInt_difference, ← ofInt_self, ← ofInt_self])]
    rfl

/-- The registers 1 and 2 hold these values; the memory is empty. -/
def twoOperands (x y : Word) : View where
  regs := { regsR := fun r => if r = 1 then x else if r = 2 then y else 0 }
  read := fun _ _ => .ok 0
  writeFault := fun _ _ => none

/-- `add` of `-0x7fffffff` and `-1`, and `sub` of `0` and the most negative value. -/
theorem overflow_inexact :
    ¬ ((impl noFpu 0x00221820 0 (twoOperands 0x80000001 0xffffffff) .add).Exact 3 (-2 ^ 31)) ∧
      ¬ (impl noFpu 0x00221822 0 (twoOperands 0 0x80000000) .sub).Exact 3 (2 ^ 31) := by
  constructor
  · intro exact
    exact absurd (exact.1.mp (by decide)) (by simp [Fits])
  · intro exact
    exact absurd (exact.1.mpr (by simp [Fits])) (by decide)

end Overflow

section Division

/-- The host's signed division: undefined for a zero divisor, and where the quotient does not
fit in a word. -/
def hostDiv (x y : Word) : Option (Word × Word) :=
  if y = 0 ∨ 2 ^ 31 ≤ x.toInt.tdiv y.toInt ∨ x.toInt.tdiv y.toInt < -2 ^ 31 then none
  else some (BitVec.ofInt 32 (x.toInt.tdiv y.toInt), BitVec.ofInt 32 (x.toInt.tmod y.toInt))

/-- The host's unsigned division: undefined for a zero divisor. -/
def hostDivu (x y : Word) : Option (Word × Word) := if y = 0 then none else some (x / y, x % y)

/-- `DIV_IMPL` and `DIVU_IMPL` over the division of the host; a zero divisor is a fault. -/
def divImpl (host : Word → Word → Option (Word × Word)) (inst : Word) (v : View) :
    Option Effect :=
  if v.gpr (rt inst) = 0 then some (.fail .div0)
  else (host (v.gpr (rs inst)) (v.gpr (rt inst))).map fun qr => { writes := [.lo qr.1, .hi qr.2] }

/-- The zeros above the highest bit of `a` that is set. -/
def leadingZero (a : Word) : Nat := ((List.range 32).find? fun i => a.getLsbD (31 - i)).getD 32

/-- The position, from one, of the lowest bit of `a` that is set; zero without one. -/
def ffs (a : Word) : Nat := (((List.range 32).find? fun i => a.getLsbD i).map (· + 1)).getD 0

/-- The cycles that a division takes, by the widths of its operands and its quotient. -/
def calculateDivDelay (opa opb : Word) : Int :=
  let azero : Int := leadingZero opa
  let bzero : Int := leadingZero opb
  let czero : Int := if opb ≠ 0 ∧ opa % opb = 0 then ffs (opa / opb) - 1 else 0
  let res := if azero < bzero then (bzero - azero).tdiv 2 + 4 - czero.tdiv 2 else 0
  if 0 < res then res else 1

/-- What a divide has to do: a zero divisor does not reach the host, whatever it divides by;
any other divisor leaves the quotient and the remainder that `results` accepts, and the delay
is between 1 and 20. -/
structure Divides (host : Word → Word → Option (Word × Word)) (results : Word × Word → Prop)
    (inst : Word) (v : View) : Prop where
  zero : v.gpr (rt inst) = 0 → ∀ any, divImpl any inst v = some (.fail .div0)
  exact : v.gpr (rt inst) ≠ 0 → ∃ qr : Word × Word,
    divImpl host inst v = some { writes := [.lo qr.1, .hi qr.2] } ∧ results qr ∧
      qr.1 * v.gpr (rt inst) + qr.2 = v.gpr (rs inst)
  delay : 1 ≤ calculateDivDelay (v.gpr (rs inst)) (v.gpr (rt inst)) ∧
    calculateDivDelay (v.gpr (rs inst)) (v.gpr (rt inst)) ≤ 20

/-- The signed quotient, truncated toward zero, with its remainder. -/
def signedResults (x y : Word) (qr : Word × Word) : Prop :=
  qr.1.toInt = x.toInt.tdiv y.toInt ∧ qr.2.toInt = x.toInt.tmod y.toInt

/-- The unsigned quotient with its remainder. -/
def unsignedResults (x y : Word) (qr : Word × Word) : Prop :=
  qr.1.toNat = x.toNat / y.toNat ∧ qr.2.toNat = x.toNat % y.toNat

theorem leadingZero_le (a : Word) : leadingZero a ≤ 32 := by
  rw [leadingZero]
  cases h : (List.range 32).find? fun i => a.getLsbD (31 - i) with
  | none => simp
  | some i =>
    have := List.mem_range.mp (List.mem_of_find?_eq_some h)
    simp only [Option.getD_some]
    omega

/-- The delay is between 1 and 20 for all operands. -/
theorem calculateDivDelay_bounds (opa opb : Word) :
    1 ≤ calculateDivDelay opa opb ∧ calculateDivDelay opa opb ≤ 20 := by
  have hb := leadingZero_le opb
  have czero : ∀ z : Int, -1 ≤ z → 0 ≤ z.tdiv 2 := by
    intro z hz
    rcases lt_or_ge z 0 with neg | pos
    · rw [show z = -1 by omega]
      decide
    · exact Int.tdiv_nonneg pos (by decide)
  have zeros := czero (if opb ≠ 0 ∧ opa % opb = 0 then ffs (opa / opb) - 1 else 0)
    (by split_ifs <;> omega)
  simp only [calculateDivDelay]
  generalize (if opb ≠ 0 ∧ opa % opb = 0 then (ffs (opa / opb) - 1 : Int) else 0).tdiv 2 = c at *
  by_cases wider : (leadingZero opa : Int) < leadingZero opb
  · rw [if_pos wider, Int.tdiv_eq_ediv_of_nonneg (by omega)]
    split_ifs <;> omega
  · rw [if_neg wider]
    simp

/-- The quotient of two words fits unless the most negative one is divided by `-1`. -/
theorem quotient_fits (x y : Word) :
    Fits (x.toInt.tdiv y.toInt) ↔ ¬ (x = BitVec.intMin 32 ∧ y = -1) := by
  constructor
  · rintro ⟨-, high⟩ ⟨rfl, rfl⟩
    exact absurd high (by decide)
  · intro h
    rw [← BitVec.toInt_sdiv_of_ne_or_ne x y (not_and_or.mp h)]
    exact toInt_bounds _

/-- Where the host divides, its results are those of the model of `DIV`. -/
theorem hostDiv_of_fits {x y : Word} (nonzero : y ≠ 0) (h : ¬ (x = BitVec.intMin 32 ∧ y = -1)) :
    hostDiv x y = some (x.sdiv y, x.srem y) := by
  have fits := (quotient_fits x y).mpr h
  rw [hostDiv, if_neg (by rw [Fits] at fits; simp only [nonzero, false_or]; omega),
    ← BitVec.toInt_sdiv_of_ne_or_ne x y (not_and_or.mp h), ← BitVec.toInt_srem,
    BitVec.ofInt_toInt, BitVec.ofInt_toInt]

/-- The product of the quotient with the divisor and the remainder add up to the dividend. -/
theorem quotient_back {x y q r : Word} (hq : q.toInt = x.toInt.tdiv y.toInt)
    (hr : r.toInt = x.toInt.tmod y.toInt) : q * y + r = x := by
  have back := Int.tdiv_mul_add_tmod x.toInt y.toInt
  rw [ofInt_self q, ofInt_self r, ofInt_self y, ← BitVec.ofInt_mul, ← BitVec.ofInt_add, hq, hr]
  exact (congrArg (BitVec.ofInt 32) back).trans (ofInt_self x).symm

/-- Where the host divides, the effects are those of the model's `DIV` and `DIVU`. -/
theorem divImpl_impl (fpu : Fpu) (inst pc : Word) (v : View) :
    (¬ (v.gpr (rs inst) = BitVec.intMin 32 ∧ v.gpr (rt inst) = -1) →
        divImpl hostDiv inst v = some (impl fpu inst pc v .div)) ∧
      divImpl hostDivu inst v = some (impl fpu inst pc v .divu) := by
  by_cases zero : v.gpr (rt inst) = 0
  · simp [divImpl, impl, zero]
  · constructor
    · intro h
      rw [divImpl, if_neg zero, hostDiv_of_fits zero h]
      exact congrArg some (if_neg zero).symm
    · rw [divImpl, if_neg zero, hostDivu, if_neg zero]
      exact congrArg some (if_neg zero).symm

/-- `DIV` does what a divide has to do unless it divides the most negative value by `-1`: the
host's division then overflows. `DIVU` always does. -/
theorem divides_iff (inst : Word) (v : View) :
    let x := v.gpr (rs inst)
    let y := v.gpr (rt inst)
    (Divides hostDiv (signedResults x y) inst v ↔ ¬ (x = BitVec.intMin 32 ∧ y = -1)) ∧
      Divides hostDivu (unsignedResults x y) inst v := by
  intro x y
  have zero (h : y = 0) (any) : divImpl any inst v = some (.fail .div0) := if_pos h
  refine ⟨⟨?_, fun h => ⟨zero, fun nonzero => ?_, calculateDivDelay_bounds x y⟩⟩,
    ⟨zero, fun nonzero => ?_, calculateDivDelay_bounds x y⟩⟩
  · rintro ⟨-, exact, -⟩ ⟨hx, hy⟩
    obtain ⟨qr, runs, -⟩ := exact (fun h => absurd (hy.symm.trans h) (by decide))
    have overflow : hostDiv (BitVec.intMin 32) (-1) = none := by decide
    rw [divImpl, if_neg (fun h => absurd (hy.symm.trans h) (by decide)),
      show v.gpr (rs inst) = _ from hx, show v.gpr (rt inst) = _ from hy, overflow] at runs
    exact absurd runs (by simp)
  · have hq : (x.sdiv y).toInt = x.toInt.tdiv y.toInt :=
      BitVec.toInt_sdiv_of_ne_or_ne x y (not_and_or.mp h)
    have hr : (x.srem y).toInt = x.toInt.tmod y.toInt := BitVec.toInt_srem x y
    refine ⟨(x.sdiv y, x.srem y), ?_, ⟨hq, hr⟩, quotient_back hq hr⟩
    rw [divImpl, if_neg nonzero, hostDiv_of_fits nonzero h]
    rfl
  · refine ⟨(x / y, x % y), ?_, ⟨BitVec.toNat_udiv, BitVec.toNat_umod⟩, ?_⟩
    · rw [divImpl, if_neg nonzero, hostDivu, if_neg nonzero]
      rfl
    · have back := Nat.div_add_mod' x.toNat y.toNat
      have hx := x.isLt
      change x / y * y + x % y = x
      refine BitVec.eq_of_toNat_eq ?_
      rw [BitVec.toNat_add, BitVec.toNat_mul, BitVec.toNat_udiv, BitVec.toNat_umod]
      generalize x.toNat / y.toNat * y.toNat = whole at back ⊢
      omega

/-- The most negative value divided by `-1`: the host's division overflows. -/
theorem divides_overflow :
    ¬ Divides hostDiv (signedResults 0x80000000 0xffffffff) 0x0022001a
      (twoOperands 0x80000000 0xffffffff) := by
  rintro ⟨-, exact, -⟩
  obtain ⟨qr, runs, -⟩ := exact (by decide)
  have overflow : hostDiv 0x80000000 0xffffffff = none := by decide
  have none : divImpl hostDiv 0x0022001a (twoOperands 0x80000000 0xffffffff) = none := by
    rw [divImpl, if_neg (by decide)]
    exact congrArg (Option.map _) overflow
  exact absurd (none.symm.trans runs) (by simp)

end Division

end Godson.Mips

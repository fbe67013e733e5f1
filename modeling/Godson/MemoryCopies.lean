import Mathlib.Order.Interval.Finset.Nat
import Godson.FlatMemory

/-! The copies of `memory.c` between the simulated memory and buffers of the host, on the page
tables and on the flat memory. -/
namespace Godson.Memory

open Mips Buckets

variable {m : Mem} {f : Flat} {a : Word} {p : Nat → Byte}

/-- `n` bytes from an address on, at index `i` of a buffer. -/
def Flat.copyOut (n : Nat) (a : Word) (i : Nat) (p : Nat → Byte) (f : Flat) : Nat → Byte := fun j =>
  if i ≤ j ∧ j < i + n then f.bytes (a + BitVec.ofNat 32 (j - i)) else p j

def Flat.copyIn (n : Nat) (a : Word) (i : Nat) (p : Nat → Byte) (f : Flat) : Flat where
  bytes x := if (x - a).toNat < n then p (i + (x - a).toNat) else f.bytes x
  pages := f.pages ∪ (Finset.range n).image fun k => (a + BitVec.ofNat 32 k) >>> 12

/-- A copy in the direction of the command. -/
def Flat.transfer (cmd : MemCmd) (n : Nat) (a : Word) (i : Nat) (p : Nat → Byte) (f : Flat) :
    (Nat → Byte) × Flat :=
  match cmd with
  | .read => (f.copyOut n a i p, f)
  | .write => (p, f.copyIn n a i p)

section Transfer

theorem copyOut_zero (a : Word) (i : Nat) (p : Nat → Byte) (f : Flat) : f.copyOut 0 a i p = p := by
  funext j
  rw [Flat.copyOut, if_neg (by omega)]

theorem copyIn_zero (a : Word) (i : Nat) (p : Nat → Byte) (f : Flat) : f.copyIn 0 a i p = f := by
  simp [Flat.copyIn]

theorem copyOut_one (a : Word) (i : Nat) (p : Nat → Byte) (f : Flat) :
    f.copyOut 1 a i p = Function.update p i (f.bytes a) := by
  funext j
  rw [Flat.copyOut]
  by_cases first : j = i
  · subst first
    simp
  · rw [if_neg (by omega), Function.update_of_ne first]

theorem copyIn_one (a : Word) (i : Nat) (p : Nat → Byte) (f : Flat) :
    f.copyIn 1 a i p = f.write a (p i) := by
  simp only [Flat.copyIn, Flat.write, Flat.mk.injEq]
  constructor
  · funext x
    by_cases first : x = a
    · subst first
      simp
    · have far : ¬(x - a).toNat < 1 := by bv_omega
      rw [if_neg far, Function.update_of_ne first]
  · simp

theorem copyOut_add (k n : Nat) (a : Word) (i : Nat) (p : Nat → Byte) (f : Flat) :
    f.copyOut n (a + BitVec.ofNat 32 k) (i + k) (f.copyOut k a i p) = f.copyOut (k + n) a i p := by
  funext j
  simp only [Flat.copyOut]
  by_cases behind : i + k ≤ j ∧ j < i + k + n
  · have index : k + (j - (i + k)) = j - i := by omega
    rw [if_pos behind, if_pos (by omega), BitVec.add_assoc, ← BitVec.ofNat_add, index]
  · rw [if_neg behind]
    by_cases inside : i ≤ j ∧ j < i + k
    · rw [if_pos inside, if_pos (by omega)]
    · rw [if_neg inside, if_neg (by omega)]

theorem within_first {k n : Nat} {x : Word} (short : k + n ≤ 2 ^ 32) (h : (x - a).toNat < k) :
    ¬(x - (a + BitVec.ofNat 32 k)).toNat < n := by
  bv_omega

theorem behind_first {k n : Nat} {x : Word} (short : k + n ≤ 2 ^ 32) (h : k ≤ (x - a).toNat) :
    k + (x - (a + BitVec.ofNat 32 k)).toNat = (x - a).toNat := by
  bv_omega

theorem copyIn_add {k n : Nat} (short : k + n ≤ 2 ^ 32) (a : Word) (i : Nat) (p : Nat → Byte)
    (f : Flat) : (f.copyIn k a i p).copyIn n (a + BitVec.ofNat 32 k) (i + k) p =
      f.copyIn (k + n) a i p := by
  simp only [Flat.copyIn, Flat.mk.injEq]
  constructor
  · funext x
    rcases Nat.lt_or_ge (x - a).toNat k with first | second
    · rw [if_neg (within_first short first), if_pos first, if_pos (by omega)]
    · have split := behind_first short second
      rw [← split, Nat.add_assoc]
      simp only [Nat.add_lt_add_iff_left, Nat.not_lt.mpr (Nat.le_add_right ..), if_false]
  · rw [Finset.range_add_eq_union, Finset.image_union, Finset.map_eq_image, Finset.image_image,
      Finset.union_assoc]
    congr 2
    refine Finset.image_congr fun j _ => ?_
    simp only [Function.comp_apply, addLeftEmbedding_apply, BitVec.ofNat_add, BitVec.add_assoc]

theorem transfer_add {k n : Nat} (short : k + n ≤ 2 ^ 32) (cmd : MemCmd) (a : Word) (i : Nat)
    (p : Nat → Byte) (f : Flat) : (f.transfer cmd k a i p).2.transfer cmd n
      (a + BitVec.ofNat 32 k) (i + k) (f.transfer cmd k a i p).1 = f.transfer cmd (k + n) a i p := by
  cases cmd with
  | read => simp only [Flat.transfer, copyOut_add]
  | write => simp only [Flat.transfer, copyIn_add short]

end Transfer

section Loops

theorem readLoop_spec (h : Holds m f) (n : Nat) (a : Word) (i : Nat) (p : Nat → Byte) :
    (readLoop n a i p m).1 = f.copyOut n a i p ∧ Holds (readLoop n a i p m).2 f := by
  induction n generalizing a i p m with
  | zero => exact ⟨(copyOut_zero a i p f).symm, h⟩
  | succ n ih =>
    obtain ⟨value, next⟩ := memReadByte_spec h a
    simp only [readLoop]
    rw [value, Nat.add_comm n, ← copyOut_add, copyOut_one]
    exact ih next _ _ _

theorem writeLoop_holds {n : Nat} (short : n ≤ 2 ^ 32) (h : Holds m f) (a : Word) (i : Nat)
    (p : Nat → Byte) : Holds (writeLoop n a i p m) (f.copyIn n a i p) := by
  induction n generalizing a i m f with
  | zero => exact (copyIn_zero a i p f).symm ▸ h
  | succ n ih =>
    rw [writeLoop, Nat.add_comm n, ← copyIn_add (by omega), copyIn_one]
    exact ih (by omega) (memWriteByte_holds h a (p i)) _ _

end Loops

section Access

/-- `mem_access` on the flat memory. -/
def Flat.access (cmd : MemCmd) (a : Word) (i : Nat) (p : Nat → Byte) (nbytes : Word) (f : Flat) :
    Fault × (Nat → Byte) × Flat :=
  if nbytes &&& (nbytes - 1) ≠ 0 ∨ (4096#32).slt nbytes then (.access, p, f)
  else if a &&& (nbytes - 1) ≠ 0 then (.alignment, p, f)
  else (.none, f.transfer cmd nbytes.toInt.toNat a i p)

/-- `mem_bcopy4` on the flat memory: nothing is copied to or from a misaligned address. -/
def Flat.bcopy4 (cmd : MemCmd) (a : Word) (i : Nat) (p : Nat → Byte) (words : Nat) (f : Flat) :
    Fault × (Nat → Byte) × Flat :=
  if words ≠ 0 ∧ a &&& 3 ≠ 0 then (.alignment, p, f)
  else (.none, f.transfer cmd (4 * words) a i p)

/-- One operation on the two memories. -/
def Agree (r : Fault × (Nat → Byte) × Mem) (r' : Fault × (Nat → Byte) × Flat) : Prop :=
  r.1 = r'.1 ∧ r.2.1 = r'.2.1 ∧ Holds r.2.2 r'.2.2

theorem toNat_int_le (n : Word) : n.toInt.toNat ≤ 2 ^ 31 := by
  have bound : n.toInt ≤ 2 ^ (32 - 1) - 1 := BitVec.toInt_le
  omega

theorem memAccess_agree (h : Holds m f) (cmd : MemCmd) (a : Word) (i : Nat) (p : Nat → Byte)
    (nbytes : Word) : Agree (memAccess cmd a i p nbytes m) (f.access cmd a i p nbytes) := by
  have short := toNat_int_le nbytes
  simp only [memAccess, Flat.access]
  split
  · exact ⟨rfl, rfl, h⟩
  · split
    · exact ⟨rfl, rfl, h⟩
    · cases cmd with
      | read =>
        obtain ⟨value, next⟩ := readLoop_spec h nbytes.toInt.toNat a i p
        exact ⟨rfl, value, next⟩
      | write => exact ⟨rfl, rfl, writeLoop_holds (by omega) h a i p⟩

/-- An access of one byte does not fault. -/
theorem access_byte (cmd : MemCmd) (a : Word) (i : Nat) (p : Nat → Byte) (f : Flat) :
    f.access cmd a i p 1 = (.none, f.transfer cmd 1 a i p) := by
  have aligned : a &&& (1 - 1) = 0 := BitVec.and_zero
  rw [Flat.access, if_neg (by decide), aligned, if_neg (by decide)]
  rfl

theorem access_word (cmd : MemCmd) (a : Word) (i : Nat) (p : Nat → Byte) (f : Flat) :
    f.access cmd a i p 4 =
      if a &&& 3 ≠ 0 then (.alignment, p, f) else (.none, f.transfer cmd 4 a i p) := by
  rw [Flat.access, if_neg (by decide)]
  rfl

theorem bcopyLoop_agree {n : Nat} (short : n ≤ 2 ^ 32) (h : Holds m f) (cmd : MemCmd) (a : Word)
    (i : Nat) (p : Nat → Byte) : Agree (bcopyLoop cmd n a i p m) (.none, f.transfer cmd n a i p) := by
  induction n generalizing a i p m f with
  | zero =>
    cases cmd with
    | read => exact ⟨rfl, (copyOut_zero a i p f).symm, h⟩
    | write =>
      have same : f.transfer .write 0 a i p = (p, f) := by rw [Flat.transfer, copyIn_zero]
      rw [same]
      exact ⟨rfl, rfl, h⟩
  | succ n ih =>
    have one := memAccess_agree h cmd a i p 1
    rw [access_byte] at one
    obtain ⟨fault, buffer, next⟩ := one
    rw [bcopyLoop]
    split
    · rename_i p' m' accessed
      rw [accessed] at buffer next
      have rest := ih (by omega) next (a + 1) (i + 1) p'
      rw [show p' = _ from buffer] at rest
      rw [Nat.add_comm n, ← transfer_add (by omega)]
      rw [show p' = _ from buffer]
      exact rest
    · rename_i fault' p' m' faults accessed
      rw [accessed] at fault
      exact absurd fault faults

theorem aligned_next (a : Word) : (a + 4) &&& 3 = a &&& 3 := by
  have mask : (3 : Word).toNat = 2 ^ 2 - 1 := rfl
  rw [← BitVec.toNat_inj, BitVec.toNat_and, BitVec.toNat_and, mask,
    Nat.and_two_pow_sub_one_eq_mod, Nat.and_two_pow_sub_one_eq_mod]
  bv_omega

theorem bcopy4Loop_agree {n : Nat} (short : 4 * n ≤ 2 ^ 32) (h : Holds m f) (cmd : MemCmd)
    (a : Word) (i : Nat) (p : Nat → Byte) :
    Agree (bcopy4Loop cmd n a i p m) (f.bcopy4 cmd a i p n) := by
  induction n generalizing a i p m f with
  | zero =>
    have same : f.transfer cmd 0 a i p = (p, f) := by
      cases cmd with
      | read => rw [Flat.transfer, copyOut_zero]
      | write => rw [Flat.transfer, copyIn_zero]
    rw [Flat.bcopy4, if_neg (by simp), same]
    exact ⟨rfl, rfl, h⟩
  | succ n ih =>
    have one := memAccess_agree h cmd a i p 4
    rw [access_word] at one
    rw [bcopy4Loop, Flat.bcopy4]
    by_cases aligned : a &&& 3 = 0
    · rw [if_neg (not_not.mpr aligned)] at one
      obtain ⟨fault, buffer, next⟩ := one
      have ready : (a + 4) &&& 3 = 0 := (aligned_next a).trans aligned
      have rest := ih (by omega) next (a + 4) (i + 4) (f.transfer cmd 4 a i p).1
      rw [Flat.bcopy4, if_neg (fun off => off.2 ready)] at rest
      have total : 4 * (n + 1) = 4 + 4 * n := by omega
      rw [if_neg (fun off => off.2 aligned), total, ← transfer_add (by omega)]
      split
      · rename_i p' m' accessed
        rw [accessed] at buffer rest
        rw [show p' = _ from buffer]
        exact rest
      · rename_i fault' p' m' faults accessed
        rw [accessed] at fault
        exact absurd fault faults
    · rw [if_pos aligned] at one
      obtain ⟨fault, buffer, next⟩ := one
      rw [if_pos ⟨Nat.succ_ne_zero n, aligned⟩]
      split
      · rename_i p' m' accessed
        rw [accessed] at fault
        cases fault
      · rename_i fault' p' m' faults accessed
        rw [accessed] at fault buffer next
        exact ⟨fault, buffer, next⟩

theorem bzeroLoop_holds {n : Nat} (short : n ≤ 2 ^ 32) (h : Holds m f) (a : Word) :
    (bzeroLoop n a m).1 = .none ∧ Holds (bzeroLoop n a m).2 (f.copyIn n a 0 fun _ => 0) := by
  have loop (i : Nat) : (bzeroLoop n a m).1 = .none ∧
      Holds (bzeroLoop n a m).2 (f.copyIn n a i fun _ => 0) := by
    induction n generalizing a i m f with
    | zero => exact ⟨rfl, (copyIn_zero a i _ f).symm ▸ h⟩
    | succ n ih =>
      have one := memAccess_agree h .write a 0 (fun _ => 0) 1
      rw [access_byte] at one
      obtain ⟨fault, -, next⟩ := one
      rw [bzeroLoop, Nat.add_comm n, ← copyIn_add (by omega)]
      split
      · rename_i p' m' accessed
        rw [accessed] at next
        exact ih (by omega) next (a + 1) (i + 1)
      · rename_i fault' p' m' faults accessed
        rw [accessed] at fault
        exact absurd fault faults
  exact loop 0

end Access

end Godson.Memory

import Godson.MemoryCopies

/-! Sequences of accesses to the simulated memory, and strings in it. -/
namespace Godson.Memory

open Mips Buckets

variable {m : Mem} {f : Flat} {a : Word}

section Strings

/-- A host string up to its terminator. -/
def cString (s : List Byte) : List Byte := s.takeWhile (· ≠ 0) ++ [0]

/-- `mem_strcpy` to the flat memory. -/
def Flat.putString (s : List Byte) (a : Word) (f : Flat) : Flat :=
  ((cString s).foldl (fun (a, f) c => (a + 1, Flat.write a c f)) (a, f)).2

/-- `mem_strcpy` from the flat memory, in at most `fuel` rounds. -/
def Flat.getString (f : Flat) : Nat → Word → Option (List Byte)
  | 0, _ => none
  | fuel + 1, a =>
    if f.bytes a = 0 then some [0] else (f.getString fuel (a + 1)).map (f.bytes a :: ·)

theorem writeByte_agree (h : Holds m f) (a : Word) (c : Byte) :
    (memAccess .write a 0 (fun _ => c) 1 m).1 = .none ∧
      Holds (memAccess .write a 0 (fun _ => c) 1 m).2.2 (f.write a c) := by
  obtain ⟨fault, -, next⟩ := memAccess_agree h .write a 0 (fun _ => c) 1
  rw [access_byte] at fault next
  exact ⟨fault, (copyIn_one a 0 (fun _ => c) f) ▸ next⟩

theorem cString_cons {c : Byte} (s : List Byte) :
    cString (c :: s) = if c = 0 then [0] else c :: cString s := by
  by_cases zero : c = 0#8 <;> simp [cString, zero]

theorem strcpyWrite_holds (h : Holds m f) (s : List Byte) (a : Word) :
    (strcpyWrite s a m).1 = .none ∧ Holds (strcpyWrite s a m).2 (f.putString s a) := by
  induction s generalizing a m f with
  | nil => exact writeByte_agree h a 0
  | cons c s ih =>
    obtain ⟨fault, next⟩ := writeByte_agree h a c
    rw [strcpyWrite, Flat.putString, cString_cons]
    split
    · rename_i p' m' accessed
      rw [accessed] at next
      split
      · rename_i zero
        exact ⟨rfl, zero ▸ next⟩
      · exact ih next (a + 1)
    · rename_i fault' p' m' faults accessed
      rw [accessed] at fault
      exact absurd fault faults

theorem strcpyRead_spec (h : Holds m f) (fuel : Nat) (a : Word) :
    (strcpyRead fuel a m = none ∧ f.getString fuel a = none) ∨
      ∃ s m', strcpyRead fuel a m = some (.none, s, m') ∧ f.getString fuel a = some s ∧
        Holds m' f := by
  induction fuel generalizing a m with
  | zero => exact .inl ⟨rfl, rfl⟩
  | succ fuel ih =>
    obtain ⟨fault, buffer, next⟩ := memAccess_agree h .read a 0 (fun _ => 0) 1
    rw [access_byte, Flat.transfer, copyOut_one] at fault buffer next
    rw [strcpyRead, Flat.getString]
    split
    · rename_i p m' accessed
      rw [accessed] at buffer next
      have value : p 0 = f.bytes a := by
        rw [show p = _ from buffer]
        simp only [Function.update_self]
      rw [value]
      split
      · rename_i zero
        exact .inr ⟨_, m', rfl, by rw [zero], next⟩
      · rcases ih next (a + 1) with ⟨out, out'⟩ | ⟨s, m'', moved, moved', last⟩
        · exact .inl ⟨by rw [out]; rfl, by rw [out']; rfl⟩
        · exact .inr ⟨_, m'', by rw [moved]; rfl, by rw [moved']; rfl, last⟩
    · rename_i fault' p' m' faults accessed
      rw [accessed] at fault
      exact absurd fault faults

/-- A string ends at the first byte that is zero. -/
theorem getString_none_iff (f : Flat) (fuel : Nat) (a : Word) :
    f.getString fuel a = none ↔ ∀ i < fuel, f.bytes (a + BitVec.ofNat 32 i) ≠ 0 := by
  induction fuel generalizing a with
  | zero => simp [Flat.getString]
  | succ fuel ih =>
    rw [Flat.getString]
    split
    · rename_i zero
      exact ⟨nofun, fun all => absurd zero (by simpa using all 0 (Nat.succ_pos fuel))⟩
    · rename_i other
      rw [Option.map_eq_none_iff, ih]
      have behind (i : Nat) : a + 1 + BitVec.ofNat 32 i = a + BitVec.ofNat 32 (i + 1) := by
        rw [BitVec.ofNat_add, BitVec.add_comm (BitVec.ofNat 32 i), BitVec.add_assoc]
        rfl
      constructor
      · intro all i hi
        cases i with
        | zero => simpa using other
        | succ i => exact behind i ▸ all i (Nat.lt_of_succ_lt_succ hi)
      · exact fun all i hi => behind i ▸ all (i + 1) (Nat.succ_lt_succ hi)

/-- After one round for each address the loop of `mem_strcpy` has met a terminator, or it goes
on for ever. -/
theorem strcpyRead_endless (h : Holds m f) (a : Word)
    (out : strcpyRead (2 ^ 32) a m = none) (fuel : Nat) : strcpyRead fuel a m = none := by
  have flat (n : Nat) : strcpyRead n a m = none ↔ f.getString n a = none := by
    rcases strcpyRead_spec h n a with ⟨none, none'⟩ | ⟨s, m', some, some', -⟩
    · simp only [none, none']
    · simp only [some, some', reduceCtorEq]
  rw [flat, getString_none_iff] at out ⊢
  intro i _
  have round : BitVec.ofNat 32 i = BitVec.ofNat 32 (i % 2 ^ 32) :=
    BitVec.eq_of_toNat_eq (by simp)
  exact round ▸ out _ (Nat.mod_lt i (Nat.two_pow_pos 32))

end Strings

section Runs

/-- The calls of the functions that access memory. -/
inductive MemOp
  | access (cmd : MemCmd) (addr : Word) (p : Nat → Byte) (nbytes : Word)
  | bcopy (cmd : MemCmd) (addr : Word) (p : Nat → Byte) (nbytes : Word)
  | bcopy4 (cmd : MemCmd) (addr : Word) (p : Nat → Byte) (nbytes : Word)
  | bzero (addr nbytes : Word)
  | strcpyWrite (s : List Byte) (addr : Word)
  | strcpyRead (addr : Word) (p : Nat → Byte)

/-- A host buffer behind a string that was copied to it. -/
def withString (s : List Byte) (p : Nat → Byte) : Nat → Byte := fun i => s.getD i (p i)

/-- A call, with the fault it returns and what it leaves in the buffer. One that reads a
string returns if there is a terminator. -/
def Mem.call (m : Mem) : MemOp → Option (Fault × (Nat → Byte) × Mem)
  | .access cmd addr p nbytes => some (memAccess cmd addr 0 p nbytes m)
  | .bcopy cmd addr p nbytes => some (memBcopy cmd addr p nbytes m)
  | .bcopy4 cmd addr p nbytes => some (memBcopy4 cmd addr p nbytes m)
  | .bzero addr nbytes =>
    some ((memBzero addr nbytes m).1, fun _ => 0, (memBzero addr nbytes m).2)
  | .strcpyWrite s addr =>
    some ((Memory.strcpyWrite s addr m).1, fun _ => 0, (Memory.strcpyWrite s addr m).2)
  | .strcpyRead addr p =>
    (Memory.strcpyRead (2 ^ 32) addr m).map fun (fault, s, m) => (fault, withString s p, m)

def Flat.call (f : Flat) : MemOp → Option (Fault × (Nat → Byte) × Flat)
  | .access cmd addr p nbytes => some (f.access cmd addr 0 p nbytes)
  | .bcopy cmd addr p nbytes => some (.none, f.transfer cmd nbytes.toInt.toNat addr 0 p)
  | .bcopy4 cmd addr p nbytes => some (f.bcopy4 cmd addr 0 p (nbytes.sshiftRight 2).toInt.toNat)
  | .bzero addr nbytes => some (.none, fun _ => 0, f.copyIn nbytes.toInt.toNat addr 0 fun _ => 0)
  | .strcpyWrite s addr => some (.none, fun _ => 0, f.putString s addr)
  | .strcpyRead addr p =>
    (f.getString (2 ^ 32) addr).map fun s => (.none, withString s p, f)

/-- The results of a sequence of calls, and the memory behind it. A call that does not return
is the last one. -/
def runCalls {σ : Type} (call : σ → MemOp → Option (Fault × (Nat → Byte) × σ)) :
    List MemOp → σ → List (Fault × (Nat → Byte)) × σ
  | [], m => ([], m)
  | op :: ops, m =>
    match call m op with
    | none => ([], m)
    | some (fault, p, m) =>
      let (results, m) := runCalls call ops m
      ((fault, p) :: results, m)

theorem memBcopy_agree (h : Holds m f) (cmd : MemCmd) (addr nbytes : Word) (p : Nat → Byte) :
    Agree (memBcopy cmd addr p nbytes m) (.none, f.transfer cmd nbytes.toInt.toNat addr 0 p) := by
  have short := toNat_int_le nbytes
  exact bcopyLoop_agree (by omega) h cmd addr 0 p

theorem memBcopy4_agree (h : Holds m f) (cmd : MemCmd) (addr nbytes : Word) (p : Nat → Byte) :
    Agree (memBcopy4 cmd addr p nbytes m)
      (f.bcopy4 cmd addr 0 p (nbytes.sshiftRight 2).toInt.toNat) := by
  have short := toNat_int_le nbytes
  refine bcopy4Loop_agree ?_ h cmd addr 0 p
  rw [BitVec.toInt_sshiftRight, Int.shiftRight_eq_div_pow]
  omega

/-- A call returns on both memories with the same fault and buffer, or on neither. -/
theorem call_agree (h : Holds m f) (op : MemOp) :
    (m.call op = none ∧ f.call op = none) ∨
      ∃ x y, m.call op = some x ∧ f.call op = some y ∧ Agree x y := by
  cases op with
  | access cmd addr p nbytes =>
    exact .inr ⟨_, _, rfl, rfl, memAccess_agree h cmd addr 0 p nbytes⟩
  | bcopy cmd addr p nbytes => exact .inr ⟨_, _, rfl, rfl, memBcopy_agree h cmd addr nbytes p⟩
  | bcopy4 cmd addr p nbytes => exact .inr ⟨_, _, rfl, rfl, memBcopy4_agree h cmd addr nbytes p⟩
  | bzero addr nbytes =>
    have short := toNat_int_le nbytes
    obtain ⟨fault, next⟩ := bzeroLoop_holds (Nat.le_trans short (by decide)) h addr
    exact .inr ⟨_, _, rfl, rfl, fault, rfl, next⟩
  | strcpyWrite s addr =>
    obtain ⟨fault, next⟩ := strcpyWrite_holds h s addr
    exact .inr ⟨_, _, rfl, rfl, fault, rfl, next⟩
  | strcpyRead addr p =>
    rcases strcpyRead_spec h (2 ^ 32) addr with ⟨out, out'⟩ | ⟨s, m', read, same, next⟩
    · exact .inl ⟨congrArg (Option.map _) out, congrArg (Option.map _) out'⟩
    · exact .inr ⟨_, _, congrArg (Option.map _) read, congrArg (Option.map _) same, rfl, rfl,
        next⟩

theorem holds_init (m : Mem) : Holds (ssMemInit m) {} where
  unique _ := List.nodup_nil
  known _ _ here := absurd here List.not_mem_nil
  apart _ _ here := absurd here List.not_mem_nil
  bytes _ := rfl
  pages _ := by simp [Mem.entry, ssMemInit, lookup]
  count := rfl

theorem runs_agree (h : Holds m f) (ops : List MemOp) :
    (runCalls Mem.call ops m).1 = (runCalls Flat.call ops f).1 ∧
      Holds (runCalls Mem.call ops m).2 (runCalls Flat.call ops f).2 := by
  induction ops generalizing m f with
  | nil => exact ⟨rfl, h⟩
  | cons op ops ih =>
    rcases call_agree h op with ⟨out, out'⟩ | ⟨x, y, paged, flat, fault, buffer, next⟩
    · simp only [runCalls, out, out']
      exact ⟨trivial, h⟩
    · obtain ⟨results, last⟩ := ih next
      simp only [runCalls, paged, flat]
      rw [fault, buffer, results]
      exact ⟨rfl, last⟩

/-- From an initialized memory on, each sequence of accesses returns what it returns on a flat
memory of zeros, and leaves the same bytes. There is one host page for each page that was
written, and none for another. -/
theorem memory_refines (m : Mem) (ops : List MemOp) :
    (runCalls Mem.call ops (ssMemInit m)).1 = (runCalls Flat.call ops {}).1 ∧
      (∀ a, (runCalls Mem.call ops (ssMemInit m)).2.bytes a = (runCalls Flat.call ops {}).2.bytes a) ∧
      (runCalls Mem.call ops (ssMemInit m)).2.pageCount = (runCalls Flat.call ops {}).2.pages.card ∧
      ∀ a, ((runCalls Mem.call ops (ssMemInit m)).2.entry a).isSome = true ↔
        a >>> 12 ∈ (runCalls Flat.call ops {}).2.pages := by
  obtain ⟨results, last⟩ := runs_agree (holds_init m) ops
  exact ⟨results, last.bytes, last.count, last.pages⟩

end Runs

section RoundTrips

/-- The memory behind a sequence of calls. -/
def reached (m : Mem) (ops : List MemOp) : Mem := (runCalls Mem.call ops (ssMemInit m)).2

theorem reached_holds (m : Mem) (ops : List MemOp) : ∃ f, Holds (reached m ops) f :=
  ⟨_, (runs_agree (holds_init m) ops).2⟩

/-- What `mem_bcopy` has written is read back, and nothing else has changed. -/
theorem bcopy_round_trip (m₀ : Mem) (ops : List MemOp) (a nbytes : Word) (p q : Nat → Byte) :
    let m := reached m₀ ops
    let written := memBcopy .write a p nbytes m
    let back := memBcopy .read a q nbytes written.2.2
    written.1 = .none ∧ back.1 = .none ∧
      (∀ j, back.2.1 j = if j < nbytes.toInt.toNat then p j else q j) ∧
      ∀ x, nbytes.toInt.toNat ≤ (x - a).toNat → back.2.2.bytes x = m.bytes x := by
  obtain ⟨f, h⟩ := reached_holds m₀ ops
  have short := toNat_int_le nbytes
  simp only [memBcopy]
  generalize nbytes.toInt.toNat = n at short ⊢
  obtain ⟨fault, -, next⟩ := bcopyLoop_agree (Nat.le_trans short (by decide)) h .write a 0 p
  obtain ⟨fault', buffer, last⟩ :=
    bcopyLoop_agree (Nat.le_trans short (by decide)) next .read a 0 q
  refine ⟨fault, fault', fun j => ?_, fun x far => ?_⟩
  · rw [buffer]
    simp only [Flat.transfer, Flat.copyOut, Flat.copyIn, Nat.zero_le, true_and, Nat.zero_add,
      Nat.sub_zero, add_sub_cancel_left]
    split
    · rename_i inside
      have small : (BitVec.ofNat 32 j).toNat = j := by
        rw [BitVec.toNat_ofNat, Nat.mod_eq_of_lt (by omega)]
      rw [small, if_pos inside]
    · rfl
  · rw [last.bytes, h.bytes]
    simp only [Flat.transfer, Flat.copyIn]
    rw [if_neg (Nat.not_lt.mpr far)]

theorem putString_cons {c : Byte} (s : List Byte) (a : Word) (f : Flat) :
    f.putString (c :: s) a = if c = 0 then f.write a 0 else (f.write a c).putString s (a + 1) := by
  rw [Flat.putString, cString_cons]
  split <;> rfl

theorem putString_outside {s : List Byte} {x : Word} (far : (cString s).length ≤ (x - a).toNat) :
    (f.putString s a).bytes x = f.bytes x := by
  induction s generalizing a f with
  | nil =>
    have far : 1 ≤ (x - a).toNat := far
    have ne : x ≠ a := by bv_omega
    exact Function.update_of_ne ne ..
  | cons c s ih =>
    rw [cString_cons] at far
    rw [putString_cons]
    split
    · rename_i zero
      rw [if_pos zero] at far
      have far : 1 ≤ (x - a).toNat := far
      have ne : x ≠ a := by bv_omega
      exact Function.update_of_ne ne ..
    · rename_i other
      rw [if_neg other, List.length_cons] at far
      have ne : x ≠ a := by bv_omega
      have next : (cString s).length ≤ (x - (a + 1)).toNat := by bv_omega
      rw [ih next]
      exact Function.update_of_ne ne ..

theorem getString_putString {s : List Byte} (short : (cString s).length ≤ 2 ^ 32) {fuel : Nat}
    (enough : (cString s).length ≤ fuel) : (f.putString s a).getString fuel a = some (cString s) := by
  induction s generalizing a f fuel with
  | nil =>
    cases fuel with
    | zero => cases enough
    | succ fuel => simp [Flat.getString, Flat.putString, cString, Flat.write]
  | cons c s ih =>
    rw [cString_cons] at short enough ⊢
    rw [putString_cons]
    cases fuel with
    | zero => split at enough <;> cases enough
    | succ fuel =>
      rw [Flat.getString]
      split
      · rename_i zero
        simp [Flat.write]
      · rename_i other
        rw [if_neg other, List.length_cons] at short enough
        -- the rest of the string does not come round to its first byte
        have far : (cString s).length ≤ (a - (a + 1)).toNat := by bv_omega
        have first : ((f.write a c).putString s (a + 1)).bytes a = c := by
          rw [putString_outside far]
          exact Function.update_self ..
        rw [first, if_neg other, ih (by omega) (by omega)]
        rfl

/-- `mem_bcopy4` copies what `mem_bcopy` copies, or nothing when the address is misaligned. -/
theorem bcopy4_bcopy (m₀ : Mem) (ops : List MemOp) (cmd : MemCmd) (a nbytes : Word)
    (p : Nat → Byte) (words : nbytes.toInt % 4 = 0) :
    let m := reached m₀ ops
    let fast := memBcopy4 cmd a p nbytes m
    let plain := memBcopy cmd a p nbytes m
    if 0 < nbytes.toInt ∧ a &&& 3 ≠ 0 then
      fast.1 = .alignment ∧ fast.2.1 = p ∧ ∀ x, fast.2.2.bytes x = m.bytes x
    else fast.1 = plain.1 ∧ fast.2.1 = plain.2.1 ∧
      (∀ x, fast.2.2.bytes x = plain.2.2.bytes x) ∧
      fast.2.2.pageCount = plain.2.2.pageCount := by
  obtain ⟨f, h⟩ := reached_holds m₀ ops
  obtain ⟨fault, buffer, next⟩ := memBcopy_agree h cmd a nbytes p
  obtain ⟨fault4, buffer4, next4⟩ := memBcopy4_agree h cmd a nbytes p
  simp only [Flat.bcopy4] at fault buffer next fault4 buffer4 next4
  have count : 4 * (nbytes.sshiftRight 2).toInt.toNat = nbytes.toInt.toNat := by
    rw [BitVec.toInt_sshiftRight, Int.shiftRight_eq_div_pow]
    omega
  have some : (nbytes.sshiftRight 2).toInt.toNat ≠ 0 ↔ 0 < nbytes.toInt := by
    omega
  rw [count] at fault4 buffer4 next4
  split
  · rename_i off
    rw [if_pos ⟨some.mpr off.1, off.2⟩] at fault4 buffer4 next4
    exact ⟨fault4, buffer4, fun x => (next4.bytes x).trans (h.bytes x).symm⟩
  · rename_i on
    rw [if_neg fun off => on ⟨some.mp off.1, off.2⟩] at fault4 buffer4 next4
    exact ⟨fault4.trans fault.symm, buffer4.trans buffer.symm,
      fun x => (next4.bytes x).trans (next.bytes x).symm, next4.count.trans next.count.symm⟩

theorem bcopy4_bcopy_words :
    (memBcopy4 .read 4096 (fun _ => 7) 8 (reached {} [.bcopy .write 4098 (fun _ => 5) 4])).2.1 =
      (memBcopy .read 4096 (fun _ => 7) 8 (reached {} [.bcopy .write 4098 (fun _ => 5) 4])).2.1 := by
  have both := bcopy4_bcopy {} [.bcopy .write 4098 (fun _ => 5) 4] .read 4096 8 (fun _ => 7)
    (by decide)
  simp only [] at both
  rw [if_neg (by decide)] at both
  exact both.2.1

/-- A host string that `mem_strcpy` has written is read back up to its terminator. -/
theorem strcpy_round_trip (m₀ : Mem) (ops : List MemOp) (a : Word) (s : List Byte) {fuel : Nat}
    (short : (cString s).length ≤ 2 ^ 32) (enough : (cString s).length ≤ fuel) :
    let m := reached m₀ ops
    let written := strcpyWrite s a m
    written.1 = .none ∧ ∃ m', strcpyRead fuel a written.2 = some (.none, cString s, m') ∧
      ∀ x, (cString s).length ≤ (x - a).toNat → m'.bytes x = m.bytes x := by
  obtain ⟨f, h⟩ := reached_holds m₀ ops
  obtain ⟨fault, next⟩ := strcpyWrite_holds h s a
  refine ⟨fault, ?_⟩
  have string : (f.putString s a).getString fuel a = _ := getString_putString short enough
  rcases strcpyRead_spec next fuel a with ⟨-, out⟩ | ⟨s', m', read, same, last⟩
  · exact absurd (out.symm.trans string) (by simp)
  · have same : s' = cString s := Option.some.inj (same.symm.trans string)
    rw [same] at read
    refine ⟨m', read, fun x far => ?_⟩
    rw [last.bytes, h.bytes, putString_outside far]

/-- Two characters and the terminator, at the end of one page and the beginning of the next. -/
theorem strcpy_round_trip_pages : ∃ m' : Mem,
    strcpyRead 3 0x0ffffffe#32 (strcpyWrite [72#8, 105#8] 0x0ffffffe#32 (reached {} [])).2 =
      some (.none, [72#8, 105#8, 0#8], m') := by
  have enough : (cString [72#8, 105#8]).length ≤ 3 := by decide
  obtain ⟨-, m', read, -⟩ :=
    strcpy_round_trip {} [] 0x0ffffffe#32 [72#8, 105#8] (by decide) enough
  exact ⟨m', read⟩

end RoundTrips

end Godson.Memory

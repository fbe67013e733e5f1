import Godson.Arch
import Godson.Buckets

/-! The memory of the simulated program (`memory.h`, `memory.c`): host pages behind an inverted
page table, which are allocated when they are first written. -/
namespace Godson.Memory

open Mips Buckets

/-- `MEM_PTAB_SET` -/
def ptabSet (addr : Word) : Word := (addr >>> 12) &&& (32 * 1024 - 1)

/-- `MEM_PTAB_TAG` -/
def ptabTag (addr : Word) : Word := addr >>> (12 + 15)

/-- `MEM_OFFSET` -/
def memOffset (addr : Word) : Word := addr &&& (4096 - 1)

/-- `mem_pte_t`. The page is a pointer to host memory. -/
structure Pte where
  tag : Word
  page : Nat

/-- `mem_t`, and the host memory: its pages, and the next one that `getcore` returns. -/
structure Mem where
  ptab : Word → List Pte := fun _ => []
  pageCount : Nat := 0
  ptabMisses : Nat := 0
  ptabAccesses : Nat := 0
  host : Nat → Word → Byte := fun _ _ => 0
  core : Nat := 0

/-- `ss_mem_init` -/
def ssMemInit (m : Mem) : Mem :=
  { m with ptab := fun _ => [], pageCount := 0, ptabMisses := 0, ptabAccesses := 0 }

section Macros

/-- `mem_translate`: the entry that is found goes to the front of its bucket. -/
def memTranslate (addr : Word) (m : Mem) : Option Nat × Mem :=
  let m := { m with ptabMisses := m.ptabMisses + 1, ptabAccesses := m.ptabAccesses + 1 }
  match takeOut Pte.tag (ptabTag addr) (m.ptab (ptabSet addr)) with
  | none => (none, m)
  | some (pte, rest) =>
    (some pte.page, { m with ptab := Function.update m.ptab (ptabSet addr) (pte :: rest) })

/-- `MEM_PAGE`: the first entry of the bucket is tried first. -/
def memPage (addr : Word) (m : Mem) : Option Nat × Mem :=
  match m.ptab (ptabSet addr) with
  | [] => memTranslate addr m
  | pte :: _ =>
    if pte.tag = ptabTag addr then
      (some pte.page, { m with ptabAccesses := m.ptabAccesses + 1 })
    else memTranslate addr m

/-- `mem_newpage`. The page from `getcore` is cleared. -/
def memNewpage (addr : Word) (m : Mem) : Mem :=
  { m with
    host := Function.update m.host m.core fun _ => 0
    core := m.core + 1
    ptab := Function.update m.ptab (ptabSet addr)
      (⟨ptabTag addr, m.core⟩ :: m.ptab (ptabSet addr))
    pageCount := m.pageCount + 1 }

/-- `MEM_TICKLE` -/
def memTickle (addr : Word) (m : Mem) : Mem :=
  match memPage addr m with
  | (none, m) => memNewpage addr m
  | (some _, m) => m

/-- `MEM_READ_BYTE`. A page that is not allocated reads as zero. -/
def memReadByte (addr : Word) (m : Mem) : Byte × Mem :=
  match memPage addr m with
  | (none, m) => (0, m)
  | (some _, m) =>
    match memPage addr m with
    | (some page, m) => (m.host page (memOffset addr), m)
    | (none, m) => (0, m)

/-- `MEM_WRITE_BYTE` -/
def memWriteByte (addr : Word) (v : Byte) (m : Mem) : Mem :=
  match memPage addr (memTickle addr m) with
  | (some page, m) => { m with
      host := Function.update m.host page (Function.update (m.host page) (memOffset addr) v) }
  | (none, m) => m

end Macros

section Access

/-- `enum md_fault_type`, as far as `memory.c` returns it. -/
inductive Fault
  | none | access | alignment | internal
  deriving DecidableEq, Repr

/-- `enum mem_cmd` -/
inductive MemCmd
  | read | write
  deriving DecidableEq, Repr

/-- The copy loop of `mem_access` for a read: `n` bytes go to the buffer from index `i` on. -/
def readLoop : Nat → Word → Nat → (Nat → Byte) → Mem → (Nat → Byte) × Mem
  | 0, _, _, p, m => (p, m)
  | n + 1, addr, i, p, m =>
    let (v, m) := memReadByte addr m
    readLoop n (addr + 1) (i + 1) (Function.update p i v) m

/-- The copy loop for a write. -/
def writeLoop : Nat → Word → Nat → (Nat → Byte) → Mem → Mem
  | 0, _, _, _, m => m
  | n + 1, addr, i, p, m => writeLoop n (addr + 1) (i + 1) p (memWriteByte addr (p i) m)

/-- `mem_access`, with the buffer `p` from index `i` on. The size is an `int`. -/
def memAccess (cmd : MemCmd) (addr : Word) (i : Nat) (p : Nat → Byte) (nbytes : Word) (m : Mem) :
    Fault × (Nat → Byte) × Mem :=
  if nbytes &&& (nbytes - 1) ≠ 0 ∨ (4096#32).slt nbytes then (.access, p, m)
  else if addr &&& (nbytes - 1) ≠ 0 then (.alignment, p, m)
  else
    match cmd with
    | .read =>
      let (p, m) := readLoop nbytes.toInt.toNat addr i p m
      (.none, p, m)
    | .write => (.none, p, writeLoop nbytes.toInt.toNat addr i p m)

/-- The loop of `mem_bcopy`. -/
def bcopyLoop (cmd : MemCmd) : Nat → Word → Nat → (Nat → Byte) → Mem → Fault × (Nat → Byte) × Mem
  | 0, _, _, p, m => (.none, p, m)
  | n + 1, addr, i, p, m =>
    match memAccess cmd addr i p 1 m with
    | (.none, p, m) => bcopyLoop cmd n (addr + 1) (i + 1) p m
    | (fault, p, m) => (fault, p, m)

/-- `mem_bcopy` with `mem_access` as the memory accessor. -/
def memBcopy (cmd : MemCmd) (addr : Word) (p : Nat → Byte) (nbytes : Word) (m : Mem) :
    Fault × (Nat → Byte) × Mem :=
  bcopyLoop cmd nbytes.toInt.toNat addr 0 p m

/-- The loop of `mem_bcopy4`. -/
def bcopy4Loop (cmd : MemCmd) : Nat → Word → Nat → (Nat → Byte) → Mem → Fault × (Nat → Byte) × Mem
  | 0, _, _, p, m => (.none, p, m)
  | n + 1, addr, i, p, m =>
    match memAccess cmd addr i p 4 m with
    | (.none, p, m) => bcopy4Loop cmd n (addr + 4) (i + 4) p m
    | (fault, p, m) => (fault, p, m)

/-- `mem_bcopy4`: whole words only. -/
def memBcopy4 (cmd : MemCmd) (addr : Word) (p : Nat → Byte) (nbytes : Word) (m : Mem) :
    Fault × (Nat → Byte) × Mem :=
  bcopy4Loop cmd (nbytes.sshiftRight 2).toInt.toNat addr 0 p m

/-- `mem_bzero` -/
def bzeroLoop : Nat → Word → Mem → Fault × Mem
  | 0, _, m => (.none, m)
  | n + 1, addr, m =>
    match memAccess .write addr 0 (fun _ => 0) 1 m with
    | (.none, _, m) => bzeroLoop n (addr + 1) m
    | (fault, _, m) => (fault, m)

def memBzero (addr : Word) (nbytes : Word) (m : Mem) : Fault × Mem :=
  bzeroLoop nbytes.toInt.toNat addr m

end Access

section Strings

/-- `mem_strcpy` to simulated memory: up to the terminator of the host string. -/
def strcpyWrite : List Byte → Word → Mem → Fault × Mem
  | [], addr, m =>
    match memAccess .write addr 0 (fun _ => 0) 1 m with
    | (fault, _, m) => (fault, m)
  | c :: s, addr, m =>
    match memAccess .write addr 0 (fun _ => c) 1 m with
    | (.none, _, m) => if c = 0 then (.none, m) else strcpyWrite s (addr + 1) m
    | (fault, _, m) => (fault, m)

/-- `mem_strcpy` from simulated memory. There is no result when the loop goes on for longer
than `fuel` rounds. -/
def strcpyRead : Nat → Word → Mem → Option (Fault × List Byte × Mem)
  | 0, _, _ => none
  | fuel + 1, addr, m =>
    match memAccess .read addr 0 (fun _ => 0) 1 m with
    | (.none, p, m) =>
      if p 0 = 0 then some (.none, [p 0], m)
      else (strcpyRead fuel (addr + 1) m).map fun (fault, s, m) => (fault, p 0 :: s, m)
    | (fault, _, m) => some (fault, [], m)

end Strings

section Addresses

variable {a b : Word}

theorem ptabSet_toNat (a : Word) : (ptabSet a).toNat = a.toNat / 4096 % 32768 := by
  have mask : (32 * 1024 - 1 : Word).toNat = 2 ^ 15 - 1 := rfl
  rw [ptabSet, BitVec.toNat_and, mask, Nat.and_two_pow_sub_one_eq_mod, BitVec.toNat_ushiftRight,
    Nat.shiftRight_eq_div_pow]

theorem ptabTag_toNat (a : Word) : (ptabTag a).toNat = a.toNat / 4096 / 32768 := by
  rw [ptabTag, BitVec.toNat_ushiftRight, Nat.shiftRight_eq_div_pow, Nat.div_div_eq_div_mul]

theorem memOffset_toNat (a : Word) : (memOffset a).toNat = a.toNat % 4096 := by
  have mask : (4096 - 1 : Word).toNat = 2 ^ 12 - 1 := rfl
  rw [memOffset, BitVec.toNat_and, mask, Nat.and_two_pow_sub_one_eq_mod]

/-- The set and the tag make up the number of the page. -/
theorem same_page : (ptabSet a = ptabSet b ∧ ptabTag a = ptabTag b) ↔ a >>> 12 = b >>> 12 := by
  have low : (a >>> 12).toNat = a.toNat / 4096 := by
    rw [BitVec.toNat_ushiftRight, Nat.shiftRight_eq_div_pow]
  have low' : (b >>> 12).toNat = b.toNat / 4096 := by
    rw [BitVec.toNat_ushiftRight, Nat.shiftRight_eq_div_pow]
  simp only [← BitVec.toNat_inj, ptabSet_toNat, ptabTag_toNat, low, low']
  omega

theorem same_address (page : a >>> 12 = b >>> 12) (offset : memOffset a = memOffset b) : a = b := by
  obtain ⟨set, tag⟩ := same_page.mpr page
  rw [← BitVec.toNat_inj] at set tag offset ⊢
  rw [ptabSet_toNat, ptabSet_toNat] at set
  rw [ptabTag_toNat, ptabTag_toNat] at tag
  rw [memOffset_toNat, memOffset_toNat] at offset
  omega

end Addresses

end Godson.Memory

import Godson.MemoryRuns

/-! The architectural state of a core on the page tables of `memory.c`: stores, the saves in
front of them, restorations and loads go through `mem_access`. -/
namespace Godson.Memory

open Mips

/-- The registers and the memory of a core. -/
structure Paged where
  regs : Regs := {}
  mem : Mem := {}

/-- The bytes of a host variable. -/
def buffer (v : Word) : Nat → Byte := fun k => v.extractLsb' (8 * k) 8

def bufferValue (w : Width) (p : Nat → Byte) : Word :=
  match w with
  | .byte => (p 0).setWidth 32
  | .half => (p 1 ++ p 0).setWidth 32
  | .word => p 3 ++ p 2 ++ p 1 ++ p 0

/-- `mem_access` to a variable of the width. -/
def load (w : Width) (addr : Word) (m : Mem) : Fault × Word × Mem :=
  let (fault, p, m) := memAccess .read addr 0 (fun _ => 0) (BitVec.ofNat 32 w.bytes) m
  (fault, bufferValue w p, m)

/-- `mem_access` from a variable of the width. -/
def store (w : Width) (addr v : Word) (m : Mem) : Mem :=
  (memAccess .write addr 0 (buffer v) (BitVec.ofNat 32 w.bytes) m).2.2

/-- A write in non-speculative mode. -/
def Paged.put (s : Paged) : Write → Paged
  | .store w addr v => { s with mem := store w addr v s.mem }
  | w => { s with regs := s.regs.put w }

/-- `SAVE_OLD` -/
def Paged.saveOld (s : Paged) : Write → Save × Paged
  | .store _ addr _ =>
    let (_, l, m) := load .word (wordBase addr) s.mem
    (.store (wordBase addr) l, { s with mem := m })
  | w => (Arch.saveOld { regs := s.regs } w, s)

/-- The writes of an instruction, each behind its save. -/
def Paged.putAll (s : Paged) : List Write → Paged × List Save
  | [] => (s, [])
  | w :: ws =>
    let (save, s) := s.saveOld w
    let (s, saves) := (s.put w).putAll ws
    (s, save :: saves)

/-- The loop body of `recover_data`. -/
def Paged.restore (s : Paged) : Save → Paged
  | .store addr l => { s with mem := store .word addr l s.mem }
  | save => { s with regs := (Arch.restore { regs := s.regs } save).regs }

/-- The page tables hold the memory of the architectural state. -/
structure Paged.Sim (s : Paged) (a : Arch) : Prop where
  regs : s.regs = a.regs
  mem : ∃ f : Flat, Holds s.mem f ∧ f.bytes = a.mem

variable {m : Mem} {f : Flat} {s : Paged} {a : Arch}

section Accesses

theorem aligned_iff (w : Width) (addr : Word) :
    addr &&& (BitVec.ofNat 32 w.bytes - 1) = 0 ↔ w.aligned addr = true := by
  have low (k : Nat) (mask : Word) (width : mask.toNat = 2 ^ k - 1) (bytes : w.bytes = 2 ^ k) :
      addr &&& mask = 0 ↔ w.aligned addr = true := by
    rw [← BitVec.toNat_inj, BitVec.toNat_and, width, Nat.and_two_pow_sub_one_eq_mod,
      Width.aligned, bytes, beq_iff_eq]
    rfl
  cases w with
  | byte => exact low 0 _ rfl rfl
  | half => exact low 1 _ rfl rfl
  | word => exact low 2 _ rfl rfl

theorem access_width (cmd : MemCmd) (w : Width) (addr : Word) (p : Nat → Byte) (f : Flat) :
    f.access cmd addr 0 p (BitVec.ofNat 32 w.bytes) = if w.aligned addr then
      (.none, f.transfer cmd w.bytes addr 0 p) else (.alignment, p, f) := by
  have size : ¬(BitVec.ofNat 32 w.bytes &&& (BitVec.ofNat 32 w.bytes - 1) ≠ 0 ∨
      (4096#32).slt (BitVec.ofNat 32 w.bytes) = true) := by
    cases w <;> decide
  have count : (BitVec.ofNat 32 w.bytes).toInt.toNat = w.bytes := by
    cases w <;> rfl
  rw [Flat.access, if_neg size, count]
  by_cases aligned : w.aligned addr = true
  · rw [if_pos aligned, if_neg (not_not.mpr ((aligned_iff w addr).mpr aligned))]
  · rw [if_neg aligned, if_pos fun zero => aligned ((aligned_iff w addr).mp zero)]

theorem store_holds (h : Holds m f) (w : Width) (addr v : Word) :
    ∃ f' : Flat, Holds (store w addr v m) f' ∧
      f'.bytes = if w.aligned addr then writeMem f.bytes w addr v else f.bytes := by
  obtain ⟨-, -, next⟩ := memAccess_agree h .write addr 0 (buffer v) (BitVec.ofNat 32 w.bytes)
  rw [access_width] at next
  split at next
  · rename_i aligned
    refine ⟨_, next, ?_⟩
    rw [if_pos aligned]
    funext x
    simp only [Flat.transfer, Flat.copyIn, buffer, writeMem, Nat.zero_add]
  · rename_i off
    exact ⟨f, next, (if_neg off).symm⟩

theorem load_spec (h : Holds m f) (w : Width) (addr : Word) :
    (load w addr m).1 = (if w.aligned addr then .none else .alignment) ∧
      (load w addr m).2.1 = (if w.aligned addr then readMem f.bytes w addr else 0) ∧
      Holds (load w addr m).2.2 f := by
  obtain ⟨fault, value, next⟩ :=
    memAccess_agree h .read addr 0 (fun _ => 0) (BitVec.ofNat 32 w.bytes)
  rw [access_width] at fault value next
  simp only [load]
  split at fault
  · rename_i aligned
    rw [if_pos aligned] at value next
    refine ⟨fault.trans (if_pos aligned).symm, ?_, next⟩
    rw [value, if_pos aligned]
    cases w <;> simp [bufferValue, readMem, readHalf, readWord, Flat.transfer, Flat.copyOut,
      Width.bytes]
  · rename_i off
    rw [if_neg off] at value next
    refine ⟨fault.trans (if_neg off).symm, ?_, next⟩
    rw [value, if_neg off]
    cases w <;> simp [bufferValue]

end Accesses

section Writes

theorem wordBase_aligned (addr : Word) : Width.word.aligned (wordBase addr) = true := by
  rw [Width.aligned, wordBase_toNat, beq_iff_eq]
  exact Nat.mul_mod_left ..

/-- A save of memory is one of an aligned word. -/
def SaveAligned : Save → Prop
  | .store addr _ => Width.word.aligned addr = true
  | _ => True

theorem saveOld_aligned (a : Arch) (w : Write) : SaveAligned (a.saveOld w) := by
  cases w with
  | store w addr v => exact wordBase_aligned addr
  | _ => trivial

theorem putAll_aligned (a : Arch) (ws : List Write) :
    ∀ save ∈ (a.putAll ws).2, SaveAligned save := by
  induction ws generalizing a with
  | nil =>
    intro save none
    cases none
  | cons w ws ih =>
    intro save here
    rcases List.mem_cons.mp here with rfl | later
    · exact saveOld_aligned a w
    · exact ih (a.put w) save later

theorem Paged.Sim.saveOld (h : s.Sim a) (w : Write) :
    (s.saveOld w).1 = a.saveOld w ∧ (s.saveOld w).2.Sim a := by
  obtain ⟨regs, f, holds, bytes⟩ := h
  cases w with
  | store w addr v =>
    obtain ⟨-, value, next⟩ := load_spec holds .word (wordBase addr)
    rw [if_pos (wordBase_aligned addr), bytes] at value
    refine ⟨?_, regs, f, next, bytes⟩
    simp only [Paged.saveOld, Arch.saveOld, value, readMem]
  | _ => exact ⟨by simp only [Paged.saveOld, Arch.saveOld, regs], regs, f, holds, bytes⟩

theorem Paged.Sim.put (h : s.Sim a) (w : Write) : (s.put w).Sim (a.put w) := by
  obtain ⟨regs, f, holds, bytes⟩ := h
  cases w with
  | store w addr v =>
    obtain ⟨f', next, after⟩ := store_holds holds w addr v
    rw [bytes] at after
    simp only [Paged.put, Arch.put]
    split
    · rename_i aligned
      rw [if_pos aligned] at after
      exact ⟨regs, f', next, after⟩
    · rename_i off
      rw [if_neg off] at after
      exact ⟨regs, f', next, after⟩
  | _ => exact ⟨by simp only [Paged.put, Arch.put, regs], f, holds, bytes⟩

theorem Paged.Sim.putAll (h : s.Sim a) (ws : List Write) :
    (s.putAll ws).2 = (a.putAll ws).2 ∧ (s.putAll ws).1.Sim (a.putAll ws).1 := by
  induction ws generalizing s a with
  | nil => exact ⟨rfl, h⟩
  | cons w ws ih =>
    obtain ⟨save, saved⟩ := h.saveOld w
    obtain ⟨saves, last⟩ := ih (saved.put w)
    exact ⟨congrArg₂ List.cons save saves, last⟩

theorem Paged.Sim.restore (h : s.Sim a) {save : Save} (aligned : SaveAligned save) :
    (s.restore save).Sim (a.restore save) := by
  obtain ⟨regs, f, holds, bytes⟩ := h
  cases save with
  | store addr l =>
    obtain ⟨f', next, after⟩ := store_holds holds .word addr l
    have aligned : Width.word.aligned addr = true := aligned
    rw [bytes, if_pos aligned] at after
    exact ⟨regs, f', next, after⟩
  | _ => exact ⟨by simp only [Paged.restore, Arch.restore, regs], f, holds, bytes⟩

theorem Paged.Sim.restoreAll (h : s.Sim a) {saves : List Save}
    (aligned : ∀ save ∈ saves, SaveAligned save) :
    (saves.foldl Paged.restore s).Sim (a.restoreAll saves) := by
  induction saves generalizing s a with
  | nil => exact h
  | cons save saves ih =>
    exact ih (h.restore (aligned save List.mem_cons_self))
      fun other here => aligned other (List.mem_cons_of_mem _ here)

end Writes

section Runs

/-- What a core does with its architectural state: it executes an instruction, takes the
youngest one back that is not undone yet, or loads a value. -/
inductive ArchOp
  | exec (ws : List Write)
  | undo
  | load (w : Width) (addr : Word)

/-- The values that a sequence of operations loads, and the state and the saves of the
instructions behind it. -/
def Paged.run : List ArchOp → Paged → List (List Save) →
    List (Fault × Word) × Paged × List (List Save)
  | [], s, log => ([], s, log)
  | .exec ws :: ops, s, log =>
    let (s, saves) := s.putAll ws
    s.run ops (saves :: log)
  | .undo :: ops, s, log => (log.headD []).foldl Paged.restore s |>.run ops log.tail
  | .load w addr :: ops, s, log =>
    let (fault, v, m) := Memory.load w addr s.mem
    let (values, s, log) := Paged.run ops { s with mem := m } log
    ((fault, v) :: values, s, log)

def archRun : List ArchOp → Arch → List (List Save) → List (Fault × Word) × Arch × List (List Save)
  | [], a, log => ([], a, log)
  | .exec ws :: ops, a, log => archRun ops (a.putAll ws).1 ((a.putAll ws).2 :: log)
  | .undo :: ops, a, log => archRun ops (a.restoreAll (log.headD [])) log.tail
  | .load w addr :: ops, a, log =>
    let value := if w.aligned addr then (.none, readMem a.mem w addr) else (.alignment, 0)
    let (values, a, log) := archRun ops a log
    (value :: values, a, log)

theorem Paged.Sim.run {log : List (List Save)} (h : s.Sim a)
    (aligned : ∀ saves ∈ log, ∀ save ∈ saves, SaveAligned save) (ops : List ArchOp) :
    (s.run ops log).1 = (archRun ops a log).1 ∧ (s.run ops log).2.1.Sim (archRun ops a log).2.1 ∧
      (s.run ops log).2.2 = (archRun ops a log).2.2 := by
  induction ops generalizing s a log with
  | nil => exact ⟨rfl, h, rfl⟩
  | cons op ops ih =>
    cases op with
    | exec ws =>
      obtain ⟨saves, next⟩ := h.putAll ws
      simp only [Paged.run, archRun, saves]
      refine ih next fun l here => ?_
      rcases List.mem_cons.mp here with rfl | older
      · exact putAll_aligned a ws
      · exact aligned l older
    | undo =>
      refine ih (h.restoreAll ?_) fun l here => aligned l (List.mem_of_mem_tail here)
      cases log with
      | nil =>
        intro save none
        cases none
      | cons l log => exact aligned l List.mem_cons_self
    | load w addr =>
      obtain ⟨regs, f, holds, bytes⟩ := h
      obtain ⟨fault, value, next⟩ := load_spec holds w addr
      have loaded : Paged.Sim { s with mem := (Memory.load w addr s.mem).2.2 } a :=
        ⟨regs, f, next, bytes⟩
      obtain ⟨values, sim, logs⟩ := ih loaded aligned
      rw [bytes] at value
      refine ⟨?_, sim, logs⟩
      simp only [Paged.run, archRun, fault, value]
      refine congrArg₂ List.cons ?_ values
      split <;> rfl

/-- On page tables a core loads the same values, saves the same values and comes to the same
registers and bytes as on a map from addresses to bytes, whatever instructions it executes and
takes back. -/
theorem paged_run (m₀ : Mem) (calls : List MemOp) (regs : Regs) (ops : List ArchOp) :
    let paged := Paged.run ops { regs, mem := reached m₀ calls } []
    let plain := archRun ops { regs, mem := (reached m₀ calls).bytes } []
    paged.1 = plain.1 ∧ paged.2.1.regs = plain.2.1.regs ∧
      (∀ a, paged.2.1.mem.bytes a = plain.2.1.mem a) ∧ paged.2.2 = plain.2.2 := by
  obtain ⟨f, h⟩ := reached_holds m₀ calls
  have sim : Paged.Sim { regs, mem := reached m₀ calls }
      { regs, mem := (reached m₀ calls).bytes } := ⟨rfl, f, h, (funext h.bytes).symm⟩
  have none : ∀ saves ∈ ([] : List (List Save)), ∀ save ∈ saves, SaveAligned save := nofun
  obtain ⟨values, ⟨regs, f', holds, bytes⟩, logs⟩ := sim.run none ops
  exact ⟨values, regs, fun a => (holds.bytes a).trans (congrFun bytes a), logs⟩

end Runs

end Godson.Memory

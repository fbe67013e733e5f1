import Mathlib.Order.CompletePartialOrder
import Godson.Mips
import Godson.UndoLog

/-! The architectural state of a core, the saves an instruction makes before each of its
writes (`SAVE_OLD`) and their restoration (`recover_data`). -/
namespace Godson.Mips

/-- `regs_R`, `regs_F` and `regs_C`. The views `l` and `f` of the floating-point file are
its words, `d[n]` is the pair of words `2n` and `2n+1`. -/
structure Regs where
  regsR : Reg → Word := fun _ => 0
  regsF : Reg → Word := fun _ => 0
  hi : Word := 0
  lo : Word := 0
  fcc : Word := 0

structure Arch where
  regs : Regs := {}
  mem : Word → Byte := fun _ => 0

/-- The size of a memory access. -/
inductive Width
  | byte | half | word
  deriving DecidableEq, Repr

def Width.bytes : Width → Nat
  | .byte => 1
  | .half => 2
  | .word => 4

/-- The alignment check of `mem_access`: `addr & (nbytes-1)`. -/
def Width.aligned (w : Width) (addr : Word) : Bool := addr.toNat % w.bytes == 0

/-- `addr & ~0x3` -/
def wordBase (addr : Word) : Word := BitVec.ofNat 32 (addr.toNat / 4 * 4)

/-- `fn` of a word at an address, in the byte order of the host. -/
def readWord (mem : Word → Byte) (a : Word) : Word := mem (a + 3) ++ mem (a + 2) ++ mem (a + 1) ++ mem a

def readHalf (mem : Word → Byte) (a : Word) : BitVec 16 := mem (a + 1) ++ mem a

/-- The value a read of `w` leaves in its buffer, extended with zeros. -/
def readMem (mem : Word → Byte) (w : Width) (a : Word) : Word :=
  match w with
  | .byte => (mem a).setWidth 32
  | .half => (readHalf mem a).setWidth 32
  | .word => readWord mem a

/-- The copy loop of `mem_access` for a write. -/
def writeMem (mem : Word → Byte) (w : Width) (a v : Word) : Word → Byte := fun x =>
  if (x - a).toNat < w.bytes then v.extractLsb' (8 * (x - a).toNat) 8 else mem x

/-- `d[n]` -/
def readDouble (f : Reg → Word) (n : BitVec 4) : DWord := f (n ++ 1#1) ++ f (n ++ 0#1)

def writeDouble (f : Reg → Word) (n : BitVec 4) (v : DWord) : Reg → Word := fun m =>
  if m = n ++ 0#1 then v.extractLsb' 0 32 else if m = n ++ 1#1 then v.extractLsb' 32 32 else f m

/-- The writes of an instruction: `SET_GPR`, `SET_FPR_L` and `SET_FPR_F`, `SET_FPR_D`,
`SET_HI`, `SET_LO`, `SET_FCC` and `__WRITE_SPECMEM`. -/
inductive Write
  | gpr (n : Reg) (v : Word)
  | fpr (n : Reg) (v : Word)
  | fprD (n : BitVec 4) (v : DWord)
  | hi (v : Word)
  | lo (v : Word)
  | fcc (v : Word)
  | store (w : Width) (addr v : Word)
  deriving DecidableEq, Repr

def Regs.put (r : Regs) : Write → Regs
  | .gpr n v => { r with regsR := fun m => if m = n then v else r.regsR m }
  | .fpr n v => { r with regsF := fun m => if m = n then v else r.regsF m }
  | .fprD n v => { r with regsF := writeDouble r.regsF n v }
  | .hi v => { r with hi := v }
  | .lo v => { r with lo := v }
  | .fcc v => { r with fcc := v }
  | .store .. => r

/-- A write in non-speculative mode. A misaligned store faults before it copies. -/
def Arch.put (a : Arch) : Write → Arch
  | .store w addr v =>
    if w.aligned addr then { a with mem := writeMem a.mem w addr v } else a
  | w => { a with regs := a.regs.put w }

section Nan

/-- A single whose exponent is all ones, with a fraction that is not zero and begins with
a zero. -/
def signallingS (x : Word) : Bool :=
  x.extractLsb' 23 8 == 0xff && !x.getLsbD 22 && x.extractLsb' 0 22 != 0

/-- The copy of a `float`. The x87 unit quiets a signalling NaN when it is loaded. -/
def quietS (x : Word) : Word := if signallingS x then x ||| 0x00400000 else x

def signallingD (x : DWord) : Bool :=
  x.extractLsb' 52 11 == 0x7ff && !x.getLsbD 51 && x.extractLsb' 0 51 != 0

/-- The copy of a `double`. -/
def quietD (x : DWord) : DWord := if signallingD x then x ||| 0x0008000000000000 else x

theorem signallingS_top {x : Word} (h : signallingS x = true) : x.getLsbD 22 = false := by
  simp only [signallingS, Bool.and_eq_true, Bool.not_eq_true'] at h
  exact h.1.2

theorem signallingD_top {x : DWord} (h : signallingD x = true) : x.getLsbD 51 = false := by
  simp only [signallingD, Bool.and_eq_true, Bool.not_eq_true'] at h
  exact h.1.2

theorem quietS_eq_iff (x : Word) : quietS x = x ↔ signallingS x = false := by
  unfold quietS
  split
  · rename_i bad
    refine ⟨fun same => ?_, fun good => absurd bad (by simp [good])⟩
    have top := congrArg (fun y : Word => y.getLsbD 22) same
    exact absurd (signallingS_top bad) (by simpa using top)
  · rename_i good
    exact ⟨fun _ => by simpa using good, fun _ => rfl⟩

theorem signallingS_quietS (x : Word) : signallingS (quietS x) = false := by
  unfold quietS
  split
  · simp [signallingS]
  · rename_i good
    simpa using good

@[simp] theorem quietS_quietS (x : Word) : quietS (quietS x) = quietS x :=
  (quietS_eq_iff _).mpr (signallingS_quietS x)

theorem signallingD_quietD (x : DWord) : signallingD (quietD x) = false := by
  unfold quietD
  split
  · simp [signallingD]
  · rename_i good
    simpa using good

@[simp] theorem quietD_quietD (x : DWord) : quietD (quietD x) = quietD x := by
  rw [quietD, if_neg (by simp [signallingD_quietD])]

theorem quietD_low (x : DWord) : (quietD x).extractLsb' 0 32 = x.extractLsb' 0 32 := by
  unfold quietD
  split
  · have none : (0x0008000000000000 : DWord).extractLsb' 0 32 = 0 := by decide
    rw [BitVec.extractLsb'_or, none]
    exact BitVec.or_zero
  · rfl

theorem quietD_high_iff (x : DWord) :
    (quietD x).extractLsb' 32 32 = x.extractLsb' 32 32 ↔ signallingD x = false := by
  unfold quietD
  split
  · rename_i bad
    refine ⟨fun same => ?_, fun good => absurd bad (by simp [good])⟩
    have top := congrArg (fun y : Word => y.getLsbD 19) same
    exact absurd (signallingD_top bad) (by simpa using top)
  · rename_i good
    exact ⟨fun _ => by simpa using good, fun _ => rfl⟩
example : quietS 0x7f800001 = 0x7fc00001 ∧ quietD 0x7ff0000000000001 = 0x7ff8000000000001 := by
  decide

end Nan

/-- An entry of `temp_save`; the constructors are the values of its `t`. -/
inductive Save
  | fix (n : Reg) (l : Word)
  | store (addr l : Word)
  | sfloat (n : Reg) (f : Word)
  | dfloat (n : BitVec 4) (d : DWord)
  | hi (l : Word)
  | lo (l : Word)
  | fcc (l : Word)
  deriving DecidableEq, Repr

/-- `SAVE_OLD` in front of a write. A store saves the word that holds its bytes; registers of
the floating-point file are copied as `f` and `d`. -/
def Arch.saveOld (a : Arch) : Write → Save
  | .gpr n _ => .fix n (a.regs.regsR n)
  | .fpr n _ => .sfloat n (quietS (a.regs.regsF n))
  | .fprD n _ => .dfloat n (quietD (readDouble a.regs.regsF n))
  | .hi _ => .hi a.regs.hi
  | .lo _ => .lo a.regs.lo
  | .fcc _ => .fcc a.regs.fcc
  | .store _ addr _ => .store (wordBase addr) (readWord a.mem (wordBase addr))

/-- The loop body of `recover_data`. -/
def Arch.restore (a : Arch) : Save → Arch
  | .fix n l => { a with regs := a.regs.put (.gpr n l) }
  | .store addr l => { a with mem := writeMem a.mem .word addr l }
  | .sfloat n f => { a with regs := a.regs.put (.fpr n (quietS f)) }
  | .dfloat n d => { a with regs := a.regs.put (.fprD n (quietD d)) }
  | .hi l => { a with regs := a.regs.put (.hi l) }
  | .lo l => { a with regs := a.regs.put (.lo l) }
  | .fcc l => { a with regs := a.regs.put (.fcc l) }

/-- The saves of an instruction are restored in the order they were made. -/
def Arch.restoreAll (a : Arch) (saves : List Save) : Arch := saves.foldl Arch.restore a

/-- The writes of an instruction in non-speculative mode, and the saves they leave. -/
def Arch.putAll (a : Arch) : List Write → Arch × List Save
  | [] => (a, [])
  | w :: ws => ((a.put w).putAll ws |>.1, a.saveOld w :: ((a.put w).putAll ws).2)

/-- `regs_R[MD_REG_ZERO] = 0` -/
def Arch.clearZero (a : Arch) : Arch := { a with regs := a.regs.put (.gpr 0 0) }

/-- The smallest pieces of the architectural state that a save covers. -/
inductive Cell
  | gpr (n : Reg)
  | fpr (n : Reg)
  | hi
  | lo
  | fcc
  | byte (addr : Word)
  deriving DecidableEq

def Arch.get (a : Arch) : Cell → Nat
  | .gpr n => (a.regs.regsR n).toNat
  | .fpr n => (a.regs.regsF n).toNat
  | .hi => a.regs.hi.toNat
  | .lo => a.regs.lo.toNat
  | .fcc => a.regs.fcc.toNat
  | .byte x => (a.mem x).toNat

theorem Arch.ext_get (a b : Arch) (h : ∀ c, a.get c = b.get c) : a = b := by
  obtain ⟨⟨ra, fa, ha, la, ca⟩, ma⟩ := a
  obtain ⟨⟨rb, fb, hb, lb, cb⟩, mb⟩ := b
  have regs : ra = rb := funext fun n => BitVec.eq_of_toNat_eq (h (.gpr n))
  have fprs : fa = fb := funext fun n => BitVec.eq_of_toNat_eq (h (.fpr n))
  have mems : ma = mb := funext fun x => BitVec.eq_of_toNat_eq (h (.byte x))
  have his : ha = hb := BitVec.eq_of_toNat_eq (h .hi)
  have los : la = lb := BitVec.eq_of_toNat_eq (h .lo)
  have fccs : ca = cb := BitVec.eq_of_toNat_eq (h .fcc)
  simp only [regs, fprs, mems, his, los, fccs]

/-- The cells that the save in front of a write covers. -/
def Write.cells : Write → Set Cell
  | .gpr n _ => {.gpr n}
  | .fpr n _ => {.fpr n}
  | .fprD n _ => {.fpr (n ++ 0#1), .fpr (n ++ 1#1)}
  | .hi _ => {.hi}
  | .lo _ => {.lo}
  | .fcc _ => {.fcc}
  | .store _ addr _ => {c | ∃ x : Word, c = .byte x ∧ (x - wordBase addr).toNat < 4}

def Save.covers : Save → Cell → Bool
  | .fix n _, .gpr m => m == n
  | .store addr _, .byte x => decide ((x - addr).toNat < 4)
  | .sfloat n _, .fpr m => m == n
  | .dfloat n _, .fpr m => m == n ++ 0#1 || m == n ++ 1#1
  | .hi _, .hi => true
  | .lo _, .lo => true
  | .fcc _, .fcc => true
  | _, _ => false

def covered (saves : List Save) (c : Cell) : Bool := saves.any (·.covers c)

/-- The contents that the cells of the saves had `before` the instruction. -/
def Arch.takeBack (a before : Arch) (saves : List Save) : Arch where
  regs :=
    { regsR := fun n => if covered saves (.gpr n) then before.regs.regsR n else a.regs.regsR n
      regsF := fun n => if covered saves (.fpr n) then before.regs.regsF n else a.regs.regsF n
      hi := if covered saves .hi then before.regs.hi else a.regs.hi
      lo := if covered saves .lo then before.regs.lo else a.regs.lo
      fcc := if covered saves .fcc then before.regs.fcc else a.regs.fcc }
  mem := fun x => if covered saves (.byte x) then before.mem x else a.mem x

/-- The save of a cell that held (a part of) a signalling NaN, and comes back quiet. -/
def Save.Spoils (before : Arch) : Save → Cell → Prop
  | .sfloat n _, c => c = .fpr n ∧ signallingS (before.regs.regsF n) = true
  | .dfloat n _, c => c = .fpr (n ++ 1#1) ∧ signallingD (readDouble before.regs.regsF n) = true
  | _, _ => False

section Restore

open UndoLog

theorem wordBase_toNat (a : Word) : (wordBase a).toNat = a.toNat / 4 * 4 := by
  have small := a.isLt
  simp only [wordBase, BitVec.toNat_ofNat]
  omega

theorem wordBase_aligned (a : Word) : Width.word.aligned (wordBase a) = true := by
  simp [Width.aligned, Width.bytes, wordBase_toNat]

/-- An aligned access stays in the word that is saved for it. -/
theorem store_within_word {w : Width} {addr x : Word} (al : w.aligned addr = true)
    (hx : (x - addr).toNat < w.bytes) : (x - wordBase addr).toNat < 4 := by
  have base := wordBase_toNat addr
  have small := addr.isLt
  have al' : addr.toNat % w.bytes = 0 := by simpa [Width.aligned] using al
  rw [BitVec.toNat_sub] at hx ⊢
  rw [base]
  cases w <;> simp only [Width.bytes] at hx al' <;> omega

theorem append_bytes (b₃ b₂ b₁ b₀ : Byte) :
    (b₃ ++ b₂ ++ b₁ ++ b₀).extractLsb' 0 8 = b₀ ∧
      (b₃ ++ b₂ ++ b₁ ++ b₀).extractLsb' 8 8 = b₁ ∧
      (b₃ ++ b₂ ++ b₁ ++ b₀).extractLsb' 16 8 = b₂ ∧
      (b₃ ++ b₂ ++ b₁ ++ b₀).extractLsb' 24 8 = b₃ := by
  refine ⟨?_, ?_, ?_, ?_⟩ <;> ext i hi <;>
    simp only [BitVec.getElem_extractLsb', BitVec.getLsbD_append] <;> grind

theorem append_words (a b : Word) :
    (a ++ b).extractLsb' 0 32 = b ∧ (a ++ b).extractLsb' 32 32 = a := by
  constructor <;> ext i hi <;>
    simp only [BitVec.getElem_extractLsb', BitVec.getLsbD_append] <;> grind

theorem readWord_byte (m : Word → Byte) (a x : Word) (hx : (x - a).toNat < 4) :
    (readWord m a).extractLsb' (8 * (x - a).toNat) 8 = m x := by
  have pos : x = a + BitVec.ofNat 32 (x - a).toNat := by
    rw [BitVec.ofNat_toNat, BitVec.setWidth_eq, BitVec.add_comm, BitVec.sub_add_cancel]
  generalize (x - a).toNat = k at hx pos
  subst pos
  obtain ⟨e₀, e₁, e₂, e₃⟩ := append_bytes (m (a + 3)) (m (a + 2)) (m (a + 1)) (m a)
  have four : k = 0 ∨ k = 1 ∨ k = 2 ∨ k = 3 := by omega
  rcases four with rfl | rfl | rfl | rfl
  · simpa [readWord] using e₀
  · simpa [readWord] using e₁
  · simpa [readWord] using e₂
  · simpa [readWord] using e₃

/-- Restoring a word brings back each of its bytes. -/
theorem writeMem_readWord (m t : Word → Byte) (a x : Word) (hx : (x - a).toNat < 4) :
    writeMem t .word a (readWord m a) x = m x := by
  have within : (x - a).toNat < Width.word.bytes := hx
  rw [writeMem, if_pos within]
  exact readWord_byte m a x hx

theorem writeMem_outside (m : Word → Byte) (w : Width) (a v x : Word)
    (hx : ¬ (x - a).toNat < w.bytes) : writeMem m w a v x = m x := by
  simp only [writeMem, if_neg hx]

theorem double_halves (n : BitVec 4) : n ++ 0#1 ≠ n ++ 1#1 := by
  intro h
  have low := congrArg (fun x : BitVec (4 + 1) => x.getLsbD 0) h
  rw [BitVec.getLsbD_append, BitVec.getLsbD_append, if_pos Nat.one_pos, if_pos Nat.one_pos] at low
  exact absurd low (by decide)

/-- A write stays in the cells its save covers. -/
theorem put_changedIn (a : Arch) (w : Write) : ChangedIn Arch.get w.cells a (a.put w) := by
  intro c hc
  cases w with
  | gpr n v | fpr n v =>
    simp only [Write.cells, Set.mem_singleton_iff] at hc
    cases c <;> simp_all [Arch.put, Arch.get, Regs.put]
  | hi v | lo v | fcc v =>
    simp only [Write.cells, Set.mem_singleton_iff] at hc
    cases c <;> simp_all [Arch.put, Arch.get, Regs.put]
  | fprD n v =>
    simp only [Write.cells, Set.mem_insert_iff, Set.mem_singleton_iff, not_or] at hc
    cases c <;> simp_all [Arch.put, Arch.get, Regs.put, writeDouble]
  | store w addr v =>
    by_cases al : w.aligned addr = true
    · cases c with
      | byte x =>
        have far : ¬ (x - addr).toNat < w.bytes := by
          intro near
          exact hc ⟨x, rfl, store_within_word al near⟩
        simp only [Arch.put, if_pos al, Arch.get, writeMem_outside _ w _ _ _ far]
      | _ => simp only [Arch.put, if_pos al, Arch.get]
    · simp only [Arch.put, if_neg al]

theorem covers_saveOld (t : Arch) (w : Write) (c : Cell) :
    (t.saveOld w).covers c = true ↔ c ∈ w.cells := by
  cases w with
  | store w addr v => cases c <;> simp [Arch.saveOld, Save.covers, Write.cells]
  | _ => cases c <;> simp [Arch.saveOld, Save.covers, Write.cells]

theorem covered_putAll (t : Arch) (ws : List Write) (c : Cell) :
    covered (t.putAll ws).2 c = true ↔ ∃ w ∈ ws, c ∈ w.cells := by
  induction ws generalizing t with
  | nil => simp [Arch.putAll, covered]
  | cons w ws ih =>
    have rest := ih (t.put w)
    rw [covered] at rest
    simp only [Arch.putAll, covered, List.any_cons, Bool.or_eq_true, rest, covers_saveOld,
      List.exists_mem_cons_iff]

/-- The writes of an instruction stay in the cells of its saves. -/
theorem putAll_changedIn (t : Arch) (ws : List Write) :
    ChangedIn Arch.get {c | covered (t.putAll ws).2 c = true} t (t.putAll ws).1 := by
  induction ws generalizing t with
  | nil => exact ChangedIn.refl _ t
  | cons w ws ih =>
    intro c hc
    rw [Set.mem_ofPred_eq, covered_putAll, List.exists_mem_cons_iff, not_or] at hc
    have rest : c ∉ {c | covered ((t.put w).putAll ws).2 c = true} := by
      rw [Set.mem_ofPred_eq, covered_putAll]
      exact hc.2
    exact (ih (t.put w) c rest).trans (put_changedIn t w c hc.1)

theorem get_takeBack (a before : Arch) (saves : List Save) (c : Cell) :
    (a.takeBack before saves).get c = if covered saves c then before.get c else a.get c := by
  cases c <;> simp only [Arch.takeBack, Arch.get] <;> split <;> rfl

theorem restores_takeBack (before : Arch) (saves : List Save) :
    Restores Arch.get before {c | covered saves c = true} fun a => a.takeBack before saves where
  inside a c hc := (get_takeBack a before saves c).trans (if_pos hc)
  outside a c hc := (get_takeBack a before saves c).trans (if_neg hc)

/-- Taking back what an instruction wrote gives the state before it. -/
theorem takeBack_putAll (a : Arch) (ws : List Write) :
    (a.putAll ws).1.takeBack a (a.putAll ws).2 = a :=
  (restores_takeBack a (a.putAll ws).2).undoes Arch.ext_get (putAll_changedIn a ws)

theorem restores_clearZero (a : Arch) :
    Restores Arch.get a.clearZero {.gpr 0} Arch.clearZero := by
  constructor
  · intro b c hc
    simp only [Set.mem_singleton_iff] at hc
    subst hc
    simp [Arch.clearZero, Arch.get, Regs.put]
  · intro b
    exact put_changedIn b (.gpr 0 0)

@[simp] theorem clearZero_clearZero (a : Arch) : a.clearZero.clearZero = a.clearZero := by
  have twice : (fun m : Reg => if m = 0 then 0 else if m = 0 then 0 else a.regs.regsR m) =
      fun m => if m = 0 then 0 else a.regs.regsR m := by
    funext m
    split <;> rfl
  simp only [Arch.clearZero, Regs.put, twice]

/-- Clearing register 0 commutes with taking back an instruction that started with it clear. -/
theorem takeBack_clearZero {before : Arch} (zero : before.clearZero = before) (a : Arch)
    (saves : List Save) :
    a.clearZero.takeBack before saves = (a.takeBack before saves).clearZero :=
  (restores_takeBack before saves).comm Arch.ext_get (restores_clearZero a) zero a

/-- What restoring a save leaves in its cells does not depend on what was there. -/
theorem restore_covers {save : Save} {c : Cell} (covers : save.covers c = true) (a b : Arch) :
    (a.restore save).get c = (b.restore save).get c := by
  cases save with
  | store addr l =>
    cases c with
    | byte x =>
      have near : (x - addr).toNat < Width.word.bytes := of_decide_eq_true covers
      simp only [Arch.restore, Arch.get, writeMem, if_pos near]
    | _ => cases covers
  | dfloat n d =>
    cases c with
    | fpr m =>
      simp only [Save.covers, Bool.or_eq_true, beq_iff_eq] at covers
      simp only [Arch.restore, Arch.get, Regs.put, writeDouble]
      grind
    | _ => cases covers
  | fix n l | sfloat n f | hi l | lo l | fcc l =>
    cases c <;> simp_all [Save.covers, Arch.restore, Arch.get, Regs.put]

theorem restore_outside {save : Save} {c : Cell} (outside : save.covers c = false) (a : Arch) :
    (a.restore save).get c = a.get c := by
  cases save with
  | store addr l =>
    cases c with
    | byte x =>
      have far : ¬ (x - addr).toNat < Width.word.bytes := of_decide_eq_false outside
      simp only [Arch.restore, Arch.get, writeMem, if_neg far]
    | _ => rfl
  | dfloat n d =>
    cases c with
    | fpr m =>
      simp only [Save.covers, Bool.or_eq_false_iff, beq_eq_false_iff_ne] at outside
      simp only [Arch.restore, Arch.get, Regs.put, writeDouble, if_neg outside.1,
        if_neg outside.2]
    | _ => rfl
  | fix n l | sfloat n f | hi l | lo l | fcc l =>
    cases c <;> simp_all [Save.covers, Arch.restore, Arch.get, Regs.put]

theorem restoreAll_outside {saves : List Save} {c : Cell} (outside : covered saves c = false)
    (a : Arch) : (a.restoreAll saves).get c = a.get c := by
  induction saves generalizing a with
  | nil => rfl
  | cons save saves ih =>
    simp only [covered, List.any_cons, Bool.or_eq_false_iff] at outside
    exact (ih outside.2 (a.restore save)).trans (restore_outside outside.1 a)

theorem restoreAll_covered {saves : List Save} {c : Cell} (here : covered saves c = true)
    (a b : Arch) : (a.restoreAll saves).get c = (b.restoreAll saves).get c := by
  induction saves generalizing a b with
  | nil => cases here
  | cons save saves ih =>
    cases later : covered saves c with
    | true => exact ih later (a.restore save) (b.restore save)
    | false =>
      have first : save.covers c = true := by
        rw [covered, List.any_cons, ← covered, later, Bool.or_false] at here
        exact here
      exact (restoreAll_outside later (a.restore save)).trans
        ((restore_covers first a b).trans (restoreAll_outside later (b.restore save)).symm)

/-- What `recover_data` leaves depends on the saves alone. -/
theorem restores_restoreAll (before : Arch) (saves : List Save) :
    Restores Arch.get (before.restoreAll saves) {c | covered saves c = true}
      fun a => a.restoreAll saves where
  inside a _ hc := restoreAll_covered hc a before
  outside a _ hc := restoreAll_outside (Bool.eq_false_of_not_eq_true hc) a

theorem Save.Spoils.covers {before : Arch} {save : Save} {c : Cell} (h : save.Spoils before c) :
    save.covers c = true := by
  cases save with
  | sfloat n f | dfloat n d =>
    obtain ⟨rfl, -⟩ := h
    simp [Save.covers]
  | _ => cases h

/-- A save brings a cell back unless that held a signalling NaN. -/
theorem restore_saveOld_iff {before t : Arch} {w : Write}
    (same : ∀ c ∈ w.cells, t.get c = before.get c) {c : Cell} (hc : c ∈ w.cells) (a : Arch) :
    (a.restore (t.saveOld w)).get c = before.get c ↔ ¬ (t.saveOld w).Spoils before c := by
  cases w with
  | gpr n v =>
    obtain rfl := hc
    simpa [Arch.restore, Arch.saveOld, Save.Spoils, Arch.get, Regs.put] using same _ rfl
  | hi v | lo v | fcc v =>
    obtain rfl := hc
    simpa [Arch.restore, Arch.saveOld, Save.Spoils, Arch.get, Regs.put] using same _ rfl
  | fpr n v =>
    obtain rfl := hc
    have kept : t.regs.regsF n = before.regs.regsF n := BitVec.eq_of_toNat_eq (same _ rfl)
    simp only [Arch.restore, Arch.saveOld, Save.Spoils, Arch.get, Regs.put, if_true,
      quietS_quietS, BitVec.toNat_inj, kept, quietS_eq_iff, true_and, Bool.not_eq_true]
  | fprD n v =>
    have low : t.regs.regsF (n ++ 0#1) = before.regs.regsF (n ++ 0#1) :=
      BitVec.eq_of_toNat_eq (same (.fpr (n ++ 0#1)) (.inl rfl))
    have high : t.regs.regsF (n ++ 1#1) = before.regs.regsF (n ++ 1#1) :=
      BitVec.eq_of_toNat_eq (same (.fpr (n ++ 1#1)) (.inr rfl))
    have double : readDouble t.regs.regsF n = readDouble before.regs.regsF n := by
      rw [readDouble, readDouble, low, high]
    obtain ⟨lowPart, highPart⟩ :=
      append_words (before.regs.regsF (n ++ 1#1)) (before.regs.regsF (n ++ 0#1))
    simp only [Arch.restore, Arch.saveOld, Save.Spoils, Arch.get, Regs.put, quietD_quietD, double,
      writeDouble]
    rcases hc with rfl | rfl
    · have back : (quietD (readDouble before.regs.regsF n)).extractLsb' 0 32 =
          before.regs.regsF (n ++ 0#1) := (quietD_low _).trans lowPart
      have apart : ¬ (Cell.fpr (n ++ 0#1) = .fpr (n ++ 1#1) ∧
          signallingD (readDouble before.regs.regsF n) = true) :=
        fun both => double_halves n (Cell.fpr.inj both.1)
      simp only [if_true, back, apart, not_false_eq_true]
    · have back := quietD_high_iff (readDouble before.regs.regsF n)
      rw [readDouble, highPart, ← readDouble] at back
      simp only [if_neg (double_halves n).symm, if_true, BitVec.toNat_inj, back, true_and,
        Bool.not_eq_true]
  | store w addr v =>
    obtain ⟨x, rfl, near⟩ := hc
    simp only [Arch.restore, Arch.saveOld, Save.Spoils, Arch.get, writeMem_readWord _ _ _ _ near,
      not_false_eq_true, iff_true]
    exact same _ ⟨x, rfl, near⟩

/-- The writes of one instruction touch different cells. -/
def Separate (ws : List Write) : Prop := ws.Pairwise fun v w => Disjoint v.cells w.cells

/-- The saves of separate writes bring back a cell unless one of them spoils it. -/
theorem restoreAll_putAll_iff {ws : List Write} (sep : Separate ws) {before t : Arch}
    (same : ∀ w ∈ ws, ∀ c ∈ w.cells, t.get c = before.get c) {c : Cell}
    (here : covered (t.putAll ws).2 c = true) (a : Arch) :
    (a.restoreAll (t.putAll ws).2).get c = before.get c ↔
      ∀ save ∈ (t.putAll ws).2, ¬ save.Spoils before c := by
  induction ws generalizing a t with
  | nil => cases here
  | cons w ws ih =>
    obtain ⟨apart, sep⟩ := List.pairwise_cons.mp sep
    have kept : ∀ v ∈ ws, ∀ c ∈ v.cells, (t.put w).get c = before.get c := by
      intro v hv c hc
      rw [put_changedIn t w c (Set.disjoint_right.mp (apart v hv) hc)]
      exact same v (List.mem_cons_of_mem _ hv) c hc
    have saves : (t.putAll (w :: ws)).2 = t.saveOld w :: ((t.put w).putAll ws).2 := rfl
    rw [saves, List.forall_mem_cons]
    change ((a.restore (t.saveOld w)).restoreAll ((t.put w).putAll ws).2).get c = _ ↔ _
    cases later : covered ((t.put w).putAll ws).2 c with
    | true =>
      obtain ⟨v, hv, hc⟩ := (covered_putAll (t.put w) ws c).mp later
      have first : ¬ (t.saveOld w).Spoils before c := fun spoils =>
        Set.disjoint_left.mp (apart v hv) ((covers_saveOld t w c).mp spoils.covers) hc
      rw [ih sep kept later]
      exact (and_iff_right first).symm
    | false =>
      have first : c ∈ w.cells := by
        rw [saves, covered, List.any_cons, ← covered, later, Bool.or_false] at here
        exact (covers_saveOld t w c).mp here
      have rest : ∀ save ∈ ((t.put w).putAll ws).2, ¬ save.Spoils before c := by
        intro save hs spoils
        rw [covered, List.any_eq_false] at later
        exact later save hs spoils.covers
      rw [restoreAll_outside later, restore_saveOld_iff (same w List.mem_cons_self) first a]
      exact (and_iff_left rest).symm

end Restore

end Godson.Mips

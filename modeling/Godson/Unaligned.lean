import Godson.Sequential

/-! Unaligned accesses by `SWL` and `SWR` and by `LWL` and `LWR`. Each instruction of a pair
moves the bytes that lie in one of the two words an unaligned word reaches into. -/
namespace Godson.Mips

section Masks

/-- The byte at a position of a word. -/
def byteAt (x : Word) (i : Nat) : Byte := x.extractLsb' (8 * i) 8

theorem byteAt_bit (x : Word) {i j : Nat} (hj : j < 8) :
    (byteAt x i).getLsbD j = x.getLsbD (8 * i + j) := by
  rw [byteAt, BitVec.getLsbD_extractLsb', decide_eq_true hj, Bool.true_and]

theorem byteAt_ext {x y : Word} (h : ∀ i < 4, byteAt x i = byteAt y i) : x = y := by
  refine BitVec.eq_of_getLsbD_eq fun n hn => ?_
  have same := congrArg (fun b => b.getLsbD (n % 8)) (h (n / 8) (by omega))
  simp only [byteAt_bit _ (Nat.mod_lt n (by decide)), Nat.div_add_mod] at same
  exact same

/-- The mask of `m` covers all but the upper `m` bytes. -/
theorem lrMask_bit {m n : Nat} (hm : m ≤ 4) (hn : n < 32) :
    (lrMask m).getLsbD n = decide (n < 8 * (4 - m)) := by
  have table : ∀ m ≤ 4, ∀ n < 32, (lrMask m).getLsbD n = decide (n < 8 * (4 - m)) := by decide
  exact table m hm n hn

/-- Merging under a mask takes whole bytes. -/
theorem byteAt_merge {m i : Nat} (hm : m ≤ 4) (hi : i < 4) (x y : Word) :
    byteAt ((x &&& lrMask m) ||| (y &&& ~~~lrMask m)) i =
      if i < 4 - m then byteAt x i else byteAt y i := by
  refine BitVec.eq_of_getLsbD_eq fun j hj => ?_
  have hn : 8 * i + j < 32 := by omega
  rw [byteAt_bit _ hj, BitVec.getLsbD_or, BitVec.getLsbD_and, BitVec.getLsbD_and,
    BitVec.getLsbD_not, lrMask_bit hm hn, decide_eq_true hn]
  by_cases below : i < 4 - m
  · have : 8 * i + j < 8 * (4 - m) := by omega
    simp [this, below, byteAt_bit _ hj]
  · have : ¬ 8 * i + j < 8 * (4 - m) := by omega
    simp [this, below, byteAt_bit _ hj]

theorem byteAt_shiftLeft {k i : Nat} (hk : k ≤ i) (hi : i < 4) (x : Word) :
    byteAt (x <<< (8 * k)) i = byteAt x (i - k) := by
  refine BitVec.eq_of_getLsbD_eq fun j hj => ?_
  rw [byteAt_bit _ hj, byteAt_bit _ hj, BitVec.getLsbD_shiftLeft, decide_eq_true (by omega),
    decide_eq_false (by omega), show 8 * i + j - 8 * k = 8 * (i - k) + j by omega]
  rfl

theorem byteAt_shiftRight (k i : Nat) (x : Word) :
    byteAt (x >>> (8 * k)) i = byteAt x (i + k) := by
  refine BitVec.eq_of_getLsbD_eq fun j hj => ?_
  rw [byteAt_bit _ hj, byteAt_bit _ hj, BitVec.getLsbD_ushiftRight,
    show 8 * k + (8 * i + j) = 8 * (i + k) + j by omega]

/-- A signed shift moves the same bytes as an unsigned one where no sign is shifted in. -/
theorem byteAt_sshiftRight {k i : Nat} (hi : i + k < 4) (x : Word) :
    byteAt (x.sshiftRight (8 * k)) i = byteAt x (i + k) := by
  refine BitVec.eq_of_getLsbD_eq fun j hj => ?_
  rw [byteAt_bit _ hj, byteAt_bit _ hj, BitVec.getLsbD_sshiftRight, decide_eq_false (by omega),
    if_pos (by omega), show 8 * k + (8 * i + j) = 8 * (i + k) + j by omega]
  rfl

end Masks

section Parts

/-- The address of a part of the unaligned word at `a`: the left part is given by its last
byte, the right part by its first. -/
def partAddr (a : Word) (left : Bool) : Word := if left then a + 3 else a

/-- The word in which the part lies. -/
def partBase (a : Word) (left : Bool) : Word := wordBase (partAddr a left)

/-- A memory with the part of `x` stored at `a`. -/
def storedPart (m : Word → Byte) (a x : Word) (left : Bool) : Word → Byte := fun y =>
  if (y - a).toNat < 4 ∧ (y - partBase a left).toNat < 4 then byteAt x (y - a).toNat else m y

/-- What `SWL` and `SWR` write to the word of their part. -/
def mergeStore (a x w : Word) (left : Bool) : Word :=
  if left then
    let take := lrMask (4 - wrSize (a + 3))
    (x.sshiftRight (8 * (4 - wrSize (a + 3))) &&& take) ||| (w &&& ~~~take)
  else
    let keep := lrMask (wlSize a)
    ((x <<< (8 * (4 - wlSize a))) &&& ~~~keep) ||| (w &&& keep)

/-- What `LWL` and `LWR` write to their destination. -/
def mergeLoad (a old w : Word) (left : Bool) : Word :=
  if left then
    let keep := lrMask (wrSize (a + 3))
    (old &&& keep) ||| ((w <<< (8 * (wlSize (a + 3) - 1))) &&& ~~~keep)
  else
    let take := lrMask (4 - wlSize a)
    (old &&& ~~~take) ||| ((w >>> (8 * (wrSize a - 1))) &&& take)

/-- A byte of the unaligned word that lies in the word of the left part. -/
theorem left_position (a y : Word) : (y - partBase a true).toNat < 4 →
    ((y - a).toNat < 4 ↔ (y - partBase a true).toNat < wrSize (a + 3)) ∧
      ((y - a).toNat < 4 →
        (y - a).toNat = (y - partBase a true).toNat + (4 - wrSize (a + 3))) := by
  have ha := a.isLt
  have hy := y.isLt
  have three : (3 : Word).toNat = 3 := rfl
  simp only [partBase, partAddr, if_true, wrSize, BitVec.toNat_sub, wordBase_toNat,
    BitVec.toNat_add, three]
  omega

/-- A byte of the unaligned word that lies in the word of the right part. -/
theorem right_position (a y : Word) : (y - partBase a false).toNat < 4 →
    ((y - a).toNat < 4 ↔ 4 - wlSize a ≤ (y - partBase a false).toNat) ∧
      ((y - a).toNat < 4 →
        (y - a).toNat = (y - partBase a false).toNat - (4 - wlSize a)) := by
  have ha := a.isLt
  have hy := y.isLt
  simp only [partBase, partAddr, Bool.false_eq_true, if_false, wlSize, BitVec.toNat_sub,
    wordBase_toNat]
  omega

theorem left_index (a : Word) {i : Nat} (hi : i < 4) :
    (a + BitVec.ofNat 32 i - partBase a true).toNat < 4 ↔ 4 - wrSize (a + 3) ≤ i := by
  have ha := a.isLt
  have three : (3 : Word).toNat = 3 := rfl
  simp only [partBase, partAddr, if_true, wrSize, BitVec.toNat_sub, wordBase_toNat,
    BitVec.toNat_add, BitVec.toNat_ofNat, three]
  omega

theorem right_index (a : Word) {i : Nat} (hi : i < 4) :
    (a + BitVec.ofNat 32 i - partBase a false).toNat < 4 ↔ i < wlSize a := by
  have ha := a.isLt
  simp only [partBase, partAddr, Bool.false_eq_true, if_false, wlSize, BitVec.toNat_sub,
    wordBase_toNat, BitVec.toNat_add, BitVec.toNat_ofNat]
  omega

/-- Every byte of the unaligned word lies in the word of one of its parts. -/
theorem parts_cover (a y : Word) (h : (y - a).toNat < 4) (left : Bool) :
    (y - partBase a left).toNat < 4 ∨ (y - partBase a (!left)).toNat < 4 := by
  have ha := a.isLt
  have hy := y.isLt
  have three : (3 : Word).toNat = 3 := rfl
  have both : (y - partBase a true).toNat < 4 ∨ (y - partBase a false).toNat < 4 := by
    simp only [partBase, partAddr, Bool.false_eq_true, if_true, if_false, BitVec.toNat_sub,
      wordBase_toNat, BitVec.toNat_add, three] at h ⊢
    omega
  cases left with
  | true => exact both
  | false => exact both.symm

theorem writeMem_mergeStore (m : Word → Byte) (a x : Word) (left : Bool) :
    writeMem m .word (partBase a left) (mergeStore a x (readWord m (partBase a left)) left) =
      storedPart m a x left := by
  funext y
  rw [writeMem, storedPart]
  by_cases within : (y - partBase a left).toNat < 4
  · have old := readWord_byte m (partBase a left) y within
    rw [if_pos (show (y - partBase a left).toNat < Width.word.bytes from within)]
    change byteAt _ _ = m y at old
    change byteAt _ _ = _
    cases left with
    | true =>
      obtain ⟨inside, position⟩ := left_position a y within
      have size : 1 ≤ wrSize (a + 3) ∧ wrSize (a + 3) ≤ 4 := by rw [wrSize]; omega
      simp only [mergeStore, if_true]
      rw [byteAt_merge (by omega) within]
      by_cases near : (y - a).toNat < 4
      · have below := inside.mp near
        rw [if_pos (by omega), if_pos ⟨near, within⟩, byteAt_sshiftRight (by omega), position near]
      · rw [if_neg (by omega), if_neg (fun h => near h.1), old]
    | false =>
      obtain ⟨inside, position⟩ := right_position a y within
      have size : 1 ≤ wlSize a ∧ wlSize a ≤ 4 := by rw [wlSize]; omega
      simp only [mergeStore, Bool.false_eq_true, if_false]
      rw [BitVec.or_comm, byteAt_merge (by omega) within]
      by_cases near : (y - a).toNat < 4
      · have above := inside.mp near
        rw [if_neg (by omega), if_pos ⟨near, within⟩, byteAt_shiftLeft (by omega) within,
          position near]
      · rw [if_pos (by omega), if_neg (fun h => near h.1), old]
  · rw [if_neg (show ¬ (y - partBase a left).toNat < Width.word.bytes from within),
      if_neg (fun h => within h.2)]

/-- The parts of a store, in either order, make up the whole word. -/
theorem storedPart_both (m : Word → Byte) (a x : Word) (left : Bool) :
    storedPart (storedPart m a x left) a x (!left) = writeMem m .word a x := by
  funext y
  simp only [storedPart, writeMem, Width.bytes]
  by_cases near : (y - a).toNat < 4
  · rcases parts_cover a y near left with within | within
    · simp only [near, within, true_and, if_true, byteAt, ite_self]
    · simp only [near, within, true_and, if_true, byteAt]
  · simp only [near, false_and, if_false]

theorem index_offset (a : Word) {i : Nat} (hi : i < 4) : (a + BitVec.ofNat 32 i - a).toNat = i := by
  rw [BitVec.add_comm, BitVec.add_sub_cancel, BitVec.toNat_ofNat]
  omega

theorem byteAt_mergeLoad (m : Word → Byte) (a old : Word) (left : Bool) {i : Nat} (hi : i < 4) :
    byteAt (mergeLoad a old (readWord m (partBase a left)) left) i =
      if (a + BitVec.ofNat 32 i - partBase a left).toNat < 4 then m (a + BitVec.ofNat 32 i)
      else byteAt old i := by
  have offset := index_offset a hi
  by_cases within : (a + BitVec.ofNat 32 i - partBase a left).toNat < 4
  · have read := readWord_byte m (partBase a left) _ within
    change byteAt _ _ = m _ at read
    rw [if_pos within]
    cases left with
    | true =>
      have position := (left_position a _ within).2 (by omega)
      have size : wlSize (a + 3) - 1 = 4 - wrSize (a + 3) := by rw [wlSize, wrSize]; omega
      have most : 1 ≤ wrSize (a + 3) ∧ wrSize (a + 3) ≤ 4 := by rw [wrSize]; omega
      simp only [mergeLoad, if_true]
      rw [byteAt_merge (by omega) hi, if_neg (by omega), size, byteAt_shiftLeft (by omega) hi,
        ← read]
      exact congrArg _ (by omega)
    | false =>
      have position := (right_position a _ within).2 (by omega)
      have inside := (right_position a _ within).1.mp (by omega)
      have size : wrSize a - 1 = 4 - wlSize a := by rw [wlSize, wrSize]; omega
      have most : 1 ≤ wlSize a ∧ wlSize a ≤ 4 := by rw [wlSize]; omega
      simp only [mergeLoad, Bool.false_eq_true, if_false]
      rw [BitVec.or_comm, byteAt_merge (by omega) hi, if_pos (by omega), size, byteAt_shiftRight,
        ← read]
      exact congrArg _ (by omega)
  · rw [if_neg within]
    cases left with
    | true =>
      have outside := (left_index a hi).not.mp within
      have most : wrSize (a + 3) ≤ 4 := by rw [wrSize]; omega
      simp only [mergeLoad, if_true]
      rw [byteAt_merge (by omega) hi, if_pos (by omega)]
    | false =>
      have outside := (right_index a hi).not.mp within
      have most : wlSize a ≤ 4 := by rw [wlSize]; omega
      simp only [mergeLoad, Bool.false_eq_true, if_false]
      rw [BitVec.or_comm, byteAt_merge (by omega) hi, if_neg (by omega)]

theorem byteAt_readWord (m : Word → Byte) (a : Word) {i : Nat} (hi : i < 4) :
    byteAt (readWord m a) i = m (a + BitVec.ofNat 32 i) := by
  have read := readWord_byte m a (a + BitVec.ofNat 32 i) ((index_offset a hi).symm ▸ hi)
  rwa [index_offset a hi] at read

theorem readWord_writeMem (m : Word → Byte) (a x : Word) :
    readWord (writeMem m .word a x) a = x := by
  refine byteAt_ext fun i hi => ?_
  rw [byteAt_readWord _ a hi, writeMem, index_offset a hi, if_pos (show i < Width.word.bytes from hi)]
  rfl

/-- The parts of a load, in either order, make up the whole word. -/
theorem mergeLoad_both (m : Word → Byte) (a old : Word) (left : Bool) :
    mergeLoad a (mergeLoad a old (readWord m (partBase a left)) left)
      (readWord m (partBase a (!left))) (!left) = readWord m a := by
  refine byteAt_ext fun i hi => ?_
  have near : (a + BitVec.ofNat 32 i - a).toNat < 4 := (index_offset a hi).symm ▸ hi
  rw [byteAt_mergeLoad m _ _ _ hi, byteAt_mergeLoad m _ _ _ hi, byteAt_readWord m a hi]
  rcases parts_cover a _ near left with within | within
  · rw [if_pos within, ite_self]
  · rw [if_pos within]

end Parts

section RoundTrip

/-- One instruction in non-speculative mode, unless it faults. -/
def Arch.execute (fpu : Fpu) (pc : Word) (s : Arch) (i : Op × Word) : Option Arch :=
  let e := impl fpu i.2 pc (archView s.clearZero) i.1
  if e.fault.isSome then none else some (s.clearZero.putAll e.writes).1

/-- The instruction word accesses this part of the unaligned word at `a`. -/
def Reaches (s : Arch) (inst a : Word) (left : Bool) : Prop :=
  memAddr inst (archView s.clearZero) = partAddr a left

def storeOp (left : Bool) : Op := if left then .swl else .swr

def loadOp (left : Bool) : Op := if left then .lwl else .lwr

variable {fpu : Fpu} {pc a inst : Word} {s : Arch} {left : Bool}

theorem read_base (s : Arch) (a : Word) (left : Bool) : (archView s).read .word (partBase a left) =
    .ok (readWord s.mem (partBase a left)) := if_pos (wordBase_aligned _)

theorem impl_storeOp (reaches : Reaches s inst a left) :
    impl fpu inst pc (archView s.clearZero) (storeOp left) = { writes := [.store .word
      (partBase a left) (mergeStore a (s.clearZero.regs.regsR (rt inst))
        (readWord s.mem (partBase a left)) left)] } := by
  have read := read_base s.clearZero a left
  have ok : (archView s.clearZero).writeFault .word (partBase a left) = none :=
    if_pos (wordBase_aligned _)
  rw [Reaches] at reaches
  cases left with
  | true =>
    simp only [storeOp, impl, implCtrl, implMem, if_true, reaches]
    change Effect.load _ _ (partBase a true) _ = _
    rw [Effect.load, read]
    change Effect.store _ _ (partBase a true) _ _ = _
    rw [Effect.store, ok]
    rfl
  | false =>
    simp only [storeOp, impl, implCtrl, implMem, Bool.false_eq_true, if_false, reaches]
    change Effect.load _ _ (partBase a false) _ = _
    rw [Effect.load, read]
    change Effect.store _ _ (partBase a false) _ _ = _
    rw [Effect.store, ok]
    rfl

theorem impl_loadOp (reaches : Reaches s inst a left) :
    impl fpu inst pc (archView s.clearZero) (loadOp left) = .wr (.gpr (rt inst)
      (mergeLoad a (s.clearZero.regs.regsR (rt inst)) (readWord s.mem (partBase a left)) left)) := by
  have read := read_base s.clearZero a left
  rw [Reaches] at reaches
  cases left with
  | true =>
    simp only [loadOp, impl, implCtrl, implMem, if_true, reaches]
    change Effect.load _ _ (partBase a true) _ = _
    rw [Effect.load, read]
    rfl
  | false =>
    simp only [loadOp, impl, implCtrl, implMem, Bool.false_eq_true, if_false, reaches]
    change Effect.load _ _ (partBase a false) _ = _
    rw [Effect.load, read]
    rfl

theorem execute_store (reaches : Reaches s inst a left) :
    s.execute fpu pc (storeOp left, inst) = some { s.clearZero with
      mem := storedPart s.mem a (s.clearZero.regs.regsR (rt inst)) left } := by
  simp only [Arch.execute, impl_storeOp reaches, Option.isSome_none, Bool.false_eq_true, if_false,
    Arch.putAll, Arch.put, if_pos (wordBase_aligned (partAddr a left)), partBase]
  exact congrArg some (congrArg (Arch.mk _) (writeMem_mergeStore s.mem a _ left))

theorem execute_load (reaches : Reaches s inst a left) :
    s.execute fpu pc (loadOp left, inst) = some { s.clearZero with
      regs := s.clearZero.regs.put (.gpr (rt inst)
        (mergeLoad a (s.clearZero.regs.regsR (rt inst)) (readWord s.mem (partBase a left)) left)) } := by
  simp only [Arch.execute, impl_loadOp reaches, Effect.wr, Option.isSome_none, Bool.false_eq_true,
    if_false, Arch.putAll, Arch.put]

theorem clearZero_stored (s : Arch) (m : Word → Byte) :
    ({ s.clearZero with mem := m } : Arch).clearZero = { s.clearZero with mem := m } := by
  have clear := congrArg Arch.regs (clearZero_clearZero s)
  exact congrArg (Arch.mk · m) clear

theorem clearZero_loaded (s : Arch) {d : Reg} (nonzero : d ≠ 0) (x : Word) :
    ({ s.clearZero with regs := s.clearZero.regs.put (.gpr d x) } : Arch).clearZero =
      { s.clearZero with regs := s.clearZero.regs.put (.gpr d x) } := by
  refine Arch.ext_get _ _ fun c => ?_
  cases c with
  | gpr n =>
    by_cases zero : n = 0
    · subst zero
      simp only [Arch.get, Arch.clearZero, Regs.put, nonzero.symm, if_true, if_false]
    · simp only [Arch.get, Arch.clearZero, Regs.put, zero, if_false]
  | _ => rfl

theorem put_again (r : Regs) (d : Reg) (x y : Word) :
    (r.put (.gpr d x)).put (.gpr d y) = r.put (.gpr d y) := by
  refine congrArg (fun f => { r with regsR := f }) (funext fun n => ?_)
  by_cases same : n = d
  · simp only [same, if_true]
  · simp only [same, if_false, Regs.put]

theorem put_regsR (r : Regs) (d : Reg) (x : Word) : (r.put (.gpr d x)).regsR d = x := if_pos rfl

/-- A pair of stores, in either order, changes exactly the four bytes, to the little-endian
value of its register. -/
theorem store_pair {first second x : Word} (one : Reaches s first a left)
    (other : Reaches s second a (!left)) (value : s.clearZero.regs.regsR (rt first) = x)
    (value' : s.clearZero.regs.regsR (rt second) = x) :
    (s.execute fpu pc (storeOp left, first)).bind
      (fun t => t.execute fpu pc (storeOp (!left), second)) =
      some { s.clearZero with mem := writeMem s.mem .word a x } := by
  have clear := clearZero_stored s (storedPart s.mem a x left)
  have reaches : Reaches { s.clearZero with mem := storedPart s.mem a x left } second a (!left) := by
    rw [Reaches, clear]
    exact other
  rw [execute_store one, value, Option.bind_some, execute_store reaches, clear]
  refine congrArg some (congrArg (Arch.mk _) ?_)
  change storedPart (storedPart s.mem a x left) a (s.clearZero.regs.regsR (rt second)) (!left) = _
  rw [value', storedPart_both]

/-- A pair of loads, in either order, leaves the unaligned word in its register. -/
theorem load_pair {first second : Word} (one : Reaches s first a left)
    (other : ∀ t, s.execute fpu pc (loadOp left, first) = some t → Reaches t second a (!left))
    (same : rt second = rt first) (nonzero : rt first ≠ 0) :
    (s.execute fpu pc (loadOp left, first)).bind
      (fun t => t.execute fpu pc (loadOp (!left), second)) =
      some { s.clearZero with
        regs := s.clearZero.regs.put (.gpr (rt first) (readWord s.mem a)) } := by
  have reaches := other _ (execute_load one)
  rw [execute_load one, Option.bind_some, execute_load reaches, clearZero_loaded s nonzero, same]
  change some (Arch.mk ((s.clearZero.regs.put (.gpr (rt first) _)).put (.gpr (rt first)
    (mergeLoad a ((s.clearZero.regs.put (.gpr (rt first) _)).regsR (rt first))
      (readWord s.mem (partBase a (!left))) (!left)))) s.mem) = _
  rw [put_again, put_regsR, mergeLoad_both]
  rfl

/-- A value stored by a pair changes the four bytes at its address only, and a pair that
loads from there afterwards leaves the value in its register, whatever that held. The pairs
run in either order, and the second load computes its address behind the first. -/
theorem unaligned_round_trip (fpu : Fpu) (pc a x : Word) (s : Arch) (left : Bool)
    (first second : Word) (one : Reaches s first a left) (other : Reaches s second a (!left))
    (value : s.clearZero.regs.regsR (rt first) = x)
    (value' : s.clearZero.regs.regsR (rt second) = x) :
    ∃ stored : Arch, (s.execute fpu pc (storeOp left, first)).bind
        (fun t => t.execute fpu pc (storeOp (!left), second)) = some stored ∧
      stored.regs = s.clearZero.regs ∧
      (∀ y, stored.mem y = if (y - a).toNat < 4 then byteAt x (y - a).toNat else s.mem y) ∧
      ∀ (u : Arch) (order : Bool) (third fourth : Word), u.mem = stored.mem →
        Reaches u third a order →
        (∀ t, u.execute fpu pc (loadOp order, third) = some t → Reaches t fourth a (!order)) →
        rt fourth = rt third → rt third ≠ 0 →
        ∃ loaded : Arch, (u.execute fpu pc (loadOp order, third)).bind
            (fun t => t.execute fpu pc (loadOp (!order), fourth)) = some loaded ∧
          loaded.regs = u.clearZero.regs.put (.gpr (rt third) x) ∧ loaded.mem = u.mem := by
  refine ⟨_, store_pair one other value value', rfl, fun y => rfl, ?_⟩
  intro u order third fourth mem reaches next same nonzero
  have loads := load_pair reaches next same nonzero
  rw [mem, readWord_writeMem] at loads
  exact ⟨_, loads, rfl, rfl⟩

/-- Register 1 holds an address that is not aligned, register 2 a value. -/
def unalignedSample : Arch where
  regs := { regsR := fun r => if r = 1 then 0x1001 else if r = 2 then 0x11223344 else 0 }

/-- `swl $2,3($1)` and `swr $2,0($1)`, then `lwr $3,0($1)` and `lwl $3,3($1)`. -/
theorem unaligned_sample : ∃ stored loaded : Arch,
    (unalignedSample.execute noFpu 0 (storeOp true, 0xa8220003)).bind
      (fun t => t.execute noFpu 0 (storeOp false, 0xb8220000)) = some stored ∧
    (Arch.execute noFpu 0 { unalignedSample with mem := stored.mem }
      (loadOp false, 0x98230000)).bind
      (fun t => t.execute noFpu 0 (loadOp true, 0x88230003)) = some loaded ∧
    loaded.regs.regsR 3 = 0x11223344 := by
  obtain ⟨stored, stores, -, -, loads⟩ := unaligned_round_trip noFpu 0 0x1001 0x11223344
    unalignedSample true 0xa8220003 0xb8220000 (by rw [Reaches]; decide) (by rw [Reaches]; decide)
    (by decide) (by decide)
  have right : Reaches { unalignedSample with mem := stored.mem } 0x98230000 0x1001 false := by
    rfl
  obtain ⟨loaded, runs, regs, -⟩ := loads { unalignedSample with mem := stored.mem } false
    0x98230000 0x88230003 rfl right
    (fun t ht => by
      rw [execute_load right] at ht
      cases ht
      rfl)
    (by decide) (by decide)
  refine ⟨stored, loaded, stores, runs, ?_⟩
  rw [regs]
  rfl

end RoundTrip

end Godson.Mips

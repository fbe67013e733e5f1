import Godson.QueueHistory
import Godson.QueueStructure

/-! Stores and loads of one core: what a store that passes its tag compare does to the younger
loads, and where the bytes of a load come from. -/
namespace Godson

open LsqPart

variable {cfg : Config} {k n d e : Nat} {c c' : Cpu} {i j b : Nat}

/-! ### Accessed bytes -/

/-- The bytes of memory an operation at `addr` accesses. -/
def MemOp.Accesses (op : MemOp) (addr x : Nat) : Prop :=
  match op with
  | .sb | .lb | .lbu => x = addr
  | .sh | .lh | .lhu => addr ≤ x ∧ x < addr + 2
  | .sw | .sc | .ll | .lw | .lwc1 | .swc1 => addr ≤ x ∧ x < addr + 4
  | .swl | .lwl => addr / 4 * 4 ≤ x ∧ x ≤ addr
  | .lwr | .swr => addr ≤ x ∧ x < addr / 4 * 4 + 4
  | .ldc1 | .sdc1 => addr / 8 * 8 ≤ x ∧ x < addr / 8 * 8 + 8
  | .mtc1 | .mfc1 | .dmtc1 | .dmfc1 | .ctc1 | .cfc1 => False

instance (op : MemOp) (addr x : Nat) : Decidable (op.Accesses addr x) := by
  cases op <;> unfold MemOp.Accesses <;> infer_instance

/-- Within its double word an operation accesses the bytes of its mask. -/
theorem getBytemask_spec (op : MemOp) (addr : Nat) {b : Nat} (hb : b < 8) :
    (getBytemask op (addr % 8)).getLsbD b = true ↔ op.Accesses addr (addr / 8 * 8 + b) := by
  have table : ∀ offset < 8, ∀ b < 8,
      (getBytemask op offset).getLsbD b = true ↔ op.Accesses offset b := by
    cases op <;> decide
  rw [table (addr % 8) (Nat.mod_lt _ (by decide)) b hb]
  cases op <;> simp only [MemOp.Accesses] <;> omega

/-! ### The scan of a store -/

theorem full_mask (hb : b < 8) : (0xff : BitVec 8).getLsbD b = true := by
  have all : ∀ b < 8, (0xff : BitVec 8).getLsbD b = true := by decide
  exact all b hb

theorem LsqEntry.Scanned.loadMatch {l l' x x' : LsqEntry} (h : l.Scanned l') (hx : x.Scanned x') :
    Godson.loadMatch l' x' = Godson.loadMatch l x := by
  simp only [Godson.loadMatch, LsqEntry.opLoad, hx.op, hx.state, h.paddr, hx.paddr]

theorem LsqEntry.Scanned.storeMatch {l l' x x' : LsqEntry} (h : l.Scanned l') (hx : x.Scanned x') :
    Godson.storeMatch l' x' = Godson.storeMatch l x := by
  simp only [Godson.storeMatch, LsqEntry.opStore, hx.op, hx.state, h.paddr, hx.paddr]

/-- The load has written back, or its writeback is under way. -/
def Cpu.Written (c : Cpu) (j : Nat) : Prop :=
  (c.lsq j).state = .writeback ∨ c.lsqWtbki = some j

theorem Cpu.Swept.written (h : c.Swept c') (hj : c.Written j) : c'.Written j := by
  unfold Cpu.Written
  rw [(h.entry j).state, h.rest]
  exact hj

theorem Cpu.Swept.loadMatch (h : c.Swept c') (i j : Nat) :
    Godson.loadMatch (c'.lsq i) (c'.lsq j) = Godson.loadMatch (c.lsq i) (c.lsq j) :=
  (h.entry i).loadMatch (h.entry j)

theorem Cpu.Swept.storeMatch (h : c.Swept c') (i j : Nat) :
    Godson.storeMatch (c'.lsq i) (c'.lsq j) = Godson.storeMatch (c.lsq i) (c.lsq j) :=
  (h.entry i).storeMatch (h.entry j)

theorem getLsbD_and_not {x y : BitVec 8} {b : Nat} (hx : x.getLsbD b = true)
    (hy : y.getLsbD b = false) : (x &&& ~~~y).getLsbD b = true := by
  have hb : b < 8 := BitVec.lt_of_getLsbD hx
  simp only [BitVec.getLsbD_and, BitVec.getLsbD_not, hx, hy, hb, decide_true, Bool.not_false,
    Bool.and_self]

/-- A younger entry that is no store of byte `b` lets it through. -/
theorem forwardStep_passes {bytemask : BitVec 8} {st : Cpu × BitVec 8}
    (free : st.2.getLsbD b = true)
    (other : Godson.storeMatch (st.1.lsq i) (st.1.lsq j) → (st.1.lsq j).bytemask.getLsbD b = false) :
    (forwardStep i bytemask st j).2.getLsbD b = true := by
  obtain ⟨c, nf⟩ := st
  simp only [forwardStep]
  split
  · exact free
  · dsimp only
    split
    · rename_i store
      refine getLsbD_and_not free ?_
      simp only [BitVec.getLsbD_and, other store, Bool.false_and]
    · exact free

/-- The store marks a load that has already written back one of its bytes. -/
theorem forwardStep_marks {bytemask : BitVec 8} {st : Cpu × BitVec 8}
    (free : st.2.getLsbD b = true) (stored : bytemask.getLsbD b = true)
    (loaded : (st.1.lsq j).bytemask.getLsbD b = true)
    (load : Godson.loadMatch (st.1.lsq i) (st.1.lsq j)) (written : st.1.Written j) :
    ((forwardStep i bytemask st j).1.lsq j).ex := by
  obtain ⟨c, nf⟩ := st
  have overlap : (c.lsq j).bytemask &&& bytemask &&& nf ≠ 0 := by
    intro none
    have bit := congrArg (fun m : BitVec 8 => m.getLsbD b) none
    simp [loaded, stored, free] at bit
  simp only [forwardStep]
  rw [if_neg overlap, if_pos load]
  obtain state | selected := written
  · simp [Cpu.modLsq, show (c.lsq j).state = .writeback from state]
  · simp [Cpu.modLsq, show c.lsqWtbki = some j from selected]

/-- The whole scan marks it if no store in between covers the byte. -/
theorem forward_marks {bytemask : BitVec 8} {front rest : List Nat} {st : Cpu × BitVec 8}
    (free : st.2.getLsbD b = true) (stored : bytemask.getLsbD b = true)
    (loaded : (st.1.lsq j).bytemask.getLsbD b = true)
    (load : Godson.loadMatch (st.1.lsq i) (st.1.lsq j)) (written : st.1.Written j)
    (between : ∀ m ∈ front, Godson.storeMatch (st.1.lsq i) (st.1.lsq m) →
      (st.1.lsq m).bytemask.getLsbD b = false) :
    (((front ++ j :: rest).foldl (forwardStep i bytemask) st).1.lsq j).ex := by
  induction front generalizing st with
  | nil =>
    have marked := forwardStep_marks free stored loaded load written
    exact ((swept_forward i bytemask rest (forwardStep i bytemask st j)).entry j).ex marked
  | cons m front ih =>
    have swept := swept_forwardStep i bytemask st m
    refine ih (forwardStep_passes free (between m List.mem_cons_self)) ?_ ?_ (swept.written written) ?_
    · rw [(swept.entry j).bytemask]
      exact loaded
    · rw [swept.loadMatch]
      exact load
    · intro m' hm'
      rw [swept.storeMatch, (swept.entry m').bytemask]
      exact between m' (List.mem_cons_of_mem _ hm')

/-- A byte the scan makes ready is one of the store's. -/
theorem forward_ready {bytemask : BitVec 8} {l : List Nat} {st : Cpu × BitVec 8}
    (ready : (((l.foldl (forwardStep i bytemask) st).1.lsq j).byterdy).getLsbD b = true) :
    (st.1.lsq j).byterdy.getLsbD b = true ∨
      (Godson.loadMatch (st.1.lsq i) (st.1.lsq j) ∧ bytemask.getLsbD b = true ∧ j ∈ l) := by
  induction l generalizing st with
  | nil => exact .inl ready
  | cons m l ih =>
    have swept := swept_forwardStep i bytemask st m
    obtain before | ⟨load, stored, mem⟩ := ih ready
    · obtain ⟨c, nf⟩ := st
      simp only [forwardStep] at before
      split at before
      · exact .inl before
      · dsimp only at before
        split at before
        · rename_i load
          by_cases hj : j = m
          · subst hj
            simp only [Cpu.modLsq, Function.update_self, BitVec.getLsbD_or, BitVec.getLsbD_and,
              Bool.or_eq_true, Bool.and_eq_true] at before
            obtain old | ⟨⟨-, stored⟩, -⟩ := before
            · exact .inl old
            · exact .inr ⟨load, stored, List.mem_cons_self⟩
          · simp only [Cpu.modLsq, Function.update_of_ne hj] at before
            exact .inl before
        · exact .inl before
    · rw [swept.loadMatch] at load
      exact .inr ⟨load, stored, List.mem_cons_of_mem _ mem⟩

/-- A byte the search of a load finds covered is one of an older store. -/
theorem notFound_covered {bytemask : BitVec 8} {l : List Nat} {nf : BitVec 8} (hb : b < 8)
    (covered : (l.foldl (fun nf j =>
      let m := (c.lsq j).bytemask &&& bytemask &&& nf
      if m ≠ 0 ∧ Godson.storeMatch (c.lsq i) (c.lsq j) then nf &&& ~~~m else nf) nf).getLsbD b = false) :
    nf.getLsbD b = false ∨
      ∃ j ∈ l, Godson.storeMatch (c.lsq i) (c.lsq j) ∧ (c.lsq j).bytemask.getLsbD b = true := by
  induction l generalizing nf with
  | nil => exact .inl covered
  | cons j l ih =>
    obtain before | ⟨m, mem, store, stored⟩ := ih covered
    · dsimp only at before
      split at before
      · rename_i found
        cases stored : (c.lsq j).bytemask.getLsbD b with
        | true => exact .inr ⟨j, List.mem_cons_self, found.2, stored⟩
        | false =>
          refine .inl ?_
          simpa only [BitVec.getLsbD_and, BitVec.getLsbD_not, stored, Bool.false_and, hb,
            decide_true, Bool.not_false, Bool.and_true] using before
      · exact .inl before
    · exact .inr ⟨m, List.mem_cons_of_mem _ mem, store, stored⟩

/-! ### The tag compare -/

theorem compareEnter_other (hj : j ≠ i) : (compareEnter i c).lsq j = c.lsq j := by
  simp only [compareEnter, Cpu.modLsq, Function.update_of_ne hj]

theorem compareEnter_written (store : (c.lsq i).opStore) (hj : j ≠ i) (written : c.Written j) :
    (compareEnter i c).Written j := by
  have select : (compareEnter i c).lsqWtbki = c.lsqWtbki := by
    have load : ((c.modLsq i LsqEntry.atCompare).lsq i).opLoad = false := by
      simp only [Cpu.modLsq, Function.update_self]
      exact store_not_load store
    simp only [compareEnter, load, Bool.false_eq_true, false_and, if_false]
    rfl
  unfold Cpu.Written
  rw [compareEnter_other hj, select]
  exact written

/-- The scan of a younger entry by its place in the queue. -/
theorem LsqPart.Before.split {q : LsqPart} (h : q.Before n i j) (hs : q.Shape n d e) :
    ∃ front rest, ringAfter n i q.tail = front ++ j :: rest ∧
      ∀ m ∈ front, q.Before n i m ∧ q.Before n m j := by
  obtain ⟨a, b, hab, hb, rfl, rfl⟩ := h
  have list : List.range (q.num - a - 1) =
      List.range (b - a - 1) ++ (b - a - 1) :: (List.range (q.num - b - 1)).map (b - a + ·) := by
    have cut : q.num - a - 1 = (b - a - 1) + (1 + (q.num - b - 1)) := by omega
    rw [cut, List.range_add, List.range_add]
    simp only [List.range_one, List.map_cons, List.map_map, List.singleton_append, Nat.add_zero]
    congr 2
    refine List.map_congr_left fun x _ => ?_
    simp only [Function.comp_apply]
    omega
  rw [hs.tail_eq, ringAfter_slot hs.head1_lt (by omega) hs.num_le, list, List.map_append, List.map_cons,
    show a + 1 + (b - a - 1) = b by omega]
  refine ⟨_, _, rfl, fun m hm => ?_⟩
  obtain ⟨x, hx, rfl⟩ := List.mem_map.mp hm
  have hx := List.mem_range.mp hx
  exact ⟨⟨a, a + 1 + x, by omega, by omega, rfl, rfl⟩, ⟨a + 1 + x, b, by omega, hb, rfl, rfl⟩⟩

theorem LsqPart.Before.ne {q : LsqPart} (h : q.Before n i j) (hs : q.Shape n d e) : j ≠ i := by
  obtain ⟨a, b, hab, hb, rfl, rfl⟩ := h
  have := hs.num_le
  rw [Ne, slot_inj (by omega) (by omega)]
  omega

/-- A store at its tag compare marks every younger load that has written back a byte of it,
unless a store in between covers the byte. -/
theorem compare_marks (hs : c.lsqPart.Shape cfg.lsqIfqSize d e) (store : (c.lsq i).opStore)
    (before : c.lsqPart.Before cfg.lsqIfqSize i j)
    (load : loadMatch (c.lsq i) (c.lsq j)) (written : c.Written j)
    (stored : (getBytemask (c.lsq i).op ((c.lsq i).addr % 8)).getLsbD b = true)
    (loaded : (c.lsq j).bytemask.getLsbD b = true)
    (between : ∀ m, c.lsqPart.Before cfg.lsqIfqSize i m → c.lsqPart.Before cfg.lsqIfqSize m j →
      storeMatch (c.lsq i) (c.lsq m) → (c.lsq m).bytemask.getLsbD b = false) :
    ((dtagcmpOp cfg i c).lsq j).ex := by
  have hj := before.ne hs
  obtain ⟨front, rest, split, order⟩ := before.split hs
  have split : ringAfter cfg.lsqIfqSize i (compareEnter i c).lsqTail = front ++ j :: rest := split
  have same : loadMatch ((compareEnter i c).lsq i) ((compareEnter i c).lsq j) =
      loadMatch (c.lsq i) (c.lsq j) := by
    rw [compareEnter_lsq, compareEnter_other hj]
    rfl
  have mask : ((compareEnter i c).lsq i).bytemask = getBytemask (c.lsq i).op ((c.lsq i).addr % 8) := by
    rw [compareEnter_lsq]
    rfl
  have marked : (((front ++ j :: rest).foldl (forwardStep i ((compareEnter i c).lsq i).bytemask)
      (compareEnter i c, 0xff)).1.lsq j).ex := by
    apply forward_marks (full_mask (BitVec.lt_of_getLsbD stored))
    · rw [mask]
      exact stored
    · rw [compareEnter_other hj]
      exact loaded
    · rw [same]
      exact load
    · exact compareEnter_written store hj written
    · intro m hm store'
      have hm' := (order m hm).1.ne hs
      rw [compareEnter_other hm'] at store' ⊢
      refine between m (order m hm).1 (order m hm).2 ?_
      rw [← store', compareEnter_lsq]
      rfl
  rw [dtagcmpOp_eq, if_neg (by simp [store_not_load store]), if_pos store]
  simp only [compareStore, split, Cpu.modLsq, Function.update_of_ne hj]
  exact marked

/-! ### Where the bytes of a load come from -/

theorem compareLoad_other (hj : j ≠ i) :
    ((compareLoad cfg i c).lsq j).byterdy = (c.lsq j).byterdy := by
  simp only [compareLoad, Cpu.modLsq, Function.update_of_ne hj]
  split
  · rename_i m _
    by_cases hm : j = m
    · subst hm
      simp
    · simp [hm]
  · rfl

theorem compareLoad_self : ((compareLoad cfg i c).lsq i).byterdy =
    if (c.lsq i).blk.isSome then 0xff
    else ~~~(c.lsq i).bytemask ||| ~~~notFoundMask cfg c i (c.lsq i).bytemask := by
  simp only [compareLoad, Cpu.modLsq, Function.update_self]
  split
  · rename_i m _
    by_cases hm : i = m
    · subst hm
      simp
    · simp [hm]
  · rfl

/-- A load at its tag compare hits or finds an older store for the byte. -/
theorem compareLoad_ready (accessed : (c.lsq i).bytemask.getLsbD b = true)
    (ready : ((compareLoad cfg i c).lsq i).byterdy.getLsbD b = true) :
    (c.lsq i).blk.isSome ∨ ∃ m ∈ ringBefore cfg.lsqIfqSize i c.lsqHead1,
      storeMatch (c.lsq i) (c.lsq m) ∧ (c.lsq m).bytemask.getLsbD b = true := by
  have hb := BitVec.lt_of_getLsbD accessed
  rw [compareLoad_self] at ready
  split at ready
  · rename_i hit
    exact .inl hit
  · simp only [BitVec.getLsbD_or, BitVec.getLsbD_not, accessed, hb, decide_true, Bool.not_true,
      Bool.and_false, Bool.true_and, Bool.false_or, Bool.not_eq_true'] at ready
    obtain none | found := notFound_covered hb ready
    · rw [full_mask hb] at none
      cases none
    · exact .inr found

/-- A store at its tag compare only touches the loads that match it. -/
theorem compareStore_ready (hj : j ≠ i)
    (ready : ((compareStore cfg i c).lsq j).byterdy.getLsbD b = true) :
    (c.lsq j).byterdy.getLsbD b = true ∨ (loadMatch (c.lsq i) (c.lsq j) ∧
      (c.lsq i).bytemask.getLsbD b = true ∧ j ∈ ringAfter cfg.lsqIfqSize i c.lsqTail) := by
  simp only [compareStore, Cpu.modLsq, Function.update_of_ne hj] at ready
  exact forward_ready ready

/-- What makes byte `b` of load `j` ready in a step: an older store that has passed its tag
compare and covers it, a cache hit, or the refill of its double word. -/
inductive Cpu.Supplies (cfg : Config) (place : Option (Phase × Locals)) (c c' : Cpu) (j b : Nat) : Prop
  | store (i : Nat) (before : c'.lsqPart.Before cfg.lsqIfqSize i j)
      (covers : storeMatch (c'.lsq j) (c'.lsq i)) (stored : (c'.lsq i).bytemask.getLsbD b = true)
  | hit (turn : c.Compares place j) (hit : (c.lsq j).blk.isSome)
  | refill (p : RefillPacket) (now : AtCompare place) (at_p : c.lsqDtagcmpRefill = some p)
      (data : p.replace = false ∧ p.intervention = false) (dword : dwordMatch (c.lsq j).paddr p.paddr)

theorem LsqPart.Shape.before_of_mem {q : LsqPart} (hs : q.Shape n d e)
    (live : (q.entry j).state ≠ .empty) (mem : i ∈ ringBefore n j q.head1) : q.Before n i j := by
  obtain ⟨p, hp, rfl⟩ := hs.exists_nth live
  obtain ⟨m, hm, rfl⟩ := (mem_ringBefore hs.head1_lt (lt_of_lt_of_le hp hs.num_le)).mp mem
  exact ⟨m, p, hm, hp, rfl, rfl⟩

theorem LsqPart.Shape.before_of_mem_after {q : LsqPart} (hs : q.Shape n d e)
    (live : (q.entry i).state ≠ .empty) (mem : j ∈ ringAfter n i q.tail) : q.Before n i j := by
  obtain ⟨p, hp, rfl⟩ := hs.exists_nth live
  rw [hs.tail_eq, ringAfter_slot hs.head1_lt hp hs.num_le] at mem
  obtain ⟨x, hx, rfl⟩ := List.mem_map.mp mem
  have hx := List.mem_range.mp hx
  exact ⟨p, p + 1 + x, by omega, by omega, rfl, rfl⟩

theorem storeMatch_of_loadMatch {l x : LsqEntry} (h : loadMatch l x) (store : l.opStore)
    (compared : l.state.compared) : storeMatch x l := by
  simp only [loadMatch, Bool.and_eq_true] at h
  have dword : l.paddr / 8 = x.paddr / 8 := by simpa [dwordMatch] using h.2
  simp [storeMatch, store, compared, dwordMatch, dword]

variable {place place' : Option (Phase × Locals)}

/-- The tag compare of an operation makes a byte of a load ready. -/
theorem supplies_op (turn : c.Compares place i) (inv : c.lsqPart.Invariant cfg.lsqIfqSize place)
    (load : (c.lsq j).opLoad) (accessed : ((dtagcmpOp cfg i c).lsq j).bytemask.getLsbD b = true)
    (ready : ((dtagcmpOp cfg i c).lsq j).byterdy.getLsbD b = true) :
    j ≠ i ∧ (c.lsq j).byterdy.getLsbD b = true ∨
      c.Supplies cfg place (dtagcmpOp cfg i c) j b := by
  obtain ⟨⟨⟨d, e, hs⟩, hr⟩, -⟩ := inv
  have livei : (c.lsqPart.entry i).state ≠ .empty := by
    rw [(hr.dtagcmp i).mp turn.names]
    decide
  have swept : (compareEnter i c).Swept (dtagcmpOp cfg i c) := swept_dtagcmpOp i c
  have order : ∀ {x y}, c.lsqPart.Before cfg.lsqIfqSize x y →
      (dtagcmpOp cfg i c).lsqPart.Before cfg.lsqIfqSize x y := by
    intro x y h
    obtain ⟨entry, wtbki, spec, -, -⟩ := lsqPart_dtagcmpOp cfg i c
    rw [spec]
    exact h
  rw [(swept.entry j).bytemask] at accessed
  by_cases hj : j = i
  · subst hj
    have hload : ((compareEnter j c).lsq j).opLoad := by
      rw [compareEnter_lsq]
      exact load
    rw [dtagcmpOp_eq, if_pos load] at ready
    obtain hit | ⟨m, mem, covers, stored⟩ := compareLoad_ready accessed ready
    · rw [compareEnter_lsq] at hit
      exact .inr (.hit turn hit)
    · refine .inr (.store m (order (hs.before_of_mem livei mem)) ?_ ?_)
      · rw [swept.storeMatch]
        exact covers
      · rw [(swept.entry m).bytemask]
        exact stored
  · have other : (compareEnter i c).lsq j = c.lsq j := compareEnter_other hj
    rw [dtagcmpOp_eq] at ready
    split at ready
    · rw [compareLoad_other hj, other] at ready
      exact .inl ⟨hj, ready⟩
    · split at ready
      · rename_i store
        obtain old | ⟨covers, stored, mem⟩ := compareStore_ready hj ready
        · rw [other] at old
          exact .inl ⟨hj, old⟩
        · refine .inr (.store i (order (hs.before_of_mem_after livei mem)) ?_ ?_)
          · rw [swept.storeMatch]
            refine storeMatch_of_loadMatch covers ?_ ?_
            · rw [compareEnter_lsq]
              exact store
            · rw [compareEnter_lsq]
              rfl
          · rw [(swept.entry i).bytemask]
            exact stored
      · simp only [Cpu.modLsq, Function.update_of_ne hj, other] at ready
        exact .inl ⟨hj, ready⟩

/-- A packet at the tag compare makes a byte of a load ready. -/
theorem scan_ready {p : RefillPacket} {l : LsqEntry} (load : l.opLoad)
    (accessed : l.bytemask.getLsbD b = true) (ready : (p.scan c l).byterdy.getLsbD b = true) :
    l.byterdy.getLsbD b = true ∨
      (p.replace = false ∧ p.intervention = false) ∧ dwordMatch l.paddr p.paddr := by
  have store := load_not_store load
  have mispec : ∀ paddr, (l.mispec paddr).byterdy = l.byterdy := by
    intro paddr
    unfold LsqEntry.mispec
    split <;> rfl
  have reset : ∀ req, (l.reset req).byterdy.getLsbD b = false := by
    intro req
    simp only [LsqEntry.reset, BitVec.getLsbD_not, accessed, Bool.not_true, Bool.and_false]
  unfold RefillPacket.scan at ready
  split at ready
  · rw [LsqEntry.onReplace, if_neg (by simp [store]), mispec] at ready
    exact .inl ready
  · rename_i replace
    split at ready
    · rw [LsqEntry.onIntervention, if_neg (by simp [store])] at ready
      split at ready
      · rw [reset] at ready
        cases ready
      · rw [mispec] at ready
        exact .inl ready
    · rename_i intervention
      unfold LsqEntry.onRefill at ready
      split at ready
      · rename_i match_
        simp only [LsqEntry.refillMatch, Bool.and_eq_true] at match_
        exact .inr ⟨⟨by simpa using replace, by simpa using intervention⟩, match_.2⟩
      · exact .inl ready

/-- Every byte of a load that is ready was so before or is supplied by the step. -/
theorem ready_step (h : LsqStep cfg k place c place' c')
    (inv : c.lsqPart.Invariant cfg.lsqIfqSize place) (load : (c'.lsq j).opLoad)
    (compared : (c'.lsq j).state.compared) (accessed : (c'.lsq j).bytemask.getLsbD b = true)
    (ready : (c'.lsq j).byterdy.getLsbD b = true) :
    (c.lsq j).state.compared ∧ (c.lsq j).byterdy.getLsbD b = true ∨ c.Supplies cfg place c' j b := by
  have moves := moves_step h inv j
  by_cases now : AtCompare place
  · obtain ⟨p, at_p, spec⟩ | ⟨i, idle, at_i, rfl⟩ | ⟨-, -, rfl⟩ := dtagcmp_cases (compare_step h now)
    · have entry := congrFun (congrArg LsqPart.entry spec) j
      simp only [Cpu.scanned] at entry
      split at entry
      · have scanned := p.scanned c (c.lsq j)
        have op : (c'.lsq j).op = (c.lsq j).op := (congrArg LsqEntry.op entry).trans scanned.op
        have state := (congrArg LsqEntry.state entry).trans scanned.state
        have mask := (congrArg LsqEntry.bytemask entry).trans scanned.bytemask
        have bytes := congrArg LsqEntry.byterdy entry
        rw [LsqEntry.opLoad, op] at load
        rw [show (c'.lsq j).bytemask = (c.lsq j).bytemask from mask] at accessed
        rw [show (c'.lsq j).state = (c.lsq j).state from state] at compared
        rw [show (c'.lsq j).byterdy = (p.scan c (c.lsq j)).byterdy from bytes] at ready
        obtain old | ⟨data, dword⟩ := scan_ready load accessed ready
        · exact .inl ⟨compared, old⟩
        · exact .inr (.refill p now at_p data dword)
      · have state := congrArg LsqEntry.state entry
        have bytes := congrArg LsqEntry.byterdy entry
        rw [show (c'.lsq j).state = (c.lsq j).state from state] at compared
        rw [show (c'.lsq j).byterdy = (c.lsq j).byterdy from bytes] at ready
        exact .inl ⟨compared, ready⟩
    · have swept : (compareEnter i c).Swept (dtagcmpOp cfg i c) := swept_dtagcmpOp i c
      have op : ((dtagcmpOp cfg i c).lsq j).op = (c.lsq j).op := by
        rw [(swept.entry j).op]
        by_cases hj : j = i
        · rw [hj, compareEnter_lsq]
          rfl
        · rw [compareEnter_other hj]
      rw [LsqEntry.opLoad, op] at load
      obtain ⟨hj, old⟩ | supplied := supplies_op ⟨now, idle, at_i⟩ inv load accessed ready
      · obtain before | turn := moves.compared compared
        · exact .inl ⟨before, old⟩
        · exact absurd (Option.some.inj (turn.names.symm.trans at_i)) hj
      · exact .inr supplied
    · exact .inl ⟨compared, ready⟩
  · obtain before | turn := moves.compared compared
    · have bytes : (c'.lsqPart.entry j).byterdy = (c.lsqPart.entry j).byterdy := by
        cases moves with
        | keep same => rw [same]
        | advance rest => rw [rest]
        | probe old => rw [old] at before; cases before
        | scan here => exact absurd here now
        | compare turn => exact absurd turn.place now
        | leave empty => rw [show (c'.lsq j).state = .empty from empty] at compared; cases compared
        | enter _ new => rw [show (c'.lsq j).state = .enter from new] at compared; cases compared
      rw [show (c'.lsq j).byterdy = (c.lsq j).byterdy from bytes] at ready
      exact .inl ⟨before, ready⟩
    · exact absurd turn.place now

/-- The mask of an entry that has passed its tag compare is that of its operation. -/
def LsqEntry.Masked (l : LsqEntry) : Prop :=
  l.state.compared → l.bytemask = getBytemask l.op (l.addr % 8)

theorem LsqEntry.Moves.masked {scan now : Prop} {l l' : LsqEntry} (h : l.Moves scan now l')
    (old : l.Masked) : l'.Masked := by
  intro compared
  have before := h.compared compared
  cases h with
  | keep same => rw [same] at compared ⊢; exact old compared
  | advance rest next =>
    rw [rest]
    generalize hl : l.state = a at next
    generalize l'.state = a' at next compared
    cases next with
    | issue => cases compared
    | dcache => cases compared
    | _ => exact old (by rw [hl]; rfl)
  | probe _ _ _ same => rw [same] at compared; cases compared
  | scan _ same =>
    rw [same.state] at compared
    rw [same.bytemask, same.op, same.addr]
    exact old compared
  | compare _ _ same =>
    rw [same.bytemask, same.op, same.addr]
    rfl
  | leave empty => rw [empty] at compared; cases compared
  | enter _ new => rw [new] at compared; cases compared

theorem masked_reachable {s : Sys} (h : Machine.Reachable cfg s) (k j : Nat) :
    ((s.cpus k).lsq j).Masked := by
  induction h with
  | initial =>
    intro compared
    cases compared
  | step run _ hstep ih =>
    exact (moves_step (lsqStep_of_step hstep k) (invariant_reachable run k) j).masked ih

/-- Behind a store at its tag compare nothing has committed. -/
theorem written_of_compares (turn : c.Compares place i)
    (inv : c.lsqPart.Invariant cfg.lsqIfqSize place) (before : c.lsqPart.Before cfg.lsqIfqSize i j)
    (written : ¬ (c.lsq j).state.beforeWriteback) : (c.lsq j).state = .writeback := by
  obtain ⟨⟨⟨d, e, hs⟩, hr⟩, -⟩ := inv
  have waits := (hr.dtagcmp i).mp turn.names
  obtain ⟨x, y, hxy, hy, rfl, rfl⟩ := before
  have bound := hs.num_le
  have uncommitted := mt (hs.committed x (by omega)).mpr (by rw [LsqPart.nth, waits]; decide)
  have undrained := mt (hs.drained x (by omega)).mpr (by rw [LsqPart.nth, waits]; decide)
  have commit : (c.lsq (slot cfg.lsqIfqSize c.lsqPart.head1 y)).state ≠ .commit :=
    mt (hs.committed y (by omega)).mp (by omega)
  have delay1 : (c.lsq (slot cfg.lsqIfqSize c.lsqPart.head1 y)).state ≠ .delay1 :=
    mt (hs.drained y (by omega)).mp (by omega)
  generalize (c.lsq (slot cfg.lsqIfqSize c.lsqPart.head1 y)).state = a at written commit delay1 ⊢
  cases a with
  | writeback => rfl
  | commit => exact absurd rfl commit
  | delay1 => exact absurd rfl delay1
  | _ => exact absurd rfl written

/-- A load that has written back, or whose writeback is under way, is marked for exception by an
older store that passes its tag compare later and overlaps it in a byte no store in between
covers; it stays marked and never commits. A byte of a load becomes ready only by an older store
that has passed its tag compare, by a cache hit or by the refill of its double word. The bytes are
those the operations access. -/
theorem store_load_order {s s' : Sys} {ch : Choice} (hs : Machine.Reachable cfg s)
    (hstep : Machine.step cfg ch s = some s') (k : Nat) :
    (∀ i j b, (s.cpus k).Compares (s.place k) i → ((s.cpus k).lsq i).opStore →
      (s.cpus k).lsqPart.Before cfg.lsqIfqSize i j → loadMatch ((s.cpus k).lsq i) ((s.cpus k).lsq j) →
      (¬ ((s.cpus k).lsq j).state.beforeWriteback ∨ (s.cpus k).lsqWtbki = some j) →
      ((s'.cpus k).lsq i).bytemask.getLsbD b = true → ((s.cpus k).lsq j).bytemask.getLsbD b = true →
      (∀ m, (s.cpus k).lsqPart.Before cfg.lsqIfqSize i m → (s.cpus k).lsqPart.Before cfg.lsqIfqSize m j →
        storeMatch ((s.cpus k).lsq i) ((s.cpus k).lsq m) →
        ((s.cpus k).lsq m).bytemask.getLsbD b = false) →
      ∀ t, Machine.Path cfg (Sys.Occupied k j) s' t →
        ((t.cpus k).lsq j).ex ∧ ((t.cpus k).lsq j).state ≠ .commit ∧
          ((t.cpus k).lsq j).state ≠ .delay1) ∧
    (∀ j b, ((s'.cpus k).lsq j).opLoad → ((s'.cpus k).lsq j).state.compared →
      ((s'.cpus k).lsq j).bytemask.getLsbD b = true → ((s'.cpus k).lsq j).byterdy.getLsbD b = true →
      ((s.cpus k).lsq j).state.compared ∧ ((s.cpus k).lsq j).byterdy.getLsbD b = true ∨
        (s.cpus k).Supplies cfg (s.place k) (s'.cpus k) j b) ∧
    ∀ j b, ((s.cpus k).lsq j).state.compared → b < 8 → (((s.cpus k).lsq j).bytemask.getLsbD b = true ↔
      ((s.cpus k).lsq j).op.Accesses ((s.cpus k).lsq j).addr (((s.cpus k).lsq j).addr / 8 * 8 + b)) := by
  have inv := invariant_reachable hs k
  have step := lsqStep_of_step hstep k
  refine ⟨?_, ?_, ?_⟩
  · intro i j b turn store before load written stored loaded between t path
    obtain ⟨d, e, shape⟩ := inv.wellFormed.shape
    have spec := turn.step step
    have swept : (compareEnter i (s.cpus k)).Swept (dtagcmpOp cfg i (s.cpus k)) := swept_dtagcmpOp i _
    have hj := before.ne shape
    have written : (s.cpus k).Written j := written.imp (written_of_compares turn inv before) id
    have state : ((s'.cpus k).lsq j).state = ((s.cpus k).lsq j).state := by
      rw [spec, (swept.entry j).state, compareEnter_other hj]
    have compared : ((s.cpus k).lsq j).state.compared := by
      simp only [loadMatch, Bool.and_eq_true] at load
      exact load.1.2
    have commit : ((s.cpus k).lsq j).state ≠ .commit ∧ ((s.cpus k).lsq j).state ≠ .delay1 := by
      refine ⟨fun commit => ?_, fun delay1 => ?_⟩
      · have := written_of_compares turn inv before (by simp [commit, LsqState.beforeWriteback])
        rw [commit] at this
        cases this
      · have := written_of_compares turn inv before (by simp [delay1, LsqState.beforeWriteback])
        rw [delay1] at this
        cases this
    have mask : ((s'.cpus k).lsq i).bytemask =
        getBytemask ((s.cpus k).lsq i).op (((s.cpus k).lsq i).addr % 8) := by
      rw [spec, (swept.entry i).bytemask, compareEnter_lsq]
      rfl
    rw [mask] at stored
    have marked := compare_marks shape store before load written stored loaded between
    rw [← spec] at marked
    refine marked_never_commits (.step hs trivial hstep) path ?_ marked (by rw [state]; exact commit)
    intro empty
    rw [← state, empty] at compared
    cases compared
  · exact fun j b load compared accessed ready => ready_step step inv load compared accessed ready
  · intro j b compared hb
    rw [masked_reachable hs k j compared, getBytemask_spec _ _ hb]

/-- A load brings a block in. Then a younger load hits it and writes back before the older store
to the same word reaches its tag compare. -/
def Machine.overtakeRun : List Choice :=
  waitThen 51 [.enqueue .lw 64, .issue 0] ++ waitThen 603 [.writeback, .commit] ++
    waitThen 24 [.enqueue .sw 64, .enqueue .lw 64, .issue 2] ++ waitThen 53 [.issue 1] ++
    waitThen 28 [.writeback] ++ waitThen 46 []

theorem store_load_order_mono : ∃ s s', Machine.Reachable .mono s ∧
    Machine.step .mono {} s = some s' ∧ ((s.cpus 0).lsq 1).opStore ∧ ((s.cpus 0).lsq 2).opLoad ∧
    ((s.cpus 0).lsq 2).state = .writeback ∧ ((s'.cpus 0).lsq 2).ex := by
  have h : (Machine.run .mono Machine.overtakeRun (Machine.initial .mono)).any (fun s =>
      ((s.cpus 0).lsqHead1, (s.cpus 0).lsqNum, (s.cpus 0).lsqDtagcmpi) == (1, 2, some 1) &&
      (s.cpus 0).lsqDtagcmpRefill.isNone &&
      ((s.cpus 0).lsq 1).opStore && loadMatch ((s.cpus 0).lsq 1) ((s.cpus 0).lsq 2) &&
      ((s.cpus 0).lsq 2).state == .writeback && ((s.cpus 0).lsq 2).bytemask.getLsbD 0 &&
      (s.frame.any fun fr => fr.cpu == 0 && fr.phase == .dtagcmp) &&
      ((Machine.step .mono {} s).any fun s' => ((s'.cpus 0).lsq 1).bytemask.getLsbD 0)) = true := by
    decide +kernel
  obtain ⟨s, hrun, hs⟩ := (Option.any_eq_true _ _).mp h
  simp only [Bool.and_eq_true, beq_iff_eq, Prod.mk.injEq, Option.any_eq_true,
    Option.isNone_iff_eq_none] at hs
  obtain ⟨⟨⟨⟨⟨⟨⟨⟨head1, num, names⟩, alone⟩, store⟩, covers⟩, written⟩, loaded⟩,
    fr, hfr, core, phase⟩, s', hstep, stored⟩ := hs
  have reachable := Machine.reachable_run .mono .initial hrun
  obtain ⟨d, e, shape⟩ := (invariant_reachable reachable 0).wellFormed.shape
  have turn : (s.cpus 0).Compares (s.place 0) 1 := by
    refine ⟨⟨fr.loc, ?_⟩, alone, names⟩
    rw [place_frame hfr, if_pos core, phase]
  have before : (s.cpus 0).lsqPart.Before 4 1 2 := by
    refine ⟨0, 1, Nat.zero_lt_one, lt_of_lt_of_eq Nat.one_lt_two num.symm, ?_, ?_⟩
    · exact (congrArg (slot 4 · 0) head1).symm
    · exact (congrArg (slot 4 · 1) head1).symm
  have load : ((s.cpus 0).lsq 2).opLoad := by
    simp only [loadMatch, Bool.and_eq_true] at covers
    exact covers.1.1
  have marked := (store_load_order reachable hstep 0).1 1 2 0 turn store before covers
    (.inl (by simp [written, LsqState.beforeWriteback])) stored loaded ?_ s' .refl
  · exact ⟨s, s', reachable, hstep, store, load, written, marked.1⟩
  · rintro m first ⟨x, y, hxy, hy, rfl, -⟩
    have hy : y < (s.cpus 0).lsqNum := hy
    obtain rfl : x = 0 := by omega
    exact absurd (congrArg (slot 4 · 0) head1) (first.ne shape)

end Godson

import Godson.QueueOrder
import Godson.QueueSteps

/-! The sections of `lsq_stage` as the queue sees them. Each scan of the queue leaves alone what
an entry is and how far it has come. -/
namespace Godson

/-- What any scan of the tag compare stage leaves of an entry. -/
structure LsqEntry.Scanned (l l' : LsqEntry) : Prop where
  state : l'.state = l.state
  op : l'.op = l.op
  addr : l'.addr = l.addr
  paddr : l'.paddr = l.paddr
  bytemask : l'.bytemask = l.bytemask
  ex : l.ex → l'.ex
  loadspec : l.loadspec → l'.loadspec

namespace LsqEntry.Scanned

variable {l l' l'' : LsqEntry}

theorem refl (l : LsqEntry) : l.Scanned l := ⟨rfl, rfl, rfl, rfl, rfl, id, id⟩

theorem trans (h : l.Scanned l') (h' : l'.Scanned l'') : l.Scanned l'' where
  state := h'.state.trans h.state
  op := h'.op.trans h.op
  addr := h'.addr.trans h.addr
  paddr := h'.paddr.trans h.paddr
  bytemask := h'.bytemask.trans h.bytemask
  ex := h'.ex ∘ h.ex
  loadspec := h'.loadspec ∘ h.loadspec

theorem reset (l : LsqEntry) (req : Req) : l.Scanned (l.reset req) := ⟨rfl, rfl, rfl, rfl, rfl, id, id⟩

theorem mispec (l : LsqEntry) (paddr : Nat) : l.Scanned (l.mispec paddr) := by
  unfold LsqEntry.mispec
  split
  · exact ⟨rfl, rfl, rfl, rfl, rfl, fun _ => rfl, id⟩
  · exact .refl l

theorem onReplace (paddr : Nat) (l : LsqEntry) : l.Scanned (l.onReplace paddr) := by
  unfold LsqEntry.onReplace
  split
  · exact .reset l _
  · exact .mispec l _

theorem onIntervention (paddr : Nat) (kept : Bool) (l : LsqEntry) :
    l.Scanned (l.onIntervention paddr kept) := by
  unfold LsqEntry.onIntervention
  split
  · exact .reset l _
  · split
    · exact .reset l _
    · exact .mispec l _

theorem onRefill (p : RefillPacket) (l : LsqEntry) : l.Scanned (l.onRefill p) := by
  unfold LsqEntry.onRefill
  split
  · split <;> exact ⟨rfl, rfl, rfl, rfl, rfl, id, id⟩
  · exact .refl l

end LsqEntry.Scanned

/-! ### Scans that treat every entry by itself -/

theorem foldl_modLsq (f : Nat → LsqEntry → LsqEntry) {l : List Nat} (once : l.Nodup) (c : Cpu) :
    l.foldl (fun c i => c.modLsq i (f i)) c =
      { c with lsq := fun i => if i ∈ l then f i (c.lsq i) else c.lsq i } := by
  induction l generalizing c with
  | nil => simp
  | cons i l ih =>
    obtain ⟨hi, hl⟩ := List.nodup_cons.mp once
    rw [List.foldl_cons, ih hl]
    simp only [Cpu.modLsq, List.mem_cons]
    congr 1
    funext j
    by_cases hj : j = i
    · subst hj
      simp [hi]
    · simp [hj]

variable {cfg : Config} {k : Nat} {c c' : Cpu}

theorem mapRing_eq (f : Nat → LsqEntry → LsqEntry) (c : Cpu) :
    mapRing cfg f c = { c with
      lsq := fun i => if i ∈ ring cfg.lsqIfqSize c.lsqHead c.lsqTail then f i (c.lsq i)
        else c.lsq i } :=
  foldl_modLsq f (nodup_ring cfg.lsq_pos) c

/-- What the packet that reaches the tag compare stage does to an entry. -/
def RefillPacket.scan (p : RefillPacket) (c : Cpu) : LsqEntry → LsqEntry :=
  if p.replace then LsqEntry.onReplace c.dcache.replacePaddr
  else if p.intervention then
    LsqEntry.onIntervention p.paddr (match p.blk with
      | some r => (c.dcache.blks r).status != .invalid
      | none => false)
  else LsqEntry.onRefill p

theorem RefillPacket.scanned (p : RefillPacket) (c : Cpu) (l : LsqEntry) : l.Scanned (p.scan c l) := by
  unfold RefillPacket.scan
  split
  · exact .onReplace ..
  · split
    · exact .onIntervention ..
    · exact .onRefill ..

/-- The queue after a scan of a packet. -/
def Cpu.scanned (cfg : Config) (p : RefillPacket) (c : Cpu) : LsqPart :=
  { c.lsqPart with
    entry := fun i => if i ∈ ring cfg.lsqIfqSize c.lsqHead c.lsqTail then (p.scan c (c.lsq i)).plain
      else (c.lsq i).plain
    dtagcmpRefill := none }

theorem lsqPart_mapRing (f : LsqEntry → LsqEntry) (c : Cpu) :
    (mapRing cfg (fun _ => f) c).lsqPart = { c.lsqPart with
      entry := fun i => if i ∈ ring cfg.lsqIfqSize c.lsqHead c.lsqTail then (f (c.lsq i)).plain
        else (c.lsq i).plain } := by
  rw [mapRing_eq]
  simp only [Cpu.lsqPart, LsqPart.mk.injEq, and_true]
  funext i
  split <;> rfl

theorem lsqPart_interventionAnswer {p : RefillPacket} (h : interventionAnswer k p c = some c') :
    c'.lsqPart = c.lsqPart := by
  simp only [interventionAnswer] at h
  split_ifs at h
  · obtain rfl := Option.some.inj h
    rfl
  · exact lsqPart_answerModify h
  · exact lsqPart_answerMiss h
  · obtain rfl := Option.some.inj h
    rfl

/-- A packet at the tag compare stage. -/
theorem lsqPart_dtagcmpRefill {p : RefillPacket} (h : dtagcmpRefill cfg k p c = some c') :
    c'.lsqPart = c.scanned cfg p := by
  simp only [dtagcmpRefill] at h
  obtain ⟨t, ht, rfl⟩ := Option.map_eq_some_iff.mp h
  have scan : t.lsqPart = (mapRing cfg (fun _ => p.scan c) c).lsqPart := by
    by_cases replace : p.replace
    · rw [if_pos replace] at ht
      obtain rfl := Option.some.inj ht
      rw [RefillPacket.scan, if_pos replace]
    · rw [if_neg replace] at ht
      rw [RefillPacket.scan, if_neg replace]
      by_cases intervention : p.intervention
      · rw [if_pos intervention] at ht ⊢
        exact lsqPart_interventionAnswer ht
      · rw [if_neg intervention] at ht ⊢
        obtain rfl := Option.some.inj ht
        rfl
  rw [lsqPart_mapRing] at scan
  exact congrArg (fun q : LsqPart => { q with dtagcmpRefill := none }) scan

/-! ### An operation at the tag compare stage -/

/-- Nothing but the entries changes, and those only as a scan changes them. -/
structure Cpu.Swept (c c' : Cpu) : Prop where
  rest : c' = { c with lsq := c'.lsq }
  entry : ∀ i, (c.lsq i).Scanned (c'.lsq i)

namespace Cpu.Swept

theorem refl (c : Cpu) : c.Swept c := ⟨rfl, fun _ => .refl _⟩

theorem trans {c'' : Cpu} (h : c.Swept c') (h' : c'.Swept c'') : c.Swept c'' where
  rest := by
    rw [h'.rest, h.rest]
  entry i := (h.entry i).trans (h'.entry i)

theorem modLsq {i : Nat} {f : LsqEntry → LsqEntry} (h : (c.lsq i).Scanned (f (c.lsq i))) :
    c.Swept (c.modLsq i f) where
  rest := rfl
  entry j := by
    by_cases hj : j = i
    · subst hj
      simpa only [Cpu.modLsq, Function.update_self] using h
    · simp only [Cpu.modLsq, Function.update_of_ne hj]
      exact .refl _

end Cpu.Swept

theorem swept_forwardStep (i : Nat) (bytemask : BitVec 8) (st : Cpu × BitVec 8) (j : Nat) :
    st.1.Swept (forwardStep i bytemask st j).1 := by
  obtain ⟨c, nf⟩ := st
  simp only [forwardStep]
  split
  · exact .refl c
  · dsimp only
    split
    · refine .modLsq ⟨rfl, rfl, rfl, rfl, rfl, fun h => ?_, id⟩
      simp [h]
    · exact .refl c

theorem swept_forward (i : Nat) (bytemask : BitVec 8) (l : List Nat) (st : Cpu × BitVec 8) :
    st.1.Swept (l.foldl (forwardStep i bytemask) st).1 := by
  induction l generalizing st with
  | nil => exact .refl _
  | cons j l ih => exact (swept_forwardStep i bytemask st j).trans (ih _)

theorem swept_compareLoad (i : Nat) (c : Cpu) : c.Swept (compareLoad cfg i c) := by
  have ready : ∀ (c : Cpu) (b : LsqEntry → BitVec 8), c.Swept (c.modLsq i fun l => { l with byterdy := b l }) :=
    fun c b => .modLsq ⟨rfl, rfl, rfl, rfl, rfl, id, id⟩
  simp only [compareLoad]
  split
  · rename_i j _
    have mark : c.Swept (c.modLsq j fun l => { l with loadspec := true }) :=
      .modLsq ⟨rfl, rfl, rfl, rfl, rfl, id, fun _ => rfl⟩
    exact mark.trans (ready _ _)
  · exact ready c _

theorem swept_compareStore (i : Nat) (c : Cpu) : c.Swept (compareStore cfg i c) := by
  simp only [compareStore]
  exact (swept_forward i _ _ (c, 0xff)).trans (.modLsq ⟨rfl, rfl, rfl, rfl, rfl, id, id⟩)

/-- An entry that reaches the tag compare. -/
def LsqEntry.atCompare (l : LsqEntry) : LsqEntry :=
  { l with state := .readcache, fetching := false
           bytemask := getBytemask l.op (l.addr % 8) }

/-- The core after the first statements of the tag compare of operation `i`. -/
def compareEnter (i : Nat) (c : Cpu) : Cpu :=
  let c := c.modLsq i LsqEntry.atCompare
  let l := c.lsq i
  { c with
    lsqDtagcmpi := none
    lsqWtbki := if l.opLoad ∧ l.ex = false ∧ l.blk.isSome then some i else c.lsqWtbki }

theorem compareEnter_lsq (i : Nat) (c : Cpu) :
    (compareEnter i c).lsq i = (c.lsq i).atCompare := by
  simp only [compareEnter, Cpu.modLsq, Function.update_self]

theorem dtagcmpOp_eq (i : Nat) (c : Cpu) :
    dtagcmpOp cfg i c =
      if (c.lsq i).opLoad then compareLoad cfg i (compareEnter i c)
      else if (c.lsq i).opStore then compareStore cfg i (compareEnter i c)
      else (compareEnter i c).modLsq i fun l => { l with byterdy := 0xff } := by
  have load : ((compareEnter i c).lsq i).opLoad = (c.lsq i).opLoad := by
    rw [compareEnter_lsq]
    rfl
  have store : ((compareEnter i c).lsq i).opStore = (c.lsq i).opStore := by
    rw [compareEnter_lsq]
    rfl
  rw [← load, ← store]
  rfl

/-- The tag compare of an operation sweeps the queue. -/
theorem swept_dtagcmpOp (i : Nat) (c : Cpu) : (compareEnter i c).Swept (dtagcmpOp cfg i c) := by
  rw [dtagcmpOp_eq]
  split
  · exact swept_compareLoad ..
  · split
    · exact swept_compareStore ..
    · exact .modLsq ⟨rfl, rfl, rfl, rfl, rfl, id, id⟩

/-! ### The other sections -/

theorem lsqPart_dcachewrite {loc loc' : Locals} (h : dcachewrite loc c = some (c', loc')) :
    c'.lsqPart = c.lsqPart ∧
      (loc'.dcachewriteValid → (c.lsqPart.entry c.lsqPart.head).state = .commit) := by
  have refuse : some (c, { loc with dcachewriteValid := false }) = some (c', loc') →
      c'.lsqPart = c.lsqPart ∧ (loc'.dcachewriteValid → (c.lsq c.lsqHead).state = .commit) := by
    intro h
    obtain ⟨rfl, rfl⟩ := Prod.mk.inj (Option.some.inj h)
    exact ⟨rfl, fun h => absurd h (by simp)⟩
  have allow : (c.lsq c.lsqHead).state = .commit →
      (c.lsq c.lsqHead).blk.map (fun r =>
        ({ c with dcache := c.dcache.modBlk r fun b => { b with status := b.status.orDirty } },
          { loc with dcachewriteValid := true })) = some (c', loc') →
      c'.lsqPart = c.lsqPart ∧ (loc'.dcachewriteValid → (c.lsq c.lsqHead).state = .commit) := by
    intro commit h
    obtain ⟨r, -, hr⟩ := Option.map_eq_some_iff.mp h
    obtain ⟨rfl, rfl⟩ := Prod.mk.inj hr
    exact ⟨rfl, fun _ => commit⟩
  simp only [dcachewrite, Bool.and_eq_true, beq_iff_eq] at h
  split at h <;> split at h
  · rename_i valid
    exact allow valid.1.1.1.1 h
  · exact refuse h
  · rename_i valid
    exact allow valid.1.1.1.1 h
  · exact refuse h

/-- An entry that has probed the data cache. -/
def LsqEntry.probed (paddr : Nat) (blk : Option BlkRef) (req : Req) (l : LsqEntry) : LsqEntry :=
  { l with state := .dtagcmp, paddr := paddr, blk := blk, req := req }

variable (cfg k) in
theorem lsqPart_dcacheOp (i : Nat) (c : Cpu) :
    ∃ paddr blk, (dcacheOp cfg k i c).lsqPart =
      { c.lsqPart.set i (LsqEntry.probed paddr blk .noReq) with
        dtagcmpi := some i
        dcachei := none } := by
  simp only [dcacheOp]
  generalize cfg.translate k (c.lsq i).addr = paddr
  generalize cacheProbe cfg.dcache c.dcache true (c.lsq i).opStore (c.lsq i).addr paddr = r
  obtain ⟨cp, blk, req⟩ := r
  have set := lsqPart_set c i (f := LsqEntry.probed paddr blk req)
    (g := LsqEntry.probed paddr blk .noReq) fun _ => rfl
  exact ⟨paddr, blk, congrArg (fun q : LsqPart =>
    { q with dtagcmpi := some i, dcachei := none }) set⟩

/-- What waits at address calculation moves on. -/
theorem lsqPart_memaddr (c : Cpu) :
    (∃ p, c.lsqPart.refill = some p ∧
      (memaddr c).lsqPart = { c.lsqPart with dcacheRefill := some p, refill := none }) ∨
    (∃ i, c.lsqPart.refill = none ∧ c.lsqPart.issuei = some i ∧ (memaddr c).lsqPart =
      { c.lsqPart.setState i .dcache with dcachei := some i, issuei := none }) ∨
    (c.lsqPart.refill = none ∧ c.lsqPart.issuei = none ∧ (memaddr c).lsqPart = c.lsqPart) := by
  simp only [memaddr]
  split
  · rename_i p hp
    exact .inl ⟨p, hp, rfl⟩
  · rename_i i hp hi
    exact .inr (.inl ⟨i, hp, hi, congrArg (fun q : LsqPart =>
      { q with dcachei := some i, issuei := none }) (lsqPart_setState c i .dcache)⟩)
  · rename_i hp hi
    exact .inr (.inr ⟨hp, hi, rfl⟩)

/-- What reaches the tag compare stage. -/
theorem dtagcmp_cases (h : dtagcmp cfg k c = some c') :
    (∃ p, c.lsqDtagcmpRefill = some p ∧ c'.lsqPart = c.scanned cfg p) ∨
    (∃ i, c.lsqDtagcmpRefill = none ∧ c.lsqDtagcmpi = some i ∧ c' = dtagcmpOp cfg i c) ∨
    (c.lsqDtagcmpRefill = none ∧ c.lsqDtagcmpi = none ∧ c' = c) := by
  unfold dtagcmp at h
  split at h
  · rename_i p hp
    exact .inl ⟨p, hp, lsqPart_dtagcmpRefill h⟩
  · rename_i i hp hi
    exact .inr (.inl ⟨i, hp, hi, (Option.some.inj h).symm⟩)
  · rename_i hp hi
    exact .inr (.inr ⟨hp, hi, (Option.some.inj h).symm⟩)

variable (cfg) in
/-- The queue after the tag compare of operation `i`. -/
theorem lsqPart_dtagcmpOp (i : Nat) (c : Cpu) :
    ∃ entry wtbki, (dtagcmpOp cfg i c).lsqPart =
        { c.lsqPart with entry := entry, dtagcmpi := none, wtbki := wtbki } ∧
      (entry i).state = .readcache ∧ ∀ j ≠ i, (c.lsqPart.entry j).Scanned (entry j) := by
  have swept : (compareEnter i c).Swept (dtagcmpOp cfg i c) := swept_dtagcmpOp i c
  refine ⟨(dtagcmpOp cfg i c).lsqPart.entry, (compareEnter i c).lsqWtbki, ?_, ?_, ?_⟩
  · rw [swept.rest]
    rfl
  · have self := (swept.entry i).state
    rw [compareEnter_lsq] at self
    exact self
  · intro j hj
    have other := swept.entry j
    have same : (compareEnter i c).lsq j = c.lsq j := by
      simp only [compareEnter, Cpu.modLsq, Function.update_of_ne hj]
    rw [same] at other
    exact ⟨other.state, other.op, other.addr, other.paddr, other.bytemask, other.ex, other.loadspec⟩

end Godson

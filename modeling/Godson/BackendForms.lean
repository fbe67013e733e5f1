import Godson.Backend

/-! The operations of the pipeline in closed form: what they demand, and which fields of the
state they set to what. -/
namespace Godson.Backend

open Mips

variable (cfg : BackendConfig) {s t : Backend}

section Links

@[simp] theorem modDesc_self (s : Backend) (rs : Nat) (f : Descript → Descript) :
    (s.modDesc rs f).desc rs = f (s.desc rs) := Function.update_self ..

theorem modDesc_of_ne (s : Backend) {rs d : Nat} (other : d ≠ rs) (f : Descript → Descript) :
    (s.modDesc rs f).desc d = s.desc d := Function.update_of_ne other ..

@[simp] theorem desc_countIssue (s : Backend) (inIntq : Bool) (n : Int) :
    (s.countIssue inIntq n).desc = s.desc := by
  rw [countIssue]
  split <;> rfl

/-- A new link to an instruction. -/
def linkTo (s : Backend) (rs id : Nat) : RsLink := ⟨id, rs, (s.desc rs).tag, (s.desc rs).seq⟩

theorem rslinkNew_some {rs : Nat} {l : RsLink} (h : s.rslinkNew rs = some (l, t)) :
    ∃ id pool, s.rslinkFreeList = id :: pool ∧ l = s.linkTo rs id ∧
      t = { s with rslinkFreeList := pool } := by
  rw [rslinkNew] at h
  split at h
  · cases h
  · rename_i id pool filled
    cases h
    exact ⟨id, pool, filled, rfl, rfl⟩

theorem readyqEnqueue_some {rs : Nat} (h : s.readyqEnqueue rs = some t) :
    ∃ id pool, s.rslinkFreeList = id :: pool ∧ t =
      { s with
        rslinkFreeList := pool
        desc := Function.update s.desc rs { s.desc rs with queued := true }
        readyQueue := Function.update s.readyQueue (s.desc rs).fu.unit
          (EventQueue.insert false ((s.desc rs).seq % 2 ^ 32) (s.linkTo rs id)
            (s.readyQueue (s.desc rs).fu.unit))
        entered := s.entered ++ [((s.desc rs).seq, (s.desc rs).operandsReady)] } := by
  obtain ⟨⟨l, u⟩, new, rfl⟩ := Option.map_eq_some_iff.mp h
  obtain ⟨id, pool, filled, rfl, rfl⟩ := rslinkNew_some new
  exact ⟨id, pool, filled, rfl⟩

theorem eventqQueueEvent_some {rs time : Nat} (h : s.eventqQueueEvent rs time = some t) :
    (s.desc rs).completed = false ∧ ∃ id pool, s.rslinkFreeList = id :: pool ∧ t =
      { s with
        rslinkFreeList := pool
        eventQueue := EventQueue.insert false time (s.linkTo rs id) s.eventQueue } := by
  rw [eventqQueueEvent] at h
  split_ifs at h with fits
  obtain ⟨⟨l, u⟩, new, rfl⟩ := Option.map_eq_some_iff.mp h
  obtain ⟨id, pool, filled, rfl, rfl⟩ := rslinkNew_some new
  rw [Bool.or_eq_true, not_or] at fits
  exact ⟨Bool.eq_false_of_not_eq_true fits.1, id, pool, filled, rfl⟩

/-- Freed links go to the front of the pool. -/
theorem rslinkFreeAll_eq (ls : List (Nat × RsLink)) (s : Backend) :
    s.rslinkFreeAll ls =
      { s with rslinkFreeList := (ls.map fun x => x.2.id).reverse ++ s.rslinkFreeList } := by
  rw [rslinkFreeAll]
  induction ls generalizing s with
  | nil => rfl
  | cons x ls ih =>
    rw [List.foldl_cons, ih]
    simp [rslinkFree]

end Links

section Map

/-- An instruction has taken its places in the queues, and waits for its operands. -/
def placed (rs : Nat) (rest : List Nat) (s : Backend) : Backend :=
  let d := s.desc rs
  let cls := if !d.trap && d.op.fuClass != .na then d.op.fuClass else .intALU
  let inLsq := !d.trap && d.mem
  { (s.resAlloc cls).2 with
    desc := Function.update s.desc rs { d with
      usedIntRenameReg := intRegs d, usedFpRenameReg := fpRegs d, roqid := s.roqTail
      brqid := s.brqTail, fu := (s.resAlloc cls).1, inIntq := d.op.isIntq
      queued := !d.trap || d.queued, lsqid := if d.trap then d.lsqid else s.lsqTail
      mapped := true }
    decodeData := rest
    intRenameRegNum := s.intRenameRegNum + intRegs d
    fpRenameRegNum := s.fpRenameRegNum + fpRegs d
    roq := Function.update s.roq s.roqTail (some rs)
    roqTail := (s.roqTail + 1) % cfg.roqIfqSize
    roqNum := s.roqNum + 1
    brq := if d.ctrl then Function.update s.brq s.brqTail (some rs) else s.brq
    brqTail := if d.ctrl then (s.brqTail + 1) % cfg.brqIfqSize else s.brqTail
    brqNum := if d.ctrl then s.brqNum + 1 else s.brqNum
    intIssueNum := if !d.trap && d.op.isIntq then s.intIssueNum + 1 else s.intIssueNum
    fpIssueNum := if !d.trap && !d.op.isIntq then s.fpIssueNum + 1 else s.fpIssueNum
    lsq := if inLsq then
        Function.update s.lsq s.lsqTail { rs, state := .enter, op := d.op } else s.lsq
    lsqNum := if inLsq then s.lsqNum + 1 else s.lsqNum
    lsqTail := if inLsq then (s.lsqTail + 1) % cfg.lsqIfqSize else s.lsqTail }

/-- The ready queue does not see the load/store queue. -/
theorem readyqEnqueue_enterLsq {rs : Nat} {rest : List Nat} (s : Backend) :
    (s.readyqEnqueue rs).map (fun s =>
        { (s.enterLsq cfg rs).modDesc rs fun d => { d with mapped := true } with
          decodeData := rest }) =
      Backend.readyqEnqueue rs
        { (s.enterLsq cfg rs).modDesc rs fun d => { d with mapped := true } with
          decodeData := rest } := by
  cases pool : s.rslinkFreeList with
  | nil => cases mem : (s.desc rs).op.has .mem <;>
      simp [readyqEnqueue, rslinkNew, enterLsq, lsqEnqueue, modLsq, modDesc, pool, mem,
        Descript.mem]
  | cons id pool' => cases mem : (s.desc rs).op.has .mem <;>
      simp [readyqEnqueue, rslinkNew, enterLsq, lsqEnqueue, modLsq, modDesc, pool, mem,
        Descript.mem, Descript.operandsReady]

/-- The reorder queue, the branch queue and a function unit. -/
theorem seated_eq {rs : Nat} (s : Backend) (trap : (s.desc rs).trap = false) (rest : List Nat) :
    ∃ u, u = ((s.enterRoq cfg rs).enterBrq cfg rs).allocFu rs ∧ (u.desc rs).trap = false ∧
      (u.desc rs).inIntq = (s.desc rs).op.isIntq ∧
      (u.desc rs).operandsReady = (s.desc rs).operandsReady ∧
      { (((u.modDesc rs fun d => { d with queued := true }).countIssue
          (s.desc rs).op.isIntq 1).enterLsq cfg rs).modDesc rs
        fun d => { d with mapped := true } with decodeData := rest } = s.placed cfg rs rest := by
  refine ⟨_, rfl, ?_, ?_, ?_, ?_⟩ <;>
    simp only [enterRoq, enterBrq, allocFu, resAlloc, modDesc, Function.update_self,
      Function.update_idem, Descript.operandsReady, Descript.ctrl] <;>
    cases ctrl : (s.desc rs).op.has .ctrl
  any_goals simp [trap]
  all_goals cases intq : (s.desc rs).op.isIntq <;> cases mem : (s.desc rs).op.has .mem <;>
    simp [placed, trap, ctrl, resAlloc, Descript.ctrl, Descript.mem, intq, mem, enterLsq,
      countIssue, lsqEnqueue, modLsq, modDesc]

theorem mapInst_eq {rs : Nat} {rest : List Nat} (queue : s.decodeData = rs :: rest) :
    s.mapInst cfg = if !(s.desc rs).trap && (s.desc rs).operandsReady then
      (s.placed cfg rs rest).readyqEnqueue rs else some (s.placed cfg rs rest) := by
  simp only [mapInst, queue]
  cases trap : (s.desc rs).trap with
  | true =>
    simp only [enterRoq, enterBrq, allocFu, resAlloc, modDesc, Function.update_self,
      Function.update_idem, Descript.ctrl]
    cases ctrl : (s.desc rs).op.has .ctrl <;>
      simp [placed, trap, ctrl, resAlloc, Descript.ctrl, Descript.mem]
  | false =>
    obtain ⟨u, seated, kind, intq, ready, placed⟩ := seated_eq cfg s trap rest
    rw [← seated, kind, ← placed, ← intq]
    have same (d : Descript) : { d with queued := true }.operandsReady = d.operandsReady := rfl
    simp only [issueEnqueue, modDesc_self, desc_countIssue, same, ready, Bool.not_false,
      Bool.true_and, Bool.false_eq_true, if_false]
    cases (s.desc rs).operandsReady with
    | true =>
      simp only [if_true, Option.map_map]
      exact readyqEnqueue_enterLsq cfg _
    | false => rfl

end Map

section Memory

/-- The first half of `dcache`: an operation goes on to tag compare. -/
def toDtagcmp (a : LsqAnswer) (s : Backend) : Backend :=
  match a.dcacheRefill, s.lsqDcachei with
  | false, some i =>
    { s.modLsq i fun l => { l with state := .dtagcmp } with
      lsqDtagcmpi := some i, lsqDcachei := none }
  | _, _ => s

/-- The second half: an operation leaves address calculation, or waits there. -/
def toDcache (a : LsqAnswer) (s : Backend) : Backend :=
  match a.refill, s.lsqIssuei with
  | false, some i =>
    { s.modLsq i fun l => { l with state := .dcache } with
      lsqDcachei := some i, lsqIssuei := none }
  | true, some i =>
    { s with unitBusy := Function.update s.unitBusy (s.desc (s.lsq i).rs).fu.unit 1 }
  | _, none => s

theorem dcache_eq (a : LsqAnswer) (s : Backend) : s.dcache a = (s.toDtagcmp a).toDcache a := rfl

end Memory

section Squash

variable {cfg}

/-- The free list when a descriptor comes back. -/
def giveBack (l : List Nat) (d : Nat) : List Nat := if l = [] then [] else l ++ [d]

theorem retire_some {rs : Nat} (h : s.retire cfg rs = some t) :
    ((s.desc rs).ctrl = true → s.brqHead = (s.desc rs).brqid) ∧ (s.desc rs).odepList 0 = [] ∧
      (s.desc rs).odepList 1 = [] ∧ t =
      { s with
        lsq := if (s.desc rs).mem then Function.update s.lsq (s.desc rs).lsqid
            { s.lsq (s.desc rs).lsqid with state := .commit } else s.lsq
        brq := if (s.desc rs).ctrl then Function.update s.brq s.brqHead none else s.brq
        brqHead := if (s.desc rs).ctrl then (s.brqHead + 1) % cfg.brqIfqSize else s.brqHead
        brqNum := if (s.desc rs).ctrl then s.brqNum - 1 else s.brqNum
        intRenameRegNum := s.intRenameRegNum - (s.desc rs).usedIntRenameReg
        fpRenameRegNum := s.fpRenameRegNum - (s.desc rs).usedFpRenameReg
        roq := Function.update s.roq s.roqHead none
        roqHead := (s.roqHead + 1) % cfg.roqIfqSize
        roqNum := s.roqNum - 1
        retired := s.retired ++ [(s.desc rs).seq]
        freeList := if (s.desc rs).mem then s.freeList else giveBack s.freeList rs } := by
  cases mem : (s.desc rs).mem <;> cases ctrl : (s.desc rs).ctrl <;>
    simp only [retire, mem, ctrl, modLsq, freeRegs, returnToFreeList, Bool.false_eq_true, if_true,
      if_false, true_and, false_and, Option.ite_none_left_eq_some, Option.some.injEq, not_or,
      ne_eq, not_not] at h
  · obtain ⟨left, rfl⟩ := h
    simp [left, giveBack]
  · obtain ⟨head, left, rfl⟩ := h
    simp [head, left, giveBack]
  · obtain ⟨left, rfl⟩ := h
    simp [left]
  · obtain ⟨head, left, rfl⟩ := h
    simp [head, left]

theorem lsqCancelOne_some {i : Nat} (h : s.lsqCancelOne i = some t) :
    (s.lsq i).state ≠ LsqState.empty ∧ t =
      { s with
        lsqIssuei := if (s.lsq i).state = LsqState.issue then none else s.lsqIssuei
        lsqDcachei := if (s.lsq i).state = LsqState.dcache then none else s.lsqDcachei
        lsqDtagcmpi := if (s.lsq i).state = LsqState.dtagcmp then none else s.lsqDtagcmpi
        lsq := Function.update s.lsq i { s.lsq i with state := .empty }
        lsqNum := s.lsqNum - 1
        lsqTail := i } := by
  obtain ⟨u, first, rfl⟩ := Option.map_eq_some_iff.mp h
  cases state : (s.lsq i).state <;> rw [state] at first <;> cases first <;>
    simp [modLsq]

theorem leaveBrq_eq (d : Descript) (s : Backend) : leaveBrq cfg d s =
    { s with
      brq := if d.ctrl then Function.update s.brq d.brqid none else s.brq
      brqTail := if d.ctrl then (s.brqTail + cfg.brqIfqSize - 1) % cfg.brqIfqSize else s.brqTail
      brqNum := if d.ctrl then s.brqNum - 1 else s.brqNum } := by
  rw [leaveBrq]
  split <;> rfl

theorem countIssue_eq (b : Bool) (n : Int) (s : Backend) : s.countIssue b n =
    { s with
      intIssueNum := if b then s.intIssueNum + n else s.intIssueNum
      fpIssueNum := if b then s.fpIssueNum else s.fpIssueNum + n } := by
  rw [countIssue]
  split <;> rfl

/-- The links that a squashed instruction gives back. -/
def odepIds (d : Descript) : List Nat :=
  ((d.odepList 1).map fun x => x.2.id).reverse ++ ((d.odepList 0).map fun x => x.2.id).reverse

/-- A squashed instruction. -/
def squashed (d : Descript) : Descript := { d with odepList := fun _ => [], tag := d.tag + 1 }

theorem squash_eq (rs : Nat) (s : Backend) : s.squash rs =
    { s with
      desc := Function.update s.desc rs (squashed (s.desc rs))
      rslinkFreeList := odepIds (s.desc rs) ++ s.rslinkFreeList } := by
  simp only [squash, rslinkFreeAll_eq, modDesc, odepIds, squashed, List.append_assoc]

/-- The memory part of a squashed instruction. -/
theorem cancel_some {d : Descript} (h : (if d.mem then s.lsqCancelOne d.lsqid else some s) = some t) :
    (d.mem = true → (s.lsq d.lsqid).state ≠ LsqState.empty) ∧ t =
      { s with
        lsqIssuei := if d.mem = true ∧ (s.lsq d.lsqid).state = LsqState.issue then none
          else s.lsqIssuei
        lsqDcachei := if d.mem = true ∧ (s.lsq d.lsqid).state = LsqState.dcache then none
          else s.lsqDcachei
        lsqDtagcmpi := if d.mem = true ∧ (s.lsq d.lsqid).state = LsqState.dtagcmp then none
          else s.lsqDtagcmpi
        lsq := if d.mem then Function.update s.lsq d.lsqid
            { s.lsq d.lsqid with state := .empty } else s.lsq
        lsqNum := if d.mem then s.lsqNum - 1 else s.lsqNum
        lsqTail := if d.mem then d.lsqid else s.lsqTail } := by
  cases mem : d.mem with
  | false =>
    rw [mem] at h
    cases h
    simp
  | true =>
    rw [mem] at h
    obtain ⟨held, rfl⟩ := lsqCancelOne_some h
    simp [held]

/-- The queues behind the squash of the last instruction. -/
theorem squashLast_some {rs : Nat}
    (last : s.roq ((s.roqTail + cfg.roqIfqSize - 1) % cfg.roqIfqSize) = some rs)
    (h : s.squashLast cfg = some t) :
    ((s.desc rs).mem = true → (s.lsq (s.desc rs).lsqid).state ≠ LsqState.empty) ∧ t =
      { s with
        desc := Function.update s.desc rs (squashed (s.desc rs))
        rslinkFreeList := odepIds (s.desc rs) ++ s.rslinkFreeList
        fuBusy := Function.update s.fuBusy (s.desc rs).fu false
        brq := if (s.desc rs).ctrl then Function.update s.brq (s.desc rs).brqid none else s.brq
        brqTail := if (s.desc rs).ctrl then (s.brqTail + cfg.brqIfqSize - 1) % cfg.brqIfqSize
          else s.brqTail
        brqNum := if (s.desc rs).ctrl then s.brqNum - 1 else s.brqNum
        lsqIssuei := if (s.desc rs).mem = true ∧
            (s.lsq (s.desc rs).lsqid).state = LsqState.issue then none else s.lsqIssuei
        lsqDcachei := if (s.desc rs).mem = true ∧
            (s.lsq (s.desc rs).lsqid).state = LsqState.dcache then none else s.lsqDcachei
        lsqDtagcmpi := if (s.desc rs).mem = true ∧
            (s.lsq (s.desc rs).lsqid).state = LsqState.dtagcmp then none else s.lsqDtagcmpi
        lsq := if (s.desc rs).mem then Function.update s.lsq (s.desc rs).lsqid
            { s.lsq (s.desc rs).lsqid with state := .empty } else s.lsq
        lsqNum := if (s.desc rs).mem then s.lsqNum - 1 else s.lsqNum
        lsqTail := if (s.desc rs).mem then (s.desc rs).lsqid else s.lsqTail
        intRenameRegNum := s.intRenameRegNum - (s.desc rs).usedIntRenameReg
        fpRenameRegNum := s.fpRenameRegNum - (s.desc rs).usedFpRenameReg
        intIssueNum := if (s.desc rs).queued && (s.desc rs).inIntq then s.intIssueNum - 1
          else s.intIssueNum
        fpIssueNum := if (s.desc rs).queued && !(s.desc rs).inIntq then s.fpIssueNum - 1
          else s.fpIssueNum
        freeList := giveBack s.freeList rs
        roq := Function.update s.roq ((s.roqTail + cfg.roqIfqSize - 1) % cfg.roqIfqSize) none
        roqTail := (s.roqTail + cfg.roqIfqSize - 1) % cfg.roqIfqSize
        roqNum := s.roqNum - 1 } := by
  rw [squashLast, last, Option.bind_some] at h
  obtain ⟨u, cancel, rfl⟩ := Option.map_eq_some_iff.mp h
  obtain ⟨held, rfl⟩ := cancel_some cancel
  simp only [leaveBrq_eq, squash_eq] at held ⊢
  refine ⟨held, ?_⟩
  simp only [freeRegs, returnToFreeList, giveBack]
  cases queued : (s.desc rs).queued with
  | false =>
    simp only [Bool.false_eq_true, if_false, Bool.false_and]
  | true =>
    simp only [if_true, Bool.true_and, countIssue_eq, Int.sub_eq_add_neg]
    cases intq : (s.desc rs).inIntq with
    | false => simp only [Bool.false_eq_true, if_false, Bool.not_false, if_true]
    | true => simp only [if_true, Bool.not_true, Bool.false_eq_true, if_false]

theorem foldl_dropFetched (l : List Nat) (s : Backend) : l.foldl dropFetched s =
    { s with
      freeList := l.foldl giveBack s.freeList
      desc := fun d => { s.desc d with tag := (s.desc d).tag + l.count d } } := by
  induction l generalizing s with
  | nil => rfl
  | cons x l ih =>
    rw [List.foldl_cons, ih]
    simp only [dropFetched, modDesc, returnToFreeList, List.foldl_cons, List.count_cons, giveBack]
    congr 1
    funext d
    by_cases same : d = x
    · subst same
      simp only [Function.update_self, beq_self_eq_true, if_true]
      congr 1
      omega
    · simp [Function.update_of_ne same, Ne.symm same]

theorem foldl_squashDecoded {l : List Nat} (once : l.Nodup) (s : Backend) :
    l.foldl squashDecoded s =
    { s with
      freeList := l.foldl giveBack s.freeList
      rslinkFreeList := (l.reverse.flatMap fun d => odepIds (s.desc d)) ++ s.rslinkFreeList
      desc := fun d => if d ∈ l then squashed (s.desc d) else s.desc d } := by
  induction l generalizing s with
  | nil => rfl
  | cons x l ih =>
    obtain ⟨new, rest⟩ := List.nodup_cons.mp once
    rw [List.foldl_cons, ih rest]
    simp only [squashDecoded, squash_eq, returnToFreeList, List.foldl_cons, giveBack]
    have links : (l.reverse.flatMap fun d =>
        odepIds (Function.update s.desc x (squashed (s.desc x)) d)) =
        l.reverse.flatMap fun d => odepIds (s.desc d) := by
      refine List.flatMap_congr fun d hd => ?_
      rw [Function.update_of_ne]
      rintro rfl
      exact new (List.mem_reverse.mp hd)
    rw [links]
    simp only [List.reverse_cons, List.flatMap_append, List.flatMap_singleton, List.append_assoc]
    congr 1
    funext d
    by_cases same : d = x
    · subst same
      simp [new]
    · simp [same]

/-- `tracer_recover` on queues that hold no descriptor twice. -/
theorem tracerRecover_eq {s : Backend} (once : s.decodeData.Nodup) (level : Nat) :
    s.tracerRecover level =
    { s with
      specLevel := level
      freeList := (s.fetchData ++ s.decodeData.reverse).foldl giveBack s.freeList
      rslinkFreeList := (s.decodeData.flatMap fun d => odepIds (s.desc d)) ++ s.rslinkFreeList
      desc := fun d =>
        let e := { s.desc d with tag := (s.desc d).tag + s.fetchData.count d }
        if d ∈ s.decodeData then squashed e else e
      fetchData := []
      decodeData := []
      needToCorrectPc := false
      enteringSpec := false
      lastIsBranch := false } := by
  simp only [tracerRecover, foldl_dropFetched]
  rw [foldl_squashDecoded (List.nodup_reverse.mpr once)]
  simp only [List.reverse_reverse, List.mem_reverse, List.foldl_append]
  rfl

end Squash

section Wakeup

/-- An input has become ready. -/
def ready (x : Nat × RsLink) (s : Backend) : Backend :=
  s.modDesc x.2.rs fun d => { d with idepReady := Function.update d.idepReady x.1 true }

theorem wakeOne_some {x : Nat × RsLink} (h : s.wakeOne x = some t) :
    (s.rslinkValid x.2 = false ∧ t = s.rslinkFree x.2) ∨
      s.rslinkValid x.2 = true ∧ (s.desc x.2.rs).idepReady x.1 = false ∧
        ((((s.ready x).desc x.2.rs).operandsReady && ((s.ready x).desc x.2.rs).mapped) = false ∧
            t = (s.ready x).rslinkFree x.2 ∨
          (((s.ready x).desc x.2.rs).operandsReady && ((s.ready x).desc x.2.rs).mapped) = true ∧
            ∃ u, (s.ready x).readyqEnqueue x.2.rs = some u ∧ t = u.rslinkFree x.2) := by
  obtain ⟨u, first, rfl⟩ := Option.map_eq_some_iff.mp h
  split at first
  · rename_i valid
    split at first
    · cases first
    · rename_i waits
      refine .inr ⟨valid, Bool.eq_false_of_not_eq_true waits, ?_⟩
      simp only at first
      split at first
      · rename_i both
        exact .inr ⟨both, u, first, rfl⟩
      · rename_i both
        cases first
        exact .inl ⟨Bool.eq_false_of_not_eq_true both, rfl⟩
  · rename_i invalid
    cases first
    exact .inl ⟨Bool.eq_false_of_not_eq_true invalid, rfl⟩

/-- An instruction that has left its function unit, before its consumers hear of it. -/
def finished (rs : Nat) (s : Backend) : Backend :=
  { s with
    fuBusy := Function.update s.fuBusy (s.desc rs).fu false
    desc := Function.update s.desc rs
      (if (s.desc rs).ctrl then { s.desc rs with brcompleted := true }
        else { s.desc rs with completed := true })
    lsq := if (s.desc rs).mem then Function.update s.lsq (s.desc rs).lsqid
        { s.lsq (s.desc rs).lsqid with state := .writeback } else s.lsq }

theorem finish_some {rs : Nat} (h : s.finish rs = some t) :
    ((s.desc rs).operandsReady = true ∧ (s.desc rs).queued = false ∧
      (s.desc rs).issued = true ∧ (s.desc rs).completed = false) ∧
      ∃ u, (s.finished rs).broadcast rs 0 = some u ∧ u.broadcast rs 1 = some t := by
  simp only [finish] at h
  split at h
  · cases h
  · rename_i fits
    have cond : (s.desc rs).operandsReady = true ∧ (s.desc rs).queued = false ∧
        (s.desc rs).issued = true ∧ (s.desc rs).completed = false := by
      simpa [and_assoc] using fits
    refine ⟨cond, ?_⟩
    have same : (if (s.desc rs).mem = true then
        ((({ s with fuBusy := Function.update s.fuBusy (s.desc rs).fu false } : Backend).modDesc rs
          fun d => if d.ctrl = true then { d with brcompleted := true }
            else { d with completed := true }).modLsq (s.desc rs).lsqid fun l =>
          { l with state := .writeback })
        else ({ s with fuBusy := Function.update s.fuBusy (s.desc rs).fu false } : Backend).modDesc
          rs fun d => if d.ctrl = true then { d with brcompleted := true }
            else { d with completed := true }) = s.finished rs := by
      cases mem : (s.desc rs).mem <;> simp [finished, modDesc, modLsq, mem]
    rw [same] at h
    obtain ⟨u, first, h⟩ := Option.bind_eq_some_iff.mp h
    obtain ⟨v, second, h⟩ := Option.bind_eq_some_iff.mp h
    cases h
    exact ⟨u, first, second⟩

theorem broadcast_some {rs out : Nat} (h : s.broadcast rs out = some t) :
    ((s.desc rs).onames out = 0 ∧ t = s) ∨ (s.desc rs).onames out ≠ 0 ∧
      ∃ u, (((s.updateCreateVector rs).desc rs).odepList out).foldlM wakeOne
          (s.updateCreateVector rs) = some u ∧
        t = u.modDesc rs fun d => { d with odepList := Function.update d.odepList out [] } := by
  simp only [broadcast] at h
  split at h
  · rename_i none
    cases h
    exact .inl ⟨none, rfl⟩
  · rename_i name
    obtain ⟨u, woken, rfl⟩ := Option.map_eq_some_iff.mp h
    exact .inr ⟨name, u, woken, rfl⟩

/-- An issued instruction. -/
def issued (rs : Nat) (s : Backend) : Backend :=
  { s with
    desc := Function.update s.desc rs { s.desc rs with issued := true, queued := false }
    fuBusy := if (s.desc rs).fu.cls = .intDIV then Function.update s.fuBusy (s.desc rs).fu true
      else s.fuBusy
    unitBusy := Function.update s.unitBusy (s.desc rs).fu.unit 1 }

theorem issueInst_some {l : RsLink} (h : s.issueInst l = some t) : ∃ u v oplat,
    (if (s.desc l.rs).mem then (s.issued l.rs).lsqIssue l.rs
      else (s.issued l.rs).eventqQueueEvent l.rs (s.simCycle + oplat)) = some u ∧
    v = u.countIssue (u.desc l.rs).inIntq (-1) ∧ v.deleteNode l (s.desc l.rs).fu.unit = some t := by
  simp only [issueInst] at h
  obtain ⟨u, first, h⟩ := Option.bind_eq_some_iff.mp h
  refine ⟨u, _, if (s.desc l.rs).fu.cls = .intDIV then (s.desc l.rs).divDelay + 1
    else (s.desc l.rs).fu.cls.oplat, ?_, rfl, h⟩
  simp only [modDesc, Function.update_self] at first
  exact first

theorem lsqIssue_some {rs : Nat} (h : s.lsqIssue rs = some t) :
    (s.lsq (s.desc rs).lsqid).rs = rs ∧ (s.lsq (s.desc rs).lsqid).state = LsqState.enter ∧
      s.lsqIssuei = none ∧ t =
        { (s.modLsq (s.desc rs).lsqid fun l => { l with state := .issue }) with
          lsqIssuei := some (s.desc rs).lsqid } := by
  simp only [lsqIssue] at h
  split at h
  · rename_i fits
    cases h
    exact ⟨fits.1, fits.2.1, fits.2.2, rfl⟩
  · cases h

theorem deleteNode_some {l : RsLink} {fu : Nat} (h : s.deleteNode l fu = some t) :
    (∃ x ∈ s.readyQueue fu, x.2.id = l.id) ∧ t =
      { s with
        readyQueue := Function.update s.readyQueue fu
          ((s.readyQueue fu).eraseP fun x => x.2.id == l.id)
        rslinkFreeList := l.id :: s.rslinkFreeList } := by
  rw [deleteNode] at h
  split at h
  · rename_i found
    cases h
    obtain ⟨x, here, same⟩ := List.any_eq_true.mp found
    exact ⟨⟨x, here, eq_of_beq same⟩, rfl⟩
  · cases h

end Wakeup

section Decode

/-- An input waits for an output of another instruction. -/
def waitFor (rs num p out : Nat) (l : RsLink) (s : Backend) : Backend :=
  (s.modDesc rs fun d => { d with idepReady := Function.update d.idepReady num false }).modDesc p
    fun d => { d with odepList := Function.update d.odepList out ((num, l) :: d.odepList out) }

/-- An input is ready, or it waits for the instruction that the create vector names. -/
theorem roqLinkIdep_some {rs num name : Nat} (h : s.roqLinkIdep rs num name = some t) :
    ((name = 0 ∨ s.createVector s.specLevel name = none) ∧ t = s.modDesc rs fun d =>
        { d with idepReady := Function.update d.idepReady num true }) ∨
      ∃ p out id pool, name ≠ 0 ∧ s.createVector s.specLevel name = some (p, out) ∧
        s.rslinkFreeList = id :: pool ∧
        t = { s.waitFor rs num p out (s.linkTo rs id) with rslinkFreeList := pool } := by
  rw [roqLinkIdep] at h
  split at h
  · rename_i zero
    cases h
    exact .inl ⟨.inl zero, rfl⟩
  · rename_i name'
    split at h
    · rename_i empty
      cases h
      exact .inl ⟨.inr empty, rfl⟩
    · rename_i p out entry
      obtain ⟨⟨l, u⟩, new, rfl⟩ := Option.map_eq_some_iff.mp h
      obtain ⟨id, pool, filled, rfl, rfl⟩ := rslinkNew_some new
      refine .inr ⟨p, out, id, pool, name', entry, filled, ?_⟩
      simp [linkTo, waitFor, modDesc]

end Decode

end Godson.Backend

import Godson.Stages

/-! Where speculation starts. Behind a mispredicted branch that is not resolved yet only
its delay slot is on the right path; everything younger carries a positive level. The
invariant says so for every such branch in flight, whatever the level it is at. -/
namespace Godson.Core

open Mips

/-- A mispredicted branch that is not resolved. -/
def unresolved (d : InstDescript) : Bool := d.misPredict && !d.completed

/-- All of these are on a wrong path. -/
def Wrong (l : List InstDescript) : Prop := ∀ d ∈ l, d.specLevel ≠ 0

/-- What stands behind an unresolved branch. Its delay slot is no branch and shares its
level, unless it is annulled; `slot` says that decode knows the next instruction as a
delay slot. -/
def Behind (slot : Prop) (level : Nat) (entering : Bool) (b : InstDescript) :
    List InstDescript → Prop
  | [] =>
    (b.likely = true → level ≠ 0) ∧
      (b.likely = false → entering = true ∧ level = b.specLevel ∧ slot)
  | d :: l =>
    level ≠ 0 ∧ Wrong l ∧ (b.likely = true → d.specLevel ≠ 0) ∧
      (b.likely = false → d.ctrl = false ∧ d.specLevel = b.specLevel)

/-- The levels of the instructions in flight, oldest first. -/
def Levels (slot : Prop) (level : Nat) (entering : Bool) : List InstDescript → Prop
  | [] => True
  | d :: l =>
    (d.specLevel ≠ 0 → level ≠ 0 ∧ Wrong l) ∧
      (unresolved d = true → Behind slot level entering d l) ∧
      (d.misPredict = true → d.ctrl = true) ∧ Levels slot level entering l

variable {slot slot' : Prop} {level level' : Nat} {entering entering' : Bool}
  {l l' : List InstDescript}

theorem wrong_marked (h : List.Forall₂ Marked l l') (w : Wrong l) : Wrong l' := by
  induction h with
  | nil => exact w
  | @cons d _ _ _ hd _ ih =>
    obtain ⟨⟨_, _, _, _, rfl⟩, -⟩ := hd
    intro e he
    rcases List.mem_cons.mp he with rfl | he
    · exact w d List.mem_cons_self
    · exact ih (fun e he => w e (List.mem_cons_of_mem _ he)) e he

theorem wrong_append {q : List InstDescript} : Wrong (l ++ q) ↔ Wrong l ∧ Wrong q := by
  simp [Wrong, or_imp, forall_and]

theorem Levels.tail {d : InstDescript} (h : Levels slot level entering (d :: l)) :
    Levels slot level entering l := h.2.2.2

theorem levels_marked (h : List.Forall₂ Marked l l') (k : Levels slot level entering l) :
    Levels slot level entering l' := by
  induction h with
  | nil => exact k
  | cons hd ht ih =>
    obtain ⟨deep, behind, ctrl, rest⟩ := k
    obtain ⟨⟨w, b, c, e, rfl⟩, complete⟩ := hd
    refine ⟨fun h => ⟨(deep h).1, wrong_marked ht (deep h).2⟩, ?_, ctrl, ih rest⟩
    intro isOpen
    have was := behind (by simp only [unresolved] at isOpen ⊢; grind)
    cases ht with
    | nil => exact was
    | cons hd ht =>
      obtain ⟨⟨_, _, _, _, rfl⟩, -⟩ := hd
      exact ⟨was.1, wrong_marked ht was.2.1, was.2.2⟩

/-- A younger instruction is decoded. -/
theorem Levels.push {d : InstDescript} (h : Levels slot level entering l)
    (here : d.specLevel = level) (deeper : level ≤ level')
    (enter : entering = true → level' = level + 1 ∧ d.misPredict = false)
    (isSlot : slot → d.ctrl = false) (ctrl : d.misPredict = true → d.ctrl = true)
    (isOpen : unresolved d = true → Behind slot' level' entering' d []) :
    Levels slot' level' entering' (l ++ [d]) := by
  induction l with
  | nil =>
    refine ⟨fun deep => ⟨by omega, fun _ he => absurd he (List.not_mem_nil)⟩, isOpen, ctrl, trivial⟩
  | cons b l ih =>
    obtain ⟨deep, behind, bctrl, rest⟩ := h
    refine ⟨?_, ?_, bctrl, ih rest⟩
    · intro hb
      obtain ⟨below, wrong⟩ := deep hb
      refine ⟨by omega, wrong_append.mpr ⟨wrong, ?_⟩⟩
      intro e he
      rw [List.mem_singleton.mp he, here]
      exact below
    · intro hb
      have was := behind hb
      cases l with
      | nil =>
        obtain ⟨likely, plain⟩ := was
        have below : level' ≠ 0 := by
          cases hl : b.likely with
          | true =>
            have := likely hl
            omega
          | false =>
            have := (enter (plain hl).1).1
            omega
        refine ⟨below, fun _ he => absurd he List.not_mem_nil, ?_, ?_⟩
        · intro hl
          rw [here]
          exact likely hl
        · intro hl
          exact ⟨isSlot (plain hl).2.2, here.trans (plain hl).2.1⟩
      | cons e l =>
        obtain ⟨below, wrong, first⟩ := was
        refine ⟨by omega, wrong_append.mpr ⟨wrong, ?_⟩, first⟩
        intro x hx
        rw [List.mem_singleton.mp hx, here]
        exact below

/-- The flags of the front end matter to the last instruction in flight only. -/
theorem Levels.mono (h : Levels slot level entering l) (step : slot → slot') :
    Levels slot' level entering l := by
  induction l with
  | nil => trivial
  | cons b l ih =>
    obtain ⟨deep, behind, ctrl, rest⟩ := h
    refine ⟨deep, ?_, ctrl, ih rest⟩
    intro hb
    have was := behind hb
    cases l with
    | nil => exact ⟨was.1, fun hl => ⟨(was.2 hl).1, (was.2 hl).2.1, step (was.2 hl).2.2⟩⟩
    | cons e l => exact was

/-- The instructions that stay behind a resolved branch. -/
def kept (b : InstDescript) (q : List InstDescript) : List InstDescript :=
  if b.likely then [] else q.take 1

theorem Levels.behind {b : InstDescript} {p q : List InstDescript}
    (h : Levels slot level entering (p ++ b :: q)) (hb : unresolved b = true) :
    Behind slot level entering b q := by
  induction p with
  | nil => exact h.2.1 hb
  | cons a p ih => exact ih h.tail

/-- What a resolved branch squashes is on a wrong path. -/
theorem Levels.squashed {b : InstDescript} {p q : List InstDescript}
    (h : Levels slot level entering (p ++ b :: q)) (hb : unresolved b = true) :
    Wrong (q.drop (kept b q).length) := by
  have was := h.behind hb
  cases q with
  | nil => exact fun _ he => absurd he (by simp)
  | cons d q =>
    obtain ⟨-, wrong, likely, -⟩ := was
    simp only [kept]
    cases hl : b.likely with
    | true =>
      intro e he
      rcases List.mem_cons.mp he with rfl | he
      · exact likely hl
      · exact wrong e he
    | false => exact wrong

theorem Levels.ctrl {b : InstDescript} {p q : List InstDescript}
    (h : Levels slot level entering (p ++ b :: q)) (hb : b.misPredict = true) :
    b.ctrl = true := by
  induction p with
  | nil => exact h.2.2.1 hb
  | cons a p ih => exact ih h.tail

/-- Resolving a branch puts the level back to its own, and leaves no unresolved branch
that would need a deeper one. -/
theorem Levels.cut {b b' : InstDescript} {p q : List InstDescript}
    (h : Levels slot level entering (p ++ b :: q)) (hb : unresolved b = true)
    (marked : Marked b b') (resolved : b'.completed = true)
    (present : b.likely = false → q ≠ []) :
    Levels slot' b.specLevel false (p ++ b' :: kept b q) := by
  have mis : b.misPredict = true := by
    simp only [unresolved, Bool.and_eq_true] at hb
    exact hb.1
  have bctrl := h.ctrl mis
  obtain ⟨⟨w, c, f, e, rfl⟩, -⟩ := marked
  have sub : ∀ d ∈ kept b q, d ∈ q := by
    intro d hd
    simp only [kept] at hd
    split at hd
    · exact absurd hd List.not_mem_nil
    · exact List.mem_of_mem_take hd
  induction p with
  | nil =>
    obtain ⟨deep, behind, -, rest⟩ := h
    have was := behind hb
    refine ⟨fun hl => ⟨hl, fun d hd => (deep hl).2 d (sub d hd)⟩, ?_, fun _ => bctrl, ?_⟩
    · intro isOpen
      simp only [unresolved, Bool.and_eq_true, Bool.not_eq_true'] at isOpen
      exact absurd (isOpen.2.symm.trans resolved) (by decide)
    · simp only [kept]
      cases hl : b.likely with
      | true => trivial
      | false =>
        cases q with
        | nil => exact absurd rfl (present hl)
        | cons d q =>
          obtain ⟨-, -, -, plain⟩ := was
          obtain ⟨dctrl, same⟩ := plain hl
          have right : d.misPredict = false := by
            cases hm : d.misPredict with
            | true => rw [rest.2.2.1 hm] at dctrl; exact dctrl
            | false => rfl
          refine ⟨fun hd => ⟨same ▸ hd, fun _ he => absurd he List.not_mem_nil⟩, ?_, ?_, trivial⟩
          · intro isOpen
            simp [unresolved, right] at isOpen
          · intro hm
            rw [right] at hm
            cases hm
  | cons a p ih =>
    obtain ⟨deep, behind, actrl, rest⟩ := h
    refine ⟨?_, ?_, actrl, ih rest⟩
    · intro ha
      obtain ⟨-, wrong⟩ := deep ha
      refine ⟨wrong b (by simp), ?_⟩
      intro d hd
      rcases List.mem_append.mp hd with hd | hd
      · exact wrong d (List.mem_append_left _ hd)
      · rcases List.mem_cons.mp hd with rfl | hd
        · exact wrong b (by simp)
        · exact wrong d (List.mem_append_right _ (List.mem_cons_of_mem _ (sub d hd)))
    · intro ha
      have was := behind ha
      cases p with
      | nil =>
        -- the delay slot of `a` is no branch, so `b` can only stand behind an annulled one
        obtain ⟨-, wrong, likely, plain⟩ := was
        cases hl : a.likely with
        | true =>
          refine ⟨likely hl, fun d hd => wrong d (sub d hd), fun _ => likely hl, ?_⟩
          intro hf
          exact absurd (hl.symm.trans hf) (by decide)
        | false =>
          exact absurd ((plain hl).1.symm.trans bctrl) (by decide)
      | cons d p =>
        obtain ⟨-, wrong, likely, plain⟩ := was
        refine ⟨wrong b (by simp), ?_, likely, plain⟩
        intro x hx
        rcases List.mem_append.mp hx with hx | hx
        · exact wrong x (List.mem_append_left _ hx)
        · rcases List.mem_cons.mp hx with rfl | hx
          · exact wrong b (by simp)
          · exact wrong x (List.mem_append_right _ (List.mem_cons_of_mem _ (sub x hx)))

/-- Decode knows the next instruction as the delay slot of the last one. A trap
instruction that waits has its mark already. -/
def slotNext (s : Core) : Prop :=
  s.lastIsBranch = true ∨
    ∃ d rest, s.fetchData = d :: rest ∧ d.bd = true ∧ d.ctrl = false

/-- An instruction from an invalid address is no branch. -/
def TrapPlain (d : InstDescript) : Prop := d.trap = true → d.ctrl = false

/-- An instruction that was only fetched. -/
def Fresh (d : InstDescript) : Prop :=
  d.misPredict = false ∧ d.completed = false ∧ d.brcompleted = false ∧ d.writtenBack = false ∧
    TrapPlain d

/-- A branch waits for its resolution between writeback and completion. -/
def Pending (d : InstDescript) : Prop :=
  (d.brcompleted = true → d.completed = false) ∧
    (d.writtenBack = false → d.completed = false ∧ d.brcompleted = false) ∧ TrapPlain d

/-- The bookkeeping of speculation. -/
structure Sound (s : Core) : Prop where
  levels : Levels s.slotNext s.specLevel s.enteringSpec s.live
  fresh : ∀ d ∈ s.fetchData, Fresh d
  pending : ∀ d ∈ s.live, Pending d

theorem forall_modify {P : InstDescript → Prop} {f : InstDescript → InstDescript}
    (hf : ∀ d, P d → P (f d)) {l : List InstDescript} (h : ∀ d ∈ l, P d) (i : Nat) :
    ∀ d ∈ l.modify i f, P d := by
  induction l generalizing i with
  | nil => simp
  | cons d l ih =>
    obtain ⟨hd, hl⟩ := List.forall_mem_cons.mp h
    cases i with
    | zero => exact List.forall_mem_cons.mpr ⟨hf d hd, hl⟩
    | succ i => exact List.forall_mem_cons.mpr ⟨hd, ih hl i⟩

theorem pending_writeOne (d : InstDescript) (h : Pending d) : Pending (writeOne d) := by
  unfold writeOne
  split
  · exact h
  · rename_i idle
    have idle : d.writtenBack = false := by simp_all
    obtain ⟨incomplete, notReady⟩ := h.2.1 idle
    unfold finish
    split
    · exact ⟨fun _ => incomplete, fun hw => Bool.noConfusion hw, h.2.2⟩
    · exact ⟨fun hb => absurd (notReady.symm.trans hb) (by decide),
        fun hw => Bool.noConfusion hw, h.2.2⟩

theorem pending_raiseEx (d : InstDescript) (h : Pending d) : Pending (raiseEx d) := h

/-- Marking the instructions in flight keeps the bookkeeping. -/
theorem Sound.marked {s t : Core} (h : Sound s) (live : List.Forall₂ Marked s.live t.live)
    (pending : ∀ d ∈ t.live, Pending d) (fetch : t.fetchData = s.fetchData)
    (last : t.lastIsBranch = s.lastIsBranch) (level : t.specLevel = s.specLevel)
    (entering : t.enteringSpec = s.enteringSpec) : Sound t := by
  refine ⟨?_, by rw [fetch]; exact h.fresh, pending⟩
  rw [level, entering]
  apply (levels_marked live h.levels).mono
  simp only [slotNext, fetch, last, imp_self]

theorem Sound.writeback {s : Core} (h : Sound s) (i : Nat) : Sound (s.writeback i) := by
  refine h.marked (t := s.writeback i) ?_ ?_ rfl rfl rfl rfl
  · exact List.rel_append (marked_modify marked_writeOne _ i) (marked_refl _)
  · intro d hd
    rcases List.mem_append.mp hd with hd | hd
    · have roq : ∀ e ∈ s.roq, Pending e := fun e he => h.pending e (List.mem_append_left _ he)
      exact forall_modify pending_writeOne roq i d hd
    · exact h.pending d (List.mem_append_right _ hd)

theorem Sound.markEx {s : Core} (h : Sound s) (i : Nat) : Sound (s.markEx i) := by
  refine h.marked (t := s.markEx i) ?_ ?_ rfl rfl rfl rfl
  · exact List.rel_append (marked_modify marked_raiseEx _ i) (marked_refl _)
  · intro d hd
    rcases List.mem_append.mp hd with hd | hd
    · have roq : ∀ e ∈ s.roq, Pending e := fun e he => h.pending e (List.mem_append_left _ he)
      exact forall_modify pending_raiseEx roq i d hd
    · exact h.pending d (List.mem_append_right _ hd)

theorem mapInst_live (s : Core) : s.mapInst.live = s.live := by
  unfold Core.mapInst
  split
  · rfl
  · rename_i d rest hd
    simp [Core.live, hd]

theorem Sound.mapInst {s : Core} (h : Sound s) : Sound s.mapInst := by
  have live := mapInst_live s
  apply h.marked
  · rw [live]
    exact marked_refl _
  · rw [live]
    exact h.pending
  all_goals
    unfold Core.mapInst
    split <;> rfl

theorem Sound.fetchInst {cfg : CoreConfig} {s : Core} (h : Sound s) (p : Prediction) :
    Sound (s.fetchInst cfg p) := by
  have first : Fresh (fetched cfg p s) := by
    refine ⟨rfl, rfl, rfl, rfl, ?_⟩
    intro trap
    simp only [fetched, Bool.not_eq_true'] at trap
    simp only [InstDescript.ctrl, fetched, trap, Bool.false_eq_true, if_false]
    decide
  refine ⟨?_, ?_, h.pending⟩
  · apply Levels.mono h.levels
    rintro (last | ⟨d, rest, hd, slot⟩)
    · exact .inl last
    · right
      exact ⟨d, _, by rw [Core.fetchInst, hd]; rfl, slot⟩
  · intro d hd
    rcases List.mem_append.mp hd with hd | hd
    · exact h.fresh d hd
    · rcases List.mem_cons.mp hd with rfl | hd
      · exact first
      · split at hd
        · rw [List.mem_singleton.mp hd]
          exact ⟨rfl, rfl, rfl, rfl, fun trap => Bool.noConfusion trap⟩
        · exact absurd hd List.not_mem_nil

theorem Sound.commit {s t : Core} (h : Sound s) (k : s.commit = some t) : Sound t := by
  simp only [Core.commit] at k
  split at k
  · cases k
    exact h
  · rename_i rs roq hr
    have live : s.live = rs :: (roq ++ s.decodeData) := by simp [Core.live, hr]
    split at k
    · cases k
    · split at k
      · cases k
        exact h
      · split at k
        · cases k
          refine ⟨trivial, ?_, ?_⟩
          · simp [pipelineFlush, tracerRecover]
          · simp [Core.live, pipelineFlush, tracerRecover]
        · cases k
          have levels := h.levels
          have pending := h.pending
          rw [live] at levels pending
          exact ⟨levels.tail, h.fresh, fun d hd => pending d (List.mem_cons_of_mem _ hd)⟩

theorem kept_append {b : InstDescript} {q r : List InstDescript} (h : q ≠ []) :
    kept b (q ++ r) = kept b q := by
  cases q with
  | nil => exact absurd rfl h
  | cons d q => simp [kept]

theorem kept_length (b : InstDescript) (q : List InstDescript) :
    (kept b q).length ≤ q.length := by
  simp only [kept]
  split <;> simp

theorem kept_drop (b : InstDescript) (q : List InstDescript) :
    kept b q ++ q.drop (kept b q).length = q := by
  simp only [kept]
  split
  · rfl
  · cases q <;> simp

/-- A mispredicted branch that has written back is not resolved yet. -/
theorem Sound.isOpen {s : Core} {older rest : List InstDescript} {rs : InstDescript}
    (h : Sound s) (live : s.live = older ++ rs :: rest) (ready : rs.brcompleted = true)
    (mis : rs.misPredict = true) : unresolved rs = true := by
  have pending := h.pending rs (by simp [live])
  simp [unresolved, mis, pending.1 ready]

/-- `brerr_recover` keeps the delay slot, unless the branch annuls it. -/
theorem Sound.brerrRecover_front {s u : Core} {older rest younger : List InstDescript}
    {rs : InstDescript} (h : Sound s) (live : s.live = older ++ rs :: rest)
    (ctrl : rs.ctrl = true) :
    u.brerrRecover older (resolve rs) younger =
      { u with roq := older ++ resolve rs :: kept rs younger }.tracerRecover rs.specLevel
        rs.recoverPC := by
  have plain : (resolve rs).trap = false := by
    cases trap : (resolve rs).trap with
    | false => rfl
    | true =>
      have pending := h.pending rs (by simp [live])
      exact absurd ((pending.2.2 trap).symm.trans ctrl) (by decide)
  have keeps : (resolve rs).likely = rs.likely := rfl
  have front : (if !(resolve rs).trap && !(resolve rs).likely then younger.take 1 else []) =
      kept rs younger := by
    cases hl : rs.likely <;> simp [kept, keeps, plain, hl]
  simp only [brerrRecover, front]
  rfl

theorem Sound.checkBrq {s : Core} (h : Sound s) : Sound s.checkBrq := by
  rcases checkBrq_cases s with same | ⟨older, rs, younger, roq, ctrl, ready, resolved⟩
  · rw [same]
    exact h
  · have live : s.live = older ++ rs :: (younger ++ s.decodeData) := by simp [Core.live, roq]
    have pending : Pending rs := h.pending rs (by simp [live])
    have written : rs.writtenBack ≠ false := by
      intro idle
      exact absurd ((pending.2.1 idle).2.symm.trans ready) (by decide)
    have pending' : Pending (resolve rs) :=
      ⟨fun hb => Bool.noConfusion hb, fun hw => absurd hw written, pending.2.2⟩
    have others : ∀ d ∈ older ++ younger, Pending d := by
      intro d hd
      apply h.pending d
      rw [live]
      simp only [List.mem_append, List.mem_cons] at hd ⊢
      tauto
    rcases resolved with ⟨-, next⟩ | ⟨mis, more, next⟩
    · rw [next]
      refine h.marked (t := { s with roq := older ++ resolve rs :: younger }) ?_ ?_ rfl rfl rfl rfl
      · rw [live]
        simp only [Core.live, List.append_assoc, List.cons_append]
        exact List.rel_append (marked_refl _) (.cons (marked_resolve rs) (marked_refl _))
      · intro d hd
        simp only [Core.live, List.mem_append, List.mem_cons] at hd
        rcases hd with (hd | rfl | hd) | hd
        · exact others d (List.mem_append_left _ hd)
        · exact pending'
        · exact others d (List.mem_append_right _ hd)
        · exact h.pending d (List.mem_append_right _ hd)
    · have levels := h.levels
      rw [live] at levels
      rw [next, h.brerrRecover_front live ctrl]
      refine ⟨?_, ?_, ?_⟩
      · simp only [Core.live, tracerRecover, List.append_nil]
        rw [← kept_append more]
        exact levels.cut (h.isOpen live ready mis) (marked_resolve rs) rfl fun _ => by simp [more]
      · simp [tracerRecover]
      · intro d hd
        simp only [Core.live, tracerRecover, List.append_nil, List.mem_append,
          List.mem_cons] at hd
        rcases hd with hd | rfl | hd
        · exact others d (List.mem_append_left _ hd)
        · exact pending'
        · apply others d
          apply List.mem_append_right
          simp only [kept] at hd
          split at hd
          · exact absurd hd List.not_mem_nil
          · exact List.mem_of_mem_take hd

/-- The instruction that decode knows as a delay slot is no branch. -/
theorem slot_plain {s : Core} {d d' : InstDescript} {rest : List InstDescript}
    (fetched : s.fetchData = d :: rest) (slot : s.delaySlot d = some d') (h : s.slotNext) :
    d'.bd = true ∧ d'.ctrl = false := by
  rcases delaySlot_cases slot with ⟨last, rfl⟩ | ⟨-, bd, plain, -⟩
  · rcases h with h | ⟨e, rest', he, bd, plain⟩
    · exact absurd (last.symm.trans h) (by decide)
    · rw [fetched] at he
      cases he
      exact ⟨bd, plain⟩
  · exact ⟨bd, plain⟩

theorem fresh_slot {s : Core} {d d' : InstDescript} (slot : s.delaySlot d = some d')
    (h : Fresh d) : Fresh d' := by
  rcases delaySlot_cases slot with ⟨-, rfl⟩ | ⟨-, -, plain, ir, op, rfl, -⟩
  · exact h
  · exact ⟨h.1, h.2.1, h.2.2.1, h.2.2.2.1, fun _ => plain⟩

/-- An unresolved branch that was just decoded. -/
theorem deepens_behind {x : Executed} {pp : Word} {level : Nat} {entering mis : Bool}
    {rp dp : Word} (h : Deepens x pp level entering mis rp dp) (fresh : x.inst.misPredict = false)
    (here : x.inst.specLevel = x.core.specLevel) (last : x.inst.ctrl = true → slot)
    (isOpen : mis = true) :
    Behind slot level entering (decoded x mis dp) [] := by
  rcases h with ⟨-, -, -, same⟩ | ⟨-, ctrl, -, -, -, -, deeper⟩ | ⟨-, -, same, -⟩
  · exact absurd (isOpen.symm.trans (same.trans fresh)) (by decide)
  · rcases deeper with ⟨likely, deeper, -⟩ | ⟨likely, same, enters⟩
    · refine ⟨fun _ => by omega, fun plain => ?_⟩
      exact absurd (likely.symm.trans plain) (by decide)
    · refine ⟨fun hl => absurd (likely.symm.trans hl) (by decide), fun _ => ⟨enters, ?_, last ctrl⟩⟩
      exact same.trans here.symm
  · exact absurd (isOpen.symm.trans (same.trans fresh)) (by decide)

theorem Sound.decodeInst {cfg : CoreConfig} {p : Prediction} {s t : Core} (h : Sound s)
    (k : decodeInst cfg p s = some t) : Sound t := by
  rcases decodeInst_cases k with rfl | ⟨d, rest, d', fetched, slot, next⟩
  · exact h
  have queue : ∀ e ∈ d :: rest, Fresh e := fetched ▸ h.fresh
  obtain ⟨freshd, freshRest⟩ := List.forall_mem_cons.mp queue
  have fresh' := fresh_slot slot freshd
  rcases next with ⟨-, rfl⟩ | ⟨x, hx, rfl⟩
  · refine ⟨h.levels.mono fun now => .inr ⟨d', rest, rfl, slot_plain fetched slot now⟩, ?_,
      h.pending⟩
    exact List.forall_mem_cons.mpr ⟨fresh', freshRest⟩
  · obtain ⟨a, r, q, saves, core, inst, -, -⟩ := execute_spec hx
    simp only [atDecode] at core inst
    obtain ⟨f, l, n, c, sr, level, entering, rp, mis, dp, pp, enq, redirects, deepens⟩ :=
      enqueue_spec cfg p x
    have level₀ : x.core.specLevel = s.specLevel := by rw [core]
    have entering₀ : x.core.enteringSpec = s.enteringSpec := by rw [core]
    have here : x.inst.specLevel = s.specLevel := by rw [inst]
    have right : x.inst.misPredict = false := by rw [inst]; exact fresh'.1
    have sameCtrl : x.inst.ctrl = d'.ctrl := by rw [inst]; rfl
    have live : (enqueue cfg p x).live =
        s.live ++ [decoded x mis dp] := by
      rw [enq, core]
      simp [Core.live]
    have wrong : mis = true → x.inst.ctrl = true := by
      intro hm
      rcases deepens with ⟨-, -, -, same⟩ | ⟨-, ctrl, -⟩ | ⟨-, -, same, -⟩
      · exact absurd (hm.symm.trans (same.trans right)) (by decide)
      · exact ctrl
      · exact absurd (hm.symm.trans (same.trans right)) (by decide)
    refine ⟨?_, ?_, ?_⟩
    · rw [live, show (enqueue cfg p x).specLevel = level by rw [enq],
        show (enqueue cfg p x).enteringSpec = entering by rw [enq]]
      apply Levels.push (d := decoded x mis dp) h.levels here
      · rcases deepens with ⟨-, e, -⟩ | ⟨-, -, -, -, -, -, ⟨-, e, -⟩ | ⟨-, e, -⟩⟩ | ⟨-, -, -, e, -⟩ <;>
          omega
      · intro enter
        rcases deepens with ⟨-, e, -, same⟩ | ⟨off, -⟩ | ⟨off, -⟩
        · exact ⟨by omega, same.trans right⟩
        · exact absurd (off.symm.trans (entering₀.trans enter)) (by decide)
        · exact absurd (off.symm.trans (entering₀.trans enter)) (by decide)
      · intro now
        exact sameCtrl.trans (slot_plain fetched slot now).2
      · exact wrong
      · intro isOpen
        have hm : mis = true := by
          simp only [unresolved, Bool.and_eq_true] at isOpen
          exact isOpen.1
        apply deepens_behind deepens right (here.trans level₀.symm) _ hm
        intro ctrl
        left
        rw [enq]
        simp [ctrl]
    · have tail : l = [] ∨ l = rest := by
        rcases redirects with ⟨-, -, e, -⟩ | ⟨-, -, e, -⟩
        · exact .inl e
        · right
          rw [e, core]
          rfl
      rw [show (enqueue cfg p x).fetchData = l by rw [enq]]
      rcases tail with rfl | rfl
      · exact fun _ he => absurd he List.not_mem_nil
      · exact freshRest
    · rw [live]
      intro e he
      rcases List.mem_append.mp he with he | he
      · exact h.pending e he
      · rw [List.mem_singleton.mp he, decoded, inst]
        obtain ⟨-, hc, hb, -, plain⟩ := fresh'
        exact ⟨fun _ => hc, fun _ => ⟨hc, hb⟩, plain⟩

/-- The bookkeeping is kept by every step. -/
theorem Sound.act {cfg : CoreConfig} {a : Act} {s t : Core} (h : Sound s)
    (k : act cfg s a = some t) : Sound t := by
  cases a with
  | commit => exact h.commit k
  | checkBrq => cases k; exact h.checkBrq
  | writeback i => cases k; exact h.writeback i
  | markEx i => cases k; exact h.markEx i
  | mapInst => cases k; exact h.mapInst
  | decode p => exact h.decodeInst k
  | fetch p => cases k; exact h.fetchInst p

theorem sound_start (cfg : CoreConfig) (arch : Arch) : Sound (start cfg arch) :=
  ⟨trivial, fun _ hd => absurd hd List.not_mem_nil, fun _ hd => absurd hd List.not_mem_nil⟩

end Godson.Core

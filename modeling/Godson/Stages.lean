import Godson.Core

/-! What one step of the core does: one lemma for every part of a round of the decode
loop, and the instructions in flight that a step only marks. -/
namespace Godson.Core

open Mips UndoLog

variable {cfg : CoreConfig}

/-- What holds at the start and is kept by every step holds at the end of a run. -/
theorem run_invariant {P : Core → Prop} {arch : Arch} {acts : List Act} {s : Core}
    (first : P (start cfg arch)) (step : ∀ s a t, P s → act cfg s a = some t → P t)
    (h : run cfg arch acts = some s) : P s := by
  have from_any : ∀ s₀, P s₀ → acts.foldlM (act cfg) s₀ = some s → P s := by
    clear h
    induction acts with
    | nil =>
      intro s₀ h₀ h
      cases h
      exact h₀
    | cons a acts ih =>
      intro s₀ h₀ h
      rw [List.foldlM_cons, Option.bind_eq_bind, Option.bind_eq_some_iff] at h
      obtain ⟨s₁, ha, h⟩ := h
      exact ih s₁ (step s₀ a s₁ h₀ ha) h
  exact from_any _ first h

/-- Speculative writes reach the speculative layers only. -/
theorem foldl_specPut (ws : List Write) (s : Core) : ∃ r l,
    ws.foldl (specPut cfg) s = { s with specRegs := r, storeHtable := l } := by
  induction ws generalizing s with
  | nil => exact ⟨s.specRegs, s.storeHtable, rfl⟩
  | cons w ws ih =>
    have one : ∃ r l, specPut cfg s w = { s with specRegs := r, storeHtable := l } := by
      cases w with
      | store w addr v =>
        simp only [specPut, specStore]
        split
        · exact ⟨s.specRegs, s.storeHtable, rfl⟩
        · split
          · exact ⟨s.specRegs, _, rfl⟩
          · exact ⟨s.specRegs, _, rfl⟩
      | _ => exact ⟨_, s.storeHtable, rfl⟩
    obtain ⟨r, l, hw⟩ := one
    obtain ⟨r', l', hws⟩ := ih (specPut cfg s w)
    exact ⟨r', l', by rw [List.foldl_cons, hws, hw]⟩

theorem effect_separate (cfg : CoreConfig) (s : Core) (d : InstDescript) :
    Separate (effect cfg s d).writes :=
  (impl_saved _ _ _ _ _).1

/-- Execution of an instruction: on the right path it writes the architectural state and
saves what it overwrites, on a wrong path it leaves the architectural state alone. -/
theorem execute_spec {s : Core} {d : InstDescript} {x : Executed}
    (h : execute cfg s d = some x) : ∃ a r l saves,
      x.core = { s with arch := a, targetPC := (effect cfg s d).target.getD s.targetPC
                        specRegs := r, storeHtable := l } ∧
      x.inst = { d with before := s.arch.clearZero, specLevel := s.specLevel, tempSave := saves } ∧
      (x.isJump = (effect cfg s d).isJump ∧
        x.npc = if x.isJump then x.core.targetPC else d.pc + 4) ∧
      ((s.specLevel = 0 ∧ (effect cfg s d).fault = none ∧
          (a, saves) = s.arch.clearZero.putAll (effect cfg s d).writes) ∨
        (s.specLevel ≠ 0 ∧ a = s.arch.clearZero ∧ saves = [])) := by
  simp only [execute] at h
  split at h
  · rename_i level
    split at h
    · cases h
    · rename_i sound
      cases h
      simp only [Bool.or_eq_true, not_or, Bool.not_eq_true,
        Option.isSome_eq_false_iff, Option.isNone_iff_eq_none] at sound
      exact ⟨_, s.specRegs, s.storeHtable, _, rfl, rfl, ⟨rfl, rfl⟩, .inl ⟨level, sound.1, rfl⟩⟩
  · rename_i level
    cases h
    obtain ⟨r, l, hw⟩ := @foldl_specPut cfg (effect cfg s d).writes
      { s with arch := s.arch.clearZero, targetPC := (effect cfg s d).target.getD s.targetPC }
    refine ⟨s.arch.clearZero, r, l, [], hw, rfl, ⟨rfl, ?_⟩, .inr ⟨level, rfl, rfl⟩⟩
    rw [hw]

/-- The possible rounds of the decode loop: nothing to decode, a trap instruction that
waits, or an instruction that executes. -/
theorem decodeInst_cases {p : Prediction} {s t : Core} (h : decodeInst cfg p s = some t) :
    t = s ∨ ∃ d rest d', s.fetchData = d :: rest ∧ s.delaySlot d = some d' ∧
      (d'.op.has .trap = true ∧ t = s.atDecode d' rest ∨
        ∃ x, execute cfg (s.atDecode d' rest) d' = some x ∧ t = enqueue cfg p x) := by
  simp only [decodeInst] at h
  split at h
  · left
    exact (Option.some.inj h).symm
  · rename_i d rest fetched
    right
    split at h
    · cases h
    · rename_i d' slot
      refine ⟨d, rest, d', fetched, slot, ?_⟩
      split at h
      · rename_i trap
        left
        simp only [Bool.and_eq_true] at trap
        exact ⟨trap.1, (Option.some.inj h).symm⟩
      · split at h
        · cases h
        · obtain ⟨x, hx, ht⟩ := Option.map_eq_some_iff.mp h
          exact .inr ⟨x, hx, ht.symm⟩

/-- The instruction that a round of `decode_stage` executes, with the state before it. -/
def executing (s : Core) : Option (Core × InstDescript) :=
  match s.fetchData with
  | [] => none
  | d :: rest =>
    match s.delaySlot d with
    | none => none
    | some d =>
      let s := s.atDecode d rest
      if d.op.has .trap && !s.roq.isEmpty then none
      else if d.op.has .trap && s.specLevel != 0 then none
      else some (s, d)

theorem executing_some {s s' : Core} {d : InstDescript} (h : s.executing = some (s', d)) :
    ∃ d₀ rest, s.fetchData = d₀ :: rest ∧ s.delaySlot d₀ = some d ∧ s' = s.atDecode d rest := by
  unfold executing at h
  split at h
  · cases h
  · rename_i d₀ rest queue
    split at h
    · cases h
    · rename_i d' slot
      dsimp only at h
      split_ifs at h
      cases h
      exact ⟨d₀, rest, queue, slot, rfl⟩

/-- A round of decode executes the instruction that is up, or executes nothing. -/
theorem decodeInst_executing {p : Prediction} {s t : Core} (h : decodeInst cfg p s = some t) :
    s.executing = none ∧ (t = s ∨ ∃ d rest, t = s.atDecode d rest) ∨
      ∃ s' d x, s.executing = some (s', d) ∧ execute cfg s' d = some x ∧ t = enqueue cfg p x := by
  unfold decodeInst at h
  unfold executing
  cases queue : s.fetchData with
  | nil =>
    simp only [queue] at h
    cases h
    exact .inl ⟨rfl, .inl rfl⟩
  | cons d rest =>
    cases slot : s.delaySlot d with
    | none => simp [queue, slot] at h
    | some d' =>
      simp only [queue, slot] at h ⊢
      split at h
      · rename_i waits
        cases h
        exact .inl ⟨if_pos waits, .inr ⟨d', rest, rfl⟩⟩
      · rename_i ready
        split at h
        · cases h
        · rename_i right
          obtain ⟨x, ran, rfl⟩ := Option.map_eq_some_iff.mp h
          exact .inr ⟨s.atDecode d' rest, d', x, by rw [if_neg ready, if_neg right], ran, rfl⟩

theorem decodeInst_executed {p : Prediction} {s s' : Core} {d : InstDescript} {x : Executed}
    (up : s.executing = some (s', d)) (ran : execute cfg s' d = some x) :
    decodeInst cfg p s = some (enqueue cfg p x) := by
  unfold executing at up
  unfold decodeInst
  split at up
  · cases up
  · rename_i queue
    split at up
    · cases up
    · rename_i slot
      dsimp only at up
      split_ifs at up with waits wrong
      cases up
      simp only [queue, slot]
      rw [if_neg waits, if_neg wrong, ran, Option.map_some]

theorem delaySlot_cases {s : Core} {d d' : InstDescript} (h : s.delaySlot d = some d') :
    s.lastIsBranch = false ∧ d' = d ∨
      s.lastIsBranch = true ∧ d'.bd = true ∧ d'.ctrl = false ∧
        ∃ ir op, d' = { d with ir, op, bd := true } ∧
          (ir = d.ir ∧ op = d.op ∨
            s.specLevel ≠ 0 ∧ d.ctrl = true ∧ ir = nopInst ∧ op = mdSetOpcode nopInst) := by
  simp only [delaySlot] at h
  split at h
  · rename_i last
    left
    exact ⟨by simpa using last, (Option.some.inj h).symm⟩
  · rename_i last
    right
    refine ⟨by simpa using last, ?_⟩
    split at h
    · rename_i plain
      cases h
      exact ⟨rfl, by simpa [InstDescript.ctrl] using plain, d.ir, d.op, rfl, .inl ⟨rfl, rfl⟩⟩
    · rename_i branch
      split at h
      · cases h
      · rename_i wrong
        cases h
        have plain : (mdSetOpcode nopInst).has .ctrl = false := by decide
        exact ⟨rfl, plain, nopInst, mdSetOpcode nopInst, rfl,
          .inr ⟨wrong, by simpa using branch, rfl, rfl⟩⟩

/-- Decode schedules a redirection of the fetch unit. -/
def redirects (cfg : CoreConfig) (p : Prediction) (x : Executed) : Bool :=
  prediction cfg p x != x.npc && cfg.predPerfect || x.inst.ctrl && direction cfg p x

/-- Whether decode redirects the fetch unit, or schedules that: the new fetch PC and
fetch queue, the flag and the PC of the redirection, and the prediction that counts. -/
def Redirects (cfg : CoreConfig) (p : Prediction) (x : Executed) (pp f : Word)
    (l : List InstDescript) (n : Bool) (c : Word) : Prop :=
  (x.core.needToCorrectPc = true ∧ f = x.core.correctPC ∧ l = [] ∧ n = false ∧
    pp = prediction cfg p x) ∨
  (x.core.needToCorrectPc = false ∧ f = x.core.fetchRegPC ∧ l = x.core.fetchData.tail ∧
    n = redirects cfg p x ∧
    (redirects cfg p x = true → c = if cfg.predPerfect then afterSlot x else prediction cfg p x) ∧
    pp = if redirects cfg p x && cfg.predPerfect then x.npc else prediction cfg p x)

/-- The descriptor that decode leaves of an executed instruction. -/
def decoded (x : Executed) (mis : Bool) (dp : Word) : InstDescript :=
  { x.inst with misPredict := mis, recoverPC := dp }

/-- Whether decode enters a deeper level, now or behind the delay slot. -/
def Deepens (x : Executed) (pp : Word) (level : Nat) (entering mis : Bool) (rp dp : Word) : Prop :=
  (x.core.enteringSpec = true ∧ level = x.core.specLevel + 1 ∧ entering = false ∧
    mis = x.inst.misPredict) ∨
  (x.core.enteringSpec = false ∧ x.inst.ctrl = true ∧ pp ≠ x.npc ∧ mis = true ∧
    rp = afterSlot x ∧ dp = afterSlot x ∧
    (x.inst.likely = true ∧ level = x.core.specLevel + 1 ∧ entering = false ∨
      x.inst.likely = false ∧ level = x.core.specLevel ∧ entering = true)) ∨
  (x.core.enteringSpec = false ∧ (x.inst.ctrl = true → pp = x.npc) ∧ mis = x.inst.misPredict ∧
    level = x.core.specLevel ∧ entering = false)

theorem correctPc_spec (cfg : CoreConfig) (p : Prediction) (x : Executed) : ∃ f l n c pp,
    correctPc cfg p x = ({ x.core with fetchRegPC := f, fetchData := l, needToCorrectPc := n
                                       correctPC := c }, pp) ∧
      Redirects cfg p x pp f l.tail n c := by
  simp only [correctPc]
  split
  · rename_i need
    refine ⟨_, _, _, _, _, rfl, .inl ⟨need, rfl, ?_, rfl, rfl⟩⟩
    cases x.core.fetchData <;> rfl
  · rename_i need
    have idle : x.core.needToCorrectPc = false := by simpa using need
    have redirect : (prediction cfg p x != x.npc && cfg.predPerfect ||
        x.inst.ctrl && direction cfg p x) = redirects cfg p x := rfl
    rw [redirect]
    cases hr : redirects cfg p x with
    | true =>
      cases perfect : cfg.predPerfect with
      | true => exact ⟨_, _, _, _, _, rfl, .inr ⟨idle, rfl, rfl, hr.symm, by simp [perfect],
          by simp [hr, perfect]⟩⟩
      | false => exact ⟨_, _, _, _, _, rfl, .inr ⟨idle, rfl, rfl, hr.symm, by simp [perfect],
          by simp [perfect]⟩⟩
    | false => exact ⟨_, _, _, _, _, rfl, .inr ⟨idle, rfl, rfl, idle.trans hr.symm, by simp [hr],
        by simp [hr]⟩⟩

theorem enterSpec_spec (x : Executed) (s : Core) (pp : Word)
    (entering : s.enteringSpec = x.core.enteringSpec) (level : s.specLevel = x.core.specLevel) :
    ∃ sr level entering rp mis dp,
      enterSpec x s pp = ({ s with specRegs := sr, specLevel := level, enteringSpec := entering
                                   recoverPC := rp }, decoded x mis dp) ∧
      Deepens x pp level entering mis rp dp := by
  simp only [enterSpec]
  split
  · rename_i enter
    rw [entering] at enter
    exact ⟨_, _, _, _, _, _, rfl, .inl ⟨enter, congrArg (· + 1) level, rfl, rfl⟩⟩
  · rename_i enter
    have none : x.core.enteringSpec = false := by simpa [entering] using enter
    split
    · rename_i wrong
      simp only [Bool.and_eq_true, bne_iff_ne, ne_eq] at wrong
      split
      · rename_i likely
        exact ⟨_, _, _, _, _, _, rfl, .inr (.inl ⟨none, wrong.1, wrong.2, rfl, rfl, rfl, .inl
          ⟨likely, congrArg (· + 1) level, entering.trans none⟩⟩)⟩
      · rename_i likely
        have likely : x.inst.likely = false := Bool.eq_false_iff.mpr likely
        exact ⟨_, _, _, _, _, _, rfl, .inr (.inl ⟨none, wrong.1, wrong.2, rfl, rfl, rfl, .inr
          ⟨likely, level, rfl⟩⟩)⟩
    · rename_i right
      simp only [Bool.and_eq_true, bne_iff_ne, ne_eq, not_and, not_not] at right
      exact ⟨_, _, _, _, _, _, rfl, .inr (.inr ⟨none, right, rfl, level, entering.trans none⟩)⟩

theorem enqueue_spec (cfg : CoreConfig) (p : Prediction) (x : Executed) :
    ∃ f l n c sr level entering rp mis dp pp,
      enqueue cfg p x = { x.core with
        lastIsBranch := x.inst.ctrl || x.core.lastIsBranch, fetchRegPC := f, fetchData := l
        needToCorrectPc := n, correctPC := c, specRegs := sr, specLevel := level
        enteringSpec := entering, recoverPC := rp
        decodeData := x.core.decodeData ++ [decoded x mis dp] } ∧
      Redirects cfg p x pp f l n c ∧ Deepens x pp level entering mis rp dp := by
  have branch : (if x.inst.ctrl then { x with core := { x.core with lastIsBranch := true } } else x) =
      { x with core := { x.core with lastIsBranch := x.inst.ctrl || x.core.lastIsBranch } } := by
    cases x.inst.ctrl <;> rfl
  simp only [enqueue, branch]
  obtain ⟨f, l, n, c, pp, hc, redirects⟩ := correctPc_spec cfg p
    { x with core := { x.core with lastIsBranch := x.inst.ctrl || x.core.lastIsBranch } }
  rw [hc]
  obtain ⟨sr, level, entering, rp, mis, dp, he, deepens⟩ := enterSpec_spec
    { x with core := { x.core with lastIsBranch := x.inst.ctrl || x.core.lastIsBranch } }
    { x.core with lastIsBranch := x.inst.ctrl || x.core.lastIsBranch, fetchRegPC := f
                  fetchData := l, needToCorrectPc := n, correctPC := c } pp rfl rfl
  simp only [he]
  exact ⟨f, l.tail, n, c, sr, level, entering, rp, mis, dp, pp, rfl, redirects, deepens⟩

/-- `commit_stage` gives up the reorder queue. -/
def flushes (s : Core) : Bool :=
  match s.roq with
  | [] => false
  | rs :: _ => !rs.trap && rs.completed && rs.op.has .mem && rs.ex

/-- The possible rounds of the commit loop: nothing, a flush, or the head retires. -/
theorem commit_cases {s t : Core} (e : s.commit = some t) :
    flushes s = false ∧ t = s ∨
    flushes s = true ∧ (∃ rs, t = s.pipelineFlush rs) ∨
    flushes s = false ∧ ∃ rs roq, s.roq = rs :: roq ∧ rs.completed = true ∧
      t = { s with roq, retired := s.retired ++ [rs] } := by
  unfold Core.commit at e
  unfold flushes
  cases queue : s.roq with
  | nil =>
    simp only [queue] at e
    cases e
    exact .inl ⟨rfl, rfl⟩
  | cons rs roq =>
    simp only [queue] at e
    split_ifs at e with trap idle ex
    · cases e
      exact .inl ⟨by simp_all, rfl⟩
    · cases e
      exact .inr (.inl ⟨by simp_all, rs, rfl⟩)
    · cases e
      refine .inr (.inr ⟨?_, rs, roq, rfl, by simpa using idle, rfl⟩)
      cases mem : rs.op.has .mem <;> simp_all

/-- The branch queue resolves nothing, or its oldest completed branch. -/
theorem checkBrq_cases (s : Core) : s.checkBrq = s ∨ ∃ older rs younger,
    s.roq = older ++ rs :: younger ∧ rs.ctrl = true ∧ rs.brcompleted = true ∧
      (rs.misPredict = false ∧ s.checkBrq = { s with roq := older ++ resolve rs :: younger } ∨
        rs.misPredict = true ∧ younger ≠ [] ∧ s.checkBrq =
          { s with roq := older ++ resolve rs :: younger }.brerrRecover older (resolve rs)
            younger) := by
  simp only [checkBrq]
  split
  · exact .inl rfl
  · rename_i rs younger hq
    have split : s.roq = s.roq.takeWhile waiting ++ rs :: younger := by
      rw [← hq, List.takeWhile_append_dropWhile]
    have ready : waiting rs = false := by
      have first := List.head?_dropWhile_not waiting s.roq
      rw [hq] at first
      simpa using first
    simp only [waiting, Bool.not_eq_eq_eq_not, Bool.not_false, Bool.and_eq_true] at ready
    split
    · rename_i go
      right
      refine ⟨_, rs, younger, split, ready.1, ready.2, ?_⟩
      split
      · rename_i mis
        right
        refine ⟨mis, ?_, rfl⟩
        simpa [mis] using go
      · rename_i mis
        exact .inl ⟨Bool.eq_false_iff.mpr mis, rfl⟩
    · exact .inl rfl

/-- A step of writeback, of the load/store queue or of the branch queue only marks an
instruction, and never takes a completion back. -/
def Marked (d d' : InstDescript) : Prop :=
  (∃ w b c e, d' = { d with writtenBack := w, brcompleted := b, completed := c, ex := e }) ∧
    (d.completed = true → d'.completed = true)

theorem Marked.refl (d : InstDescript) : Marked d d := ⟨⟨_, _, _, _, rfl⟩, id⟩

theorem Marked.trans {d e f : InstDescript} (h : Marked d e) (k : Marked e f) : Marked d f := by
  obtain ⟨⟨_, _, _, _, rfl⟩, done⟩ := h
  obtain ⟨⟨_, _, _, _, rfl⟩, done'⟩ := k
  exact ⟨⟨_, _, _, _, rfl⟩, fun hd => done' (done hd)⟩

theorem marked_refl (l : List InstDescript) : List.Forall₂ Marked l l :=
  List.forall₂_same.mpr fun d _ => .refl d

theorem marked_modify {f : InstDescript → InstDescript} (hf : ∀ d, Marked d (f d))
    (l : List InstDescript) (i : Nat) : List.Forall₂ Marked l (l.modify i f) := by
  induction l generalizing i with
  | nil => simp
  | cons d l ih =>
    cases i with
    | zero => exact .cons (hf d) (marked_refl l)
    | succ i => exact .cons (.refl d) (ih i)

theorem marked_raiseEx (d : InstDescript) : Marked d (raiseEx d) := ⟨⟨_, _, _, _, rfl⟩, id⟩

theorem marked_resolve (d : InstDescript) : Marked d (resolve d) :=
  ⟨⟨_, _, _, _, rfl⟩, fun _ => rfl⟩

theorem marked_writeOne (d : InstDescript) : Marked d (writeOne d) := by
  unfold writeOne
  split
  · exact .refl d
  · unfold finish
    split
    · exact ⟨⟨_, _, _, _, rfl⟩, id⟩
    · exact ⟨⟨_, _, _, _, rfl⟩, fun _ => rfl⟩

end Godson.Core

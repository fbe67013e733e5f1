import Godson.Sequential

/-! The right path is the way of the sequential machine, whatever the predictor answers
and however long the instructions take. The state of the machine behind the youngest
instruction of the right path tells where fetch has to go on: at once, behind a delay
slot, or when an unresolved branch gets its turn. -/
namespace Godson.Core

open Mips UndoLog

variable {cfg : CoreConfig} {s t : Core} {arch : Arch} {τ : Seq}

/-- Where decode will go on in the program. -/
def resume (s : Core) : Word := if s.nextHalf then s.nextPC + 4 else s.nextPC

/-- The front end is where the sequential machine is. -/
structure Front (s : Core) (τ : Seq) : Prop where
  arch : s.arch.clearZero = τ.arch.clearZero
  deep : s.specLevel ≠ 0 → ∀ b ∈ s.live, Opener b → b.recoverPC = τ.pc ∧ τ.npc = τ.pc + 4
  here : s.specLevel = 0 → s.resume = τ.pc
  entering : s.specLevel = 0 → s.enteringSpec = true →
    ∀ b ∈ s.live, Opener b → b.recoverPC = τ.npc
  behind : s.specLevel = 0 → s.enteringSpec = false →
    τ.npc = if s.needToCorrectPc then s.correctPC else τ.pc + 4
  slot : s.specLevel = 0 → ¬ s.slotNext → τ.npc = τ.pc + 4

/-- The core follows the sequential machine. -/
def Follows (cfg : CoreConfig) (arch : Arch) (s : Core) : Prop :=
  ∃ τ, Tracks cfg (.start cfg arch) (right s.line) τ ∧ Front s τ

section Regular

/-- What decode says about the direction of a branch that it does not know. -/
def guess (d : InstDescript) : Bool := d.op.has .uncond || d.likely || d.predTaken

/-- A branch that goes wrong without being noticed. A known branch is not taken and should
annul its delay slot; or a branch to its own delay slot is guessed wrong, so that the
predicted PC is right and the instruction behind the delay slot is not. -/
def Slip (cfg : CoreConfig) (p : Prediction) (s : Core) (d : InstDescript) : Prop :=
  if p.draining || cfg.predPerfect then d.likely = true ∧ (effect cfg s d).isJump = false
  else (effect cfg s d).target = some (d.pc + 4) ∧ guess d ≠ (effect cfg s d).isJump

/-- A step that stays on the sequential program. Decode meets the words that are in memory
now and no branch that slips; no delay slot is flushed, and a flush spoils no signalling NaN. -/
def Regular (cfg : CoreConfig) (s : Core) : Act → Prop
  | .decode p => s.specLevel = 0 → ∀ d rest d', s.fetchData = d :: rest → s.delaySlot d = some d' →
      (d'.half = false → d'.ir = codeAt cfg s.arch.mem d'.pc) ∧
        (d'.ctrl = true → ¬ Slip cfg p s d')
  | .commit => ∀ rs roq, s.roq = rs :: roq → rs.completed = true → rs.op.has .mem = true →
      rs.ex = true → rs.bd = false ∧ Unspoiled s.live
  | _ => True

end Regular

section Queues

theorem Opener.marked {b b' : InstDescript} (m : Marked b b') (h : Opener b') :
    Opener b ∧ b.recoverPC = b'.recoverPC := by
  have mis := h.mispredicted
  have incomplete := h.incomplete
  have level := h.2
  obtain ⟨⟨_, _, _, _, rfl⟩, done⟩ := m
  refine ⟨⟨?_, level⟩, rfl⟩
  cases hc : b.completed with
  | true => exact absurd (incomplete.symm.trans (done hc)) (by decide)
  | false => simp [unresolved, show b.misPredict = true from mis, hc]

/-- Instructions that are only marked, or leave. -/
theorem Front.keep (h : Front s τ) {retired roq decodeData : List InstDescript}
    (old : ∀ d ∈ roq ++ decodeData, ∃ b ∈ s.live, Marked b d) :
    Front { s with retired, roq, decodeData } τ := by
  refine ⟨h.arch, ?_, h.here, ?_, h.behind, h.slot⟩
  · intro deep b' hb' opener
    obtain ⟨b, hb, marked⟩ := old b' hb'
    obtain ⟨opener, same⟩ := opener.marked marked
    rw [← same]
    exact h.deep deep b hb opener
  · intro zero entering b' hb' opener
    obtain ⟨b, hb, marked⟩ := old b' hb'
    obtain ⟨opener, same⟩ := opener.marked marked
    rw [← same]
    exact h.entering zero entering b hb opener

theorem Follows.keep (h : Follows cfg arch s) {retired roq decodeData : List InstDescript}
    (line : List.Forall₂ Marked s.line (retired ++ (roq ++ decodeData)))
    (old : ∀ d ∈ roq ++ decodeData, ∃ b ∈ s.live, Marked b d) :
    Follows cfg arch { s with retired, roq, decodeData } := by
  obtain ⟨τ, tracks, front⟩ := h
  exact ⟨τ, tracks_marked (right_marked line) tracks, front.keep old⟩

theorem Follows.modify (h : Follows cfg arch s) {f : InstDescript → InstDescript}
    (mark : ∀ d, Marked d (f d)) (i : Nat) :
    Follows cfg arch { s with roq := s.roq.modify i f } := by
  have live : List.Forall₂ Marked s.live (s.roq.modify i f ++ s.decodeData) :=
    List.rel_append (marked_modify mark _ i) (marked_refl _)
  exact h.keep (List.rel_append (marked_refl _) live) fun d hd => exists_marked live hd

theorem Follows.mapInst (h : Follows cfg arch s) : Follows cfg arch s.mapInst := by
  unfold Core.mapInst
  split
  · exact h
  · rename_i d rest hd
    have live : s.live = (s.roq ++ [d]) ++ rest := by simp [Core.live, hd]
    apply h.keep
    · rw [line, live]
      exact marked_refl _
    · rw [← live]
      exact fun d hd => ⟨d, hd, .refl d⟩

theorem Follows.fetchInst (h : Follows cfg arch s) (p : Prediction) :
    Follows cfg arch (s.fetchInst cfg p) := by
  obtain ⟨τ, tracks, front⟩ := h
  refine ⟨τ, tracks, front.arch, front.deep, ?_, front.entering, front.behind, ?_⟩
  · intro zero
    rw [← front.here zero, resume, resume, nextPC_fetchInst, nextHalf_fetchInst]
  · intro zero noSlot
    exact front.slot zero fun slot => noSlot (slotNext_fetchInst.mpr slot)

/-- At the right path's end nothing is unresolved, once no speculation is left. -/
theorem Levels.settled {slot : Prop} {l : List InstDescript} (h : Levels slot 0 false l)
    {b : InstDescript} (hb : b ∈ l) : unresolved b = false := by
  obtain ⟨p, q, rfl⟩ := List.append_of_mem hb
  cases hu : unresolved b with
  | false => rfl
  | true =>
    have behind := h.behind hu
    cases q with
    | nil =>
      cases likely : b.likely with
      | true => exact absurd rfl (behind.1 likely)
      | false => exact absurd (behind.2 likely).1 (by decide)
    | cons d q => exact absurd rfl behind.1

/-- The front end starts again where the sequential machine is. -/
theorem Front.restart (arch : t.arch.clearZero = τ.arch.clearZero) (level : t.specLevel = 0)
    (enter : t.enteringSpec = false) (need : t.needToCorrectPc = false) (fetch : t.fetchData = [])
    (pc : t.fetchRegPC = τ.pc) (npc : τ.npc = τ.pc + 4) : Front t τ := by
  refine ⟨arch, fun deep => absurd level deep, ?_, ?_, ?_, fun _ _ => npc⟩
  · intro _
    simp [resume, nextHalf, nextPC, fetch, pc]
  · intro _ entering
    exact absurd (enter.symm.trans entering) (by decide)
  · intro _ _
    simp [need, npc]

theorem Follows.checkBrq (h : Follows cfg arch s) (sound : Sound s) :
    Follows cfg arch s.checkBrq := by
  rcases checkBrq_cases s with same | ⟨older, rs, younger, roq, ctrl, ready, resolved⟩
  · rw [same]
    exact h
  · have live : s.live = older ++ rs :: (younger ++ s.decodeData) := by simp [Core.live, roq]
    have mark : ∀ q, List.Forall₂ Marked (older ++ rs :: q) (older ++ resolve rs :: q) :=
      fun q => List.rel_append (marked_refl older) (.cons (marked_resolve rs) (marked_refl q))
    rcases resolved with ⟨-, next⟩ | ⟨mis, more, next⟩
    · rw [next]
      have marked : List.Forall₂ Marked s.live ((older ++ resolve rs :: younger) ++ s.decodeData) := by
        rw [live, List.append_assoc, List.cons_append]
        exact mark _
      exact h.keep (List.rel_append (marked_refl _) marked) fun d hd => exists_marked marked hd
    · have levels := sound.levels
      rw [live] at levels
      have isOpen := sound.isOpen live ready mis
      have deep : s.specLevel ≠ 0 := by
        have behind := levels.behind isOpen
        cases younger with
        | nil => exact absurd rfl more
        | cons d q => exact behind.1
      have squashed := levels.squashed isOpen
      rw [kept_append more, List.drop_append_of_le_length (kept_length rs younger)] at squashed
      obtain ⟨dropped, undecoded⟩ := wrong_append.mp squashed
      -- the right path ends at the delay slot that stays
      have same : right s.line = right (s.retired ++ (older ++ rs :: kept rs younger)) := by
        have parts : s.line = (s.retired ++ (older ++ rs :: kept rs younger)) ++
            (younger.drop (kept rs younger).length ++ s.decodeData) := by
          rw [line, live]
          conv_lhs => rw [← kept_drop rs younger]
          simp
        rw [parts, right_append, right_wrong squashed, List.append_nil]
      obtain ⟨τ, tracks, front⟩ := h
      rw [next, sound.brerrRecover_front live ctrl]
      refine ⟨τ, ?_, ?_⟩
      · rw [same] at tracks
        simp only [line, Core.live, tracerRecover, List.append_nil]
        exact tracks_marked (right_marked (List.rel_append (marked_refl _) (mark _))) tracks
      · have undone := unwind_wrong undecoded s.arch
        by_cases zero : rs.specLevel = 0
        · obtain ⟨pc, npc⟩ := front.deep deep rs (by simp [live]) ⟨isOpen, zero⟩
          apply Front.restart _ zero rfl rfl rfl pc npc
          simp only [tracerRecover, undone]
          exact front.arch
        · refine ⟨?_, ?_, fun now => absurd now zero, fun now => absurd now zero,
            fun now => absurd now zero, fun now => absurd now zero⟩
          · simp only [tracerRecover, undone]
            exact front.arch
          · intro _ b hb opener
            simp only [Core.live, tracerRecover, List.append_nil] at hb
            have old : ∃ d ∈ older ++ rs :: kept rs younger, Marked d b :=
              exists_marked (mark _) hb
            obtain ⟨d, hd, marked⟩ := old
            obtain ⟨opener, same⟩ := opener.marked marked
            rw [← same]
            apply front.deep deep d _ opener
            rw [live, ← kept_drop rs younger]
            simp only [List.mem_append, List.mem_cons] at hd ⊢
            tauto

end Queues

section Commit

theorem Follows.commit (h : Follows cfg arch s) (sound : Sound s) (logs : Logs s)
    (opened : Opened s) (regular : Regular cfg s .commit) (k : s.commit = some t) :
    Follows cfg arch t := by
  simp only [Core.commit] at k
  split at k
  · cases k
    exact h
  · rename_i rs roq hr
    have live : s.live = rs :: (roq ++ s.decodeData) := by simp [Core.live, hr]
    split at k
    · cases k
    · split at k
      · cases k
        exact h
      · rename_i done
        have completed : rs.completed = true := by simpa using done
        have level := opened.head_right sound hr completed
        split at k
        · rename_i flush
          simp only [Bool.and_eq_true] at flush
          cases k
          have retired : right s.retired = s.retired := right_all opened.retired
          have first : right s.live = rs :: right (roq ++ s.decodeData) := by
            rw [live]
            simp [right, level]
          obtain ⟨τ, tracks, -⟩ := h
          rw [line, right_append, retired, first, tracks_append] at tracks
          obtain ⟨σ, past, ρ, ⟨before, ⟨-, noMem, -⟩ | ⟨-, pc, plain, -⟩⟩, -⟩ := tracks
          · exact absurd (noMem.symm.trans flush.1) (by decide)
          · obtain ⟨bd, quiet⟩ := regular rs roq hr completed flush.1 flush.2
            have restored : (s.pipelineFlush rs).arch = rs.before := by
              have logged := logs.logged
              rw [pipelineFlush_arch, (unwind_recoverData_iff logs.saved s.arch).mpr quiet]
              rw [live] at logged ⊢
              exact logged.head
            refine ⟨σ, ?_, ?_⟩
            · simp only [line, Core.live, pipelineFlush, tracerRecover, List.append_nil, retired]
              exact past
            · apply Front.restart _ rfl rfl rfl rfl _ (plain bd)
              · rw [restored, before, clearZero_clearZero]
              · simp only [pipelineFlush, tracerRecover, bd, Bool.false_eq_true, if_false]
                exact pc
        · cases k
          apply h.keep
          · simp only [line, Core.live, hr, List.append_assoc, List.cons_append, List.nil_append]
            exact marked_refl _
          · intro d hd
            exact ⟨d, by rw [live]; exact List.mem_cons_of_mem _ hd, .refl d⟩

end Commit

section Decode

/-- A likely branch is a branch to its target field, and guessed taken. -/
theorem likely_flags {op : Op} (h : op.has .ctrlLikely = true) :
    op.has .ctrl = true ∧ op.has .dirjmp = true := by
  cases op <;> first | exact ⟨rfl, rfl⟩ | exact absurd h (by decide)

/-- A jump to a register is unconditional. -/
theorem indirect_uncond {op : Op} (h : op.has .ctrl = true) (direct : op.has .dirjmp = false) :
    op.has .uncond = true := by
  cases op <;> first | rfl | exact absurd h (by decide) | exact absurd direct (by decide)

theorem effect_right (level : s.specLevel = 0) (d : InstDescript) :
    effect cfg s d = impl cfg.fpu d.ir d.pc (archView s.arch.clearZero) d.op := by
  simp only [effect, view, level, if_true]
  rfl

/-- Executing the next instruction of the program is a step of the sequential machine. -/
theorem step_execute {d : InstDescript} {rest : List InstDescript} {x : Executed}
    (hx : execute cfg (s.atDecode d rest) d = some x) (level : s.specLevel = 0)
    (arch : s.arch.clearZero = τ.arch.clearZero) (pc : d.pc = τ.pc)
    (code : d.ir = codeAt cfg s.arch.mem d.pc) (first : d.half = false) :
    τ.step cfg = some (τ.after x.core.arch x.isJump x.inst.likely x.core.targetPC) := by
  obtain ⟨a, r, q, saves, core, inst, ⟨jump, -⟩, ⟨-, ok, put⟩ | ⟨wrong, -⟩⟩ := execute_spec hx
  · have mem : s.arch.clearZero.mem = τ.arch.clearZero.mem := by rw [arch]
    change s.arch.mem = τ.arch.mem at mem
    have op : mdSetOpcode d.ir = d.op := by simpa [InstDescript.half] using first
    have here : codeAt cfg τ.arch.mem τ.pc = d.ir := by rw [code, mem, pc]
    have same : effect cfg (s.atDecode d rest) d =
        impl cfg.fpu d.ir τ.pc (archView τ.arch.clearZero) d.op := by
      rw [effect_right (s := s.atDecode d rest) level, ← arch, ← pc]
      rfl
    have written : a = (τ.arch.clearZero.putAll (effect cfg (s.atDecode d rest) d).writes).1 := by
      rw [← arch]
      exact congrArg Prod.fst put
    have likely : x.inst.likely = d.op.has .ctrlLikely := by rw [inst]; rfl
    simp only [Seq.step, here, op, ← same, ok, Option.isSome_none, Bool.false_eq_true, if_false]
    rw [likely, jump, core, written]
    congr 1
    unfold Seq.after
    split
    · rename_i taken
      have target : (effect cfg (s.atDecode d rest) d).target.isSome = true := by
        cases ctrl : d.op.has .ctrl with
        | true =>
          rw [same] at ok ⊢
          exact (impl_ctrl _ _ _ _ _ ctrl ok).1
        | false =>
          have straight := impl_straight cfg.fpu d.ir τ.pc (archView τ.arch.clearZero) _ ctrl
          rw [same] at taken
          exact absurd (straight.symm.trans taken) (by decide)
      obtain ⟨v, hv⟩ := Option.isSome_iff_exists.mp target
      simp only [hv, Option.getD_some]
    · rfl
  · exact absurd level wrong

/-- What decode knows about a branch that does not slip: an unnoticed prediction sends
fetch where the branch goes, and a likely branch is only mispredicted when it is not
taken. -/
theorem foresight {p : Prediction} {d : InstDescript} {rest : List InstDescript} {x : Executed}
    {pp c : Word} (hx : execute cfg (s.atDecode d rest) d = some x) (level : s.specLevel = 0)
    (ctrl : d.ctrl = true) (noSlip : ¬ Slip cfg p s d)
    (hc : redirects cfg p x = true → c = if cfg.predPerfect then afterSlot x else prediction cfg p x)
    (hpp : pp = if redirects cfg p x && cfg.predPerfect then x.npc else prediction cfg p x) :
    (pp = x.npc → (x.inst.likely = true → x.isJump = true) ∧ redirects cfg p x = x.isJump ∧
      (x.isJump = true → c = x.core.targetPC)) ∧
    (pp ≠ x.npc → x.inst.likely = true → x.isJump = false) := by
  obtain ⟨a, r, q, saves, core, inst, ⟨jump, npc⟩, ⟨-, ok, -⟩ | ⟨wrong, -⟩⟩ := execute_spec hx
  swap
  · exact absurd level wrong
  have e : effect cfg (s.atDecode d rest) d = effect cfg s d := rfl
  have ctrl' : x.inst.ctrl = true := by rw [inst]; exact ctrl
  have target : (effect cfg s d).target = some x.core.targetPC := by
    rw [← e] at *
    rw [effect_right (s := s.atDecode d rest) level] at ok
    have known := (impl_ctrl _ _ _ _ _ ctrl ok).1
    rw [← effect_right (s := s.atDecode d rest) level] at known
    obtain ⟨v, hv⟩ := Option.isSome_iff_exists.mp known
    rw [core]
    simp only [hv, Option.getD_some]
  have guessed : guess x.inst = guess d := by rw [inst]; rfl
  have likely : x.inst.likely = d.likely := by rw [inst]; rfl
  have pc : x.inst.pc = d.pc := by rw [inst]
  have op : x.inst.op = d.op := by rw [inst]
  rw [e] at jump
  rw [likely]
  by_cases known : (p.draining || cfg.predPerfect) = true
  · -- the direction is known, and with it the prediction is right
    have dir : direction cfg p x = x.isJump := if_pos known
    have predicted : prediction cfg p x = x.npc := by
      have direct : (p.draining || x.inst.op.has .dirjmp || cfg.predPerfect) = true := by
        simp only [Bool.or_eq_true] at known ⊢
        tauto
      simp only [prediction, ctrl', Bool.not_true, Bool.false_eq_true, if_false, direct, if_true, dir]
      rw [npc, pc]
    have redirect : redirects cfg p x = x.isJump := by
      simp [redirects, predicted, ctrl', dir]
    have right : pp = x.npc := by
      rw [hpp, predicted]
      split <;> rfl
    simp only [Slip, known, if_true, not_and, Bool.not_eq_false] at noSlip
    refine ⟨fun _ => ⟨fun hl => jump.trans (noSlip hl), redirect, fun taken => ?_⟩, ?_⟩
    · rw [hc (redirect.trans taken), afterSlot, predicted, npc]
      simp [taken]
    · exact fun wrong => absurd right wrong
  · have unknown : (p.draining || cfg.predPerfect) = false := by simpa using known
    have perfect : cfg.predPerfect = false := by
      rw [Bool.or_eq_false_iff] at unknown
      exact unknown.2
    have draining : p.draining = false := by
      rw [Bool.or_eq_false_iff] at unknown
      exact unknown.1
    have dir : direction cfg p x = guess d := by
      rw [← guessed]
      exact if_neg known
    have redirect : redirects cfg p x = guess d := by
      simp [redirects, perfect, ctrl', dir]
    rw [perfect, Bool.and_false] at hpp
    simp only [Bool.false_eq_true, if_false, perfect] at hpp hc
    simp only [Slip, unknown, Bool.false_eq_true, if_false, target, Option.some_inj, ← jump, ne_eq,
      not_and, not_not] at noSlip
    rw [redirect] at hc ⊢
    cases direct : d.op.has .dirjmp with
    | true =>
      have predicted : prediction cfg p x = if guess d then x.core.targetPC else d.pc + 4 := by
        simp [prediction, ctrl', op, direct, dir, pc]
      have likelyGuess : d.likely = true → guess d = true := fun hl => by simp [guess, hl]
      constructor
      · intro right
        rw [hpp, predicted, npc] at right
        have agree : guess d = x.isJump := by
          cases hg : guess d with
          | true =>
            cases hj : x.isJump with
            | true => rfl
            | false =>
              rw [hg, hj] at right
              exact (hg.symm.trans (noSlip right)).trans hj
          | false =>
            cases hj : x.isJump with
            | true =>
              rw [hg, hj] at right
              exact (hg.symm.trans (noSlip right.symm)).trans hj
            | false => rfl
        refine ⟨fun hl => agree.symm.trans (likelyGuess hl), agree, fun taken => ?_⟩
        rw [hc (agree.trans taken), predicted, agree, taken]
        rfl
      · intro wrong hl
        cases hj : x.isJump with
        | false => rfl
        | true =>
          rw [hpp, predicted, npc, likelyGuess hl, hj] at wrong
          exact absurd rfl wrong
    | false =>
      have taken : x.isJump = true := by
        rw [effect_right (s := s.atDecode d rest) level] at ok
        rw [jump, effect_right level]
        exact (impl_ctrl _ _ _ _ _ ctrl ok).2 direct
      have sure : guess d = true := by
        have uncond := indirect_uncond ctrl direct
        simp [guess, uncond]
      have unlikely : d.likely = false := by
        cases hl : d.likely with
        | true => exact absurd (direct.symm.trans (likely_flags hl).2) (by decide)
        | false => rfl
      refine ⟨fun right => ⟨fun _ => taken, sure.trans taken.symm, fun _ => ?_⟩, ?_⟩
      · rw [hc sure, ← hpp, right, npc, taken]
        rfl
      · exact fun _ hl => absurd (unlikely.symm.trans hl) (by decide)

/-- The instructions in flight and the architectural state behind an executed instruction. -/
theorem enqueue_live {p : Prediction} {d : InstDescript} {rest : List InstDescript} {x : Executed}
    (hx : execute cfg (s.atDecode d rest) d = some x) : ∃ f l n c sr level entering rp mis dp pp,
      enqueue cfg p x = { x.core with
        lastIsBranch := d.ctrl, fetchRegPC := f, fetchData := l, needToCorrectPc := n
        correctPC := c, specRegs := sr, specLevel := level, enteringSpec := entering
        recoverPC := rp, decodeData := s.decodeData ++ [decoded x mis dp] } ∧
      Redirects cfg p x pp f l n c ∧ Deepens x pp level entering mis rp dp ∧
      (enqueue cfg p x).live = s.live ++ [decoded x mis dp] ∧
      (enqueue cfg p x).line = s.line ++ [decoded x mis dp] := by
  obtain ⟨a, r, q, saves, core, inst, -, -⟩ := execute_spec hx
  obtain ⟨f, l, n, c, sr, level, entering, rp, mis, dp, pp, enq, redirects, deepens⟩ :=
    enqueue_spec cfg p x
  have last : (x.inst.ctrl || x.core.lastIsBranch) = d.ctrl := by
    rw [inst, core]
    simp [atDecode, InstDescript.ctrl]
  have dec : x.core.decodeData = s.decodeData := by rw [core]; rfl
  rw [last, dec] at enq
  refine ⟨f, l, n, c, sr, level, entering, rp, mis, dp, pp, enq, redirects, deepens, ?_, ?_⟩
  · rw [enq, core]
    simp [Core.live, atDecode]
  · rw [enq, core]
    simp [Core.line, Core.live, atDecode]

/-- On a wrong path nothing of the program happens. -/
theorem Follows.wrongPath {p : Prediction} {d : InstDescript} {rest : List InstDescript}
    {x : Executed} (h : Follows cfg arch s) (hx : execute cfg (s.atDecode d rest) d = some x)
    (wrong : s.specLevel ≠ 0) : Follows cfg arch (enqueue cfg p x) := by
  obtain ⟨a, r, q, saves, core, inst, -, ⟨zero, -⟩ | ⟨-, same, -⟩⟩ := execute_spec hx
  · exact absurd zero wrong
  obtain ⟨f, l, n, c, sr, level, entering, rp, mis, dp, pp, enq, -, deepens, live, line⟩ :=
    enqueue_live (p := p) hx
  obtain ⟨τ, tracks, front⟩ := h
  have here : (decoded x mis dp).specLevel = s.specLevel := by rw [decoded, inst]; rfl
  have level₀ : x.core.specLevel = s.specLevel := by rw [core]; rfl
  have deeper : level ≠ 0 := by
    rcases deepens with ⟨-, e, -⟩ | ⟨-, -, -, -, -, -, ⟨-, e, -⟩ | ⟨-, e, -⟩⟩ | ⟨-, -, -, e, -⟩ <;>
      omega
  have deep : (enqueue cfg p x).specLevel ≠ 0 := by
    rw [enq]
    exact deeper
  refine ⟨τ, ?_, ?_, ?_, fun now => absurd now deep, fun now => absurd now deep,
    fun now => absurd now deep, fun now => absurd now deep⟩
  · have off : Wrong [decoded x mis dp] := by
      intro e he
      rw [List.mem_singleton.mp he, here]
      exact wrong
    rw [line, right_append, right_wrong off, List.append_nil]
    exact tracks
  · rw [← front.arch, enq, core]
    simp only [same, clearZero_clearZero]
    rfl
  · intro _ b hb opener
    rw [live] at hb
    rcases List.mem_append.mp hb with old | new
    · exact front.deep wrong b old opener
    · rw [List.mem_singleton.mp new] at opener
      exact absurd (here.symm.trans opener.2) wrong

/-- A decoded instruction of the right path takes its place on the track. -/
theorem Front.tracked {mis : Bool} {dp : Word} {d : InstDescript} {rest : List InstDescript}
    {x : Executed} {σ ρ : Seq} (tracks : Tracks cfg σ (right s.line) τ) (front : Front s τ)
    (hx : execute cfg (s.atDecode d rest) d = some x) (level : s.specLevel = 0)
    (step : d.half = true ∧ d.op.has .mem = false ∧ ρ = τ ∨
      d.half = false ∧ d.pc = τ.pc ∧ (d.bd = false → τ.npc = τ.pc + 4) ∧ τ.step cfg = some ρ) :
    Tracks cfg σ (right (s.line ++ [decoded x mis dp])) ρ := by
  obtain ⟨a, r, q, saves, -, inst, -, -⟩ := execute_spec hx
  have here : (decoded x mis dp).specLevel = 0 := by rw [decoded, inst]; exact level
  have one : right [decoded x mis dp] = [decoded x mis dp] := by simp [right, here]
  rw [right_append, one, tracks_append]
  refine ⟨τ, tracks, tracks_single.mpr ⟨?_, ?_⟩⟩
  · rw [← front.arch, decoded, inst]
    rfl
  · rw [decoded, inst]
    exact step

/-- Without a mispredicted branch on the right path there is nobody to wait for. -/
theorem Front.nobody (sound : Sound s) (level : s.specLevel = 0) (idle : s.enteringSpec = false)
    {b : InstDescript} (hb : b ∈ s.live) : ¬ Opener b := by
  intro opener
  have levels := sound.levels
  rw [level, idle] at levels
  exact absurd ((levels.settled hb).symm.trans opener.1) (by decide)

theorem plain_redirects {p : Prediction} {d d' : InstDescript} {rest : List InstDescript}
    {x : Executed} (slots : Slots cfg s) (fetched : s.fetchData = d :: rest)
    (slot : s.delaySlot d = some d') (hx : execute cfg (s.atDecode d' rest) d' = some x)
    (plain : d'.ctrl = false) : redirects cfg p x = false := by
  obtain ⟨a, r, q, saves, -, inst, -, -⟩ := execute_spec hx
  have plain' : x.inst.ctrl = false := by rw [inst]; exact plain
  cases perfect : cfg.predPerfect with
  | true => simp [redirects, plain', slots.fallsThrough (p := p) fetched slot perfect plain hx]
  | false => simp [redirects, plain', perfect]

/-- The second half of a multiplication or division on the right path. -/
theorem Follows.half {p : Prediction} {d d' : InstDescript} {rest : List InstDescript}
    {x : Executed} (h : Follows cfg arch s) (slots : Slots cfg s)
    (fetched : s.fetchData = d :: rest) (slot : s.delaySlot d = some d')
    (hx : execute cfg (s.atDecode d' rest) d' = some x) (zero : s.specLevel = 0)
    (second : d'.half = true) : Follows cfg arch (enqueue cfg p x) := by
  obtain ⟨a, r, q, saves, core, inst, -, ⟨-, -, put⟩ | ⟨wrong, -⟩⟩ := execute_spec hx
  swap
  · exact absurd zero wrong
  obtain ⟨f, l, n, c, sr, level, entering, rp, mis, dp, pp, enq, redirects, deepens, live, line⟩ :=
    enqueue_live (p := p) hx
  obtain ⟨-, goesOn, slotNext⟩ := slots.resumes (p := p) fetched slot hx
  have was : d.half = true := (delaySlot_half slot slots fetched).symm.trans second
  have nextHalf : s.nextHalf = true := by simpa [Core.nextHalf, fetched] using was
  have noSlot : ¬ s.slotNext := fun now =>
    absurd ((slots.whole now).symm.trans nextHalf) (by decide)
  have same : d' = d := by
    rcases delaySlot_cases slot with ⟨-, same⟩ | ⟨last, -⟩
    · exact same
    · exact absurd (.inl last) noSlot
  subst same
  have op := slots.halves d' (by simp [fetched]) was
  have nothing : effect cfg (s.atDecode d' rest) d' = {} := by
    rcases op with op | op <;> rw [effect, op] <;> rfl
  have plain : d'.ctrl = false := by rcases op with op | op <;> rw [InstDescript.ctrl, op] <;> rfl
  have whole : d'.op.isSplit = false := by rcases op with op | op <;> rw [op] <;> rfl
  have noMem : d'.op.has .mem = false := by rcases op with op | op <;> rw [op] <;> rfl
  have calm : s.needToCorrectPc = false := by
    cases need : s.needToCorrectPc with
    | false => rfl
    | true => exact absurd (slots.redirect need) noSlot
  have idle : s.enteringSpec = false := by
    cases enter : s.enteringSpec with
    | false => rfl
    | true => exact absurd (slots.entering enter) noSlot
  have entering₀ : x.core.enteringSpec = s.enteringSpec := by rw [core]; rfl
  have need₀ : x.core.needToCorrectPc = s.needToCorrectPc := by rw [core]; rfl
  have plain' : x.inst.ctrl = false := by rw [inst]; exact plain
  have level₀ : x.core.specLevel = s.specLevel := by rw [core]; rfl
  have flat : (enqueue cfg p x).specLevel = 0 ∧ (enqueue cfg p x).enteringSpec = false := by
    rw [enq]
    rcases deepens with ⟨enter, -⟩ | ⟨-, ctrl, -⟩ | ⟨-, -, -, e, off⟩
    · exact absurd ((entering₀.trans idle).symm.trans enter) (by decide)
    · exact absurd (plain'.symm.trans ctrl) (by decide)
    · exact ⟨e.trans (level₀.trans zero), off⟩
  have need : (enqueue cfg p x).needToCorrectPc = false := by
    rw [enq]
    rcases redirects with ⟨need, -⟩ | ⟨-, -, -, e, -⟩
    · exact absurd ((need₀.trans calm).symm.trans need) (by decide)
    · exact e.trans (plain_redirects slots fetched slot hx plain)
  obtain ⟨τ, tracks, front⟩ := h
  have npc := front.slot zero noSlot
  refine ⟨τ, ?_, ?_, fun deep => absurd flat.1 deep, ?_, ?_, ?_, fun _ _ => npc⟩
  · rw [line]
    exact front.tracked tracks hx zero (.inl ⟨second, noMem, rfl⟩)
  · rw [← front.arch, enq, core]
    have unchanged : a = s.arch.clearZero := by
      rw [nothing] at put
      exact congrArg Prod.fst put
    simp only [unchanged, clearZero_clearZero]
  · intro _
    obtain ⟨half, pc⟩ := goesOn calm
    have here := front.here zero
    rw [resume, nextHalf, if_pos rfl] at here
    rw [resume, half, whole, pc, follows, whole, ← here]
    simp [Core.nextPC, fetched]
  · intro _ now
    exact absurd (flat.2.symm.trans now) (by decide)
  · intro _ _
    rw [need]
    exact npc

theorem pc_add (a : Word) : a + 4 + 4 = a + 8 := by
  rw [BitVec.add_assoc]
  rfl

/-- An instruction of the right path that is no branch, maybe a delay slot. -/
theorem Follows.plain {p : Prediction} {d d' : InstDescript} {rest : List InstDescript}
    {x : Executed} (h : Follows cfg arch s) (sound : Sound s) (slots : Slots cfg s)
    (fetched : s.fetchData = d :: rest) (slot : s.delaySlot d = some d')
    (hx : execute cfg (s.atDecode d' rest) d' = some x) (zero : s.specLevel = 0)
    (first : d'.half = false) (code : d'.ir = codeAt cfg s.arch.mem d'.pc)
    (plain : d'.ctrl = false) : Follows cfg arch (enqueue cfg p x) := by
  obtain ⟨a, r, q, saves, core, inst, ⟨jump, -⟩, -⟩ := execute_spec hx
  obtain ⟨f, l, n, c, sr, level, entering, rp, mis, dp, pp, enq, redirects, deepens, live, line⟩ :=
    enqueue_live (p := p) hx
  obtain ⟨goesTo, goesOn, slotNext⟩ := slots.resumes (p := p) fetched slot hx
  obtain ⟨τ, tracks, front⟩ := h
  have pc' : d'.pc = s.nextPC := by
    rw [(delaySlot_place slot).1]
    simp [Core.nextPC, fetched]
  have nextHalf : s.nextHalf = false := by
    have was := (delaySlot_half slot slots fetched).symm.trans first
    simpa [Core.nextHalf, fetched] using was
  have pc : d'.pc = τ.pc := by
    rw [← front.here zero, resume, nextHalf, pc']
    rfl
  have step := step_execute hx zero front.arch pc code first
  have straight : x.isJump = false := jump.trans (impl_straight _ _ _ _ _ plain)
  have unlikely : x.inst.likely = false := by
    cases hl : x.inst.likely with
    | false => rfl
    | true =>
      have same : x.inst.op = d'.op := by rw [inst]
      rw [InstDescript.likely, same] at hl
      exact absurd (plain.symm.trans (likely_flags hl).1) (by decide)
  have after : τ.after x.core.arch x.isJump x.inst.likely x.core.targetPC =
      { arch := x.core.arch, pc := τ.npc, npc := τ.npc + 4 } := by
    rw [straight, unlikely]
    rfl
  rw [after] at step
  have slotPC : d'.bd = false → τ.npc = τ.pc + 4 := by
    intro off
    apply front.slot zero
    intro now
    exact absurd (off.symm.trans (slot_plain fetched slot now).1) (by decide)
  have right : mis = false := by
    have fresh := fresh_slot slot (sound.fresh d (by simp [fetched]))
    have was : x.inst.misPredict = false := by rw [inst]; exact fresh.1
    have plain' : x.inst.ctrl = false := by rw [inst]; exact plain
    rcases deepens with ⟨-, -, -, e⟩ | ⟨-, ctrl, -⟩ | ⟨-, -, e, -⟩
    · exact e.trans was
    · exact absurd (plain'.symm.trans ctrl) (by decide)
    · exact e.trans was
  have oldOpener : ∀ b ∈ (enqueue cfg p x).live, Opener b → b ∈ s.live := by
    intro b hb opener
    rw [live] at hb
    rcases List.mem_append.mp hb with old | new
    · exact old
    · rw [List.mem_singleton.mp new] at opener
      exact absurd (right.symm.trans opener.mispredicted) (by decide)
  have level₀ : x.core.specLevel = 0 := by rw [core]; exact zero
  have entering₀ : x.core.enteringSpec = s.enteringSpec := by rw [core]; rfl
  have need₀ : x.core.needToCorrectPc = s.needToCorrectPc := by rw [core]; rfl
  have need : (enqueue cfg p x).needToCorrectPc = false := by
    rw [enq]
    rcases redirects with ⟨-, -, -, e, -⟩ | ⟨-, -, -, e, -⟩
    · exact e
    · exact e.trans (plain_redirects slots fetched slot hx plain)
  have flag : (enqueue cfg p x).enteringSpec = false := by
    rw [enq]
    rcases deepens with ⟨-, -, e, -⟩ | ⟨-, ctrl, -⟩ | ⟨-, -, -, -, e⟩
    · exact e
    · have plain' : x.inst.ctrl = false := by rw [inst]; exact plain
      exact absurd (plain'.symm.trans ctrl) (by decide)
    · exact e
  refine ⟨{ arch := x.core.arch, pc := τ.npc, npc := τ.npc + 4 }, ?_, ?_, ?_, ?_, ?_, ?_,
    fun _ _ => rfl⟩
  · rw [line]
    exact front.tracked tracks hx zero (.inr ⟨first, pc, slotPC, step⟩)
  · rw [enq]
  · intro deep b hb opener
    refine ⟨?_, rfl⟩
    apply front.entering zero _ b (oldOpener b hb opener) opener
    rcases deepens with ⟨enter, -⟩ | ⟨-, ctrl, -⟩ | ⟨-, -, -, e, -⟩
    · exact entering₀.symm.trans enter
    · have plain' : x.inst.ctrl = false := by rw [inst]; exact plain
      exact absurd (plain'.symm.trans ctrl) (by decide)
    · rw [enq] at deep
      exact absurd (e.trans level₀) deep
  · intro flat
    have idle : s.enteringSpec = false := by
      rcases deepens with ⟨-, e, -⟩ | ⟨-, ctrl, -⟩ | ⟨off, -⟩
      · rw [enq] at flat
        exact absurd (e.symm.trans flat) (Nat.succ_ne_zero _)
      · have plain' : x.inst.ctrl = false := by rw [inst]; exact plain
        exact absurd (plain'.symm.trans ctrl) (by decide)
      · exact entering₀.symm.trans off
    have behind := front.behind zero idle
    cases hn : s.needToCorrectPc with
    | true =>
      obtain ⟨half, at'⟩ := goesTo hn
      rw [hn, if_pos rfl] at behind
      rw [resume, half, at']
      exact behind.symm
    | false =>
      obtain ⟨half, at'⟩ := goesOn hn
      rw [hn] at behind
      rw [resume, half, at', follows, pc]
      cases d'.op.isSplit <;> exact behind.symm
  · intro _ now
    exact absurd (flag.symm.trans now) (by decide)
  · intro _ _
    rw [need]
    rfl

/-- A branch of the right path that does not slip. -/
theorem Follows.branch {p : Prediction} {d d' : InstDescript} {rest : List InstDescript}
    {x : Executed} (h : Follows cfg arch s) (sound : Sound s) (slots : Slots cfg s)
    (fetched : s.fetchData = d :: rest) (slot : s.delaySlot d = some d')
    (hx : execute cfg (s.atDecode d' rest) d' = some x) (zero : s.specLevel = 0)
    (first : d'.half = false) (code : d'.ir = codeAt cfg s.arch.mem d'.pc)
    (ctrl : d'.ctrl = true) (noSlip : ¬ Slip cfg p s d') :
    Follows cfg arch (enqueue cfg p x) := by
  obtain ⟨a, r, q, saves, core, inst, -, -⟩ := execute_spec hx
  obtain ⟨f, l, n, c, sr, level, entering, rp, mis, dp, pp, enq, redirects, deepens, live, line⟩ :=
    enqueue_live (p := p) hx
  obtain ⟨-, goesOn, slotNext⟩ := slots.resumes (p := p) fetched slot hx
  obtain ⟨τ, tracks, front⟩ := h
  have noSlot : ¬ s.slotNext := fun now =>
    absurd ((slot_plain fetched slot now).2.symm.trans ctrl) (by decide)
  have calm : s.needToCorrectPc = false := by
    cases need : s.needToCorrectPc with
    | false => rfl
    | true => exact absurd (slots.redirect need) noSlot
  have idle : s.enteringSpec = false := by
    cases enter : s.enteringSpec with
    | false => rfl
    | true => exact absurd (slots.entering enter) noSlot
  have pc' : d'.pc = s.nextPC := by
    rw [(delaySlot_place slot).1]
    simp [Core.nextPC, fetched]
  have nextHalf : s.nextHalf = false := by
    have was := (delaySlot_half slot slots fetched).symm.trans first
    simpa [Core.nextHalf, fetched] using was
  have pc : d'.pc = τ.pc := by
    rw [← front.here zero, resume, nextHalf, pc']
    rfl
  have npc := front.slot zero noSlot
  have step := step_execute hx zero front.arch pc code first
  have level₀ : x.core.specLevel = 0 := by rw [core]; exact zero
  have entering₀ : x.core.enteringSpec = false := by rw [core]; exact idle
  have need₀ : x.core.needToCorrectPc = false := by rw [core]; exact calm
  have ctrl' : x.inst.ctrl = true := by rw [inst]; exact ctrl
  have xpc : x.inst.pc = τ.pc := by rw [inst]; exact pc
  have slot' : (enqueue cfg p x).slotNext := slotNext.mpr ctrl
  have onlyNew : ∀ b ∈ (enqueue cfg p x).live, Opener b → b = decoded x mis dp := by
    intro b hb opener
    rw [live] at hb
    rcases List.mem_append.mp hb with old | new
    · exact absurd opener (Front.nobody sound zero idle old)
    · exact List.mem_singleton.mp new
  have resumed : (enqueue cfg p x).resume = τ.npc := by
    obtain ⟨half, at'⟩ := goesOn calm
    rw [resume, half, at', ctrl_not_split ctrl, follows, ctrl_not_split ctrl, npc, pc]
    rfl
  rcases redirects with ⟨need, -⟩ | ⟨-, -, -, hn, hc, hpp⟩
  · exact absurd (need₀.symm.trans need) (by decide)
  obtain ⟨unnoticed, noticed⟩ := foresight hx zero ctrl noSlip hc hpp
  refine ⟨τ.after x.core.arch x.isJump x.inst.likely x.core.targetPC, ?_, ?_⟩
  · rw [line]
    exact front.tracked tracks hx zero (.inr ⟨first, pc, fun _ => npc, step⟩)
  rcases deepens with ⟨enter, -⟩ | ⟨-, -, wrong, -, -, rfl, deeper⟩ | ⟨-, right, -, e, off⟩
  · exact absurd (entering₀.symm.trans enter) (by decide)
  · -- mispredicted: fetch will go on at the recovery PC
    rcases deeper with ⟨likely, e, off⟩ | ⟨unlikely, e, on⟩
    · have straight := noticed wrong likely
      have deep : (enqueue cfg p x).specLevel ≠ 0 := by
        rw [enq]
        exact fun now => absurd (e.symm.trans now) (Nat.succ_ne_zero _)
      rw [straight, likely]
      refine ⟨by rw [enq]; rfl, ?_, fun now => absurd now deep, fun now => absurd now deep,
        fun now => absurd now deep, fun now => absurd now deep⟩
      intro _ b hb opener
      rw [onlyNew b hb opener]
      simp only [decoded, afterSlot, straight, Seq.after, Bool.false_eq_true, if_false, if_true, xpc,
        npc, pc_add]
      refine ⟨trivial, ?_⟩
      rw [BitVec.add_assoc, BitVec.add_assoc]
      rfl
    · have flat : (enqueue cfg p x).specLevel = 0 := by rw [enq]; exact e.trans level₀
      rw [unlikely]
      refine ⟨?_, fun deep => absurd flat deep, ?_, ?_, ?_, fun _ now => absurd slot' now⟩
      · rw [enq, Seq.after]
        split <;> rfl
      · intro _
        rw [resumed, Seq.after]
        split <;> rfl
      · intro _ _ b hb opener
        rw [onlyNew b hb opener]
        simp only [decoded, afterSlot, Seq.after, xpc, npc, pc_add]
        split <;> rfl
      · intro _ now
        rw [enq] at now
        exact absurd (on.symm.trans now) (by decide)
  · have flat : (enqueue cfg p x).specLevel = 0 := by rw [enq]; exact e.trans level₀
    obtain ⟨annul, redirected, target⟩ := unnoticed (right ctrl')
    refine ⟨?_, fun deep => absurd flat deep, ?_, ?_, ?_, fun _ now => absurd slot' now⟩
    · rw [enq, Seq.after]
      split
      · rfl
      · split <;> rfl
    · intro _
      rw [resumed, Seq.after]
      cases taken : x.isJump with
      | true => rfl
      | false =>
        have unlikely : x.inst.likely = false := by
          cases likely : x.inst.likely with
          | false => rfl
          | true => exact absurd (taken.symm.trans (annul likely)) (by decide)
        simp [unlikely]
    · intro _ now
      rw [enq] at now
      exact absurd (off.symm.trans now) (by decide)
    · intro _ _
      have due : (enqueue cfg p x).needToCorrectPc = x.isJump := by
        rw [enq]
        exact hn.trans redirected
      have goal : (enqueue cfg p x).correctPC = c := by rw [enq]
      rw [due, goal, Seq.after]
      cases taken : x.isJump with
      | true => exact (target taken).symm
      | false =>
        have unlikely : x.inst.likely = false := by
          cases likely : x.inst.likely with
          | false => rfl
          | true => exact absurd (taken.symm.trans (annul likely)) (by decide)
        simp [unlikely]

end Decode

section Run

variable {acts : List Act}

theorem Follows.decodeInst {p : Prediction} (h : Follows cfg arch s) (sound : Sound s)
    (slots : Slots cfg s) (regular : Regular cfg s (.decode p))
    (k : decodeInst cfg p s = some t) : Follows cfg arch t := by
  rcases decodeInst_cases k with rfl | ⟨d, rest, d', fetched, slot, next⟩
  · exact h
  rcases next with ⟨trap, rfl⟩ | ⟨x, hx, rfl⟩
  · -- a trap instruction that waits has its delay-slot mark already
    obtain ⟨τ, tracks, front⟩ := h
    have pc : (s.atDecode d' rest).nextPC = s.nextPC := by
      simp [nextPC, atDecode, fetched, (delaySlot_place slot).1]
    have half : (s.atDecode d' rest).nextHalf = s.nextHalf := by
      simp [nextHalf, atDecode, fetched, delaySlot_half slot slots fetched]
    refine ⟨τ, tracks, front.arch, front.deep, ?_, front.entering, front.behind, ?_⟩
    · intro zero
      rw [← front.here zero, resume, resume, pc, half]
    · intro zero noSlot
      apply front.slot zero
      intro now
      obtain ⟨bd, plain⟩ := slot_plain fetched slot now
      exact noSlot (.inr ⟨d', rest, rfl, bd, plain⟩)
  · by_cases zero : s.specLevel = 0
    · obtain ⟨code, noSlip⟩ := regular zero d rest d' fetched slot
      cases half : d'.half with
      | true => exact h.half slots fetched slot hx zero half
      | false =>
        cases ctrl : d'.ctrl with
        | true => exact h.branch sound slots fetched slot hx zero half (code half) ctrl (noSlip ctrl)
        | false => exact h.plain sound slots fetched slot hx zero half (code half) ctrl
    · exact h.wrongPath hx zero

/-- The bookkeeping of a core, and its way along the program. -/
structure Good (cfg : CoreConfig) (arch : Arch) (s : Core) : Prop where
  sound : Sound s
  logs : Logs s
  slots : Slots cfg s
  opened : Opened s
  follows : Follows cfg arch s

theorem Good.act {a : Act} (h : Good cfg arch s) (regular : Regular cfg s a)
    (k : act cfg s a = some t) : Good cfg arch t := by
  refine ⟨h.sound.act k, h.logs.act h.sound k, h.slots.act h.sound k, h.opened.act h.sound k, ?_⟩
  cases a with
  | commit => exact h.follows.commit h.sound h.logs h.opened regular k
  | checkBrq => cases k; exact h.follows.checkBrq h.sound
  | writeback i => cases k; exact h.follows.modify marked_writeOne i
  | markEx i => cases k; exact h.follows.modify marked_raiseEx i
  | mapInst => cases k; exact h.follows.mapInst
  | decode p => exact h.follows.decodeInst h.sound h.slots regular k
  | fetch p => cases k; exact h.follows.fetchInst p

theorem good_start (cfg : CoreConfig) (arch : Arch) : Good cfg arch (start cfg arch) := by
  have noSlot : ¬ (start cfg arch).slotNext := by
    rintro (last | ⟨d, rest, hd, -⟩)
    · cases last
    · cases hd
  refine ⟨sound_start cfg arch, logs_start cfg arch, slots_start cfg arch,
    opened_start cfg arch, .start cfg arch, rfl, ?_⟩
  exact Front.restart rfl rfl rfl rfl rfl rfl rfl

/-- Every step of the run is regular in the state in which it is taken. -/
def RegularRun (cfg : CoreConfig) (arch : Arch) (acts : List Act) : Prop :=
  ∀ past a rest s, acts = past ++ a :: rest → run cfg arch past = some s → Regular cfg s a

theorem good_run (regular : RegularRun cfg arch acts) (h : run cfg arch acts = some s) :
    Good cfg arch s := by
  induction acts using List.reverseRecOn generalizing s with
  | nil =>
    cases h
    exact good_start cfg arch
  | append_singleton acts a ih =>
    obtain ⟨s₀, ran, step⟩ := run_snoc h
    have before : Good cfg arch s₀ := by
      apply ih _ ran
      intro past b rest u split ran
      exact regular past b (rest ++ [a]) u (by simp [split]) ran
    exact before.act (regular acts a [] s₀ rfl ran) step

/-- The architectural state that the committed instructions have produced: what is in
flight is taken back, exactly. -/
def committedArch (s : Core) : Arch := (unwind InstDescript.takeBack s.live s.arch).clearZero

/-- The PCs of the committed instructions of the program. -/
def committedPCs (s : Core) : List Word := (whole s.retired).map InstDescript.pc

/-- The committed stream of a regular run is the sequential program: the same PCs, and the
same registers and memory. Nothing of a wrong path is ever committed. -/
theorem commit_sequential (h : run cfg arch acts = some s) (regular : RegularRun cfg arch acts) :
    (∀ d ∈ s.retired, d.specLevel = 0) ∧
      ∃ σ, (Seq.start cfg arch).steps cfg s.committedPCs.length = some (s.committedPCs, σ) ∧
        s.committedArch = σ.arch.clearZero := by
  obtain ⟨sound, logs, -, opened, τ, tracks, front⟩ := good_run regular h
  refine ⟨opened.retired, ?_⟩
  rw [line, right_append, right_all opened.retired, tracks_append] at tracks
  obtain ⟨σ, past, ahead⟩ := tracks
  have steps := past.steps
  rw [← List.length_map] at steps
  refine ⟨σ, steps, ?_⟩
  have logged := logs.logged
  cases live : s.live with
  | nil =>
    rw [live] at ahead
    cases ahead
    rw [committedArch, live]
    exact front.arch
  | cons d l =>
    rw [live] at logged ahead
    have level : d.specLevel = 0 := by
      by_contra wrong
      have levels := sound.levels
      rw [live] at levels
      obtain ⟨deep, behind⟩ := levels.1 wrong
      obtain ⟨b, hb, opener⟩ := opened.opener (.inl deep)
      rw [live] at hb
      rcases List.mem_cons.mp hb with rfl | hb
      · exact wrong opener.2
      · exact behind b hb opener.2
    have first : right (d :: l) = d :: right l := by simp [right, level]
    rw [first] at ahead
    obtain ⟨ρ, ⟨before, -⟩, -⟩ := ahead
    rw [committedArch, live, logged.head, before, clearZero_clearZero]

section Example

instance (p : Prediction) (d : InstDescript) : Decidable (Slip cfg p s d) := by
  unfold Slip
  infer_instance

/-- A test of `Regular`, which no flush passes. -/
def regularStep (cfg : CoreConfig) (s : Core) : Act → Bool
  | .decode p => s.specLevel != 0 || (s.fetchData.take 1).all fun d => (s.delaySlot d).all fun d' =>
      (d'.half || d'.ir == codeAt cfg s.arch.mem d'.pc) && !(d'.ctrl && decide (Slip cfg p s d'))
  | .commit => (s.roq.take 1).all fun rs => !(rs.completed && rs.op.has .mem && rs.ex)
  | _ => true

theorem regular_of_step {a : Act} (h : regularStep cfg s a = true) : Regular cfg s a := by
  cases a with
  | decode p =>
    intro zero d rest d' fetched slot
    simp only [regularStep, zero, bne_self_eq_false, fetched, List.take_succ_cons, List.take_zero,
      List.all_cons, List.all_nil, slot, Option.all_some, Bool.and_true, Bool.false_or,
      Bool.and_eq_true, Bool.or_eq_true, beq_iff_eq, Bool.not_eq_true', Bool.and_eq_false_iff,
      decide_eq_false_iff_not] at h
    refine ⟨fun first => h.1.resolve_left (by simp [first]), fun ctrl => ?_⟩
    exact h.2.resolve_left (by simp [ctrl])
  | commit =>
    intro rs roq head completed mem ex
    simp [regularStep, head, completed, mem, ex] at h
  | _ => trivial

/-- The test of every step of a run. -/
def regularSteps (cfg : CoreConfig) : Core → List Act → Bool
  | _, [] => true
  | s, a :: acts => regularStep cfg s a && (act cfg s a).all fun t => regularSteps cfg t acts

theorem regularRun_of_steps (h : regularSteps cfg (start cfg arch) acts = true) :
    RegularRun cfg arch acts := by
  have from_any : ∀ past s₀, regularSteps cfg s₀ acts = true → ∀ a rest s, acts = past ++ a :: rest →
      past.foldlM (act cfg) s₀ = some s → Regular cfg s a := by
    clear h
    intro past
    induction past generalizing acts with
    | nil =>
      intro s₀ h a rest s split ran
      cases ran
      rw [split, List.nil_append, regularSteps, Bool.and_eq_true] at h
      exact regular_of_step h.1
    | cons b past ih =>
      intro s₀ h a rest s split ran
      rw [List.foldlM_cons, Option.bind_eq_bind, Option.bind_eq_some_iff] at ran
      obtain ⟨s₁, step, ran⟩ := ran
      rw [split, List.cons_append, regularSteps, step, Bool.and_eq_true, Option.all_some] at h
      exact ih s₁ h.2 a rest s rfl ran
  intro past a rest s split ran
  exact from_any past _ h a rest s split ran

/-- The jump to itself and the load in its delay slot commit. -/
def commitRun : List Act :=
  [.fetch {}, .fetch {}, .decode {}, .decode {}, .mapInst, .mapInst, .writeback 0, .checkBrq,
    .commit, .writeback 0, .commit]

theorem commit_sequential_jump : ∃ s σ, run smallConfig loadInSlot commitRun = some s ∧
    s.committedPCs = [0x400000, 0x400004] ∧
    (Seq.start smallConfig loadInSlot).steps smallConfig 2 = some ([0x400000, 0x400004], σ) ∧
    s.committedArch = σ.arch.clearZero := by
  have pcs : (run smallConfig loadInSlot commitRun).map committedPCs =
      some [0x400000, 0x400004] := by decide
  obtain ⟨s, ran, pcs⟩ := Option.map_eq_some_iff.mp pcs
  have regular : RegularRun smallConfig loadInSlot commitRun := regularRun_of_steps (by decide)
  obtain ⟨-, σ, steps, arch⟩ := commit_sequential ran regular
  rw [pcs] at steps
  exact ⟨s, σ, ran, pcs, steps, arch⟩

/-- A branch to its own delay slot, which adds one to register 2. -/
def slotTarget : Arch where
  mem := writeMem (writeMem (fun _ => 0) .word 0x400000 0x10000000) .word 0x400004 0x24420001

/-- The branch is predicted not taken. -/
def slotTargetRun : List Act :=
  [.fetch {}, .fetch {}, .fetch {}, .decode {}, .decode {}, .decode {}, .mapInst, .mapInst,
    .mapInst, .writeback 0, .checkBrq, .writeback 1, .writeback 2, .commit, .commit, .commit]

/-- The delay slot is not executed a second time, as the target of its branch. -/
theorem slot_target_skipped : ∃ s, run smallConfig slotTarget slotTargetRun = some s ∧
    s.committedPCs = [0x400000, 0x400004, 0x400008] ∧
    ((Seq.start smallConfig slotTarget).steps smallConfig 3).map Prod.fst =
      some [0x400000, 0x400004, 0x400004] ∧
    s.committedArch.regs.regsR 2 = 1 ∧
    ((Seq.start smallConfig slotTarget).steps smallConfig 3).map (fun r => r.2.arch.regs.regsR 2) =
      some 2 := by
  have seen : (run smallConfig slotTarget slotTargetRun).map
      (fun s => (s.committedPCs, s.committedArch.regs.regsR 2)) =
        some ([0x400000, 0x400004, 0x400008], 1) := by decide
  obtain ⟨s, ran, fields⟩ := Option.map_eq_some_iff.mp seen
  simp only [Prod.mk.injEq] at fields
  exact ⟨s, ran, fields.1, by decide, fields.2, by decide⟩

end Example

end Run

end Godson.Core

import Godson.Flush
import Godson.Runs

/-! Multiplications and divisions travel as two instructions. Fetch puts the second half
directly behind the first, and what is cut off the instruction stream is its young end. A
pair can come apart only where the cut goes between its halves. -/
namespace Godson.Core

open Mips

/-- `e` is the second half that belongs to `d`. -/
def SecondHalf (d e : InstDescript) : Prop :=
  e.half = true ∧ e.pc = d.pc ∧ e.ir = d.ir ∧
    e.op = if d.op == .mult || d.op == .multu then .splitmul else .splitdiv

/-- `e` may follow `d`: a first half and its second half only follow each other. -/
structure Joined (d e : InstDescript) : Prop where
  onward : d.op.isSplit = true → SecondHalf d e
  back : e.half = true → d.op.isSplit = true

/-- A stretch of the instruction stream in which no half is alone. -/
structure Whole (l : List InstDescript) : Prop where
  first : ∀ d, l.head? = some d → d.half = false
  joined : l.IsChain Joined
  last : ∀ d, l.getLast? = some d → d.op.isSplit = false

/-- An instruction that stands in for another. -/
structure StandsFor (d d' : InstDescript) : Prop where
  half : d'.half = d.half
  split : d'.op.isSplit = d.op.isSplit
  same : d.half = true ∨ d.op.isSplit = true → d'.op = d.op ∧ d'.ir = d.ir ∧ d'.pc = d.pc

theorem StandsFor.refl (d : InstDescript) : StandsFor d d := ⟨rfl, rfl, fun _ => ⟨rfl, rfl, rfl⟩⟩

theorem standsFor_refl (l : List InstDescript) : List.Forall₂ StandsFor l l :=
  List.forall₂_same.mpr fun d _ => .refl d

theorem Marked.standsFor {d d' : InstDescript} (h : Marked d d') : StandsFor d d' := by
  obtain ⟨⟨_, _, _, _, rfl⟩, -⟩ := h
  exact ⟨rfl, rfl, fun _ => ⟨rfl, rfl, rfl⟩⟩

theorem Joined.replace {d e d' e' : InstDescript} (h : Joined d e) (hd : StandsFor d d')
    (he : StandsFor e e') : Joined d' e' := by
  constructor
  · intro split
    rw [hd.split] at split
    obtain ⟨half, pc, ir, op⟩ := h.onward split
    obtain ⟨sameOp, sameIr, samePc⟩ := hd.same (.inr split)
    obtain ⟨op', ir', pc'⟩ := he.same (.inl half)
    refine ⟨he.half.trans half, ?_, ?_, ?_⟩
    · rw [pc', pc, samePc]
    · rw [ir', ir, sameIr]
    · rw [op', op, sameOp]
  · intro half
    rw [hd.split]
    exact h.back (he.half.symm.trans half)

theorem joined_replace {l l' : List InstDescript} (h : List.Forall₂ StandsFor l l')
    (joined : l.IsChain Joined) : l'.IsChain Joined := by
  induction h with
  | nil => exact .nil
  | cons hd ht ih =>
    cases ht with
    | nil => exact .singleton _
    | cons he ht =>
      obtain ⟨now, rest⟩ := List.isChain_cons_cons.mp joined
      exact List.isChain_cons_cons.mpr ⟨now.replace hd he, ih rest⟩

theorem Whole.replace {l l' : List InstDescript} (h : Whole l) (k : List.Forall₂ StandsFor l l') :
    Whole l' := by
  refine ⟨?_, joined_replace k h.joined, ?_⟩
  · intro d' hd
    cases k with
    | nil => cases hd
    | cons now _ =>
      cases hd
      exact now.half.trans (h.first _ rfl)
  · intro d' hd
    have last := h.last
    rw [← List.head?_reverse] at hd last
    have back := List.forall₂_reverse_iff.mpr k
    revert hd back last
    generalize l.reverse = r, l'.reverse = r'
    intro hd last back
    cases back with
    | nil => cases hd
    | cons now _ =>
      cases hd
      exact now.split.trans (last _ rfl)

theorem Whole.append {l q : List InstDescript} (h : Whole l) (k : Whole q) : Whole (l ++ q) := by
  refine ⟨?_, ?_, ?_⟩
  · intro d hd
    cases l with
    | nil => exact k.first d hd
    | cons e l => exact h.first d hd
  · apply List.isChain_append.mpr
    refine ⟨h.joined, k.joined, ?_⟩
    intro d hd e he
    constructor
    · intro split
      exact absurd ((h.last d hd).symm.trans split) (by decide)
    · intro half
      exact absurd ((k.first e he).symm.trans half) (by decide)
  · intro d hd
    rw [List.getLast?_append] at hd
    cases hq : q.getLast? with
    | none =>
      rw [hq] at hd
      exact h.last d hd
    | some e =>
      rw [hq] at hd
      cases hd
      exact k.last _ hq

/-- The young end may be cut off, but not behind a first half. -/
theorem Whole.cut {l q : List InstDescript} (h : Whole (l ++ q))
    (last : ∀ d, l.getLast? = some d → d.op.isSplit = false) : Whole l := by
  refine ⟨?_, (List.isChain_append.mp h.joined).1, last⟩
  intro d hd
  apply h.first d
  rw [List.head?_append, hd, Option.some_or]

/-- Every instruction that fetch, decode and the reorder queue hold, behind the committed
ones. -/
def stream (s : Core) : List InstDescript := s.line ++ s.fetchData

/-- The redirection of the fetch unit keeps one instruction, and the recovery of a
mispredicted branch one behind it: neither may be a first half. -/
def Uncut (s : Core) : Act → Prop
  | .decode _ => s.needToCorrectPc = true → ∀ d, s.fetchData.head? = some d → d.op.isSplit = false
  | .checkBrq => ∀ rs d younger, s.roq.dropWhile waiting = rs :: d :: younger →
      rs.misPredict = true → rs.likely = false → d.op.isSplit = false
  | _ => True

variable {cfg : CoreConfig} {s t : Core}

theorem fetchedOnce_whole (p : Prediction) : Whole (fetchedOnce cfg p s) := by
  have whole := fetched_whole cfg p s
  simp only [fetchedOnce]
  cases hs : (fetched cfg p s).op.isSplit with
  | false =>
    refine ⟨?_, by simp, ?_⟩
    · intro d hd
      cases hd
      exact whole
    · intro d hd
      cases hd
      exact hs
  | true =>
    refine ⟨?_, ?_, ?_⟩
    · intro d hd
      cases hd
      exact whole
    · apply List.isChain_pair.mpr
      exact ⟨fun _ => ⟨secondHalf_half whole hs, rfl, rfl, rfl⟩, fun _ => hs⟩
    · have half : (secondHalf (fetched cfg p s)).op.isSplit = false := by
        simp only [secondHalf]
        split <;> rfl
      intro d hd
      cases hd
      exact half

theorem Whole.fetchInst (h : Whole s.stream) (p : Prediction) :
    Whole (s.fetchInst cfg p).stream := by
  have queue : (s.fetchInst cfg p).stream = s.stream ++ fetchedOnce cfg p s :=
    (List.append_assoc ..).symm
  rw [queue]
  exact h.append (fetchedOnce_whole p)

/-- Commit moves an instruction on, or throws away everything behind one that is no half. -/
theorem Whole.commit (h : Whole s.stream) (k : s.commit = some t) : Whole t.stream := by
  simp only [Core.commit] at k
  split at k
  · cases k
    exact h
  · rename_i rs roq hr
    split at k
    · cases k
    · split at k
      · cases k
        exact h
      · split at k
        · rename_i flush
          cases k
          simp only [stream, line, Core.live, pipelineFlush, tracerRecover, List.append_nil]
          simp only [stream, line, Core.live, hr, List.append_assoc] at h
          apply h.cut
          intro d hd
          by_contra split
          have split : d.op.isSplit = true := by simpa using split
          obtain ⟨-, -, meet⟩ := List.isChain_append.mp h.joined
          have second := (meet d hd rs rfl).onward split
          simp only [Bool.and_eq_true] at flush
          have op := second.2.2.2
          rw [op] at flush
          split at flush <;> exact absurd flush.1 (by decide)
        · cases k
          simp only [stream, line, Core.live, hr, List.append_assoc, List.cons_append,
            List.nil_append] at h ⊢
          exact h

theorem Whole.mapInst (h : Whole s.stream) : Whole s.mapInst.stream := by
  unfold Core.mapInst
  split
  · exact h
  · rename_i d rest hd
    simp only [stream, line, Core.live, hd, List.append_assoc, List.cons_append,
      List.nil_append] at h ⊢
    exact h

/-- A mark on the instructions of the reorder queue. -/
theorem Whole.mark (h : Whole s.stream) {roq : List InstDescript}
    (marked : List.Forall₂ Marked s.roq roq) : Whole { s with roq }.stream := by
  apply h.replace
  simp only [stream, line, Core.live, List.append_assoc]
  exact List.rel_append (standsFor_refl _)
    (List.rel_append (marked.imp fun _ _ => Marked.standsFor) (standsFor_refl _))

theorem Whole.checkBrq (h : Whole s.stream) (uncut : Uncut s .checkBrq) :
    Whole s.checkBrq.stream := by
  simp only [Core.checkBrq]
  split
  · exact h
  · rename_i rs younger hq
    have roq : s.roq = s.roq.takeWhile waiting ++ rs :: younger := by
      rw [← hq, List.takeWhile_append_dropWhile]
    have ctrl : rs.ctrl = true := by
      have first := List.head?_dropWhile_not waiting s.roq
      rw [hq] at first
      simp only [List.head?_cons, waiting] at first
      simp only [Bool.not_eq_eq_eq_not, Bool.not_false, Bool.and_eq_true] at first
      exact first.1
    have marked : List.Forall₂ Marked s.roq (s.roq.takeWhile waiting ++ resolve rs :: younger) := by
      rw [roq]
      apply List.rel_append
      · rw [← roq]
        exact marked_refl _
      · exact .cons (marked_resolve rs) (marked_refl _)
    have resolved := h.mark marked
    split
    · split
      · rename_i mis
        -- what stays of the reorder queue ends with the branch or its delay slot
        have front : ∀ kept cutOff, younger = kept ++ cutOff →
            (∀ d, kept.getLast? = some d → d.op.isSplit = false) →
            Whole (s.retired ++ (s.roq.takeWhile waiting ++ resolve rs :: kept)) := by
          intro kept cutOff split last
          rw [split] at resolved
          simp only [stream, line, Core.live, List.append_assoc, List.cons_append] at resolved
          apply Whole.cut (q := cutOff ++ (s.decodeData ++ s.fetchData))
          · simpa only [List.append_assoc, List.cons_append] using resolved
          · intro d hd
            rw [List.getLast?_append, List.getLast?_append, List.getLast?_cons] at hd
            cases hk : kept.getLast? with
            | none =>
              rw [hk] at hd
              cases hd
              exact ctrl_not_split ctrl
            | some e =>
              rw [hk] at hd
              cases hd
              exact last _ hk
        simp only [stream, line, Core.live, brerrRecover, tracerRecover, List.append_nil]
        split
        · rename_i slot
          apply front (younger.take 1) (younger.drop 1) (List.take_append_drop 1 younger).symm
          intro d hd
          cases younger with
          | nil => cases hd
          | cons e q =>
            cases hd
            simp only [Bool.and_eq_true, Bool.not_eq_true'] at slot
            exact uncut rs e q hq mis slot.2
        · apply front [] younger rfl
          intro d hd
          cases hd
      · exact resolved
    · exact h

/-- The second halves in the stream are those that fetch has made. -/
theorem Whole.half_op {l : List InstDescript} (h : Whole l) {d : InstDescript} (hd : d ∈ l)
    (half : d.half = true) : d.op = .splitmul ∨ d.op = .splitdiv := by
  obtain ⟨a, b, rfl⟩ := List.append_of_mem hd
  rcases List.eq_nil_or_concat a with rfl | ⟨a, e, rfl⟩
  · exact absurd ((h.first d rfl).symm.trans half) (by decide)
  · rw [List.concat_eq_append, List.append_assoc] at h
    obtain ⟨-, joined, -⟩ := List.isChain_append.mp h.joined
    have now := (List.isChain_cons_cons.mp joined).1
    rw [(now.onward (now.back half)).2.2.2]
    split
    · exact .inl rfl
    · exact .inr rfl

theorem delaySlot_standsFor (h : Whole s.stream) {d d' : InstDescript} {rest : List InstDescript}
    (fetched : s.fetchData = d :: rest) (slot : s.delaySlot d = some d') : StandsFor d d' := by
  rcases delaySlot_cases slot with ⟨-, rfl⟩ | ⟨-, -, -, ir, op, rfl, ⟨rfl, rfl⟩ | ⟨-, ctrl, rfl, rfl⟩⟩
  · exact .refl d'
  · exact ⟨rfl, rfl, fun _ => ⟨rfl, rfl, rfl⟩⟩
  · have whole : d.half = false := by
      by_contra half
      have half : d.half = true := by simpa using half
      have here : d ∈ s.stream := by simp [stream, fetched]
      simp only [InstDescript.ctrl] at ctrl
      rcases h.half_op here half with op | op <;> rw [op] at ctrl <;> cases ctrl
    have plain := ctrl_not_split ctrl
    have nop : (mdSetOpcode nopInst != mdSetOpcode nopInst) = false ∧
        (mdSetOpcode nopInst).isSplit = false := by decide
    refine ⟨nop.1.trans whole.symm, nop.2.trans plain.symm, ?_⟩
    simp [whole, plain]

/-- Decode takes the next instruction; a redirection drops all behind it. -/
theorem Whole.decode (h : Whole s.stream) {p : Prediction} (uncut : Uncut s (.decode p))
    (k : decodeInst cfg p s = some t) : Whole t.stream := by
  rcases decodeInst_cases k with rfl | ⟨d, rest, d', fetched, slot, next⟩
  · exact h
  · have stands := delaySlot_standsFor h fetched slot
    have whole : Whole (s.line ++ d :: rest) := by
      rw [stream, fetched] at h
      exact h
    rcases next with ⟨-, rfl⟩ | ⟨x, hx, rfl⟩
    · exact whole.replace (List.rel_append (standsFor_refl _) (.cons stands (standsFor_refl _)))
    · obtain ⟨a, r, q, saves, core, inst, -, -⟩ := execute_spec hx
      obtain ⟨f, l, n, c, sr, level, entering, rp, mis, dp, pp, enq, redirects, -⟩ :=
        enqueue_spec cfg p x
      have done : StandsFor d (decoded x mis dp) := by
        rw [decoded, inst]
        exact ⟨stands.half, stands.split, stands.same⟩
      have queue : (enqueue cfg p x).stream = s.line ++ decoded x mis dp :: l := by
        rw [enq, core]
        simp [stream, line, Core.live, atDecode]
      have moved := whole.replace (List.rel_append (standsFor_refl s.line)
        (.cons done (standsFor_refl rest)))
      rw [queue]
      rcases redirects with ⟨need, -, rfl, -⟩ | ⟨-, -, rfl, -⟩
      · have plain : d.op.isSplit = false := by
          apply uncut _ d
          · rw [fetched]
            rfl
          · rw [core] at need
            exact need
        apply Whole.cut (q := rest)
        · rw [List.append_assoc]
          exact moved
        · intro e he
          rw [List.getLast?_append] at he
          cases he
          exact done.split.trans plain
      · rw [core]
        exact moved

theorem Whole.act {a : Act} (h : Whole s.stream) (uncut : Uncut s a) (k : act cfg s a = some t) :
    Whole t.stream := by
  cases a with
  | commit => exact h.commit k
  | checkBrq => cases k; exact h.checkBrq uncut
  | writeback i => cases k; exact h.mark (marked_modify marked_writeOne _ i)
  | markEx i => cases k; exact h.mark (marked_modify marked_raiseEx _ i)
  | mapInst => cases k; exact h.mapInst
  | decode p => exact h.decode uncut k
  | fetch p => cases k; exact h.fetchInst p

theorem whole_start (cfg : CoreConfig) (arch : Arch) : Whole (start cfg arch).stream := by
  refine ⟨?_, .nil, ?_⟩
  · intro d hd
    cases hd
  · intro d hd
    cases hd

/-- Behind a committed multiplication or division its second half commits next, and no
second half commits without its first. -/
theorem split_whole (cfg : CoreConfig) (arch : Arch) (acts : List Act) (s : Core)
    (ran : run cfg arch acts = some s)
    (uncut : Runs.Along (act cfg) Uncut (start cfg arch) acts) :
    (∀ pre d post, s.retired = pre ++ d :: post → d.op.isSplit = true →
      ∃ e rest, post ++ (s.live ++ s.fetchData) = e :: rest ∧ SecondHalf d e) ∧
    ∀ pre e post, s.retired = pre ++ e :: post → e.half = true →
      ∃ front d, pre = front ++ [d] ∧ d.op.isSplit = true ∧ SecondHalf d e := by
  have whole : Whole s.stream := by
    apply uncut.invariant (I := fun s => Whole s.stream) _ (whole_start cfg arch) ran
    intro s a t h u k
    exact Whole.act h u k
  constructor
  · intro pre d post split first
    rw [stream, line, split, List.append_assoc, List.append_assoc, List.cons_append] at whole
    obtain ⟨-, joined, -⟩ := List.isChain_append.mp whole.joined
    cases behind : post ++ (s.live ++ s.fetchData) with
    | nil =>
      rw [behind] at whole
      have last := whole.last d (by simp)
      exact absurd (last.symm.trans first) (by decide)
    | cons e rest =>
      rw [behind] at joined
      exact ⟨e, rest, rfl, (List.isChain_cons_cons.mp joined).1.onward first⟩
  · intro pre e post split second
    rw [stream, line, split, List.append_assoc, List.append_assoc, List.cons_append] at whole
    rcases List.eq_nil_or_concat pre with rfl | ⟨front, d, rfl⟩
    · exact absurd ((whole.first e rfl).symm.trans second) (by decide)
    · rw [List.concat_eq_append, List.append_assoc] at whole
      obtain ⟨-, joined, -⟩ := List.isChain_append.mp whole.joined
      have now := (List.isChain_cons_cons.mp joined).1
      exact ⟨front, d, List.concat_eq_append .., now.back second, now.onward (now.back second)⟩

section Example

/-- The test of `Uncut`. -/
def uncutStep (s : Core) : Act → Bool
  | .decode _ => !s.needToCorrectPc || s.fetchData.head?.all fun d => !d.op.isSplit
  | .checkBrq => (s.roq.dropWhile waiting).head?.all fun rs => !rs.misPredict || rs.likely ||
      (s.roq.dropWhile waiting).tail.head?.all fun d => !d.op.isSplit
  | _ => true

theorem uncut_of_step (s : Core) (a : Act) (h : uncutStep s a = true) : Uncut s a := by
  cases a with
  | decode p =>
    intro need d hd
    simpa [uncutStep, need, hd] using h
  | checkBrq =>
    intro rs d younger hq mis likely
    simpa [uncutStep, hq, mis, likely] using h
  | _ => trivial

/-- A multiplication at the entry. -/
def multFirst : Arch where
  mem := writeMem (fun _ => 0) .word 0x400000 0x00000018

def multRun : List Act :=
  [.fetch {}, .decode {}, .decode {}, .mapInst, .mapInst, .writeback 0, .writeback 1, .commit,
    .commit]

theorem split_whole_mult : ∃ s d e, run smallConfig multFirst multRun = some s ∧
    s.retired = [d, e] ∧ d.op = .mult ∧ e.op = .splitmul ∧ SecondHalf d e := by
  have ops : (run smallConfig multFirst multRun).map (fun s => s.retired.map InstDescript.op) =
      some [.mult, .splitmul] := by decide
  obtain ⟨s, ran, ops⟩ := Option.map_eq_some_iff.mp ops
  obtain ⟨d, q, split, first, rest⟩ := List.map_eq_cons_iff.mp ops
  obtain ⟨e, q', split', second, rest'⟩ := List.map_eq_cons_iff.mp rest
  have alone : q' = [] := List.map_eq_nil_iff.mp rest'
  subst alone split'
  have uncut : Runs.Along (act smallConfig) Uncut (start smallConfig multFirst) multRun :=
    Runs.along_of_check uncut_of_step (by decide)
  obtain ⟨onward, -⟩ := split_whole smallConfig multFirst multRun s ran uncut
  obtain ⟨e', rest, next, pair⟩ := onward [] d [e] split (by rw [first]; rfl)
  cases next
  exact ⟨s, d, e, ran, split, first, second, pair⟩

/-- A jump to 0x400010 with a multiplication in its delay slot. -/
def multInSlot : Arch where
  mem := writeMem (writeMem (fun _ => 0) .word 0x400000 0x08100004) .word 0x400004 0x00000018

/-- Fetch has both halves when decode redirects it. -/
def multInSlotRun : List Act :=
  [.fetch {}, .fetch {}, .decode {}, .decode {}, .fetch {}, .decode {}, .mapInst, .mapInst,
    .mapInst, .writeback 0, .checkBrq, .writeback 1, .writeback 2, .commit, .commit, .commit]

/-- The multiplication commits, and the target of the jump behind it; no second half is
left anywhere. -/
theorem split_half_lost : ∃ s, run smallConfig multInSlot multInSlotRun = some s ∧
    s.retired.map (fun d => (d.pc, d.op)) =
      [(0x400000, .jump), (0x400004, .mult), (0x400010, .sll)] ∧
    (∀ d ∈ s.stream, d.half = false) := by
  have seen : (run smallConfig multInSlot multInSlotRun).map
      (fun s => (s.retired.map (fun d => (d.pc, d.op)), s.stream.all fun d => !d.half)) =
        some ([(0x400000, .jump), (0x400004, .mult), (0x400010, .sll)], true) := by decide
  obtain ⟨s, ran, fields⟩ := Option.map_eq_some_iff.mp seen
  simp only [Prod.mk.injEq, List.all_eq_true, Bool.not_eq_true'] at fields
  exact ⟨s, ran, fields.1, fields.2⟩

end Example

end Godson.Core

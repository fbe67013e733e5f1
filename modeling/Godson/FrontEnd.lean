import Mathlib.Data.List.Chain
import Godson.Speculation

/-! The front end of a core: the fetch queue holds consecutive instructions up to the
fetch PC, and the delay slot of a branch is the next instruction that decode takes. -/
namespace Godson.Core

open Mips

/-- The PC behind an instruction in the fetch queue; the halves of a split operation
share theirs. -/
def follows (d : InstDescript) : Word := if d.op.isSplit then d.pc else d.pc + 4

/-- Consecutive instructions from one PC up to another; `half` says whether the first is
the second half of a split operation. -/
def Stream : Bool → Word → List InstDescript → Word → Prop
  | half, pc, [], pc' => half = false ∧ pc' = pc
  | half, pc, d :: l, pc' => d.half = half ∧ d.pc = pc ∧ Stream d.op.isSplit (follows d) l pc'

theorem Stream.append {half : Bool} {pc m pc' : Word} {l q : List InstDescript}
    (h : Stream half pc l m) (k : Stream false m q pc') : Stream half pc (l ++ q) pc' := by
  induction l generalizing half pc with
  | nil =>
    obtain ⟨rfl, rfl⟩ := h
    exact k
  | cons d l ih => exact ⟨h.1, h.2.1, ih h.2.2⟩

/-- The PC of the next instruction to decode. -/
def nextPC (s : Core) : Word := (s.fetchData.head?.map InstDescript.pc).getD s.fetchRegPC

/-- The next instruction to decode is the second half of a split operation. -/
def nextHalf (s : Core) : Bool := (s.fetchData.head?.map InstDescript.half).getD false

theorem Stream.head {half : Bool} {pc pc' : Word} {l : List InstDescript}
    (h : Stream half pc l pc') :
    (l.head?.map InstDescript.half).getD false = half ∧
      (l.head?.map InstDescript.pc).getD pc' = pc := by
  cases l with
  | nil => exact ⟨h.1.symm, h.2⟩
  | cons d l => exact ⟨h.1, h.2.1⟩

/-- A delay slot stands directly behind its branch. -/
def SlotOf (b d : InstDescript) : Prop := d.bd = true → b.ctrl = true ∧ d.pc = b.pc + 4

/-- All instructions on their way to or out of the commit stage, oldest first. -/
def line (s : Core) : List InstDescript := s.retired ++ s.live

theorem slotOf_marked {l l' : List InstDescript} (h : List.Forall₂ Marked l l')
    (k : l.IsChain SlotOf) : l'.IsChain SlotOf := by
  induction h with
  | nil => exact k
  | cons hd ht ih =>
    cases ht with
    | nil => exact .singleton _
    | cons he ht =>
      obtain ⟨now, rest⟩ := List.isChain_cons_cons.mp k
      apply List.isChain_cons_cons.mpr
      refine ⟨?_, ih rest⟩
      obtain ⟨⟨_, _, _, _, rfl⟩, -⟩ := hd
      obtain ⟨⟨_, _, _, _, rfl⟩, -⟩ := he
      exact now

/-- Where the front end is, and the places of the delay slots. -/
structure Slots (cfg : CoreConfig) (s : Core) : Prop where
  stream : Stream s.nextHalf s.nextPC s.fetchData s.fetchRegPC
  halves : ∀ d ∈ s.fetchData, d.half = true → d.op = .splitmul ∨ d.op = .splitdiv
  later : ∀ d ∈ s.fetchData.tail, d.bd = false
  plain : ∀ d ∈ s.fetchData, d.bd = true → d.ctrl = false
  straight : ∀ d ∈ s.fetchData, d.ctrl = false → d.predPC = d.pc + 4
  perfect : cfg.predPerfect = true → s.specLevel = 0 ∧ s.enteringSpec = false
  redirect : s.needToCorrectPc = true → s.slotNext
  entering : s.enteringSpec = true → s.slotNext
  whole : s.slotNext → s.nextHalf = false
  next : s.slotNext → ∃ b, s.line.getLast? = some b ∧ b.ctrl = true ∧ s.nextPC = b.pc + 4
  first : ∀ d, s.line.head? = some d → d.bd = false
  adjacent : s.line.IsChain SlotOf

theorem marked_first {l l' : List InstDescript} (h : List.Forall₂ Marked l l') {d' : InstDescript}
    (hd : l'.head? = some d') : ∃ d, l.head? = some d ∧ Marked d d' := by
  cases h with
  | nil => cases hd
  | cons head _ =>
    cases hd
    exact ⟨_, rfl, head⟩

theorem marked_last {l l' : List InstDescript} (h : List.Forall₂ Marked l l') {b : InstDescript}
    (hb : l.getLast? = some b) : ∃ b', l'.getLast? = some b' ∧ Marked b b' := by
  rw [← List.head?_reverse] at hb ⊢
  have back := List.forall₂_reverse_iff.mpr h
  revert hb back
  generalize l.reverse = r, l'.reverse = r'
  intro hb back
  cases back with
  | nil => cases hb
  | cons last _ =>
    cases hb
    exact ⟨_, rfl, last⟩

variable {cfg : CoreConfig} {s t : Core}

/-- Instructions that are only marked, or move on to the next queue. -/
theorem Slots.marked (h : Slots cfg s) {retired roq decodeData : List InstDescript}
    (line : List.Forall₂ Marked s.line (retired ++ (roq ++ decodeData))) :
    Slots cfg { s with retired, roq, decodeData } := by
  refine ⟨h.stream, h.halves, h.later, h.plain, h.straight, h.perfect, h.redirect, h.entering,
    h.whole, ?_, ?_, slotOf_marked line h.adjacent⟩
  · intro slot
    obtain ⟨b, last, ctrl, pc⟩ := h.next slot
    obtain ⟨b', last', ⟨⟨_, _, _, _, rfl⟩, -⟩⟩ := marked_last line last
    exact ⟨_, last', ctrl, pc⟩
  · intro d' hd
    obtain ⟨d, first, ⟨⟨_, _, _, _, rfl⟩, -⟩⟩ := marked_first line hd
    exact h.first d first

/-- The front end starts again behind a part of the instructions that is left. -/
theorem Slots.restart (h : Slots cfg s) (front : List InstDescript) (part : front <+: s.line)
    (line : List.Forall₂ Marked front t.line) (fetch : t.fetchData = [])
    (last : t.lastIsBranch = false) (need : t.needToCorrectPc = false)
    (enter : t.enteringSpec = false) (perfect : cfg.predPerfect = true → t.specLevel = 0) :
    Slots cfg t := by
  have noSlot : ¬ t.slotNext := by
    rintro (now | ⟨d, rest, hd, -⟩)
    · exact absurd (last.symm.trans now) (by decide)
    · rw [fetch] at hd
      cases hd
  refine ⟨?_, ?_, ?_, ?_, ?_, fun on => ⟨perfect on, enter⟩, ?_, ?_,
    fun slot => absurd slot noSlot, fun slot => absurd slot noSlot, ?_, ?_⟩
  · rw [fetch]
    simp [Stream, nextPC, nextHalf, fetch]
  · simp [fetch]
  · simp [fetch]
  · simp [fetch]
  · simp [fetch]
  · intro now
    exact absurd (need.symm.trans now) (by decide)
  · intro now
    exact absurd (enter.symm.trans now) (by decide)
  · intro d' hd
    obtain ⟨d, first, ⟨⟨_, _, _, _, rfl⟩, -⟩⟩ := marked_first line hd
    obtain ⟨rest, whole⟩ := part
    apply h.first d
    rw [← whole, List.head?_append, first, Option.some_or]
  · exact slotOf_marked line <| List.IsChain.prefix h.adjacent part

theorem Slots.commit (h : Slots cfg s) (k : s.commit = some t) : Slots cfg t := by
  simp only [Core.commit] at k
  split at k
  · cases k
    exact h
  · rename_i rs roq hr
    split at k
    · cases k
    · split at k
      · cases k
        exact h
      · split at k
        · cases k
          apply h.restart s.retired (List.prefix_append _ _) _ rfl rfl rfl rfl
          · exact fun _ => rfl
          · simp only [line, Core.live, pipelineFlush, tracerRecover, List.append_nil]
            exact marked_refl _
        · cases k
          apply h.marked
          simp only [line, Core.live, hr, List.append_assoc, List.cons_append, List.nil_append]
          exact marked_refl _

theorem Slots.mapInst (h : Slots cfg s) : Slots cfg s.mapInst := by
  unfold Core.mapInst
  split
  · exact h
  · rename_i d rest hd
    apply h.marked
    simp only [line, Core.live, hd, List.append_assoc, List.cons_append, List.nil_append]
    exact marked_refl _

/-- The perfect predictor never leaves a branch to be resolved. -/
theorem Slots.checkBrq (h : Slots cfg s) (sound : Sound s) : Slots cfg s.checkBrq := by
  rcases checkBrq_cases s with same | ⟨older, rs, younger, roq, ctrl, ready, resolved⟩
  · rw [same]
    exact h
  · have live : s.live = older ++ rs :: (younger ++ s.decodeData) := by simp [Core.live, roq]
    have mark : ∀ q, List.Forall₂ Marked (s.retired ++ (older ++ rs :: q))
        (s.retired ++ (older ++ resolve rs :: q)) := fun q =>
      List.rel_append (marked_refl _)
        (List.rel_append (marked_refl _) (.cons (marked_resolve rs) (marked_refl q)))
    rcases resolved with ⟨-, next⟩ | ⟨mis, more, next⟩
    · rw [next]
      apply h.marked
      rw [line, live, List.append_assoc, List.cons_append]
      exact mark _
    · have deep : s.specLevel ≠ 0 := by
        have levels := sound.levels
        rw [live] at levels
        have behind := levels.behind (sound.isOpen live ready mis)
        cases younger with
        | nil => exact absurd rfl more
        | cons d q => exact behind.1
      rw [next, sound.brerrRecover_front live ctrl]
      apply h.restart (s.retired ++ (older ++ rs :: kept rs younger)) _ _ rfl rfl rfl rfl
      · exact fun perfect => absurd (h.perfect perfect).1 deep
      · rw [line, live, List.prefix_append_right_inj, List.prefix_append_right_inj,
          List.cons_prefix_cons]
        refine ⟨rfl, ?_⟩
        simp only [kept]
        split
        · exact List.nil_prefix
        · exact (List.take_prefix 1 younger).trans (List.prefix_append _ _)
      · simp only [line, Core.live, tracerRecover, List.append_nil]
        exact mark _

theorem stream_single {d : InstDescript} (plain : d.op.isSplit = false) :
    Stream d.half d.pc [d] (d.pc + 4) := by
  simp [Stream, follows, plain]

/-- The instructions that one round of fetch adds to the queue. -/
def fetchedOnce (cfg : CoreConfig) (p : Prediction) (s : Core) : List InstDescript :=
  fetched cfg p s :: if (fetched cfg p s).op.isSplit then [secondHalf (fetched cfg p s)] else []

theorem fetched_whole (cfg : CoreConfig) (p : Prediction) (s : Core) :
    (fetched cfg p s).half = false := by
  simp [InstDescript.half, fetched]

/-- The second half is marked as one. -/
theorem secondHalf_half {d : InstDescript} (whole : d.half = false) (split : d.op.isSplit = true) :
    (secondHalf d).half = true := by
  have op : mdSetOpcode d.ir = d.op := by simpa [InstDescript.half] using whole
  simp only [InstDescript.half, secondHalf, op, bne_iff_ne, ne_eq]
  intro same
  rw [same] at split
  split at split <;> cases split

theorem fetchedOnce_stream (cfg : CoreConfig) (p : Prediction) (s : Core) :
    Stream false s.fetchRegPC (fetchedOnce cfg p s) (s.fetchRegPC + 4) := by
  have whole := fetched_whole cfg p s
  simp only [fetchedOnce]
  cases hs : (fetched cfg p s).op.isSplit with
  | false =>
    have single := stream_single hs
    rw [whole] at single
    exact single
  | true =>
    have half : (secondHalf (fetched cfg p s)).op.isSplit = false := by
      simp only [secondHalf]
      split <;> rfl
    have single := stream_single half
    rw [secondHalf_half whole hs] at single
    refine ⟨whole, rfl, ?_⟩
    simp only [follows, hs, if_true]
    exact single

theorem fetchedOnce_plain {p : Prediction} {d : InstDescript} (hd : d ∈ fetchedOnce cfg p s) :
    d.bd = false ∧ (d.ctrl = false → d.predPC = d.pc + 4) ∧
      (d.half = true → d.op = .splitmul ∨ d.op = .splitdiv) := by
  have first : (fetched cfg p s).ctrl = false →
      (fetched cfg p s).predPC = (fetched cfg p s).pc + 4 := by
    intro plain
    simp only [fetched]
    apply if_neg
    intro indirect
    have op : (fetched cfg p s).op = .jr ∨ (fetched cfg p s).op = .jalr := by
      simpa [fetched] using indirect
    rcases op with op | op <;> simp only [InstDescript.ctrl, op] at plain <;> cases plain
  rcases List.mem_cons.mp hd with rfl | hd
  · refine ⟨rfl, first, fun half => ?_⟩
    exact absurd ((fetched_whole cfg p s).symm.trans half) (by decide)
  · split at hd
    · rw [List.mem_singleton.mp hd]
      refine ⟨rfl, fun _ => rfl, fun _ => ?_⟩
      simp only [secondHalf]
      split
      · exact .inl rfl
      · exact .inr rfl
    · exact absurd hd List.not_mem_nil

theorem slotNext_fetchInst {p : Prediction} : (s.fetchInst cfg p).slotNext ↔ s.slotNext := by
  apply or_congr_right
  cases hf : s.fetchData with
  | nil =>
    constructor
    · rintro ⟨d, rest, hd, bd, -⟩
      have here : fetched cfg p s = d := by
        simp only [fetchInst, hf, List.nil_append, List.cons.injEq] at hd
        exact hd.1
      rw [← here] at bd
      cases bd
    · rintro ⟨d, rest, hd, -⟩
      cases hd
  | cons e l =>
    simp only [fetchInst, hf, List.cons_append, List.cons.injEq]
    constructor
    · rintro ⟨d, rest, ⟨same, -⟩, slot⟩
      exact ⟨d, l, ⟨same, rfl⟩, slot⟩
    · rintro ⟨d, rest, ⟨same, -⟩, slot⟩
      exact ⟨d, _, ⟨same, rfl⟩, slot⟩

theorem nextPC_fetchInst {p : Prediction} : (s.fetchInst cfg p).nextPC = s.nextPC := by
  simp only [nextPC, fetchInst]
  cases s.fetchData with
  | nil => rfl
  | cons d l => rfl

theorem nextHalf_fetchInst {p : Prediction} : (s.fetchInst cfg p).nextHalf = s.nextHalf := by
  simp only [nextHalf, fetchInst]
  cases s.fetchData with
  | nil => exact fetched_whole cfg p s
  | cons d l => rfl

theorem Slots.fetchInst (h : Slots cfg s) (p : Prediction) : Slots cfg (s.fetchInst cfg p) := by
  have queue : (s.fetchInst cfg p).fetchData = s.fetchData ++ fetchedOnce cfg p s := rfl
  have pc := @nextPC_fetchInst cfg s p
  have half := @nextHalf_fetchInst cfg s p
  refine ⟨?_, ?_, ?_, ?_, ?_, h.perfect, ?_, ?_, ?_, ?_, h.first, h.adjacent⟩
  · rw [pc, half, queue]
    exact h.stream.append (fetchedOnce_stream cfg p s)
  · intro d hd split
    rcases List.mem_append.mp hd with old | new
    · exact h.halves d old split
    · exact (fetchedOnce_plain new).2.2 split
  · rw [queue]
    intro d hd
    cases hf : s.fetchData with
    | nil =>
      rw [hf, List.nil_append] at hd
      exact (fetchedOnce_plain (List.mem_of_mem_tail hd)).1
    | cons e l =>
      rw [hf, List.cons_append, List.tail_cons] at hd
      rcases List.mem_append.mp hd with hd | hd
      · exact h.later d (by rw [hf]; exact hd)
      · exact (fetchedOnce_plain hd).1
  · intro d hd bd
    rcases List.mem_append.mp hd with old | new
    · exact h.plain d old bd
    · exact absurd ((fetchedOnce_plain new).1.symm.trans bd) (by decide)
  · intro d hd ctrl
    rcases List.mem_append.mp hd with old | new
    · exact h.straight d old ctrl
    · exact (fetchedOnce_plain new).2.1 ctrl
  · intro need
    exact slotNext_fetchInst.mpr (h.redirect need)
  · intro enter
    exact slotNext_fetchInst.mpr (h.entering enter)
  · intro slot
    rw [half]
    exact h.whole (slotNext_fetchInst.mp slot)
  · intro slot
    rw [pc]
    exact h.next (slotNext_fetchInst.mp slot)

theorem ctrl_not_split {op : Op} (h : op.has .ctrl = true) : op.isSplit = false := by
  cases op <;> first | rfl | cases h

/-- Decode may turn a delay slot into a `nop`, but not move it. -/
theorem delaySlot_place {d d' : InstDescript} (slot : s.delaySlot d = some d') :
    d'.pc = d.pc ∧ d'.predPC = d.predPC ∧ d'.op.isSplit = d.op.isSplit := by
  rcases delaySlot_cases slot with ⟨-, rfl⟩ | ⟨-, -, -, ir, op, rfl, ⟨-, rfl⟩ | ⟨-, ctrl, -, rfl⟩⟩
  · exact ⟨rfl, rfl, rfl⟩
  · exact ⟨rfl, rfl, rfl⟩
  · refine ⟨rfl, rfl, ?_⟩
    have nop : (mdSetOpcode nopInst).isSplit = false := by decide
    exact nop.trans (ctrl_not_split ctrl).symm

theorem delaySlot_half {d d' : InstDescript} (slot : s.delaySlot d = some d')
    (slots : Slots cfg s) {rest : List InstDescript} (fetched : s.fetchData = d :: rest) :
    d'.half = d.half := by
  rcases delaySlot_cases slot with ⟨-, rfl⟩ | ⟨last, -, -, ir, op, rfl, ⟨rfl, rfl⟩ | ⟨-, -, rfl, rfl⟩⟩
  · rfl
  · rfl
  · have whole := slots.whole (.inl last)
    have nop : (mdSetOpcode nopInst != mdSetOpcode nopInst) = false := by decide
    simp only [nextHalf, fetched, List.head?_cons, Option.map_some, Option.getD_some] at whole
    rw [whole]
    exact nop

theorem Slots.bd_next (h : Slots cfg s) {d d' : InstDescript} {rest : List InstDescript}
    (fetched : s.fetchData = d :: rest) (slot : s.delaySlot d = some d') (bd : d'.bd = true) :
    s.slotNext := by
  rcases delaySlot_cases slot with ⟨-, rfl⟩ | ⟨last, -⟩
  · exact .inr ⟨d', rest, fetched, bd, h.plain d' (by simp [fetched]) bd⟩
  · exact .inl last

/-- A trap instruction that waits at decode. -/
theorem Slots.wait (h : Slots cfg s) {d d' : InstDescript} {rest : List InstDescript}
    (fetched : s.fetchData = d :: rest) (slot : s.delaySlot d = some d')
    (trap : d'.op.has .trap = true) : Slots cfg (s.atDecode d' rest) := by
  obtain ⟨pc, predPC, split⟩ := delaySlot_place slot
  have half := delaySlot_half slot h fetched
  have stream := h.stream
  have later := h.later
  rw [fetched] at stream later
  have behind : follows d' = follows d := by rw [follows, follows, pc, split]
  have here : (s.atDecode d' rest).nextPC = s.nextPC := pc.trans stream.2.1
  have halfHere : (s.atDecode d' rest).nextHalf = s.nextHalf := half.trans stream.1
  have keepsOp : d'.op = d.op := by
    rcases delaySlot_cases slot with ⟨-, rfl⟩ | ⟨-, -, -, ir, op, rfl, ⟨-, rfl⟩ | ⟨-, -, -, rfl⟩⟩
    · rfl
    · rfl
    · have quiet : (mdSetOpcode nopInst).has .trap = false := by decide
      exact absurd (quiet.symm.trans trap) (by decide)
  have bdPlain : d'.bd = true → d'.ctrl = false := fun bd =>
    (slot_plain fetched slot (h.bd_next fetched slot bd)).2
  have restOf : ∀ e ∈ rest, e ∈ s.fetchData := fun e he => by simp [fetched, he]
  have still : s.slotNext → (s.atDecode d' rest).slotNext := by
    intro now
    obtain ⟨bd, ctrl⟩ := slot_plain fetched slot now
    exact .inr ⟨d', rest, rfl, bd, ctrl⟩
  have was : (s.atDecode d' rest).slotNext → s.slotNext := by
    rintro (last | ⟨e, r, he, bd, -⟩)
    · cases last
    · cases he
      exact h.bd_next fetched slot bd
  refine ⟨?_, ?_, later, ?_, ?_, h.perfect, fun need => still (h.redirect need),
    fun enter => still (h.entering enter), ?_, ?_, h.first, h.adjacent⟩
  · rw [here, halfHere]
    refine ⟨half.trans stream.1, pc.trans stream.2.1, ?_⟩
    rw [behind, split]
    exact stream.2.2
  · refine List.forall_mem_cons.mpr ⟨?_, fun e he => h.halves e (restOf e he)⟩
    rw [half, keepsOp]
    exact h.halves d (by simp [fetched])
  · exact List.forall_mem_cons.mpr ⟨bdPlain, fun e he => h.plain e (restOf e he)⟩
  · refine List.forall_mem_cons.mpr ⟨?_, fun e he => h.straight e (restOf e he)⟩
    intro ctrl
    rw [pc, predPC]
    apply h.straight d (by simp [fetched])
    rw [InstDescript.ctrl, ← keepsOp]
    exact ctrl
  · intro now
    rw [halfHere]
    exact h.whole (was now)
  · intro now
    rw [here]
    exact h.next (was now)

/-- With the perfect predictor, an instruction that is no branch falls through, as it was
predicted to. -/
theorem Slots.fallsThrough (h : Slots cfg s) {d d' : InstDescript} {rest : List InstDescript}
    (fetched : s.fetchData = d :: rest) (slot : s.delaySlot d = some d')
    (perfect : cfg.predPerfect = true) (ctrl : d'.ctrl = false) {p : Prediction} {x : Executed}
    (hx : execute cfg (s.atDecode d' rest) d' = some x) : prediction cfg p x = x.npc := by
  obtain ⟨a, r, q, saves, -, inst, ⟨jump, npc⟩, -⟩ := execute_spec hx
  obtain ⟨pc, predPC, -⟩ := delaySlot_place slot
  have straight : x.isJump = false := jump.trans (impl_straight _ _ _ _ _ ctrl)
  have plain : x.inst.ctrl = false := by rw [inst]; exact ctrl
  have was : d.ctrl = false := by
    rcases delaySlot_cases slot with ⟨-, rfl⟩ | ⟨-, -, -, ir, op, rfl, ⟨-, rfl⟩ | ⟨deep, -⟩⟩
    · exact ctrl
    · exact ctrl
    · exact absurd (h.perfect perfect).1 deep
  have fall : d'.predPC = d'.pc + 4 := by
    rw [pc, predPC]
    exact h.straight d (by simp [fetched]) was
  have predicted : prediction cfg p x = x.inst.predPC := by
    simp only [prediction, plain, Bool.not_false, if_true]
  rw [predicted, npc, straight, inst]
  exact fall

/-- Where decode goes on behind an instruction, and that it meets no delay slot unless the
instruction is a branch. -/
theorem Slots.resumes (h : Slots cfg s) {d d' : InstDescript} {rest : List InstDescript}
    (fetched : s.fetchData = d :: rest) (slot : s.delaySlot d = some d') {p : Prediction}
    {x : Executed} (hx : execute cfg (s.atDecode d' rest) d' = some x) :
    (s.needToCorrectPc = true →
      (enqueue cfg p x).nextHalf = false ∧ (enqueue cfg p x).nextPC = s.correctPC) ∧
    (s.needToCorrectPc = false →
      (enqueue cfg p x).nextHalf = d'.op.isSplit ∧ (enqueue cfg p x).nextPC = follows d') ∧
    ((enqueue cfg p x).slotNext ↔ d'.ctrl = true) := by
  obtain ⟨a, r, q, saves, core, inst, -, -⟩ := execute_spec hx
  obtain ⟨f, l, n, c, sr, level, entering, rp, mis, dp, pp, enq, redirects, -⟩ :=
    enqueue_spec cfg p x
  obtain ⟨pc, -, split⟩ := delaySlot_place slot
  have behind : follows d' = follows d := by rw [follows, follows, pc, split]
  have stream := h.stream
  rw [fetched] at stream
  have rest₀ : Stream d.op.isSplit (follows d) rest s.fetchRegPC := stream.2.2
  have need₀ : x.core.needToCorrectPc = s.needToCorrectPc := by rw [core]; rfl
  have queue₀ : x.core.fetchData = d' :: rest := by rw [core]; rfl
  have fetchPC₀ : x.core.fetchRegPC = s.fetchRegPC := by rw [core]; rfl
  have correct₀ : x.core.correctPC = s.correctPC := by rw [core]; rfl
  have fetch : (enqueue cfg p x).fetchData = l := by rw [enq]
  have fetchPC : (enqueue cfg p x).fetchRegPC = f := by rw [enq]
  have last : (enqueue cfg p x).lastIsBranch = d'.ctrl := by
    have last₀ : x.core.lastIsBranch = false := by rw [core]; rfl
    have ctrl₀ : x.inst.ctrl = d'.ctrl := by rw [inst]; rfl
    rw [enq]
    simp [last₀, ctrl₀]
  refine ⟨?_, ?_, ?_, ?_⟩
  · intro need
    rcases redirects with ⟨-, rfl, rfl, -⟩ | ⟨off, -⟩
    · simp only [nextHalf, nextPC, fetch, fetchPC]
      exact ⟨rfl, correct₀⟩
    · exact absurd (off.symm.trans (need₀.trans need)) (by decide)
  · intro calm
    rcases redirects with ⟨need, -⟩ | ⟨-, rfl, rfl, -⟩
    · exact absurd ((need₀.trans calm).symm.trans need) (by decide)
    · rw [nextHalf, nextPC, fetch, fetchPC, queue₀, List.tail_cons, fetchPC₀, split, behind]
      exact rest₀.head
  · rintro (now | ⟨e, r, he, bd, -⟩)
    · exact last.symm.trans now
    · have old : e ∈ rest := by
        rw [fetch] at he
        rcases redirects with ⟨-, -, rfl, -⟩ | ⟨-, -, rfl, -⟩
        · cases he
        · rw [queue₀, List.tail_cons] at he
          simp [he]
      have off := h.later e (by rw [fetched]; exact old)
      exact absurd (off.symm.trans bd) (by decide)
  · exact fun ctrl => .inl (last.trans ctrl)

theorem Slots.execute (h : Slots cfg s) {d d' : InstDescript} {rest : List InstDescript}
    (fetched : s.fetchData = d :: rest) (slot : s.delaySlot d = some d') {p : Prediction}
    {x : Executed} (hx : execute cfg (s.atDecode d' rest) d' = some x) :
    Slots cfg (enqueue cfg p x) := by
  obtain ⟨a, r, q, saves, core, inst, -, -⟩ := execute_spec hx
  obtain ⟨f, l, n, c, sr, level, entering, rp, mis, dp, pp, enq, redirects, deepens⟩ :=
    enqueue_spec cfg p x
  obtain ⟨pc, -, split⟩ := delaySlot_place slot
  have stream := h.stream
  rw [fetched] at stream
  have later : ∀ e ∈ rest, e.bd = false := by
    intro e he
    exact h.later e (by rw [fetched]; exact he)
  have restOf : ∀ e ∈ rest, e ∈ s.fetchData := fun e he => by simp [fetched, he]
  have need₀ : x.core.needToCorrectPc = s.needToCorrectPc := by rw [core]; rfl
  have queue₀ : x.core.fetchData = d' :: rest := by rw [core]; rfl
  have fetchPC₀ : x.core.fetchRegPC = s.fetchRegPC := by rw [core]; rfl
  have level₀ : x.core.specLevel = s.specLevel := by rw [core]; rfl
  have entering₀ : x.core.enteringSpec = s.enteringSpec := by rw [core]; rfl
  have ctrl₀ : x.inst.ctrl = d'.ctrl := by rw [inst]; rfl
  have fetch : (enqueue cfg p x).fetchData = l := by rw [enq]
  obtain ⟨goesTo, goesOn, slotNext⟩ := h.resumes (p := p) fetched slot hx
  have line : (enqueue cfg p x).line = s.line ++ [decoded x mis dp] := by
    rw [enq, core]
    simp [Core.line, Core.live, atDecode]
  -- a branch is never decoded while a redirection is due
  have calm : d'.ctrl = true → s.needToCorrectPc = false := by
    intro ctrl
    cases need : s.needToCorrectPc with
    | false => rfl
    | true =>
      have plain := (slot_plain fetched slot (h.redirect need)).2
      exact absurd (plain.symm.trans ctrl) (by decide)
  have noSlot : ∀ e ∈ l, e ∈ s.fetchData ∧ e.bd = false := by
    rcases redirects with ⟨-, -, rfl, -⟩ | ⟨-, -, rfl, -⟩
    · exact fun e he => absurd he List.not_mem_nil
    · rw [queue₀]
      exact fun e he => ⟨restOf e he, later e he⟩
  have perfect : cfg.predPerfect = true → d'.ctrl = true → pp = x.npc := by
    intro perfect ctrl
    rcases redirects with ⟨need, -⟩ | ⟨-, -, -, -, -, rfl⟩
    · exact absurd ((need₀.trans (calm ctrl)).symm.trans need) (by decide)
    · cases hr : Core.redirects cfg p x with
      | true => simp [perfect]
      | false =>
        simp only [Core.redirects, perfect, Bool.and_true, Bool.or_eq_false_iff,
          bne_eq_false_iff_eq] at hr
        simpa using hr.1
  have fetchPC : (enqueue cfg p x).fetchRegPC = f := by rw [enq]
  refine ⟨?_, ?_, ?_, ?_, ?_, ?_, ?_, ?_, ?_, ?_, ?_, ?_⟩
  · rcases redirects with ⟨-, -, rfl, -⟩ | ⟨off, rfl, rfl, -⟩
    · simp only [nextHalf, nextPC, fetch, fetchPC]
      exact ⟨rfl, rfl⟩
    · obtain ⟨half, at'⟩ := goesOn (need₀.symm.trans off)
      rw [half, at', fetch, fetchPC, fetchPC₀, queue₀, split, follows, pc, split]
      exact stream.2.2
  · rw [fetch]
    exact fun e he => h.halves e (noSlot e he).1
  · rw [fetch]
    exact fun e he => (noSlot e (List.mem_of_mem_tail he)).2
  · rw [fetch]
    exact fun e he => h.plain e (noSlot e he).1
  · rw [fetch]
    exact fun e he => h.straight e (noSlot e he).1
  · intro on
    obtain ⟨flat, off⟩ := h.perfect on
    rw [enq]
    rcases deepens with ⟨enter, -⟩ | ⟨-, ctrl, wrong, -⟩ | ⟨-, -, -, same, none⟩
    · exact absurd ((entering₀.trans off).symm.trans enter) (by decide)
    · exact absurd (perfect on (ctrl₀.symm.trans ctrl)) wrong
    · exact ⟨same.trans (level₀.trans flat), none⟩
  · rw [show (enqueue cfg p x).needToCorrectPc = n by rw [enq]]
    intro due
    apply slotNext.mpr
    rcases redirects with ⟨-, -, -, rfl, -⟩ | ⟨-, -, -, rfl, -⟩
    · cases due
    · cases ctrl : d'.ctrl with
      | true => rfl
      | false =>
        simp only [Core.redirects, ctrl₀, ctrl, Bool.false_and, Bool.or_false,
          Bool.and_eq_true, bne_iff_ne, ne_eq] at due
        exact absurd (h.fallsThrough fetched slot due.2 ctrl hx) due.1
  · rw [show (enqueue cfg p x).enteringSpec = entering by rw [enq]]
    intro enter
    apply slotNext.mpr
    rw [← ctrl₀]
    rcases deepens with ⟨-, -, off, -⟩ | ⟨-, ctrl, -⟩ | ⟨-, -, -, -, off⟩
    · exact absurd (off.symm.trans enter) (by decide)
    · exact ctrl
    · exact absurd (off.symm.trans enter) (by decide)
  · intro now
    have ctrl := slotNext.mp now
    exact (goesOn (calm ctrl)).1.trans (ctrl_not_split ctrl)
  · intro now
    have ctrl := slotNext.mp now
    refine ⟨decoded x mis dp, by rw [line]; simp, ctrl₀.trans ctrl, ?_⟩
    rw [(goesOn (calm ctrl)).2, follows, ctrl_not_split ctrl, decoded, inst]
    rfl
  · rw [line]
    intro e he
    cases hl : s.line with
    | nil =>
      rw [hl, List.nil_append, List.head?_cons, Option.some_inj] at he
      cases bd : d'.bd with
      | true =>
        obtain ⟨b, hb, -⟩ := h.next (h.bd_next fetched slot bd)
        rw [hl] at hb
        cases hb
      | false =>
        rw [← he, decoded, inst]
        exact bd
    | cons b line =>
      rw [hl] at he
      apply h.first e
      rw [hl]
      exact he
  · rw [line]
    apply List.isChain_append.mpr
    refine ⟨h.adjacent, .singleton _, ?_⟩
    intro b hb e he
    rw [List.head?_cons, Option.mem_some_iff] at he
    subst he
    intro bd
    rw [decoded, inst] at bd ⊢
    obtain ⟨b', hb', ctrl, at'⟩ := h.next (h.bd_next fetched slot bd)
    cases hb'.symm.trans hb
    exact ⟨ctrl, (pc.trans stream.2.1).trans at'⟩

theorem Slots.act {a : Act} (h : Slots cfg s) (sound : Sound s) (k : act cfg s a = some t) :
    Slots cfg t := by
  cases a with
  | commit => exact h.commit k
  | checkBrq => cases k; exact h.checkBrq sound
  | writeback i =>
    cases k
    apply h.marked
    exact List.rel_append (marked_refl _)
      (List.rel_append (marked_modify marked_writeOne _ i) (marked_refl _))
  | markEx i =>
    cases k
    apply h.marked
    exact List.rel_append (marked_refl _)
      (List.rel_append (marked_modify marked_raiseEx _ i) (marked_refl _))
  | mapInst => cases k; exact h.mapInst
  | decode p =>
    rcases decodeInst_cases k with rfl | ⟨d, rest, d', fetched, slot, next⟩
    · exact h
    · rcases next with ⟨trap, rfl⟩ | ⟨x, hx, rfl⟩
      · exact h.wait fetched slot trap
      · exact h.execute fetched slot hx
  | fetch p => cases k; exact h.fetchInst p

theorem slots_start (cfg : CoreConfig) (arch : Arch) : Slots cfg (start cfg arch) := by
  have noSlot : ¬ (start cfg arch).slotNext := by
    rintro (last | ⟨d, rest, hd, -⟩)
    · cases last
    · cases hd
  have none : ∀ {P : InstDescript → Prop}, ∀ d ∈ ([] : List InstDescript), P d :=
    fun _ hd => absurd hd List.not_mem_nil
  refine ⟨⟨rfl, rfl⟩, none, none, none, none, fun _ => ⟨rfl, rfl⟩, ?_, ?_,
    fun slot => absurd slot noSlot, fun slot => absurd slot noSlot, ?_, .nil⟩
  · intro need
    cases need
  · intro enter
    cases enter
  · intro d hd
    cases hd

end Godson.Core

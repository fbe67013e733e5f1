import Godson.Flush
import Godson.Runs

/-! The global history register of the two-level predictor. Decode schedules a branch's
prediction to be shifted in by the next `decode_stage`, the map stage saves the register with
the branch, and a recovery brings back what was saved. -/
namespace Godson.Mips

/-- `bht_op`: a branch that tests a condition and is not likely. -/
def Op.bht (op : Op) : Bool := op.has .dirjmp && !op.has .uncond && !op.has .ctrlLikely

end Godson.Mips

namespace Godson.Core

open Mips

/-- `decode_width`, `decode_ifq_size` and `decode_speed` as shipped. -/
def decodeWidth : Nat := 4
def decodeIfqSize : Nat := 4
def decodeSpeed : Nat := 1

def shiftIn (h : Word) (b : Bool) : Word := (h <<< 1) ||| boolWord b

/-- `shift_mask` -/
def shiftMask (width : Nat) : Word := ((1 : Word) <<< width) - 1

/-- What is kept with an instruction in flight. The program keeps `recovery_shiftregs[0]`;
`seen` is the history when the instruction was decoded, `taken` is its real direction. -/
structure BranchRecord where
  seen : Word
  predTaken : Bool
  taken : Bool
  recovery : Word := 0

/-- A core with the history register of its predictor, and the records of the reorder
queue and of the decode queue. -/
structure History where
  core : Core
  ghr : Word := 0
  ghrValid : Bool := false
  ghrPredict : Bool := false
  mapped : List BranchRecord := []
  decoded : List BranchRecord := []

namespace History

section Stages

variable (cfg : CoreConfig) (width : Nat)

/-- `decode_update_ghr` with the start of `decode_stage`. -/
def updateGhr (h : History) : History :=
  { h with ghr := if h.ghrValid then shiftIn h.ghr h.ghrPredict &&& shiftMask width else h.ghr
           ghrValid := false
           ghrPredict := false }

/-- An instruction has executed, as `x`, and enters the decode queue. -/
def enter (p : Prediction) (x : Executed) (h : History) : History :=
  let bht := x.inst.ctrl && x.inst.op.bht
  let predTaken := direction cfg p x
  { h with core := enqueue cfg p x
           ghrValid := h.ghrValid || bht
           ghrPredict := if bht then predTaken else h.ghrPredict
           decoded := h.decoded ++ [{ seen := h.ghr, predTaken, taken := x.isJump }] }

/-- The loop of `decode_stage`, which counts the branches whose delay slot it has decoded. -/
def decodeLoop : List Prediction → Nat → History → Option History
  | [], _, h => some h
  | p :: ps, branchCnt, h =>
    if h.core.fetchData.isEmpty || decide (decodeIfqSize ≤ h.core.decodeData.length) ||
        decide (decodeSpeed ≤ branchCnt) then some h
    else
      match h.core.executing with
      | none => (h.core.decodeInst cfg p).map fun core => { h with core }
      | some (s, d) =>
        match execute cfg s d with
        | none => none
        | some x =>
          decodeLoop ps (if h.core.lastIsBranch then branchCnt + 1 else branchCnt) (enter cfg p x h)

def decodeStage (ps : List Prediction) (h : History) : Option History :=
  let h := h.updateGhr width
  if decodeIfqSize < h.core.decodeData.length + decodeWidth then some h
  else decodeLoop cfg ps 0 h

/-- The history with the update that waits for the next `decode_stage`. -/
def next (h : History) : Word := if h.ghrValid then shiftIn h.ghr h.ghrPredict else h.ghr

/-- One round of the loop of `map_stage`. A branch reads the history. -/
def mapInst (h : History) : History :=
  match h.core.decodeData, h.decoded with
  | d :: _, r :: decoded =>
    { h with core := h.core.mapInst
             mapped := h.mapped ++ [if d.ctrl then { r with recovery := h.next } else r]
             decoded }
  | _, _ => h

/-- The repair of `bpred_update`: the last bit is flipped. -/
def flip (rs : InstDescript) (r : BranchRecord) : BranchRecord :=
  if rs.misPredict && rs.op.bht then { r with recovery := r.recovery ^^^ 1 } else r

/-- `check_brq`, with `bpred_update`, `bpred_recover` and `brerr_recover`. -/
def checkBrq (h : History) : History :=
  match h.core.roq.dropWhile waiting with
  | [] => h
  | rs :: younger =>
    if !rs.misPredict || !younger.isEmpty then
      let mapped := h.mapped.modify (h.core.roq.takeWhile waiting).length (flip rs)
      if rs.misPredict then
        { h with core := h.core.checkBrq
                 ghr := (mapped[(h.core.roq.takeWhile waiting).length]?.map
                   BranchRecord.recovery).getD h.ghr
                 ghrValid := false
                 mapped := mapped.take h.core.checkBrq.roq.length
                 decoded := [] }
      else { h with core := h.core.checkBrq, mapped }
    else h

/-- One round of the loop of `commit_stage`, with `pipeline_flush`. -/
def commit (h : History) : Option History :=
  h.core.commit.map fun core =>
    if flushes h.core then { h with core, ghrValid := false, mapped := [], decoded := [] }
    else { h with core, mapped := h.mapped.drop (h.core.roq.length - core.roq.length) }

/-- The stages of a cycle, in any order. The stages behind decode do one round at a time. -/
inductive Turn
  | commit
  | checkBrq
  | writeback (i : Nat)
  | markEx (i : Nat)
  | mapInst
  | decodeStage (ps : List Prediction)
  | fetch (p : Prediction)

def turn (h : History) : Turn → Option History
  | .commit => h.commit
  | .checkBrq => some h.checkBrq
  | .writeback i => some { h with core := h.core.writeback i }
  | .markEx i => some { h with core := h.core.markEx i }
  | .mapInst => some h.mapInst
  | .decodeStage ps => h.decodeStage cfg width ps
  | .fetch p => some { h with core := h.core.fetchInst cfg p }

def start (arch : Arch) (ghr : Word) : History := { core := Core.start cfg arch, ghr }

end Stages

/-! Histories that agree below the mask. -/

def Agree (width : Nat) (x y : Word) : Prop := x &&& shiftMask width = y &&& shiftMask width

theorem shiftMask_bit (width i : Nat) (low : i < 32) :
    (shiftMask width).getLsbD i = decide (i < width) := by
  by_cases small : width < 32
  · have power : 2 ^ width < 2 ^ 32 := Nat.pow_lt_pow_right (by omega) small
    have positive : 0 < 2 ^ width := Nat.two_pow_pos width
    have mask : shiftMask width = BitVec.ofNat 32 (2 ^ width - 1) := by
      apply BitVec.eq_of_toNat_eq
      have shifted : ((1 : Word) <<< width).toNat = 2 ^ width := by
        rw [BitVec.toNat_shiftLeft, show (1 : Word).toNat = 1 from rfl, Nat.shiftLeft_eq]
        omega
      rw [shiftMask, BitVec.toNat_sub, BitVec.toNat_ofNat, shifted, show (1 : Word).toNat = 1 from rfl]
      omega
    rw [mask, BitVec.getLsbD_ofNat, Nat.testBit_two_pow_sub_one]
    simp [low]
  · have mask : shiftMask width = BitVec.allOnes 32 := by
      rw [shiftMask, BitVec.shiftLeft_eq_zero (by omega)]
      rfl
    rw [mask, BitVec.getLsbD_allOnes, decide_eq_true low, decide_eq_true (by omega)]

theorem agree_iff {width : Nat} {x y : Word} :
    Agree width x y ↔ ∀ i < 32, i < width → x.getLsbD i = y.getLsbD i := by
  constructor
  · intro same i low inside
    have bit := congrArg (BitVec.getLsbD · i) same
    simpa [shiftMask_bit _ _ low, inside] using bit
  · intro same
    apply BitVec.eq_of_getLsbD_eq
    intro i low
    by_cases inside : i < width
    · simp [shiftMask_bit _ _ low, inside, same i low inside]
    · simp [shiftMask_bit _ _ low, inside]

variable {width : Nat} {x y z : Word}

theorem Agree.trans (h : Agree width x y) (k : Agree width y z) : Agree width x z :=
  Eq.trans h k

theorem agree_mask (width : Nat) (x : Word) : Agree width (x &&& shiftMask width) x := by
  rw [Agree, BitVec.and_assoc, BitVec.and_self]

theorem shiftIn_bit (x : Word) (b : Bool) {i : Nat} (low : i < 32) :
    (shiftIn x b).getLsbD i = if i = 0 then b else x.getLsbD (i - 1) := by
  by_cases first : i = 0
  · subst first
    cases b <;> simp [shiftIn, boolWord]
  · rw [if_neg first, shiftIn, BitVec.getLsbD_or, BitVec.getLsbD_shiftLeft]
    cases b <;> simp [boolWord, low, first]

/-- The repair of the last bit. -/
theorem agree_flip {b : Bool} (h : Agree width x (shiftIn y b)) :
    Agree width (x ^^^ 1) (shiftIn y !b) := by
  rw [agree_iff] at h ⊢
  intro i low inside
  have bit := h i low inside
  rw [shiftIn_bit _ _ low] at bit ⊢
  rw [BitVec.getLsbD_xor, bit]
  split
  · rename_i first
    simp [first]
  · rename_i later
    simp [BitVec.getLsbD_one, later]

/-! What a record says of its instruction. -/

/-- The history behind a branch, as predicted. -/
def outcome (d : InstDescript) (r : BranchRecord) : Word :=
  if d.op.bht then shiftIn r.seen r.predTaken else r.seen

/-- The history `saved` for a branch that is not resolved is the one behind it, and a
predicted direction that misled was the wrong one. -/
structure Kept (width : Nat) (saved : Word) (d : InstDescript) (r : BranchRecord) : Prop where
  saved : d.ctrl = true → d.completed = false → Agree width saved (outcome d r)
  wrong : d.ctrl = true → d.op.bht = true → d.misPredict = true → r.taken = !r.predTaken

theorem kept_plain {d : InstDescript} (plain : d.ctrl = false) (saved : Word)
    (r : BranchRecord) : Kept width saved d r := by
  constructor
  · intro ctrl
    exact absurd (plain.symm.trans ctrl) (by decide)
  · intro ctrl
    exact absurd (plain.symm.trans ctrl) (by decide)

theorem Kept.agree {d : InstDescript} {r : BranchRecord} (h : Kept width x d r)
    (same : Agree width y x) : Kept width y d r :=
  ⟨fun ctrl idle => same.trans (h.saved ctrl idle), h.wrong⟩

theorem Kept.marked {d d' : InstDescript} {r : BranchRecord} (h : Kept width x d r)
    (marked : Marked d d') : Kept width x d' r := by
  obtain ⟨⟨_, _, _, _, rfl⟩, done⟩ := marked
  refine ⟨fun ctrl idle => h.saved ctrl ?_, h.wrong⟩
  cases completed : d.completed with
  | false => rfl
  | true => exact absurd (idle.symm.trans (done completed)) (by decide)

/-- Every record in a queue says the truth of its instruction. -/
structure Traced (width : Nat) (h : History) : Prop where
  sound : Sound h.core
  mapped : List.Forall₂ (fun d r => Kept width r.recovery d r) h.core.roq h.mapped
  decoded : List.Forall₂ (Kept width h.next) h.core.decodeData h.decoded

variable {cfg : CoreConfig} {h k : History}

theorem forall_marked {l l' : List InstDescript} {q : List BranchRecord}
    (now : List.Forall₂ (fun d r => Kept width r.recovery d r) l q)
    (marked : List.Forall₂ Marked l l') :
    List.Forall₂ (fun d r => Kept width r.recovery d r) l' q := by
  induction marked generalizing q with
  | nil => exact now
  | cons one rest ih =>
    cases now with
    | cons first now => exact .cons (first.marked one) (ih now)

theorem Traced.marked (t : Traced width h) {core : Core} (sound : Sound core)
    (marked : List.Forall₂ Marked h.core.roq core.roq)
    (same : core.decodeData = h.core.decodeData) : Traced width { h with core } :=
  ⟨sound, forall_marked t.mapped marked, same ▸ t.decoded⟩

theorem Traced.mapInst (t : Traced width h) : Traced width h.mapInst := by
  obtain ⟨sound, mapped, decoded⟩ := t
  unfold History.mapInst
  split
  · rename_i d rest r records queue kept
    rw [queue, kept] at decoded
    obtain ⟨first, decoded⟩ := List.forall₂_cons.mp decoded
    have moved : h.core.mapInst = { h.core with decodeData := rest, roq := h.core.roq ++ [d] } := by
      simp only [Core.mapInst, queue]
    refine ⟨sound.mapInst, ?_, ?_⟩
    · rw [moved]
      refine List.rel_append mapped (.cons ?_ .nil)
      by_cases ctrl : d.ctrl = true
      · rw [if_pos ctrl]
        exact ⟨first.saved, first.wrong⟩
      · exact kept_plain (by simpa using ctrl) _ _
    · rw [moved]
      exact decoded
  · exact ⟨sound, mapped, decoded⟩

theorem Traced.commit (t : Traced width h) (e : h.commit = some k) : Traced width k := by
  obtain ⟨core, done, rfl⟩ := Option.map_eq_some_iff.mp e
  have sound := t.sound.commit done
  rcases commit_cases done with ⟨idle, rfl⟩ | ⟨flush, rs, rfl⟩ | ⟨idle, rs, roq, queue, -, rfl⟩
  · rw [idle, Nat.sub_self]
    exact t
  · rw [flush, if_pos rfl]
    exact ⟨sound, .nil, .nil⟩
  · have mapped := t.mapped
    have one : h.core.roq.length - roq.length = 1 := by
      rw [queue, List.length_cons, Nat.add_sub_cancel_left]
    rw [idle, one]
    refine ⟨sound, ?_, t.decoded⟩
    rw [queue] at mapped
    cases records : h.mapped with
    | nil =>
      rw [records] at mapped
      cases mapped
    | cons r q =>
      rw [records] at mapped
      exact (List.forall₂_cons.mp mapped).2

/-- A branch that was mispredicted by its direction went the other way. -/
theorem misled_direction {p : Prediction} {x : Executed} {pp f c rp dp : Word}
    {l : List InstDescript} {n entering mis : Bool} {level : Nat}
    (redirects : Redirects cfg p x pp f l n c)
    (deepens : Deepens x pp level entering mis rp dp) (fresh : x.inst.misPredict = false)
    (npc : x.npc = if x.isJump then x.core.targetPC else x.inst.pc + 4)
    (bht : x.inst.op.bht = true) (misled : mis = true) : x.isJump = !direction cfg p x := by
  obtain ⟨ctrl, differ⟩ : x.inst.ctrl = true ∧ pp ≠ x.npc := by
    rcases deepens with ⟨-, -, -, same⟩ | ⟨-, ctrl, differ, -⟩ | ⟨-, -, same, -⟩
    · exact absurd (misled.symm.trans (same.trans fresh)) (by decide)
    · exact ⟨ctrl, differ⟩
    · exact absurd (misled.symm.trans (same.trans fresh)) (by decide)
  have predicted : pp = prediction cfg p x := by
    rcases redirects with ⟨-, -, -, -, same⟩ | ⟨-, -, -, -, -, same⟩
    · exact same
    · split at same
      · exact absurd same differ
      · exact same
  have direct : x.inst.op.has .dirjmp = true := by
    simp only [Op.bht, Bool.and_eq_true] at bht
    exact bht.1.1
  rw [predicted, npc, prediction, ctrl, direct] at differ
  cases jump : x.isJump <;> cases guess : direction cfg p x <;> simp_all

/-- Before it has decoded a delay slot, `decode_stage` has decoded no branch and scheduled no
update, unless the last instruction is a branch. -/
def Unscheduled (branchCnt : Nat) (h : History) : Prop :=
  branchCnt = 0 → h.core.lastIsBranch = false →
    h.ghrValid = false ∧ ∀ d ∈ h.core.decodeData, d.ctrl = false

/-- An instruction enters the decode queue. -/
theorem Traced.enter (t : Traced width h) {p : Prediction} {s : Core} {d : InstDescript}
    {x : Executed} (up : h.core.executing = some (s, d)) (ran : execute cfg s d = some x)
    (unscheduled : Unscheduled 0 h) :
    Traced width (h.enter cfg p x) ∧
      Unscheduled (if h.core.lastIsBranch then 1 else 0) (h.enter cfg p x) := by
  have sound : Sound (enqueue cfg p x) := t.sound.decodeInst (decodeInst_executed up ran)
  obtain ⟨d₀, rest, queue, slot, rfl⟩ := executing_some up
  obtain ⟨a, r, q, saves, core, inst, jump, -⟩ := execute_spec ran
  obtain ⟨f, l, n, c, sr, level, entering, rp, mis, dp, pp, enq, redirects, deepens⟩ :=
    enqueue_spec cfg p x
  have fresh : x.inst.misPredict = false := by
    have first : Fresh d₀ := t.sound.fresh d₀ (by rw [queue]; exact List.mem_cons_self)
    rw [inst]
    exact (fresh_slot slot first).1
  have roq : (enqueue cfg p x).roq = h.core.roq := by
    rw [enq, core]
    rfl
  have decodeData : (enqueue cfg p x).decodeData =
      h.core.decodeData ++ [Core.decoded x mis dp] := by
    rw [enq, core]
    rfl
  have last : (enqueue cfg p x).lastIsBranch = x.inst.ctrl := by
    rw [enq, core]
    simp [atDecode]
  have npc : x.npc = if x.isJump then x.core.targetPC else x.inst.pc + 4 := by
    rw [jump.2, inst]
  have wrong : x.inst.op.bht = true → mis = true → x.isJump = !direction cfg p x :=
    misled_direction redirects deepens fresh npc
  cases branch : h.core.lastIsBranch with
  | true =>
    -- a delay slot, which is no branch: what waits for its update still waits
    have plain : x.inst.ctrl = false := by
      rcases delaySlot_cases slot with ⟨no, -⟩ | ⟨-, -, plain, -⟩
      · exact absurd (branch.symm.trans no) (by decide)
      · rw [inst]
        exact plain
    refine ⟨⟨sound, roq ▸ t.mapped, ?_⟩, fun no => absurd no (by decide)⟩
    have same : (h.enter cfg p x).next = h.next := by
      simp [History.enter, next, plain]
    rw [same]
    change List.Forall₂ _ (enqueue cfg p x).decodeData (h.decoded ++ _)
    rw [decodeData]
    exact List.rel_append t.decoded (.cons (kept_plain (d := Core.decoded x mis dp) plain _ _) .nil)
  | false =>
    obtain ⟨idle, none⟩ := unscheduled rfl branch
    refine ⟨⟨sound, roq ▸ t.mapped, ?_⟩, ?_⟩
    · change List.Forall₂ _ (enqueue cfg p x).decodeData (h.decoded ++ _)
      rw [decodeData]
      refine List.rel_append ?_ (.cons ?_ .nil)
      · exact ((List.forall₂_and_left _ _).mpr ⟨none, t.decoded⟩).imp fun d r plain =>
          kept_plain plain.1 _ r
      · refine ⟨fun ctrl _ => ?_, fun _ bht misled => wrong bht misled⟩
        have ctrl : x.inst.ctrl = true := ctrl
        cases bht : x.inst.op.bht <;>
          simp [History.enter, next, outcome, Core.decoded, idle, ctrl, bht, Agree]
    · rintro - after
      have plain : x.inst.ctrl = false := last.symm.trans after
      refine ⟨by simp [History.enter, idle, plain], ?_⟩
      change ∀ d ∈ (enqueue cfg p x).decodeData, d.ctrl = false
      rw [decodeData]
      intro d hd
      rcases List.mem_append.mp hd with hd | hd
      · exact none d hd
      · rw [List.mem_singleton.mp hd]
        exact plain

/-- What every round of the decode loop keeps; no round begins behind a delay slot. -/
theorem decodeLoop_rounds {P : Nat → History → Prop} {Q : History → Prop}
    (stop : ∀ n h, P n h → Q h)
    (wait : ∀ h p core, P 0 h → h.core.executing = none → h.core.decodeInst cfg p = some core →
      Q { h with core })
    (round : ∀ h p s d x, P 0 h → h.core.executing = some (s, d) → execute cfg s d = some x →
      P (if h.core.lastIsBranch then 1 else 0) (h.enter cfg p x))
    {ps : List Prediction} {branchCnt : Nat} (begins : P branchCnt h)
    (e : h.decodeLoop cfg ps branchCnt = some k) : Q k := by
  induction ps generalizing h branchCnt with
  | nil =>
    cases e
    exact stop _ _ begins
  | cons p ps ih =>
    unfold History.decodeLoop at e
    split at e
    · cases e
      exact stop _ _ begins
    · rename_i going
      simp only [Bool.or_eq_true, decide_eq_true_eq, not_or, not_le] at going
      obtain rfl : branchCnt = 0 := Nat.lt_one_iff.mp going.2
      split at e
      · rename_i idle
        obtain ⟨core, waits, rfl⟩ := Option.map_eq_some_iff.mp e
        exact wait h p core begins idle waits
      · rename_i s d up
        split at e
        · cases e
        · rename_i x ran
          rw [Nat.zero_add] at e
          exact ih (round h p s d x begins up ran) e

theorem decodeInst_idle {p : Prediction} {s t : Core} (idle : s.executing = none)
    (e : decodeInst cfg p s = some t) : t.roq = s.roq ∧ t.decodeData = s.decodeData := by
  rcases decodeInst_executing e with ⟨-, rfl | ⟨d, rest, rfl⟩⟩ | ⟨s', d, x, up, -⟩
  · exact ⟨rfl, rfl⟩
  · exact ⟨rfl, rfl⟩
  · rw [idle] at up
    cases up

theorem Traced.decodeLoop (t : Traced width h) {ps : List Prediction} {branchCnt : Nat}
    (unscheduled : Unscheduled branchCnt h) (e : h.decodeLoop cfg ps branchCnt = some k) :
    Traced width k := by
  apply decodeLoop_rounds (P := fun n h => Traced width h ∧ Unscheduled n h) _ _ _
    ⟨t, unscheduled⟩ e
  · exact fun _ _ all => all.1
  · rintro h p core ⟨t, -⟩ idle waits
    obtain ⟨roq, decodeData⟩ := decodeInst_idle idle waits
    exact ⟨t.sound.decodeInst waits, roq ▸ t.mapped, decodeData ▸ t.decoded⟩
  · rintro h p s d x ⟨t, unscheduled⟩ up ran
    exact t.enter up ran unscheduled

theorem Traced.updateGhr (t : Traced width h) : Traced width (h.updateGhr width) := by
  refine ⟨t.sound, t.mapped, t.decoded.imp fun d r kept => kept.agree ?_⟩
  unfold History.updateGhr next
  cases h.ghrValid with
  | true => exact agree_mask width _
  | false => rfl

theorem Traced.decodeStage (t : Traced width h) {ps : List Prediction}
    (e : h.decodeStage cfg width ps = some k) : Traced width k := by
  unfold History.decodeStage at e
  dsimp only at e
  split at e
  · cases e
    exact t.updateGhr
  · rename_i room
    have empty : h.core.decodeData = [] := by
      apply List.eq_nil_of_length_eq_zero
      simp only [decodeIfqSize, decodeWidth, History.updateGhr] at room
      omega
    refine t.updateGhr.decodeLoop (fun _ _ => ⟨rfl, ?_⟩) e
    intro d hd
    rw [show (h.updateGhr width).core.decodeData = [] from empty] at hd
    cases hd

/-- The record at the place of an instruction. -/
theorem record_at {older younger : List InstDescript} {rs : InstDescript}
    {q : List BranchRecord}
    (all : List.Forall₂ (fun d r => Kept width r.recovery d r) (older ++ rs :: younger) q) :
    ∃ before r after, q = before ++ r :: after ∧ before.length = older.length ∧
      List.Forall₂ (fun d r => Kept width r.recovery d r) older before ∧
      Kept width r.recovery rs r ∧
      List.Forall₂ (fun d r => Kept width r.recovery d r) younger after := by
  induction older generalizing q with
  | nil =>
    obtain ⟨r, after, one, rest, rfl⟩ := List.forall₂_cons_left_iff.mp all
    exact ⟨[], r, after, rfl, rfl, .nil, one, rest⟩
  | cons d older ih =>
    obtain ⟨r, q', one, rest, rfl⟩ := List.forall₂_cons_left_iff.mp all
    obtain ⟨before, r', after, rfl, length, front, kept, back⟩ := ih rest
    exact ⟨r :: before, r', after, rfl, by simp [length], .cons one front, kept, back⟩

theorem modify_at {before after : List BranchRecord} {r : BranchRecord} {n : Nat}
    (length : before.length = n) (f : BranchRecord → BranchRecord) :
    (before ++ r :: after).modify n f = before ++ f r :: after := by
  induction before generalizing n with
  | nil =>
    subst length
    rfl
  | cons a before ih =>
    subst length
    exact congrArg (a :: ·) (ih rfl)

theorem flip_kept {rs : InstDescript} {r : BranchRecord} (kept : Kept width x rs r) :
    Kept width (flip rs r).recovery (resolve rs) (flip rs r) := by
  refine ⟨fun _ idle => absurd idle (by simp [resolve]), fun ctrl bht mis => ?_⟩
  have wrong : r.taken = !r.predTaken := kept.wrong ctrl bht mis
  unfold flip
  split
  · exact wrong
  · exact wrong

/-- The branch that `check_brq` resolves, with its record. -/
structure Resolves (h : History) (older younger : List InstDescript) (rs : InstDescript)
    (before after : List BranchRecord) (r : BranchRecord) : Prop where
  front : h.core.roq.takeWhile waiting = older
  back : h.core.roq.dropWhile waiting = rs :: younger
  mapped : h.mapped = before ++ r :: after
  length : before.length = older.length

variable {older younger : List InstDescript} {rs : InstDescript}
  {before after : List BranchRecord} {r : BranchRecord}

theorem checkBrq_right (at_rs : Resolves h older younger rs before after r)
    (right : rs.misPredict = false) : h.checkBrq =
      { h with core := { h.core with roq := older ++ resolve rs :: younger } } := by
  have core : h.core.checkBrq = { h.core with roq := older ++ resolve rs :: younger } := by
    simp [Core.checkBrq, at_rs.back, at_rs.front, right]
  have same : flip rs r = r := by simp [flip, right]
  simp only [History.checkBrq, at_rs.back, at_rs.front, right, Bool.not_false, Bool.true_or,
    if_true, Bool.false_eq_true, if_false, core]
  rw [at_rs.mapped, modify_at at_rs.length, same]

theorem checkBrq_wrong (at_rs : Resolves h older younger rs before after r)
    (wrong : rs.misPredict = true) (ne : younger ≠ []) :
    h.core.checkBrq = { h.core with roq := older ++ resolve rs :: younger }.brerrRecover older
        (resolve rs) younger ∧
      h.checkBrq = { h with
        core := h.core.checkBrq
        ghr := (flip rs r).recovery
        ghrValid := false
        mapped := (before ++ flip rs r :: after).take h.core.checkBrq.roq.length
        decoded := [] } := by
  have slot : younger.isEmpty = false := by simpa using ne
  constructor
  · simp [Core.checkBrq, at_rs.back, at_rs.front, wrong, slot]
  · simp only [History.checkBrq, at_rs.back, at_rs.front, wrong, slot, Bool.not_false,
      Bool.or_true, if_true]
    rw [at_rs.mapped, modify_at at_rs.length]
    simp [← at_rs.length]

/-- The recovery keeps a front part of the reorder queue. -/
theorem brerrRecover_roq (s : Core) (older : List InstDescript) (rs : InstDescript)
    (younger : List InstDescript) :
    (s.brerrRecover older rs younger).roq <+: older ++ rs :: younger := by
  apply (List.prefix_append_right_inj older).mpr
  apply (List.prefix_cons_inj rs).mpr
  split
  · exact List.take_prefix 1 younger
  · exact List.nil_prefix

theorem Traced.checkBrq (t : Traced width h) : Traced width h.checkBrq := by
  have sound := t.sound.checkBrq
  cases back : h.core.roq.dropWhile waiting with
  | nil =>
    simp only [History.checkBrq, back]
    exact t
  | cons rs younger =>
    have whole : h.core.roq = h.core.roq.takeWhile waiting ++ rs :: younger := by
      rw [← back, List.takeWhile_append_dropWhile]
    obtain ⟨before, r, after, records, length, front, kept, rest⟩ := record_at (whole ▸ t.mapped)
    have at_rs : Resolves h (h.core.roq.takeWhile waiting) younger rs before after r :=
      ⟨rfl, back, records, length⟩
    cases mis : rs.misPredict with
    | false =>
      have core : h.core.checkBrq = { h.core with
          roq := h.core.roq.takeWhile waiting ++ resolve rs :: younger } := by
        simp [Core.checkBrq, back, mis]
      rw [checkBrq_right at_rs mis]
      refine ⟨core ▸ sound, ?_, t.decoded⟩
      rw [records]
      exact List.rel_append front (.cons (kept.marked (marked_resolve rs)) rest)
    | true =>
      by_cases ne : younger = []
      · subst ne
        simp only [History.checkBrq, back, mis]
        exact t
      · obtain ⟨core, eq⟩ := checkBrq_wrong at_rs mis ne
        rw [eq]
        refine ⟨sound, ?_, ?_⟩
        · have part : h.core.checkBrq.roq <+:
              h.core.roq.takeWhile waiting ++ resolve rs :: younger := by
            rw [core]
            exact brerrRecover_roq _ _ _ _
          have whole : List.Forall₂ (fun d r => Kept width r.recovery d r)
              (h.core.roq.takeWhile waiting ++ resolve rs :: younger)
              (before ++ flip rs r :: after) :=
            List.rel_append front (.cons (flip_kept kept) rest)
          have taken := List.forall₂_take h.core.checkBrq.roq.length whole
          rw [← List.prefix_iff_eq_take.mp part] at taken
          exact taken
        · rw [core]
          exact .nil

theorem Traced.turn (t : Traced width h) {a : Turn} (e : h.turn cfg width a = some k) :
    Traced width k := by
  cases a with
  | commit => exact t.commit e
  | checkBrq =>
    cases e
    exact t.checkBrq
  | writeback i =>
    cases e
    exact t.marked (t.sound.writeback i) (marked_modify marked_writeOne _ i) rfl
  | markEx i =>
    cases e
    exact t.marked (t.sound.markEx i) (marked_modify marked_raiseEx _ i) rfl
  | mapInst =>
    cases e
    exact t.mapInst
  | decodeStage ps => exact t.decodeStage e
  | fetch p =>
    cases e
    exact t.marked (t.sound.fetchInst p) (marked_refl _) rfl

theorem traced_run {arch : Arch} {ghr : Word} {turns : List Turn}
    (ran : turns.foldlM (turn cfg width) (start cfg arch ghr) = some h) : Traced width h :=
  Runs.invariant (I := Traced width) (fun _ _ _ t e => t.turn e)
    ⟨sound_start cfg arch, .nil, .nil⟩ ran

/-- When a mispredicted branch is recovered from, the history register is, below its mask,
what it was when the branch was decoded, followed by the real direction of a branch that is
in the history; and no update is left waiting. -/
theorem history_repaired {arch : Arch} {ghr : Word} {turns : List Turn}
    (ran : turns.foldlM (turn cfg width) (start cfg arch ghr) = some h)
    (queue : h.core.roq = older ++ rs :: younger) (first : ∀ d ∈ older, waiting d = true)
    (ready : waiting rs = false) (mis : rs.misPredict = true) (slot : younger ≠ []) :
    ∃ r, h.mapped[older.length]? = some r ∧
      Agree width h.checkBrq.ghr (if rs.op.bht then shiftIn r.seen r.taken else r.seen) ∧
      h.checkBrq.ghrValid = false := by
  have traced := traced_run ran
  have front : h.core.roq.takeWhile waiting = older := by
    rw [queue, List.takeWhile_append_of_pos first, List.takeWhile_cons_of_neg (by simp [ready]),
      List.append_nil]
  have back : h.core.roq.dropWhile waiting = rs :: younger := by
    rw [queue, List.dropWhile_append_of_pos first, List.dropWhile_cons_of_neg (by simp [ready])]
  obtain ⟨before, r, after, records, length, -, kept, -⟩ := record_at (queue ▸ traced.mapped)
  obtain ⟨-, repaired⟩ := checkBrq_wrong ⟨front, back, records, length⟩ mis slot
  have done : rs.ctrl = true ∧ rs.brcompleted = true := by
    simpa [waiting] using ready
  have idle : rs.completed = false :=
    (traced.sound.pending rs (by simp [Core.live, queue])).1 done.2
  refine ⟨r, ?_, ?_, ?_⟩
  · rw [records, ← length, List.getElem?_append_right (Nat.le_refl _), Nat.sub_self]
    rfl
  · have saved := kept.saved done.1 idle
    rw [repaired]
    change Agree width (flip rs r).recovery _
    unfold outcome at saved
    cases bht : rs.op.bht with
    | false =>
      rw [bht] at saved
      simpa [flip, bht] using saved
    | true =>
      rw [bht, if_pos rfl] at saved
      rw [if_pos rfl, kept.wrong done.1 bht mis]
      simpa [flip, bht, mis] using agree_flip saved
  · rw [repaired]

section Example

/-- Two branches to 0x400010, at 0x400000 and 0x400008; both are taken. -/
def twoBranches : Arch where
  mem := writeMem (writeMem (fun _ => 0) .word 0x400000 0x10000003) .word 0x400008 0x10000001

/-- Both are predicted not taken, and the second one is in flight when the first one has
written back. -/
def twoBranchesRun : List Turn :=
  [.fetch {}, .fetch {}, .fetch {}, .fetch {}, .decodeStage [{}, {}, {}], .mapInst, .mapInst,
    .decodeStage [{}, {}], .mapInst, .writeback 0]

theorem history_repaired_twoBranches : ∃ h r,
    twoBranchesRun.foldlM (turn smallConfig 9) (start smallConfig twoBranches 0b101) = some h ∧
      h.mapped[0]? = some r ∧ r.seen = 0b101 ∧ r.taken = true ∧
      Agree 9 h.checkBrq.ghr (shiftIn r.seen r.taken) ∧ h.checkBrq.ghrValid = false := by
  have seen : (twoBranchesRun.foldlM (turn smallConfig 9)
      (start smallConfig twoBranches 0b101)).map (fun h =>
        (h.core.roq.map fun d => (waiting d, d.op.bht, d.misPredict),
          h.mapped[0]?.map fun r => (r.seen, r.taken))) =
      some ([(false, true, true), (true, false, false), (true, true, true)],
        some (0b101, true)) := by decide
  obtain ⟨h, ran, seen⟩ := Option.map_eq_some_iff.mp seen
  simp only [Prod.mk.injEq] at seen
  obtain ⟨rs, younger, queue, first, rest⟩ := List.map_eq_cons_iff.mp seen.1
  simp only [Prod.mk.injEq] at first
  have slot : younger ≠ [] := by
    rintro rfl
    cases rest
  have queue : h.core.roq = [] ++ rs :: younger := queue
  obtain ⟨r, record, agree, idle⟩ := history_repaired ran queue (by simp) first.1 first.2.2 slot
  have fields := seen.2
  rw [show h.mapped[0]? = some r from record] at fields
  simp only [Option.map_some, Option.some.injEq, Prod.mk.injEq] at fields
  rw [first.2.1, if_pos rfl] at agree
  exact ⟨h, r, ran, record, fields.1, fields.2, agree, idle⟩

end Example

end History

end Godson.Core

import Godson.BackendForms
import Mathlib.Logic.Relation

/-! The stages of the pipeline, taken apart: each of them is a sequence of steps on one
instruction, one link or one entry of the load/store queue. -/
namespace Godson.Backend

open Mips

variable (cfg : BackendConfig) {s t : Backend}

section Parts

/-- The event at the front of the event queue is taken out and delivered. -/
def deliver (l : RsLink) (rest : List (Nat × RsLink)) (s : Backend) : Option Backend :=
  let s' := { s with eventQueue := rest }.rslinkFree l
  if s.rslinkValid l then s'.finish l.rs else some s'

/-- The part of `lsq_stage` that looks for an operation to write back. -/
def lsqLook (a : LsqAnswer) (s : Backend) : Option Backend :=
  let s : Backend := { s with lsqWtbki := s.lsqSelect cfg a }
  let s := (s.dtagcmp a).markEx a
  match s.lsqWtbki with
  | some i => s.eventqQueueEvent (s.lsq i).rs (s.simCycle + 1)
  | none => some s

/-- The oldest entry of the load/store queue is freed. -/
def freeOne (s : Backend) : Backend :=
  let s := (s.returnToFreeList (s.lsq s.lsqHead1).rs).modLsq s.lsqHead1 fun l =>
    { l with state := .empty }
  { s with lsqNum := s.lsqNum - 1, lsqHead1 := (s.lsqHead1 + 1) % cfg.lsqIfqSize }

/-- A committed operation has been done. -/
def drainOne (s : Backend) : Backend :=
  let s := s.modLsq s.lsqHead fun l => { l with state := .delay1 }
  { s with lsqHead := (s.lsqHead + 1) % cfg.lsqIfqSize }

/-- A unit marks the first instruction of its ready queue for the next cycle. -/
def choose (fu : Nat) (s : Backend) : Backend :=
  { s with nextIssueItem :=
      Function.update s.nextIssueItem fu ((s.readyQueue fu).head?.map Prod.snd) }

/-- The fetch queue has room for the next word: for both halves of a multiplication or
division. -/
def FetchRoom (f : Fetched) (n : Nat) : Prop :=
  (mdSetOpcode (if f.valid then f.ir else nopInst)).isSplit → n + 1 ≠ cfg.fetchWidth →
    n + 1 < cfg.fetchIfqSize

/-- It has room for all the words that a cycle delivers. -/
def FetchFits : List Fetched → Nat → Prop
  | [], _ => True
  | f :: fs, n => n < cfg.fetchIfqSize → FetchRoom cfg f n ∧
      if (mdSetOpcode (if f.valid then f.ir else nopInst)).isSplit then
        n + 1 ≠ cfg.fetchWidth → FetchFits fs (n + 2)
      else FetchFits fs (n + 1)

/-- The condition on a stage under which the fetch queue does not overflow. -/
def Fits (s : Backend) : Stage → Prop
  | .fetch fs => s.fetchData.length + cfg.fetchWidth ≤ cfg.fetchIfqSize →
      FetchFits cfg (fs.take (cfg.fetchWidth * cfg.fetchSpeed)) s.fetchData.length
  | _ => True

/-- The fetch queue does not overflow when it holds just what a cycle fetches. -/
theorem fetchFits_same (same : cfg.fetchIfqSize = cfg.fetchWidth) (fs : List Fetched) (n : Nat) :
    FetchFits cfg fs n := by
  induction fs generalizing n with
  | nil => trivial
  | cons f fs ih =>
    intro room
    refine ⟨fun _ other => by omega, ?_⟩
    by_cases halves : (mdSetOpcode (if f.valid then f.ir else nopInst)).isSplit = true
    · rw [if_pos halves]
      exact fun _ => ih (n + 2)
    · rw [if_neg halves]
      exact ih (n + 1)

theorem fits_same (same : cfg.fetchIfqSize = cfg.fetchWidth) (s : Backend) (a : Stage) :
    Fits cfg s a := by
  cases a with
  | fetch fs => exact fun _ => fetchFits_same cfg same _ _
  | _ => trivial

/-- The branches that `map_stage` takes from the decode queue fit into the branch queue. -/
def BranchesFit (s : Backend) : Stage → Prop
  | .map => s.mapFull cfg = false → s.brqNum +
      ((s.decodeData.take cfg.mapWidth).countP fun d => (s.desc d).ctrl) ≤ cfg.brqIfqSize
  | _ => True

/-- The queues and counters have room for `n` more instructions. -/
structure Room (s : Backend) (n : Nat) : Prop where
  roq : s.roqNum + n ≤ cfg.roqIfqSize
  lsq : s.lsqNum + n ≤ cfg.lsqIfqSize
  intIssue : s.intIssueNum + n ≤ cfg.intIssueIfqSize
  fpIssue : s.fpIssueNum + n ≤ cfg.fpIssueIfqSize
  intRename : s.intRenameRegNum + n ≤ cfg.intRenameRegSize
  fpRename : s.fpRenameRegNum + n ≤ cfg.fpRenameRegSize

/-- A step of a stage. When it is `tight`, the branch queue has room for a branch; branches
are looked at in `safe` states. -/
inductive Micro (tight : Prop) (safe : Backend → Prop) : Backend → Backend → Prop
  | tick {s : Backend} : Micro tight safe s { s with simCycle := s.simCycle + 1 }
  | releaseFu {s : Backend} : Micro tight safe s s.releaseFu
  | commit {s t : Backend} {more : Bool} : 0 < s.roqNum →
      s.commitInst cfg = some (t, more) → Micro tight safe s t
  | checkBrq {s t : Backend} : safe s → s.checkBrq cfg = some t → Micro tight safe s t
  | deliver {s t : Backend} {time : Nat} {l : RsLink} {rest : List (Nat × RsLink)} :
      s.eventQueue = (time, l) :: rest → s.deliver l rest = some t → Micro tight safe s t
  | lsqLook {s t : Backend} (a : LsqAnswer) : s.lsqLook cfg a = some t → Micro tight safe s t
  | freeOne {s : Backend} : (s.lsq s.lsqHead1).state = LsqState.delay1 →
      Micro tight safe s (s.freeOne cfg)
  | drainOne {s : Backend} : (s.lsq s.lsqHead).state = LsqState.commit →
      Micro tight safe s (s.drainOne cfg)
  | dcache {s : Backend} (a : LsqAnswer) : Micro tight safe s (s.dcache a)
  | nextValidNode {s : Backend} {fu : Nat} : fu < numFu → Micro tight safe s (s.nextValidNode fu)
  | choose {s : Backend} (fu : Nat) : Micro tight safe s (s.choose fu)
  | issueInst {s t : Backend} {fu : Nat} {l : RsLink} : s.chosen cfg fu = some l →
      s.rslinkValid l → issuable (s.desc l.rs) → s.fuBusy (s.desc l.rs).fu = false →
      (s.desc l.rs).fu.unit = fu → s.issueInst l = some t → Micro tight safe s t
  | mapInst {s t : Backend} {rs : Nat} {rest : List Nat} : s.decodeData = rs :: rest →
      Room cfg s 1 → (tight → (s.desc rs).ctrl → s.brqNum < cfg.brqIfqSize) →
      s.mapInst cfg = some t → Micro tight safe s t
  | decodeInst {s t : Backend} {rs : Nat} {rest : List Nat} {more : Bool} (o : Nat → Outcome) :
      s.fetchData = rs :: rest → s.decodeInst cfg o = some (t, more) → Micro tight safe s t
  | fetchInst {s : Backend} (f : Fetched) : s.fetchData.length < cfg.fetchIfqSize →
      FetchRoom cfg f s.fetchData.length → Micro tight safe s (s.fetchInst cfg f).1

/-- A sequence of steps. -/
def Steps (tight : Prop) (safe : Backend → Prop) : Backend → Backend → Prop :=
  Relation.ReflTransGen (Micro cfg tight safe)

end Parts

variable {cfg} {tight : Prop} {safe : Backend → Prop}

theorem Micro.steps (h : Micro cfg tight safe s t) : Steps cfg tight safe s t :=
  Relation.ReflTransGen.single h

theorem Steps.refl : Steps cfg tight safe s s := Relation.ReflTransGen.refl

theorem Steps.trans {u : Backend} (h : Steps cfg tight safe s t) (h' : Steps cfg tight safe t u) :
    Steps cfg tight safe s u :=
  Relation.ReflTransGen.trans h h'

/-- What every step keeps holds after a sequence of steps. -/
theorem Steps.invariant {I : Backend → Prop} (step : ∀ s t, I s → Micro cfg tight safe s t → I t)
    (h : Steps cfg tight safe s t) (start : I s) : I t := by
  induction h with
  | refl => exact start
  | tail _ last ih => exact step _ _ ih last

section Stages

theorem commitLoop_steps {n : Nat} (h : s.commitLoop cfg n = some t) : Steps cfg tight safe s t := by
  induction n generalizing s with
  | zero =>
    cases h
    exact .refl
  | succ n ih =>
    rw [commitLoop] at h
    split at h
    · rename_i filled
      obtain ⟨⟨u, more⟩, first, h⟩ := Option.bind_eq_some_iff.mp h
      have once : Steps cfg tight safe s u := (Micro.commit filled first).steps
      cases more with
      | true => exact once.trans (ih h)
      | false =>
        cases h
        exact once
    · cases h
      exact .refl

theorem writebackLoop_steps {n : Nat} (h : s.writebackLoop n = some t) : Steps cfg tight safe s t := by
  induction n generalizing s with
  | zero =>
    cases h
    exact .refl
  | succ n ih =>
    rw [writebackLoop] at h
    split at h
    · cases h
      exact .refl
    · rename_i time l rest queue
      split at h
      · obtain ⟨u, first, h⟩ := Option.bind_eq_some_iff.mp h
        exact (Micro.deliver queue first).steps.trans (ih h)
      · cases h
        exact .refl

theorem freeDone_steps (n : Nat) (s : Backend) : Steps cfg tight safe s (s.freeDone cfg n) := by
  induction n generalizing s with
  | zero => exact .refl
  | succ n ih =>
    rw [freeDone]
    split_ifs with done
    · exact (Micro.freeOne done).steps.trans (ih _)
    · exact .refl

theorem drainLoads_steps (n : Nat) (s : Backend) : Steps cfg tight safe s (s.drainLoads cfg n) := by
  induction n generalizing s with
  | zero => exact .refl
  | succ n ih =>
    rw [drainLoads]
    split_ifs with done
    · exact (Micro.drainOne done.1).steps.trans (ih _)
    · exact .refl

/-- A stage of the cache pipeline has the operation that is in its state. -/
structure Ports (s : Backend) : Prop where
  issue : ∀ i, s.lsqIssuei = some i → (s.lsq i).state = LsqState.issue
  dcache : ∀ i, s.lsqDcachei = some i → (s.lsq i).state = LsqState.dcache
  dtagcmp : ∀ i, s.lsqDtagcmpi = some i → (s.lsq i).state = LsqState.dtagcmp

theorem eventqQueueEvent_lsq {rs time : Nat} (h : s.eventqQueueEvent rs time = some t) :
    t.lsq = s.lsq ∧ t.lsqHead = s.lsqHead := by
  obtain ⟨-, id, pool, -, rfl⟩ := eventqQueueEvent_some h
  exact ⟨rfl, rfl⟩

/-- A look at the queue leaves a committed operation committed. -/
theorem lsqLook_commit (ports : s.Ports) {a : LsqAnswer} (h : s.lsqLook cfg a = some t)
    (committed : (s.lsq s.lsqHead).state = LsqState.commit) :
    (t.lsq t.lsqHead).state = LsqState.commit := by
  have kept : ∀ u : Backend, u.lsq = (({ s with lsqWtbki := s.lsqSelect cfg a }.dtagcmp a).markEx
      a).lsq ∧ u.lsqHead = s.lsqHead → (u.lsq u.lsqHead).state = LsqState.commit := by
    rintro u ⟨same, head⟩
    rw [same, head]
    simp only [dtagcmp, markEx]
    split
    · rename_i i _ port
      have other : s.lsqHead ≠ i := by
        rintro rfl
        rw [ports.dtagcmp _ port] at committed
        cases committed
      simpa [modLsq, Function.update_of_ne other] using committed
    · exact committed
  have head : (({ s with lsqWtbki := s.lsqSelect cfg a }.dtagcmp a).markEx a).lsqHead =
      s.lsqHead := by
    simp only [dtagcmp, markEx]
    split <;> rfl
  simp only [lsqLook] at h
  split at h
  · obtain ⟨same, same'⟩ := eventqQueueEvent_lsq h
    exact kept t ⟨same, same'.trans head⟩
  · cases h
    exact kept _ ⟨rfl, head⟩

theorem freeDone_commit (n : Nat) {s : Backend}
    (committed : (s.lsq s.lsqHead).state = LsqState.commit) :
    ((s.freeDone cfg n).lsq (s.freeDone cfg n).lsqHead).state = LsqState.commit := by
  induction n generalizing s with
  | zero => exact committed
  | succ n ih =>
    rw [freeDone]
    split_ifs with done
    · apply ih
      have other : s.lsqHead ≠ s.lsqHead1 := by
        intro same
        rw [same, done] at committed
        cases committed
      simpa [modLsq, returnToFreeList, Function.update_of_ne other] using committed
    · exact committed

theorem drain_steps {written : Bool} (s : Backend)
    (head : written = true → (s.lsq s.lsqHead).state = LsqState.commit) :
    Steps cfg tight safe s (s.drain cfg written) := by
  refine (freeDone_steps cfg.lsqIfqSize s).trans ?_
  simp only [drain]
  split_ifs with done
  · have committed : ((s.freeDone cfg cfg.lsqIfqSize).lsq
        (s.freeDone cfg cfg.lsqIfqSize).lsqHead).state = LsqState.commit := by
      rcases Bool.or_eq_true_iff.mp done with write | load
      · exact freeDone_commit _ (head write)
      · exact eq_of_beq (Bool.and_eq_true_iff.mp load).2
    exact (Micro.drainOne committed).steps.trans (drainLoads_steps 3 _)
  · exact .refl

theorem lsqStage_steps (ports : s.Ports) {a : LsqAnswer} (h : s.lsqStage cfg a = some t) :
    Steps cfg tight safe s t := by
  obtain ⟨u, look, rfl⟩ := Option.map_eq_some_iff.mp h
  have first : s.lsqLook cfg a = some u := look
  refine (Micro.lsqLook a first).steps.trans ((drain_steps u fun write => ?_).trans
    (Micro.dcache a).steps)
  simp only [Bool.and_eq_true] at write
  exact lsqLook_commit ports first (eq_of_beq write.1.1.1)

/-- Behind `next_valid_node` the first instruction of a ready queue is valid. -/
theorem nextValidNode_head {fu : Nat} {l : RsLink}
    (h : ((s.nextValidNode fu).readyQueue fu).head?.map Prod.snd = some l) :
    (s.nextValidNode fu).rslinkValid l := by
  obtain ⟨x, first, rfl⟩ := Option.map_eq_some_iff.mp h
  rw [nextValidNode, rslinkFreeAll_eq] at first ⊢
  simp only [Function.update_self] at first
  have kept := List.head?_dropWhile_not (fun x : Nat × RsLink => !s.rslinkValid x.2)
    (s.readyQueue fu)
  rw [first] at kept
  change s.rslinkValid x.2 = true
  simpa using kept

theorem issueUnit_steps {fu : Nat} (unit : fu < numFu) (h : s.issueUnit cfg fu = some t) :
    Steps cfg tight safe s t := by
  simp only [issueUnit] at h
  obtain ⟨u, first, rfl⟩ := Option.map_eq_some_iff.mp h
  have front : Steps cfg tight safe s (if cfg.simHasBypass then s.nextValidNode fu else s) := by
    split
    · exact (Micro.nextValidNode unit).steps
    · exact .refl
  have behind : Steps cfg tight safe u (if cfg.simHasBypass then u
      else (u.nextValidNode fu).choose fu) := by
    split
    · exact .refl
    · exact (Micro.nextValidNode unit).steps.trans (Micro.choose fu).steps
  refine front.trans (Steps.trans ?_ behind)
  generalize found : (if cfg.simHasBypass then s.nextValidNode fu else s) = v at first
  cases which : v.chosen cfg fu with
  | none =>
    rw [which] at first
    cases first
    exact .refl
  | some l =>
    rw [which] at first
    simp only at first
    split_ifs at first with stop busy other
    · cases first
      exact .refl
    · have valid : v.rslinkValid l := by
        simp only [chosen] at which
        split_ifs at which with bypass
        · rw [if_pos bypass] at found
          subst found
          exact nextValidNode_head which
        · exact (Option.filter_eq_some_iff.mp which).2
      rw [not_or] at busy
      exact (Micro.issueInst which valid (by simpa using stop) (by simpa using busy.2)
        (not_not.mp other) first).steps

theorem issueUnits_steps {l : List Nat} (units : ∀ fu ∈ l, fu < numFu)
    (h : l.foldlM (fun s fu => s.issueUnit cfg fu) s = some t) : Steps cfg tight safe s t := by
  induction l generalizing s with
  | nil =>
    cases h
    exact .refl
  | cons fu l ih =>
    obtain ⟨u, first, h⟩ := Option.bind_eq_some_iff.mp h
    exact (issueUnit_steps (units fu List.mem_cons_self) first).trans
      (ih (fun fu hfu => units fu (List.mem_cons_of_mem _ hfu)) h)

/-- What an instruction takes when it is mapped. -/
theorem placed_room {rs n : Nat} {rest : List Nat} (single : (s.desc rs).onames 1 = 0)
    (room : Room cfg s (n + 1)) : Room cfg (s.placed cfg rs rest) n := by
  have ints : intRegs (s.desc rs) ≤ 1 := by
    simp only [intRegs, single, ne_eq, not_true_eq_false, false_and, if_false]
    split <;> omega
  have fps : fpRegs (s.desc rs) ≤ 1 := by
    simp only [fpRegs, single, ne_eq, not_true_eq_false, false_and, if_false]
    split <;> omega
  obtain ⟨roq, lsq, intIssue, fpIssue, intRename, fpRename⟩ := room
  constructor <;> simp only [placed] <;> try split
  all_goals omega

theorem mapInst_room {rs n : Nat} {rest : List Nat} (queue : s.decodeData = rs :: rest)
    (single : (s.desc rs).onames 1 = 0) (room : Room cfg s (n + 1))
    (h : s.mapInst cfg = some t) : Room cfg t n := by
  have placed : Room cfg (s.placed cfg rs rest) n := placed_room single room
  rw [mapInst_eq cfg queue] at h
  split_ifs at h
  · obtain ⟨id, pool, -, rfl⟩ := readyqEnqueue_some h
    exact { placed with }
  · cases h
    exact placed

/-- What the loop of `map_stage` looks at when it goes on. -/
theorem mapInst_next {rs : Nat} {rest : List Nat} (queue : s.decodeData = rs :: rest)
    (h : s.mapInst cfg = some t) : t.decodeData = rest ∧
      t.brqNum = s.brqNum + (if (s.desc rs).ctrl then 1 else 0) ∧
      ∀ d, (t.desc d).onames = (s.desc d).onames ∧ (t.desc d).ctrl = (s.desc d).ctrl := by
  have first : (s.placed cfg rs rest).decodeData = rest ∧
      (s.placed cfg rs rest).brqNum = s.brqNum + (if (s.desc rs).ctrl then 1 else 0) ∧
      ∀ d, ((s.placed cfg rs rest).desc d).onames = (s.desc d).onames ∧
        ((s.placed cfg rs rest).desc d).ctrl = (s.desc d).ctrl := by
    refine ⟨rfl, ?_, fun d => ?_⟩
    · simp only [placed]
      split <;> omega
    · by_cases same : d = rs
      · subst same
        simp [placed, Descript.ctrl]
      · simp [placed, Function.update_of_ne same]
  rw [mapInst_eq cfg queue] at h
  split_ifs at h
  · obtain ⟨id, pool, -, rfl⟩ := readyqEnqueue_some h
    obtain ⟨decode, brq, desc⟩ := first
    refine ⟨decode, brq, fun d => ?_⟩
    by_cases same : d = rs
    · subst same
      simpa [Descript.ctrl] using desc d
    · simpa [Function.update_of_ne same] using desc d
  · cases h
    exact first

theorem mapLoop_steps {n : Nat} (room : Room cfg s n)
    (single : ∀ d ∈ s.decodeData, (s.desc d).onames 1 = 0)
    (branches : tight → s.brqNum +
      ((s.decodeData.take n).countP fun d => (s.desc d).ctrl) ≤ cfg.brqIfqSize)
    (h : s.mapLoop cfg n = some t) : Steps cfg tight safe s t := by
  induction n generalizing s with
  | zero =>
    cases h
    exact .refl
  | succ n ih =>
    obtain ⟨u, first, h⟩ := Option.bind_eq_some_iff.mp h
    cases queue : s.decodeData with
    | nil =>
      rw [mapInst, queue] at first
      cases first
      refine ih ?_ single (fun narrow => ?_) h
      · obtain ⟨roq, lsq, intIssue, fpIssue, intRename, fpRename⟩ := room
        constructor <;> omega
      · have fits := branches narrow
        rw [queue, List.take_nil] at fits ⊢
        exact fits
    | cons rs rest =>
      have one := single rs (queue ▸ List.mem_cons_self)
      obtain ⟨decode, brq, desc⟩ := mapInst_next queue first
      have room' : Room cfg s 1 := by
        obtain ⟨roq, lsq, intIssue, fpIssue, intRename, fpRename⟩ := room
        constructor <;> omega
      have fits (narrow : tight) : s.brqNum + (if (s.desc rs).ctrl then 1 else 0) +
          ((rest.take n).countP fun d => (s.desc d).ctrl) ≤ cfg.brqIfqSize := by
        have fits := branches narrow
        rw [queue, List.take_succ_cons, List.countP_cons] at fits
        split_ifs at fits ⊢ <;> omega
      refine (Micro.mapInst queue room' (fun narrow kind => ?_) first).steps.trans
        (ih (mapInst_room queue one room first) (fun d hd => ?_) (fun narrow => ?_) h)
      · have fits := fits narrow
        rw [if_pos kind] at fits
        omega
      · rw [(desc d).1]
        rw [decode] at hd
        exact single d (queue ▸ List.mem_cons_of_mem _ hd)
      · have same : (fun d => (u.desc d).ctrl) = fun d => (s.desc d).ctrl :=
          funext fun d => (desc d).2
        rw [decode, brq, same]
        exact fits narrow

/-- What `map_stage` has looked at before its loop. -/
theorem room_of_space (space : s.mapFull cfg = false) :
    Room cfg s (min cfg.mapWidth s.decodeData.length) := by
  simp only [mapFull, Bool.or_eq_false_iff, decide_eq_false_iff_not] at space
  obtain ⟨⟨⟨⟨⟨⟨roq, -⟩, lsq⟩, intIssue⟩, fpIssue⟩, intRename⟩, fpRename⟩ := space
  constructor <;> omega

theorem mapStage_steps (single : ∀ d ∈ s.decodeData, (s.desc d).onames 1 = 0)
    (branches : tight → BranchesFit cfg s .map) (h : s.mapStage cfg = some t) :
    Steps cfg tight safe s t := by
  rw [mapStage] at h
  split_ifs at h with full
  · cases h
    exact .refl
  · refine mapLoop_steps (room_of_space (Bool.eq_false_of_not_eq_true full)) single
      (fun narrow => ?_) h
    rw [← List.take_eq_take_min]
    exact branches narrow (Bool.eq_false_of_not_eq_true full)

theorem decodeLoop_steps {o : Nat → Outcome} {n cnt : Nat}
    (h : s.decodeLoop cfg o n cnt = some t) : Steps cfg tight safe s t := by
  induction n generalizing s cnt with
  | zero =>
    cases h
    exact .refl
  | succ n ih =>
    rw [decodeLoop] at h
    split at h
    · rename_i room
      obtain ⟨⟨u, more⟩, first, h⟩ := Option.bind_eq_some_iff.mp h
      obtain ⟨rs, rest, queue⟩ := List.exists_cons_of_ne_nil room.1
      have once : Steps cfg tight safe s u := (Micro.decodeInst o queue first).steps
      cases more with
      | true => exact once.trans (ih h)
      | false =>
        cases h
        exact once
    · cases h
      exact .refl

@[simp] theorem fetchData_getFromFreeList (s : Backend) :
    s.getFromFreeList.2.fetchData = s.fetchData := by
  rw [getFromFreeList]
  split <;> rfl

@[simp] theorem length_fetchPush (rs : Nat) (s : Backend) :
    (s.fetchPush cfg rs).fetchData.length = s.fetchData.length + 1 := by
  simp only [fetchPush]
  split <;> simp

@[simp] theorem fetchData_newInst (rs : Nat) (ir : Word) (op : Op) (trap : Bool) (s : Backend) :
    (s.newInst rs ir op trap).fetchData = s.fetchData := rfl

/-- What a fetched word adds to the fetch queue. -/
theorem fetchInst_length (f : Fetched) (s : Backend) :
    (s.fetchInst cfg f).1.fetchData.length = s.fetchData.length +
        (if (mdSetOpcode (if f.valid then f.ir else nopInst)).isSplit then
          if s.fetchData.length + 1 = cfg.fetchWidth then 0 else 2
        else 1) ∧
      ((s.fetchInst cfg f).2 = true → (mdSetOpcode (if f.valid then f.ir else nopInst)).isSplit →
        s.fetchData.length + 1 ≠ cfg.fetchWidth) := by
  simp only [fetchInst, fetchData_getFromFreeList]
  cases split : (mdSetOpcode (if f.valid then f.ir else nopInst)).isSplit with
  | false => simp
  | true =>
    by_cases last : s.fetchData.length + 1 = cfg.fetchWidth
    · simp [last, returnToFreeList]
    · simp [last]

theorem fetchLoop_steps {fs : List Fetched} (s : Backend)
    (fits : FetchFits cfg fs s.fetchData.length) : Steps cfg tight safe s (s.fetchLoop cfg fs) := by
  induction fs generalizing s with
  | nil => exact .refl
  | cons f fs ih =>
    rw [fetchLoop]
    split
    · rename_i free
      obtain ⟨room, later⟩ := fits free
      have once : Steps cfg tight safe s (s.fetchInst cfg f).1 := (Micro.fetchInst f free room).steps
      obtain ⟨length, goes⟩ := @fetchInst_length cfg f s
      cases more : (s.fetchInst cfg f).2 with
      | false => simpa [more] using once
      | true =>
        simp only [more, if_true]
        refine once.trans (ih _ ?_)
        rw [length]
        cases split : (mdSetOpcode (if f.valid then f.ir else nopInst)).isSplit with
        | true =>
          rw [split, if_pos rfl] at later
          rw [if_pos rfl, if_neg (goes more split)]
          exact later (goes more split)
        | false =>
          rw [split, if_neg Bool.false_ne_true] at later
          exact later
    · exact .refl

theorem fetchStage_steps {fs : List Fetched} (fits : Fits cfg s (.fetch fs)) :
    Steps cfg tight safe s (s.fetchStage cfg fs) := by
  rw [fetchStage]
  split_ifs with full
  · exact .refl
  · exact fetchLoop_steps s (fits (by omega))

/-- A stage is a sequence of steps. -/
theorem stage_steps (ports : s.Ports) (single : ∀ d ∈ s.decodeData, (s.desc d).onames 1 = 0)
    {a : Stage} (fits : Fits cfg s a) (branches : tight → BranchesFit cfg s a)
    (recovers : a = .checkBrq → safe s) (h : s.stage cfg a = some t) : Steps cfg tight safe s t := by
  cases a with
  | tick =>
    cases h
    exact Micro.tick.steps
  | commit => exact commitLoop_steps h
  | releaseFu =>
    cases h
    exact Micro.releaseFu.steps
  | checkBrq => exact (Micro.checkBrq (recovers rfl) h).steps
  | writeback => exact writebackLoop_steps h
  | lsq a => exact lsqStage_steps ports h
  | issue => exact issueUnits_steps (fun fu hfu => List.mem_range.mp hfu) h
  | map => exact mapStage_steps single branches h
  | decode o =>
    simp only [stage, decodeStage] at h
    split at h
    · cases h
      exact .refl
    · exact decodeLoop_steps h
  | fetch fs =>
    cases h
    exact fetchStage_steps fits

/-- What the small steps keep holds in every state that a run reaches. -/
theorem reachable_invariant {I : Backend → Prop} {C : Backend → Stage → Prop}
    (fits : ∀ s a, C s a → Fits cfg s a ∧ (tight → BranchesFit cfg s a) ∧
      (a = .checkBrq → safe s))
    (start : I Backend.start) (step : ∀ s t, I s → Micro cfg tight safe s t → I t)
    (ports : ∀ s, I s → s.Ports)
    (single : ∀ s, I s → ∀ d ∈ s.decodeData, (s.desc d).onames 1 = 0)
    (h : Reachable cfg C s) : I s := by
  induction h with
  | start => exact start
  | step _ meets moved ih =>
    obtain ⟨room, branches, recovers⟩ := fits _ _ meets
    exact (stage_steps (ports _ ih) (single _ ih) room branches recovers moved).invariant step ih

end Stages

end Godson.Backend

import Godson.History

/-! How deep speculation goes. Every level below the current one was entered behind a
mispredicted branch that is still in flight and not resolved. -/
namespace Godson.Core

open Mips

variable {cfg : CoreConfig} {s t : Core}

structure Deep (s : Core) : Prop where
  sorted : s.live.Pairwise fun d e => d.specLevel ≤ e.specLevel
  below : ∀ d ∈ s.live, d.specLevel ≤ s.specLevel
  covered : ∀ n < s.specLevel, ∃ d ∈ s.live, unresolved d = true ∧ d.specLevel = n
  entering : s.enteringSpec = true →
    ∃ d ∈ s.live, unresolved d = true ∧ d.specLevel = s.specLevel

/-- An instruction stays at its level, and unresolved. -/
def Stays (d d' : InstDescript) : Prop :=
  d'.specLevel = d.specLevel ∧ (unresolved d = true → unresolved d' = true)

theorem stays_refl (l : List InstDescript) : List.Forall₂ Stays l l :=
  List.forall₂_same.mpr fun _ _ => ⟨rfl, id⟩

theorem stays_mem {l l' : List InstDescript} (h : List.Forall₂ Stays l l') {d : InstDescript}
    (hd : d ∈ l) (opened : unresolved d = true) :
    ∃ d' ∈ l', unresolved d' = true ∧ d'.specLevel = d.specLevel := by
  induction h with
  | nil => cases hd
  | cons one rest ih =>
    rcases List.mem_cons.mp hd with rfl | hd
    · exact ⟨_, List.mem_cons_self, one.2 opened, one.1⟩
    · obtain ⟨d', hd', opened', same⟩ := ih hd
      exact ⟨d', List.mem_cons_of_mem _ hd', opened', same⟩

theorem stays_levels {l l' : List InstDescript} (h : List.Forall₂ Stays l l') :
    l'.map InstDescript.specLevel = l.map InstDescript.specLevel := by
  induction h with
  | nil => rfl
  | cons one rest ih => rw [List.map_cons, List.map_cons, one.1, ih]

theorem sorted_iff {l : List InstDescript} :
    l.Pairwise (fun d e => d.specLevel ≤ e.specLevel) ↔
      (l.map InstDescript.specLevel).Pairwise (· ≤ ·) :=
  List.pairwise_map.symm

theorem Deep.stay (h : Deep s) (live : List.Forall₂ Stays s.live t.live)
    (level : t.specLevel = s.specLevel) (same : t.enteringSpec = s.enteringSpec) : Deep t := by
  constructor
  · rw [sorted_iff, stays_levels live, ← sorted_iff]
    exact h.sorted
  · intro d' hd'
    have inside : d'.specLevel ∈ s.live.map InstDescript.specLevel := by
      rw [← stays_levels live]
      exact List.mem_map_of_mem hd'
    obtain ⟨d, hd, at_d⟩ := List.mem_map.mp inside
    rw [level, ← at_d]
    exact h.below d hd
  · intro n hn
    obtain ⟨d, hd, opened, at_n⟩ := h.covered n (level ▸ hn)
    obtain ⟨d', hd', opened', same⟩ := stays_mem live hd opened
    exact ⟨d', hd', opened', same.trans at_n⟩
  · intro enters
    obtain ⟨d, hd, opened, top⟩ := h.entering (same ▸ enters)
    obtain ⟨d', hd', opened', same⟩ := stays_mem live hd opened
    exact ⟨d', hd', opened', (same.trans top).trans level.symm⟩

theorem stays_modify {f : InstDescript → InstDescript} {l : List InstDescript}
    (one : ∀ d ∈ l, Stays d (f d)) (i : Nat) : List.Forall₂ Stays l (l.modify i f) := by
  induction l generalizing i with
  | nil => simp
  | cons d l ih =>
    obtain ⟨now, later⟩ := List.forall_mem_cons.mp one
    cases i with
    | zero => exact .cons now (stays_refl l)
    | succ i => exact .cons ⟨rfl, id⟩ (ih later i)

/-- A mispredicted instruction is a branch. -/
theorem Sound.misled_ctrl (h : Sound s) {d : InstDescript} (hd : d ∈ s.live)
    (mis : d.misPredict = true) : d.ctrl = true := by
  obtain ⟨p, q, split⟩ := List.append_of_mem hd
  have levels := h.levels
  rw [split] at levels
  exact levels.ctrl mis

theorem stays_writeOne {d : InstDescript} (ctrl : d.misPredict = true → d.ctrl = true) :
    Stays d (writeOne d) := by
  unfold writeOne
  split
  · exact ⟨rfl, id⟩
  · unfold finish
    split
    · exact ⟨rfl, id⟩
    · rename_i plain
      refine ⟨rfl, fun opened => ?_⟩
      simp only [unresolved, Bool.and_eq_true] at opened
      exact absurd (ctrl opened.1) plain

theorem Deep.writeback (h : Deep s) (sound : Sound s) (i : Nat) : Deep (s.writeback i) := by
  refine h.stay (t := s.writeback i) (List.rel_append (stays_modify ?_ i) (stays_refl _)) rfl rfl
  intro d hd
  exact stays_writeOne (sound.misled_ctrl (List.mem_append_left _ hd))

theorem Deep.markEx (h : Deep s) (i : Nat) : Deep (s.markEx i) := by
  refine h.stay (t := s.markEx i) (List.rel_append (stays_modify ?_ i) (stays_refl _)) rfl rfl
  exact fun _ _ => ⟨rfl, id⟩

theorem Deep.mapInst (h : Deep s) : Deep s.mapInst := by
  have live := mapInst_live s
  apply h.stay
  · rw [live]
    exact stays_refl _
  all_goals
    unfold Core.mapInst
    split <;> rfl

theorem deep_empty {s : Core} (live : s.live = []) (level : s.specLevel = 0)
    (entering : s.enteringSpec = false) : Deep s := by
  refine ⟨by rw [live]; exact .nil, ?_, ?_, ?_⟩
  · rw [live]
    intro d hd
    cases hd
  · intro n hn
    omega
  · intro enters
    exact absurd (entering.symm.trans enters) (by decide)

theorem Deep.commit (h : Deep s) (e : s.commit = some t) : Deep t := by
  rcases commit_cases e with ⟨-, rfl⟩ | ⟨-, rs, rfl⟩ | ⟨-, rs, roq, queue, done, rfl⟩
  · exact h
  · exact deep_empty rfl rfl rfl
  · have live : s.live = rs :: (roq ++ s.decodeData) := by
      rw [Core.live, queue, List.cons_append]
    have resolved : unresolved rs = false := by simp [unresolved, done]
    have sorted := h.sorted
    have below := h.below
    have covered := h.covered
    have entering := h.entering
    rw [live] at sorted below covered entering
    have rest : ∀ {d}, d ∈ rs :: (roq ++ s.decodeData) → unresolved d = true →
        d ∈ roq ++ s.decodeData := by
      intro d hd opened
      rcases List.mem_cons.mp hd with rfl | hd
      · exact absurd (resolved.symm.trans opened) (by decide)
      · exact hd
    refine ⟨sorted.tail, fun d hd => below d (List.mem_cons_of_mem _ hd), ?_, ?_⟩
    · intro n hn
      obtain ⟨d, hd, opened, at_n⟩ := covered n hn
      exact ⟨d, rest hd opened, opened, at_n⟩
    · intro enters
      obtain ⟨d, hd, opened, top⟩ := entering enters
      exact ⟨d, rest hd opened, opened, top⟩

theorem Deep.checkBrq (h : Deep s) (sound : Sound s) : Deep s.checkBrq := by
  rcases checkBrq_cases s with same | ⟨older, rs, younger, queue, ctrl, ready, next⟩
  · rw [same]
    exact h
  · have live : s.live = older ++ rs :: (younger ++ s.decodeData) := by
      rw [Core.live, queue, List.append_assoc, List.cons_append]
    rcases next with ⟨right, next⟩ | ⟨mis, more, next⟩
    · rw [next]
      refine h.stay (t := { s with roq := older ++ resolve rs :: younger }) ?_ rfl rfl
      rw [live, Core.live, List.append_assoc, List.cons_append]
      refine List.rel_append (stays_refl _) (.cons ⟨rfl, fun opened => ?_⟩ (stays_refl _))
      simp [unresolved, right] at opened
    · rw [next, sound.brerrRecover_front live ctrl]
      have sorted := h.sorted
      rw [live, List.pairwise_append] at sorted
      obtain ⟨front, back, across⟩ := sorted
      have levels := sound.levels
      rw [live] at levels
      have behind := levels.behind (sound.isOpen live ready mis)
      have level : ∀ d ∈ kept rs younger, d.specLevel = rs.specLevel := by
        intro d hd
        cases likely : rs.likely with
        | true => simp [kept, likely] at hd
        | false =>
          obtain ⟨e, younger', rfl⟩ := List.exists_cons_of_ne_nil more
          simp only [kept, likely, Bool.false_eq_true, if_false, List.take_succ_cons,
            List.take_zero, List.mem_singleton] at hd
          rw [hd]
          exact (behind.2.2.2 likely).2
      have cut : List.Sublist (kept rs younger) (younger ++ s.decodeData) := by
        refine List.Sublist.trans ?_ (List.sublist_append_left _ _)
        unfold kept
        split
        · exact List.nil_sublist _
        · exact List.take_sublist 1 younger
      constructor
      · rw [sorted_iff]
        have levels : (older ++ resolve rs :: kept rs younger).map InstDescript.specLevel =
            (older ++ rs :: kept rs younger).map InstDescript.specLevel := by
          simp [resolve]
        simp only [Core.live, tracerRecover, List.append_nil]
        rw [levels, ← sorted_iff]
        exact (live ▸ h.sorted).sublist ((cut.cons_cons rs).append_left older)
      · intro d hd
        simp only [Core.live, tracerRecover, List.append_nil, List.mem_append,
          List.mem_cons] at hd
        rcases hd with hd | rfl | hd
        · exact across d hd rs List.mem_cons_self
        · exact le_refl _
        · exact (level d hd).le
      · intro n hn
        have shallow : rs.specLevel ≤ s.specLevel := h.below rs (by simp [live])
        obtain ⟨d, hd, opened, at_n⟩ := h.covered n (lt_of_lt_of_le hn shallow)
        rw [live] at hd
        rcases List.mem_append.mp hd with hd | hd
        · refine ⟨d, ?_, opened, at_n⟩
          simp only [Core.live, tracerRecover, List.append_nil]
          exact List.mem_append_left _ hd
        · have deep : rs.specLevel ≤ d.specLevel := by
            rcases List.mem_cons.mp hd with rfl | hd
            · exact le_refl _
            · exact (List.pairwise_cons.mp back).1 d hd
          exact absurd (at_n ▸ deep) (not_le_of_gt hn)
      · intro enters
        cases enters

theorem Deep.decodeInst {p : Prediction} (h : Deep s) (sound : Sound s)
    (e : decodeInst cfg p s = some t) : Deep t := by
  rcases decodeInst_cases e with rfl | ⟨d, rest, d', fetched, slot, next⟩
  · exact h
  · rcases next with ⟨-, rfl⟩ | ⟨x, hx, rfl⟩
    · exact ⟨h.sorted, h.below, h.covered, h.entering⟩
    · obtain ⟨a, r, q, saves, core, inst, -, -⟩ := execute_spec hx
      obtain ⟨f, l, n, c, sr, level, entering, rp, mis, dp, pp, enq, redirects, deepens⟩ :=
        enqueue_spec cfg p x
      have fresh : Fresh d' := fresh_slot slot (sound.fresh d (by simp [fetched]))
      have level₀ : x.core.specLevel = s.specLevel := by
        rw [core]
        rfl
      have entering₀ : x.core.enteringSpec = s.enteringSpec := by
        rw [core]
        rfl
      have here : (decoded x mis dp).specLevel = s.specLevel := by
        rw [decoded, inst]
        rfl
      have opened : mis = true → unresolved (decoded x mis dp) = true := by
        rintro rfl
        simp [unresolved, decoded, inst, fresh.2.1]
      have live : (enqueue cfg p x).live = s.live ++ [decoded x mis dp] := by
        rw [enq, core]
        simp [Core.live, atDecode]
      have top : (enqueue cfg p x).specLevel = level := by rw [enq]
      have enters : (enqueue cfg p x).enteringSpec = entering := by rw [enq]
      have old : ∀ n < s.specLevel,
          ∃ d ∈ s.live ++ [decoded x mis dp], unresolved d = true ∧ d.specLevel = n := by
        intro n hn
        obtain ⟨d, hd, rest⟩ := h.covered n hn
        exact ⟨d, List.mem_append_left _ hd, rest⟩
      have deeper : s.specLevel ≤ level := by
        rcases deepens with ⟨-, same, -⟩ | ⟨-, -, -, -, -, -, ⟨-, same, -⟩ | ⟨-, same, -⟩⟩ |
          ⟨-, -, -, same, -⟩ <;> omega
      refine ⟨?_, ?_, ?_, ?_⟩
      · rw [live, List.pairwise_append]
        refine ⟨h.sorted, List.pairwise_singleton _ _, ?_⟩
        intro d hd e he
        rw [List.mem_singleton.mp he, here]
        exact h.below d hd
      · rw [live, top]
        intro e he
        rcases List.mem_append.mp he with he | he
        · exact (h.below e he).trans deeper
        · rw [List.mem_singleton.mp he, here]
          exact deeper
      · rw [live, top]
        intro n hn
        by_cases before : n < s.specLevel
        · exact old n before
        · rcases deepens with ⟨enter, same, -⟩ | ⟨-, -, -, misled, -, -, ⟨-, same, -⟩ | ⟨-, same, -⟩⟩ |
            ⟨-, -, -, same, -⟩
          · obtain ⟨b, hb, open', at_b⟩ := h.entering (entering₀ ▸ enter)
            exact ⟨b, List.mem_append_left _ hb, open', by omega⟩
          · refine ⟨_, List.mem_append_right _ (List.mem_singleton_self _), opened misled, ?_⟩
            omega
          · omega
          · omega
      · rw [live, top, enters]
        intro enter
        rcases deepens with ⟨-, -, off, -⟩ | ⟨-, -, -, misled, -, -, ⟨-, -, off⟩ | ⟨-, same, -⟩⟩ |
          ⟨-, -, -, -, off⟩
        · exact absurd (off.symm.trans enter) (by decide)
        · exact absurd (off.symm.trans enter) (by decide)
        · refine ⟨_, List.mem_append_right _ (List.mem_singleton_self _), opened misled, ?_⟩
          omega
        · exact absurd (off.symm.trans enter) (by decide)

theorem Deep.fetchInst (h : Deep s) (p : Prediction) : Deep (s.fetchInst cfg p) :=
  ⟨h.sorted, h.below, h.covered, h.entering⟩

theorem deep_start (cfg : CoreConfig) (arch : Arch) : Deep (start cfg arch) :=
  deep_empty rfl rfl rfl

def branches (l : List InstDescript) : Nat := l.countP InstDescript.ctrl

theorem branches_append (l q : List InstDescript) :
    branches (l ++ q) = branches l + branches q := List.countP_append

theorem branches_cons (d : InstDescript) (l : List InstDescript) :
    branches (d :: l) = branches l + if d.ctrl then 1 else 0 := List.countP_cons

/-- There are no more levels than branches in flight. -/
theorem Deep.level_le (h : Deep s) (sound : Sound s) :
    s.specLevel ≤ branches s.live := by
  have levels : List.range s.specLevel ⊆
      (s.live.filter unresolved).map InstDescript.specLevel := by
    intro n hn
    obtain ⟨d, hd, opened, at_n⟩ := h.covered n (List.mem_range.mp hn)
    exact List.mem_map.mpr ⟨d, List.mem_filter.mpr ⟨hd, opened⟩, at_n⟩
  have few := (List.nodup_range.subperm levels).length_le
  rw [List.length_range, List.length_map, ← List.countP_eq_length_filter] at few
  refine few.trans (List.countP_mono_left fun d hd opened => ?_)
  simp only [unresolved, Bool.and_eq_true] at opened
  exact sound.misled_ctrl hd opened.1

/-! The stages with the counter of the branch queue, which the map stage checks. -/

/-- `map_width` as shipped. -/
def mapWidth : Nat := 4

/-- `brq_ifq_size`, by which the indices of the branch queue are reduced. -/
structure BrqSize where
  size : Nat
  positive : 0 < size

/-- A core with its branch history and `brq_num`. -/
structure Counted where
  history : History
  brqNum : Nat := 0

namespace Counted

abbrev core (c : Counted) : Core := c.history.core

section Stages

variable (cfg : CoreConfig) (width : Nat) (brq : BrqSize)

/-- One round of the loop of `map_stage`. -/
def mapRound (c : Counted) : Counted :=
  match c.core.decodeData with
  | [] => c
  | d :: _ =>
    { history := c.history.mapInst, brqNum := if d.ctrl then c.brqNum + 1 else c.brqNum }

def mapLoop : Nat → Counted → Counted
  | 0, c => c
  | n + 1, c => mapLoop n c.mapRound

/-- `map_stage`, which stalls while `brq_full`. The other resources allow `n` rounds. -/
def mapStage (n : Nat) (c : Counted) : Counted :=
  if brq.size ≤ c.brqNum + 1 then c else mapLoop (min n mapWidth) c

/-- `commit_stage` gives up the branches that leave the reorder queue at its head, or all. -/
def commit (c : Counted) : Option Counted :=
  c.history.commit.map fun history =>
    { history
      brqNum := c.brqNum -
        branches (c.core.roq.take (c.core.roq.length - history.core.roq.length)) }

/-- `brerr_recover` gives up the branches that it squashes. -/
def checkBrq (c : Counted) : Counted :=
  { history := c.history.checkBrq
    brqNum := c.brqNum - branches (c.core.roq.drop c.history.checkBrq.core.roq.length) }

inductive Stage
  | commit
  | checkBrq
  | writeback (i : Nat)
  | markEx (i : Nat)
  | mapStage (n : Nat)
  | decodeStage (ps : List Prediction)
  | fetch (p : Prediction)

def stage (c : Counted) : Stage → Option Counted
  | .commit => c.commit
  | .checkBrq => some c.checkBrq
  | .writeback i => some { c with history := { c.history with core := c.core.writeback i } }
  | .markEx i => some { c with history := { c.history with core := c.core.markEx i } }
  | .mapStage n => some (c.mapStage brq n)
  | .decodeStage ps =>
    (c.history.decodeStage cfg width ps).map fun history => { c with history }
  | .fetch p => some { c with history := { c.history with core := c.core.fetchInst cfg p } }

def start (arch : Arch) (ghr : Word) : Counted := { history := .start cfg arch ghr }

/-- The states before and after each execution of a call of the decode loop. -/
def executions : List Prediction → Nat → History → List (Core × Core)
  | [], _, _ => []
  | p :: ps, branchCnt, h =>
    if h.core.fetchData.isEmpty || decide (decodeIfqSize ≤ h.core.decodeData.length) ||
        decide (decodeSpeed ≤ branchCnt) then []
    else
      match h.core.executing with
      | none => []
      | some (s, d) =>
        match execute cfg s d with
        | none => [(s, s)]
        | some x => (s, enqueue cfg p x) ::
          executions ps (if h.core.lastIsBranch then branchCnt + 1 else branchCnt) (h.enter cfg p x)

/-- The indices at which a stage uses the register copies and the create vectors of the
levels: decode at the level at which it executes and at the one that `prepare_level` makes,
`update_create_vector` from the level of the instruction on. -/
def levelsUsed (c : Counted) : Stage → List Nat
  | .commit => [0]
  | .writeback i =>
    match c.core.roq[i]? with
    | none => []
    | some d =>
      d.specLevel :: List.range' d.specLevel (c.core.specLevel + 1 - d.specLevel)
  | .decodeStage ps =>
    if decodeIfqSize < c.core.decodeData.length + decodeWidth then []
    else (executions cfg ps 0 (c.history.updateGhr width)).flatMap fun (s, t) =>
      [s.specLevel, t.specLevel]
  | _ => []

end Stages

/-- The branch queue holds the branches of the reorder queue, and has a place free for the
one branch that the decode queue may hold. -/
structure Bounded (width : Nat) (brq : BrqSize) (c : Counted) : Prop where
  traced : c.history.Traced width
  deep : Deep c.core
  count : c.brqNum = branches c.core.roq
  room : c.brqNum < brq.size
  few : branches c.core.decodeData ≤ 1

variable {cfg : CoreConfig} {width : Nat} {brq : BrqSize} {c e : Counted}

theorem Bounded.level_le (h : Bounded width brq c) : c.core.specLevel ≤ brq.size := by
  have levels := h.deep.level_le h.traced.sound
  have count := h.count
  have room := h.room
  have few := h.few
  rw [Core.live, branches_append] at levels
  omega

theorem branches_marked {l l' : List InstDescript} (h : List.Forall₂ Marked l l') :
    branches l' = branches l := by
  induction h with
  | nil => rfl
  | @cons d d' _ _ one _ ih =>
    obtain ⟨⟨_, _, _, _, rfl⟩, -⟩ := one
    unfold branches at ih ⊢
    rw [List.countP_cons, List.countP_cons, ih]
    rfl

/-- A stage that only marks instructions, or fetches. -/
theorem Bounded.marked (h : Bounded width brq c) {core : Core} (sound : Sound core)
    (deep : Deep core) (marked : List.Forall₂ Marked c.core.roq core.roq)
    (same : core.decodeData = c.core.decodeData) :
    Bounded width brq { c with history := { c.history with core } } :=
  ⟨h.traced.marked sound marked same, deep, h.count.trans (branches_marked marked).symm, h.room,
    same ▸ h.few⟩

theorem mapInst_core {h : History} (t : h.Traced width) : h.mapInst.core = h.core.mapInst := by
  obtain ⟨-, -, decoded⟩ := t
  unfold History.mapInst Core.mapInst
  cases queue : h.core.decodeData with
  | nil => rfl
  | cons d rest =>
    cases records : h.decoded with
    | nil =>
      rw [queue, records] at decoded
      cases decoded
    | cons r q => rfl

/-- While the map stage runs, the branch queue has room for the branches left to map. -/
structure Mapping (width : Nat) (brq : BrqSize) (c : Counted) : Prop where
  bounded : Bounded width brq c
  enough : c.brqNum + branches c.core.decodeData < brq.size

theorem Mapping.mapRound (h : Mapping width brq c) : Mapping width brq c.mapRound := by
  obtain ⟨⟨traced, deep, count, room, few⟩, enough⟩ := h
  unfold Counted.mapRound
  cases queue : c.core.decodeData with
  | nil => exact ⟨⟨traced, deep, count, room, few⟩, enough⟩
  | cons d rest =>
    have core : c.history.mapInst.core =
        { c.core with decodeData := rest, roq := c.core.roq ++ [d] } := by
      rw [mapInst_core traced, Core.mapInst]
      simp only [queue]
    have deep' : Deep c.history.mapInst.core := by
      rw [mapInst_core traced]
      exact deep.mapInst
    rw [queue, branches_cons] at enough few
    have one : branches [d] = if d.ctrl then 1 else 0 := by
      rw [branches_cons, branches, List.countP_nil, Nat.zero_add]
    have counted : (if d.ctrl then c.brqNum + 1 else c.brqNum) =
        branches c.history.mapInst.core.roq := by
      rw [core, branches_append, one, count]
      split <;> rfl
    have rest' : branches c.history.mapInst.core.decodeData = branches rest := by rw [core]
    have total : (if d.ctrl then c.brqNum + 1 else c.brqNum) + branches rest < brq.size := by
      have sum : (if d.ctrl then c.brqNum + 1 else c.brqNum) =
          c.brqNum + if d.ctrl then 1 else 0 := by
        split <;> rfl
      omega
    refine ⟨⟨traced.mapInst, deep', counted, ?_, ?_⟩, ?_⟩
    · exact lt_of_le_of_lt (Nat.le_add_right _ _) total
    · change branches c.history.mapInst.core.decodeData ≤ 1
      omega
    · change _ + branches c.history.mapInst.core.decodeData < _
      rw [rest']
      exact total

theorem Mapping.mapLoop (h : Mapping width brq c) (n : Nat) : Mapping width brq (mapLoop n c) := by
  induction n generalizing c with
  | zero => exact h
  | succ n ih => exact ih h.mapRound

theorem Bounded.mapStage (h : Bounded width brq c) (n : Nat) :
    Bounded width brq (c.mapStage brq n) := by
  unfold Counted.mapStage
  split
  · exact h
  · rename_i free
    have few := h.few
    exact (Mapping.mapLoop ⟨h, by omega⟩ _).bounded

theorem commit_core {h k : History} (done : h.commit = some k) :
    h.core.commit = some k.core := by
  obtain ⟨core, step, rfl⟩ := Option.map_eq_some_iff.mp done
  rw [step]
  split <;> rfl

theorem Bounded.commit (h : Bounded width brq c) (done : c.commit = some e) :
    Bounded width brq e := by
  obtain ⟨history, committed, rfl⟩ := Option.map_eq_some_iff.mp done
  have step : c.core.commit = some history.core := commit_core committed
  have count := h.count
  have room := h.room
  have queues : branches history.core.roq +
      branches (c.core.roq.take (c.core.roq.length - history.core.roq.length)) =
        branches c.core.roq ∧ branches history.core.decodeData ≤ 1 := by
    rcases commit_cases step with ⟨-, same⟩ | ⟨-, rs, flush⟩ | ⟨-, rs, roq, queue, -, retire⟩
    · rw [same, Nat.sub_self, List.take_zero]
      exact ⟨rfl, h.few⟩
    · rw [flush]
      have all : c.core.roq.length - (c.core.pipelineFlush rs).roq.length = c.core.roq.length := rfl
      rw [all, List.take_length]
      exact ⟨Nat.zero_add _, Nat.zero_le 1⟩
    · have one : c.core.roq.length - history.core.roq.length = 1 := by
        rw [retire, queue, List.length_cons, Nat.add_sub_cancel_left]
      rw [one, queue, List.take_succ_cons, List.take_zero, branches_cons, branches_cons, retire]
      exact ⟨congrArg _ (Nat.zero_add _), h.few⟩
  refine ⟨h.traced.commit committed, h.deep.commit step, ?_, ?_, queues.2⟩
  · change c.brqNum - _ = branches history.core.roq
    omega
  · change c.brqNum - _ < brq.size
    omega

theorem checkBrq_core (h : History) : h.checkBrq.core = h.core.checkBrq := by
  unfold History.checkBrq
  cases back : h.core.roq.dropWhile waiting with
  | nil => simp only [Core.checkBrq, back]
  | cons rs younger =>
    simp only
    split
    · split <;> rfl
    · rename_i stays
      simp only [Core.checkBrq, back]
      rw [if_neg stays]

/-- The recovery drops the young end of the queue, and else only marks. -/
theorem checkBrq_roq (s : Core) : ∃ l, List.Forall₂ Marked s.roq l ∧ s.checkBrq.roq <+: l := by
  rcases checkBrq_cases s with same | ⟨older, rs, younger, queue, -, -, next⟩
  · exact ⟨s.roq, marked_refl _, by rw [same]⟩
  · refine ⟨older ++ resolve rs :: younger, ?_, ?_⟩
    · rw [queue]
      exact List.rel_append (marked_refl _) (.cons (marked_resolve rs) (marked_refl _))
    · rcases next with ⟨-, next⟩ | ⟨-, -, next⟩
      · rw [next]
      · rw [next]
        exact History.brerrRecover_roq _ _ _ _

theorem checkBrq_decodeData (s : Core) :
    s.checkBrq.decodeData = s.decodeData ∨ s.checkBrq.decodeData = [] := by
  rcases checkBrq_cases s with same | ⟨older, rs, younger, -, -, -, ⟨-, next⟩ | ⟨-, -, next⟩⟩
  · exact .inl (by rw [same])
  · exact .inl (by rw [next])
  · right
    rw [next]
    rfl

theorem Bounded.checkBrq (h : Bounded width brq c) : Bounded width brq c.checkBrq := by
  have count := h.count
  have room := h.room
  have core : c.checkBrq.core = c.core.checkBrq := checkBrq_core c.history
  have kept : branches c.core.checkBrq.roq +
      branches (c.core.roq.drop c.core.checkBrq.roq.length) = branches c.core.roq := by
    obtain ⟨l, marked, front⟩ := checkBrq_roq c.core
    have same := branches_marked (List.forall₂_take c.core.checkBrq.roq.length marked)
    rw [← List.prefix_iff_eq_take.mp front] at same
    rw [same, ← branches_append, List.take_append_drop]
  refine ⟨h.traced.checkBrq, ?_, ?_, ?_, ?_⟩
  · rw [core]
    exact h.deep.checkBrq h.traced.sound
  · rw [core]
    have same : c.checkBrq.brqNum =
        c.brqNum - branches (c.core.roq.drop c.core.checkBrq.roq.length) :=
      congrArg (fun s : Core => c.brqNum - branches (c.core.roq.drop s.roq.length)) core
    omega
  · exact lt_of_le_of_lt (Nat.sub_le _ _) room
  · rw [core]
    rcases checkBrq_decodeData c.core with same | empty
    · rw [same]
      exact h.few
    · rw [empty]
      exact Nat.zero_le 1

/-- The instruction that a round of decode puts at the end of its queue. -/
theorem enqueue_queues {h : History} {p : Prediction} {s : Core} {d : InstDescript}
    {x : Executed} (up : h.core.executing = some (s, d)) (ran : execute cfg s d = some x) :
    (enqueue cfg p x).roq = h.core.roq ∧
      ∃ d', (enqueue cfg p x).decodeData = h.core.decodeData ++ [d'] ∧
        (h.core.lastIsBranch = true → d'.ctrl = false) := by
  obtain ⟨d₀, rest, -, slot, rfl⟩ := executing_some up
  obtain ⟨a, r, q, saves, core, inst, -⟩ := execute_spec ran
  obtain ⟨f, l, n, c, sr, level, entering, rp, mis, dp, pp, enq, -⟩ := enqueue_spec cfg p x
  rw [enq, core]
  refine ⟨rfl, decoded x mis dp, rfl, fun last => ?_⟩
  rcases delaySlot_cases slot with ⟨no, -⟩ | ⟨-, -, plain, -⟩
  · exact absurd (last.symm.trans no) (by decide)
  · rw [decoded, inst]
    exact plain

/-- What the decode loop keeps. -/
structure Decoding (width : Nat) (brq : BrqSize) (roq : List InstDescript) (branchCnt : Nat)
    (h : History) : Prop where
  traced : h.Traced width
  deep : Deep h.core
  same : h.core.roq = roq
  room : branches roq < brq.size
  few : branches h.core.decodeData ≤ 1
  unscheduled : h.Unscheduled branchCnt

variable {roq : List InstDescript} {branchCnt : Nat} {h k : History}

theorem Decoding.level_le (now : Decoding width brq roq branchCnt h) :
    h.core.specLevel ≤ brq.size := by
  have levels := now.deep.level_le now.traced.sound
  have room := now.room
  have few := now.few
  rw [Core.live, branches_append, now.same] at levels
  omega

theorem Decoding.round (now : Decoding width brq roq 0 h) {p : Prediction} {s : Core}
    {d : InstDescript} {x : Executed} (up : h.core.executing = some (s, d))
    (ran : execute cfg s d = some x) :
    Decoding width brq roq (if h.core.lastIsBranch then 1 else 0) (h.enter cfg p x) := by
  obtain ⟨traced, unscheduled⟩ := now.traced.enter (p := p) up ran now.unscheduled
  obtain ⟨queue, d', decodeData, plain⟩ := enqueue_queues (p := p) up ran
  refine ⟨traced, now.deep.decodeInst now.traced.sound (decodeInst_executed up ran),
    queue.trans now.same, now.room, ?_, unscheduled⟩
  change branches (enqueue cfg p x).decodeData ≤ 1
  have few := now.few
  have one : branches [d'] = if d'.ctrl then 1 else 0 := by
    rw [branches_cons, branches, List.countP_nil, Nat.zero_add]
  rw [decodeData, branches_append, one]
  cases last : h.core.lastIsBranch with
  | true =>
    rw [plain last]
    simpa using few
  | false =>
    have none : branches h.core.decodeData = 0 := by
      rw [branches, List.countP_eq_zero]
      intro e he
      rw [(now.unscheduled rfl last).2 e he]
      decide
    rw [none]
    split <;> omega

theorem Decoding.loop (now : Decoding width brq roq branchCnt h) {ps : List Prediction}
    (done : h.decodeLoop cfg ps branchCnt = some k) : ∃ n, Decoding width brq roq n k := by
  apply History.decodeLoop_rounds (P := Decoding width brq roq)
    (Q := fun k => ∃ n, Decoding width brq roq n k) _ _ _ now done
  · exact fun n _ now => ⟨n, now⟩
  · intro h p core now idle waits
    obtain ⟨queue, decodeData⟩ := History.decodeInst_idle idle waits
    have sound := now.traced.sound.decodeInst waits
    refine ⟨1, ⟨sound, queue ▸ now.traced.mapped, decodeData ▸ now.traced.decoded⟩,
      now.deep.decodeInst now.traced.sound waits, queue.trans now.same, now.room, ?_, ?_⟩
    · exact decodeData ▸ now.few
    · intro no
      exact absurd no (by decide)
  · exact fun h p s d x now up ran => now.round up ran

/-- Every execution of the decode loop is at a level of the arrays, and leaves one. -/
theorem Decoding.executions (now : Decoding width brq roq branchCnt h) (ps : List Prediction) :
    ∀ r ∈ executions cfg ps branchCnt h, r.1.specLevel ≤ brq.size ∧ r.2.specLevel ≤ brq.size := by
  induction ps generalizing h branchCnt with
  | nil =>
    intro r hr
    cases hr
  | cons p ps ih =>
    unfold Counted.executions
    split
    · intro r hr
      cases hr
    · rename_i going
      simp only [Bool.or_eq_true, decide_eq_true_eq, not_or, not_le] at going
      obtain rfl : branchCnt = 0 := Nat.lt_one_iff.mp going.2
      cases up : h.core.executing with
      | none =>
        intro r hr
        cases hr
      | some next =>
        obtain ⟨s, d⟩ := next
        have before : s.specLevel ≤ brq.size := by
          obtain ⟨d₀, rest, -, -, rfl⟩ := executing_some up
          exact now.level_le
        cases ran : execute cfg s d with
        | none =>
          intro r hr
          simp only [ran, List.mem_singleton] at hr
          rw [hr]
          exact ⟨before, before⟩
        | some x =>
          have after := now.round (p := p) up ran
          intro r hr
          simp only [ran, List.mem_cons, Nat.zero_add] at hr
          rcases hr with rfl | hr
          · exact ⟨before, after.level_le⟩
          · exact ih after r hr

theorem updateGhr_decoding (h : Bounded width brq c) (empty : c.core.decodeData = []) :
    Decoding width brq c.core.roq 0 (c.history.updateGhr width) := by
  refine ⟨h.traced.updateGhr, h.deep, rfl, h.count ▸ h.room, h.few, fun _ _ => ⟨rfl, ?_⟩⟩
  intro d hd
  have hd : d ∈ c.core.decodeData := hd
  rw [empty] at hd
  cases hd

theorem no_group (c : Counted) (room : ¬ decodeIfqSize < c.core.decodeData.length + decodeWidth) :
    c.core.decodeData = [] := by
  apply List.eq_nil_of_length_eq_zero
  simp only [decodeIfqSize, decodeWidth] at room
  omega

theorem Bounded.decodeStage (h : Bounded width brq c) {ps : List Prediction} {history : History}
    (done : c.history.decodeStage cfg width ps = some history) :
    Bounded width brq { c with history } := by
  unfold History.decodeStage at done
  dsimp only at done
  split at done
  · cases done
    exact ⟨h.traced.updateGhr, h.deep, h.count, h.room, h.few⟩
  · rename_i room
    obtain ⟨n, after⟩ := (updateGhr_decoding h (no_group c room)).loop done
    exact ⟨after.traced, after.deep, h.count.trans (congrArg branches after.same.symm), h.room,
      after.few⟩

theorem Bounded.stage (h : Bounded width brq c) {a : Stage}
    (done : c.stage cfg width brq a = some e) : Bounded width brq e := by
  cases a with
  | commit => exact h.commit done
  | checkBrq =>
    cases done
    exact h.checkBrq
  | writeback i =>
    cases done
    exact h.marked (h.traced.sound.writeback i) (h.deep.writeback h.traced.sound i)
      (marked_modify marked_writeOne _ i) rfl
  | markEx i =>
    cases done
    exact h.marked (h.traced.sound.markEx i) (h.deep.markEx i)
      (marked_modify marked_raiseEx _ i) rfl
  | mapStage n =>
    cases done
    exact h.mapStage n
  | decodeStage ps =>
    obtain ⟨history, decoded, rfl⟩ := Option.map_eq_some_iff.mp done
    exact h.decodeStage decoded
  | fetch p =>
    cases done
    exact h.marked (h.traced.sound.fetchInst p) (h.deep.fetchInst p) (marked_refl _) rfl

theorem Bounded.levelsUsed (h : Bounded width brq c) (a : Stage) :
    ∀ n ∈ c.levelsUsed cfg width a, n < brq.size + 1 := by
  have top := h.level_le
  cases a with
  | commit =>
    intro n hn
    rw [List.mem_singleton.mp hn]
    omega
  | writeback i =>
    intro n hn
    simp only [Counted.levelsUsed] at hn
    cases at_i : c.core.roq[i]? with
    | none => simp [at_i] at hn
    | some d =>
      have below := h.deep.below d (List.mem_append_left _ (List.mem_of_getElem? at_i))
      simp only [at_i, List.mem_cons, List.mem_range'_1] at hn
      omega
  | decodeStage ps =>
    intro n hn
    simp only [Counted.levelsUsed] at hn
    split at hn
    · cases hn
    · rename_i room
      obtain ⟨r, hr, hn⟩ := List.mem_flatMap.mp hn
      have both := (updateGhr_decoding h (no_group c room)).executions ps r hr
      simp only [List.mem_cons, List.not_mem_nil, or_false] at hn
      omega
  | _ =>
    intro n hn
    cases hn

theorem bounded_run {arch : Arch} {ghr : Word} {stages : List Stage}
    (ran : stages.foldlM (stage cfg width brq) (start cfg arch ghr) = some c) :
    Bounded width brq c := by
  have begins : Bounded width brq (start cfg arch ghr) :=
    ⟨⟨sound_start cfg arch, .nil, .nil⟩, deep_start cfg arch, rfl, brq.positive, Nat.zero_le 1⟩
  exact Runs.invariant (I := Bounded width brq) (fun _ _ _ h done => h.stage done) begins ran

/-- In every state of a run the level is at most the size of the branch queue, the queue
holds no more than its size, and the next stage uses only levels that the arrays have. -/
theorem level_bound {arch : Arch} {ghr : Word} {stages : List Stage}
    (ran : stages.foldlM (stage cfg width brq) (start cfg arch ghr) = some c) :
    c.core.specLevel ≤ brq.size ∧ c.brqNum = branches c.core.roq ∧ c.brqNum ≤ brq.size ∧
      ∀ a, ∀ n ∈ c.levelsUsed cfg width a, n < brq.size + 1 := by
  have bounded := bounded_run ran
  exact ⟨bounded.level_le, bounded.count, bounded.room.le, bounded.levelsUsed⟩

/-- The two branches of `History.twoBranches`, both mispredicted and in flight. -/
def twoLevelsRun : List Stage :=
  [.fetch {}, .fetch {}, .fetch {}, .fetch {}, .decodeStage [{}, {}, {}], .mapStage 2,
    .decodeStage [{}, {}], .mapStage 1]

theorem level_bound_twoLevels : ∃ c,
    twoLevelsRun.foldlM (stage smallConfig 9 ⟨3, by decide⟩)
      (start smallConfig History.twoBranches 0b101) = some c ∧
    c.core.specLevel = 2 ∧ c.brqNum = branches c.core.roq ∧ c.brqNum = 2 ∧
      ∀ a, ∀ n ∈ c.levelsUsed smallConfig 9 a, n < 4 := by
  have seen : (twoLevelsRun.foldlM (stage smallConfig 9 ⟨3, by decide⟩)
      (start smallConfig History.twoBranches 0b101)).map
        (fun c => (c.core.specLevel, c.brqNum)) = some (2, 2) := by decide
  obtain ⟨c, ran, seen⟩ := Option.map_eq_some_iff.mp seen
  obtain ⟨-, count, -, levels⟩ := level_bound ran
  simp only [Prod.mk.injEq] at seen
  exact ⟨c, ran, seen.1, count, seen.2, levels⟩

end Counted

end Godson.Core

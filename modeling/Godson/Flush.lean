import Godson.FrontEnd

/-! A flush. The instructions in flight are a log of the changes of the architectural state:
taking them back from the youngest down to any one of them gives the state in which that one
was decoded, whatever was squashed in between. `recover_data` does so, except for signalling
NaNs in the floating-point registers. -/
namespace Godson.Core

open Mips UndoLog

/-- An instruction kept what it overwrote, if it was on the right path. -/
def Saved (d : InstDescript) : Prop :=
  d.before.clearZero = d.before ∧
    (d.specLevel = 0 → ∃ ws, Separate ws ∧ d.tempSave = (d.before.putAll ws).2)

theorem recoverData_wrong {d : InstDescript} (h : d.specLevel ≠ 0) (a : Arch) :
    d.recoverData a = a := if_pos h

theorem recoverData_right {d : InstDescript} (h : d.specLevel = 0) (a : Arch) :
    d.recoverData a = a.restoreAll d.tempSave := if_neg (not_not.mpr h)

theorem takeBack_wrong {d : InstDescript} (h : d.specLevel ≠ 0) (a : Arch) : d.takeBack a = a :=
  if_pos h

theorem takeBack_right {d : InstDescript} (h : d.specLevel = 0) (a : Arch) :
    d.takeBack a = a.takeBack d.before d.tempSave := if_neg (not_not.mpr h)

theorem takeBack_clearZero {d : InstDescript} (h : Saved d) (a : Arch) :
    d.takeBack a.clearZero = (d.takeBack a).clearZero := by
  by_cases level : d.specLevel = 0
  · rw [takeBack_right level, takeBack_right level, Mips.takeBack_clearZero h.1]
  · rw [takeBack_wrong level, takeBack_wrong level]

/-- The instructions in flight are an undo log of the architectural state. -/
structure Logs (s : Core) : Prop where
  logged : Logged InstDescript.takeBack InstDescript.before s.live s.arch
  saved : ∀ d ∈ s.live, Saved d

theorem unwind_marked {l l' : List InstDescript} (h : List.Forall₂ Marked l l') (a : Arch) :
    unwind InstDescript.takeBack l' a = unwind InstDescript.takeBack l a := by
  induction h with
  | nil => rfl
  | cons hd _ ih =>
    obtain ⟨⟨_, _, _, _, rfl⟩, -⟩ := hd
    rw [unwind_cons, unwind_cons, ih]
    rfl

theorem logged_marked {l l' : List InstDescript} {a : Arch} (h : List.Forall₂ Marked l l')
    (k : Logged InstDescript.takeBack InstDescript.before l a) :
    Logged InstDescript.takeBack InstDescript.before l' a := by
  induction h with
  | nil => exact k
  | cons hd ht ih =>
    obtain ⟨now, rest⟩ := logged_cons.mp k
    apply logged_cons.mpr
    refine ⟨?_, ih rest⟩
    rw [unwind_marked (.cons hd ht), now]
    obtain ⟨⟨_, _, _, _, rfl⟩, -⟩ := hd
    rfl

theorem saved_marked {l l' : List InstDescript} (h : List.Forall₂ Marked l l')
    (k : ∀ d ∈ l, Saved d) : ∀ d ∈ l', Saved d := by
  induction h with
  | nil => exact k
  | cons hd _ ih =>
    obtain ⟨first, rest⟩ := List.forall_mem_cons.mp k
    obtain ⟨⟨_, _, _, _, rfl⟩, -⟩ := hd
    exact List.forall_mem_cons.mpr ⟨first, ih rest⟩

theorem Logs.marked {s t : Core} (h : Logs s) (live : List.Forall₂ Marked s.live t.live)
    (arch : t.arch = s.arch) : Logs t :=
  ⟨arch ▸ logged_marked live h.logged, saved_marked live h.saved⟩

/-- Wrong instructions have nothing to undo. -/
theorem unwind_wrong {l : List InstDescript} (wrong : Wrong l) (a : Arch) :
    unwind InstDescript.recoverData l a = a :=
  unwind_idle _ l a fun d hd b => recoverData_wrong (wrong d hd) b

/-- Squashing wrong instructions shortens the log. -/
theorem Logs.cut {s : Core} {front dropped : List InstDescript} (h : Logs s)
    (live : s.live = front ++ dropped) (wrong : Wrong dropped) :
    Logged InstDescript.takeBack InstDescript.before front s.arch := by
  have logged := h.logged
  rw [live] at logged
  have short := logged.front
  rw [unwind_idle InstDescript.takeBack dropped s.arch
    fun d hd a => takeBack_wrong (wrong d hd) a] at short
  exact short

theorem Logs.checkBrq {s : Core} (h : Logs s) (sound : Sound s) : Logs s.checkBrq := by
  rcases checkBrq_cases s with same | ⟨older, rs, younger, roq, ctrl, ready, resolved⟩
  · rw [same]
    exact h
  · have live : s.live = older ++ rs :: (younger ++ s.decodeData) := by simp [Core.live, roq]
    have mark : ∀ q, List.Forall₂ Marked (older ++ rs :: q) (older ++ resolve rs :: q) :=
      fun q => List.rel_append (marked_refl older) (.cons (marked_resolve rs) (marked_refl q))
    rcases resolved with ⟨-, next⟩ | ⟨mis, more, next⟩
    · rw [next]
      refine h.marked ?_ rfl
      rw [live]
      simp only [Core.live, List.append_assoc, List.cons_append]
      exact mark _
    · have levels := sound.levels
      rw [live] at levels
      have isOpen := sound.isOpen live ready mis
      have wrong := levels.squashed isOpen
      rw [kept_append more, List.drop_append_of_le_length (kept_length rs younger)] at wrong
      have parts : s.live = (older ++ rs :: kept rs younger) ++
          (younger.drop (kept rs younger).length ++ s.decodeData) := by
        rw [live, List.append_assoc, List.cons_append, ← List.append_assoc (kept rs younger),
          kept_drop rs younger]
      have logged := h.cut parts wrong
      have undone := unwind_wrong (wrong_append.mp wrong).2 s.arch
      rw [next, sound.brerrRecover_front live ctrl]
      refine ⟨?_, ?_⟩
      · simp only [Core.live, tracerRecover, List.append_nil, undone]
        exact logged_marked (mark _) logged
      · simp only [Core.live, tracerRecover, List.append_nil]
        apply saved_marked (mark _)
        intro d hd
        apply h.saved d
        rw [parts]
        exact List.mem_append_left _ hd

theorem Logs.commit {s t : Core} (h : Logs s) (k : s.commit = some t) : Logs t := by
  simp only [Core.commit] at k
  split at k
  · cases k
    exact h
  · rename_i rs roq hr
    have live : s.live = rs :: (roq ++ s.decodeData) := by simp [Core.live, hr]
    split at k
    · cases k
    · split at k
      · cases k
        exact h
      · split at k
        · cases k
          exact ⟨logged_nil _, fun _ hd => absurd hd List.not_mem_nil⟩
        · cases k
          obtain ⟨logged, saved⟩ := h
          rw [live] at logged saved
          exact ⟨logged.tail, fun d hd => saved d (List.mem_cons_of_mem _ hd)⟩

/-- A decoded instruction is a new entry of the log. -/
theorem Logs.decodeInst {cfg : CoreConfig} {p : Prediction} {s t : Core} (h : Logs s)
    (k : decodeInst cfg p s = some t) : Logs t := by
  rcases decodeInst_cases k with rfl | ⟨d, rest, d', fetched, slot, next⟩
  · exact h
  rcases next with ⟨-, rfl⟩ | ⟨x, hx, rfl⟩
  · exact ⟨h.logged, h.saved⟩
  · obtain ⟨a, r, q, saves, core, inst, -, ran⟩ := execute_spec hx
    simp only [atDecode] at core inst
    obtain ⟨f, l, n, c, sr, level, entering, rp, mis, dp, pp, enq, -⟩ := enqueue_spec cfg p x
    have live : (enqueue cfg p x).live = s.live ++ [decoded x mis dp] := by
      rw [enq, core]
      simp [Core.live]
    have arch : (enqueue cfg p x).arch = a := by rw [enq, core]
    have before : (decoded x mis dp).before = s.arch.clearZero := by rw [decoded, inst]
    have here : (decoded x mis dp).specLevel = s.specLevel := by rw [decoded, inst]
    have tempSave : (decoded x mis dp).tempSave = saves := by rw [decoded, inst]
    have undo : (decoded x mis dp).takeBack a = s.arch.clearZero := by
      rcases ran with ⟨right, -, put⟩ | ⟨wrong, same, -⟩
      · rw [takeBack_right (here.trans right), tempSave, before]
        have undone := takeBack_putAll (s.atDecode d' rest).arch.clearZero
          (effect cfg (s.atDecode d' rest) d').writes
        rw [← put] at undone
        exact undone
      · rw [takeBack_wrong (here ▸ wrong), same]
        rfl
    have saved : Saved (decoded x mis dp) := by
      refine ⟨by rw [before, clearZero_clearZero], ?_⟩
      intro right
      rcases ran with ⟨-, -, put⟩ | ⟨wrong, -⟩
      · refine ⟨_, effect_separate cfg (s.atDecode d' rest) d', ?_⟩
        rw [tempSave, before]
        exact congrArg Prod.snd put
      · exact absurd (here.symm.trans right) wrong
    constructor
    · rw [live, arch]
      apply h.logged.push before undo
      · exact fun e he b => takeBack_clearZero (h.saved e he) b
      · exact fun e he => (h.saved e he).1
    · rw [live]
      intro e he
      rcases List.mem_append.mp he with he | he
      · exact h.saved e he
      · rw [List.mem_singleton.mp he]
        exact saved

theorem Logs.act {cfg : CoreConfig} {a : Act} {s t : Core} (h : Logs s) (sound : Sound s)
    (k : act cfg s a = some t) : Logs t := by
  cases a with
  | commit => exact h.commit k
  | checkBrq => cases k; exact h.checkBrq sound
  | writeback i =>
    cases k
    exact h.marked (List.rel_append (marked_modify marked_writeOne _ i) (marked_refl _)) rfl
  | markEx i =>
    cases k
    exact h.marked (List.rel_append (marked_modify marked_raiseEx _ i) (marked_refl _)) rfl
  | mapInst =>
    cases k
    refine h.marked ?_ ?_
    · rw [mapInst_live]
      exact marked_refl _
    · unfold Core.mapInst
      split <;> rfl
  | decode p => exact h.decodeInst k
  | fetch p => cases k; exact ⟨h.logged, h.saved⟩

theorem logs_start (cfg : CoreConfig) (arch : Arch) : Logs (start cfg arch) :=
  ⟨logged_nil arch, fun _ hd => absurd hd List.not_mem_nil⟩

section Spoiled

/-- The cells an instruction has saved. -/
def savedCells (d : InstDescript) : Set Cell :=
  {c | d.specLevel = 0 ∧ covered d.tempSave c = true}

/-- No signalling NaN comes back quiet: where an instruction saved one, an older instruction has
saved the register too. -/
def Unspoiled (l : List InstDescript) : Prop :=
  ∀ p d q, l = p ++ d :: q → d.specLevel = 0 → ∀ save ∈ d.tempSave, ∀ c,
    save.Spoils d.before c → ∃ e ∈ p, c ∈ savedCells e

theorem restores_takeBack (d : InstDescript) :
    Restores Arch.get d.before (savedCells d) d.takeBack := by
  by_cases level : d.specLevel = 0
  · have back := Mips.restores_takeBack d.before d.tempSave
    exact ⟨fun a c hc => takeBack_right level a ▸ back.inside a c hc.2,
      fun a c hc => takeBack_right level a ▸ back.outside a c fun here => hc ⟨level, here⟩⟩
  · exact ⟨fun _ _ hc => absurd hc.1 level, fun a _ _ => by rw [takeBack_wrong level]⟩

theorem restores_recoverData (d : InstDescript) :
    Restores Arch.get (d.recoverData d.before) (savedCells d) d.recoverData := by
  by_cases level : d.specLevel = 0
  · have back := restores_restoreAll d.before d.tempSave
    constructor
    · intro a c hc
      rw [recoverData_right level, recoverData_right level]
      exact back.inside a c hc.2
    · intro a c hc
      rw [recoverData_right level]
      exact back.outside a c fun here => hc ⟨level, here⟩
  · exact ⟨fun _ _ hc => absurd hc.1 level, fun a _ _ => by rw [recoverData_wrong level]⟩

theorem recoverData_cell_iff {d : InstDescript} (saved : Saved d) {c : Cell}
    (hc : c ∈ savedCells d) : (d.recoverData d.before).get c = d.before.get c ↔
      ∀ save ∈ d.tempSave, ¬ save.Spoils d.before c := by
  obtain ⟨level, here⟩ := hc
  obtain ⟨ws, sep, saves⟩ := saved.2 level
  rw [recoverData_right level]
  rw [saves] at here ⊢
  exact restoreAll_putAll_iff sep (fun _ _ _ _ => rfl) here d.before

/-- `recover_data` takes the instructions of a log back exactly unless it spoils a signalling
NaN. -/
theorem unwind_recoverData_iff {l : List InstDescript} (saved : ∀ d ∈ l, Saved d) (a : Arch) :
    unwind InstDescript.recoverData l a = unwind InstDescript.takeBack l a ↔ Unspoiled l := by
  have cells := unwind_agree_iff l (fun d _ => restores_recoverData d)
    (fun d _ => restores_takeBack d) a
  have all : unwind InstDescript.recoverData l a = unwind InstDescript.takeBack l a ↔
      ∀ c, (unwind InstDescript.recoverData l a).get c =
        (unwind InstDescript.takeBack l a).get c :=
    ⟨fun same c => congrArg (fun b => Arch.get b c) same, Arch.ext_get _ _⟩
  rw [all]
  constructor
  · intro same p d q split level save hs c spoils
    by_contra apart
    have here : c ∈ savedCells d := ⟨level, List.any_eq_true.mpr ⟨save, hs, spoils.covers⟩⟩
    have kept := (cells c).mp (same c) p d q split here fun e he hc => apart ⟨e, he, hc⟩
    have own := saved d (split ▸ List.mem_append_right p List.mem_cons_self)
    exact (recoverData_cell_iff own here).mp kept save hs spoils
  · intro quiet c
    rw [cells c]
    intro p d q split here apart
    have own := saved d (split ▸ List.mem_append_right p List.mem_cons_self)
    rw [recoverData_cell_iff own here]
    intro save hs spoils
    obtain ⟨e, he, hc⟩ := quiet p d q split here.1 save hs c spoils
    exact apart e he hc

/-- Whatever is spoiled is a floating-point register. -/
theorem unwind_recoverData_rest {l : List InstDescript} (saved : ∀ d ∈ l, Saved d) (a : Arch)
    {c : Cell} (other : ∀ n, c ≠ .fpr n) :
    (unwind InstDescript.recoverData l a).get c = (unwind InstDescript.takeBack l a).get c := by
  rw [unwind_agree_iff l (fun d _ => restores_recoverData d) (fun d _ => restores_takeBack d)]
  intro p d q split here _
  have own := saved d (split ▸ List.mem_append_right p List.mem_cons_self)
  rw [recoverData_cell_iff own here]
  intro save _ spoils
  cases save with
  | sfloat n f => exact other _ spoils.1
  | dfloat n d => exact other _ spoils.1
  | _ => cases spoils

/-- A flush undoes all that is in flight. -/
theorem pipelineFlush_arch (s : Core) (rs : InstDescript) :
    (s.pipelineFlush rs).arch = unwind InstDescript.recoverData s.live s.arch := by
  rw [Core.live, unwind_append]
  rfl

end Spoiled

section Precise

variable {cfg : CoreConfig} {arch : Arch} {acts : List Act} {s t : Core}

theorem exists_marked {l l' : List InstDescript} (h : List.Forall₂ Marked l l')
    {d' : InstDescript} (hd : d' ∈ l') : ∃ d ∈ l, Marked d d' := by
  induction h with
  | nil => cases hd
  | @cons d e _ _ first _ ih =>
    rcases List.mem_cons.mp hd with rfl | hd
    · exact ⟨d, List.mem_cons_self, first⟩
    · obtain ⟨b, hb, marked⟩ := ih hd
      exact ⟨b, List.mem_cons_of_mem _ hb, marked⟩

/-- Decode adds one instruction at most, which remembers the state it found. -/
theorem decodeInst_live {p : Prediction} (h : decodeInst cfg p s = some t) :
    t.live = s.live ∨ ∃ d, t.live = s.live ++ [d] ∧ d.before = s.arch.clearZero := by
  rcases decodeInst_cases h with rfl | ⟨b, rest, b', fetched, slot, next⟩
  · exact .inl rfl
  rcases next with ⟨-, rfl⟩ | ⟨x, hx, rfl⟩
  · exact .inl rfl
  · obtain ⟨a, r, q, saves, core, inst, -, -⟩ := execute_spec hx
    obtain ⟨f, l, n, c, sr, level, entering, rp, mis, dp, pp, enq, -⟩ := enqueue_spec cfg p x
    refine .inr ⟨decoded x mis dp, ?_, ?_⟩
    · rw [enq, core]
      simp [Core.live, atDecode]
    · rw [decoded, inst]
      rfl

/-- One step marks instructions in flight, drops some of them, or decodes one more. -/
theorem live_act {a : Act} (sound : Sound s) (h : act cfg s a = some t) {d : InstDescript}
    (hd : d ∈ t.live) : (∃ e ∈ s.live, Marked e d) ∨
      ∃ p, a = .decode p ∧ t.live = s.live ++ [d] ∧ d.before = s.arch.clearZero := by
  have part : ∀ l, List.Forall₂ Marked l t.live → (∀ e ∈ l, e ∈ s.live) →
      ∃ e ∈ s.live, Marked e d := by
    intro l marked sub
    obtain ⟨e, he, k⟩ := exists_marked marked hd
    exact ⟨e, sub e he, k⟩
  cases a with
  | commit =>
    left
    apply part t.live (marked_refl _)
    intro e he
    simp only [act, Core.commit] at h
    grind [Core.live, pipelineFlush, tracerRecover]
  | checkBrq =>
    left
    cases h
    rcases checkBrq_cases s with same | ⟨older, rs, younger, roq, ctrl, -, resolved⟩
    · rw [same] at hd
      exact ⟨d, hd, .refl d⟩
    · have live : s.live = older ++ rs :: (younger ++ s.decodeData) := by simp [Core.live, roq]
      have mark : ∀ q, List.Forall₂ Marked (older ++ rs :: q) (older ++ resolve rs :: q) :=
        fun q => List.rel_append (marked_refl older) (.cons (marked_resolve rs) (marked_refl q))
      rcases resolved with ⟨-, next⟩ | ⟨-, -, next⟩
      · apply part (older ++ rs :: (younger ++ s.decodeData))
        · simp only [next, Core.live, List.append_assoc, List.cons_append]
          exact mark _
        · exact fun e he => live ▸ he
      · apply part (older ++ rs :: kept rs younger)
        · rw [next, sound.brerrRecover_front live ctrl]
          simp only [Core.live, tracerRecover, List.append_nil]
          exact mark _
        · intro e he
          rw [live, ← kept_drop rs younger]
          grind
  | writeback i =>
    cases h
    exact .inl (part s.live
      (List.rel_append (marked_modify marked_writeOne _ i) (marked_refl _)) fun _ he => he)
  | markEx i =>
    cases h
    exact .inl (part s.live
      (List.rel_append (marked_modify marked_raiseEx _ i) (marked_refl _)) fun _ he => he)
  | mapInst =>
    cases h
    rw [mapInst_live] at hd
    exact .inl ⟨d, hd, .refl d⟩
  | decode p =>
    rcases decodeInst_live h with same | ⟨e, live, before⟩
    · exact .inl ⟨d, same ▸ hd, .refl d⟩
    · rcases List.mem_append.mp (live ▸ hd) with old | new
      · exact .inl ⟨d, old, .refl d⟩
      · obtain rfl := List.mem_singleton.mp new
        exact .inr ⟨p, rfl, live, before⟩
  | fetch p =>
    cases h
    exact .inl ⟨d, hd, .refl d⟩

/-- One of the decode steps of a run executed this instruction, in the state `before`. -/
def DecodedIn (cfg : CoreConfig) (arch : Arch) (acts : List Act) (d : InstDescript)
    (before : Arch) : Prop :=
  ∃ acts₀ p acts₁ s₀ s₁ d₀, acts = acts₀ ++ .decode p :: acts₁ ∧ run cfg arch acts₀ = some s₀ ∧
    s₀.decodeInst cfg p = some s₁ ∧ s₁.live = s₀.live ++ [d₀] ∧ Marked d₀ d ∧
    before = s₀.arch.clearZero

theorem run_snoc {a : Act} (h : run cfg arch (acts ++ [a]) = some t) :
    ∃ s, run cfg arch acts = some s ∧ act cfg s a = some t := by
  simpa [run, List.foldlM_append, Option.bind_eq_some_iff] using h

theorem sound_run (h : run cfg arch acts = some s) : Sound s :=
  run_invariant (sound_start cfg arch) (fun _ _ _ k => k.act) h

theorem logs_run (h : run cfg arch acts = some s) : Logs s := by
  refine (run_invariant (P := fun s => Sound s ∧ Logs s) ?_ ?_ h).2
  · exact ⟨sound_start cfg arch, logs_start cfg arch⟩
  · exact fun _ _ _ ⟨sound, logs⟩ k => ⟨sound.act k, logs.act sound k⟩

theorem slots_run (h : run cfg arch acts = some s) : Slots cfg s := by
  refine (run_invariant (P := fun s => Sound s ∧ Slots cfg s) ?_ ?_ h).2
  · exact ⟨sound_start cfg arch, slots_start cfg arch⟩
  · exact fun _ _ _ ⟨sound, slots⟩ k => ⟨sound.act k, slots.act sound k⟩

/-- Every instruction in flight remembers the state in which it was decoded. -/
theorem live_decodedIn (h : run cfg arch acts = some s) {d : InstDescript} (hd : d ∈ s.live) :
    DecodedIn cfg arch acts d d.before := by
  induction acts using List.reverseRecOn generalizing s d with
  | nil =>
    cases h
    exact absurd hd List.not_mem_nil
  | append_singleton acts a ih =>
    obtain ⟨s₀, before, step⟩ := run_snoc h
    rcases live_act (sound_run before) step hd with ⟨e, he, marked⟩ | ⟨p, rfl, live, state⟩
    · obtain ⟨acts₀, p, acts₁, s₁, s₂, d₀, split, ran, dec, live, first, state⟩ := ih before he
      refine ⟨acts₀, p, acts₁ ++ [a], s₁, s₂, d₀, by simp [split], ran, dec, live,
        first.trans marked, ?_⟩
      obtain ⟨⟨_, _, _, _, rfl⟩, -⟩ := marked
      exact state
    · exact ⟨acts, p, [], s₀, s, d, rfl, before, step, live, .refl d, state⟩

theorem DecodedIn.before_eq {d : InstDescript} {b : Arch} (h : DecodedIn cfg arch acts d b) :
    d.before = b := by
  obtain ⟨acts₀, p, acts₁, s₀, s₁, d₀, -, ran, dec, live, marked, rfl⟩ := h
  obtain ⟨⟨_, _, _, _, rfl⟩, -⟩ := marked
  rcases decodeInst_live dec with same | ⟨e, more, before⟩
  · simp [live] at same
  · rw [live] at more
    obtain ⟨rfl⟩ := List.append_cancel_left more
    exact before

/-- Committing a load that was marked for exception flushes the pipeline: no speculation is
left, fetch starts again at it, or at its branch, and memory and all registers but those of the
floating-point file go back to what they were when it was decoded. These do so too if and only
if no signalling NaN is spoiled. -/
theorem flush_precise {rs : InstDescript} {roq : List InstDescript}
    (h : run cfg arch acts = some s) (head : s.roq = rs :: roq) (valid : rs.trap = false)
    (completed : rs.completed = true) (mem : rs.op.has .mem = true) (ex : rs.ex = true) :
    ∃ t b, s.commit = some t ∧ DecodedIn cfg arch acts rs b ∧
      (t.arch = b ↔ Unspoiled s.live) ∧ (∀ c, (∀ n, c ≠ .fpr n) → t.arch.get c = b.get c) ∧
      t.specLevel = 0 ∧ t.storeHtable = [] ∧
      t.fetchRegPC = (if rs.bd then rs.pc - 4 else rs.pc) ∧
      (rs.bd = true →
        ∃ b, s.retired.getLast? = some b ∧ b.ctrl = true ∧ b.pc = rs.pc - 4) := by
  have live : s.live = rs :: (roq ++ s.decodeData) := by simp [Core.live, head]
  obtain ⟨logged, saved⟩ := logs_run h
  have before : unwind InstDescript.takeBack s.live s.arch = rs.before := by
    rw [live] at logged ⊢
    exact logged.head
  refine ⟨s.pipelineFlush rs, rs.before, ?_, ?_, ?_, ?_, rfl, ?_, rfl, ?_⟩
  · simp [Core.commit, head, valid, completed, mem, ex]
  · exact live_decodedIn h (by simp [live])
  · rw [pipelineFlush_arch, ← before]
    exact unwind_recoverData_iff saved s.arch
  · intro c other
    rw [pipelineFlush_arch, ← before]
    exact unwind_recoverData_rest saved s.arch other
  · simp [pipelineFlush, tracerRecover]
  · intro bd
    have slots := slots_run h
    have first := slots.first
    have adjacent := slots.adjacent
    rw [line, live] at first adjacent
    cases hl : s.retired.getLast? with
    | none =>
      rw [List.getLast?_eq_none_iff] at hl
      have off := first rs (by simp [hl])
      exact absurd (off.symm.trans bd) (by decide)
    | some b =>
      obtain ⟨ctrl, pc⟩ := (List.isChain_append.mp adjacent).2.2 b hl rs rfl bd
      refine ⟨b, rfl, ctrl, ?_⟩
      rw [pc, BitVec.add_sub_cancel]

section Example

def smallConfig : CoreConfig where
  fpu := noFpu
  ldTextBase := 0x400000
  ldTextSize := 0x1000
  ldDataBase := 0x10000000
  ldStackBase := 0x7fffc000
  ldProgEntry := 0x400000

/-- A jump to itself with a load of register 2 in its delay slot. -/
def loadInSlot : Arch where
  mem := writeMem (writeMem (fun _ => 1) .word 0x400000 0x08100000) .word 0x400004 0x8c020000

/-- The jump commits; then the load is marked for exception. -/
def flushRun : List Act :=
  [.fetch {}, .fetch {}, .decode {}, .decode {}, .mapInst, .mapInst, .writeback 0, .checkBrq,
    .commit, .writeback 0, .markEx 0]

theorem flush_precise_slot : ∃ s rs t, run smallConfig loadInSlot flushRun = some s ∧
    s.roq = [rs] ∧ s.commit = some t ∧ t.fetchRegPC = 0x400000 ∧
    DecodedIn smallConfig loadInSlot flushRun rs t.arch := by
  have head : (run smallConfig loadInSlot flushRun).map (fun s => s.roq.map fun d =>
      ((d.op, d.pc, d.bd), d.trap, d.completed, d.ex)) =
        some [((.lw, 0x400004, true), false, true, true)] := by decide
  have log : (run smallConfig loadInSlot flushRun).map (fun s => s.live.map fun d => d.tempSave) =
      some [[.fix 2 0]] := by decide
  obtain ⟨s, ran, roq⟩ := Option.map_eq_some_iff.mp head
  obtain ⟨rs, roq, fields⟩ := List.map_eq_singleton_iff.mp roq
  simp only [Prod.mk.injEq] at fields
  obtain ⟨⟨op, pc, bd⟩, valid, completed, ex⟩ := fields
  have mem : rs.op.has .mem = true := by rw [op]; decide
  have quiet : Unspoiled s.live := by
    rw [ran] at log
    obtain ⟨d, live, saves⟩ := List.map_eq_singleton_iff.mp (Option.some.inj log)
    rw [live]
    intro p e q split _ save hs c spoils
    have same : e ∈ [d] := by rw [split]; simp
    rw [List.mem_singleton.mp same, saves] at hs
    obtain rfl := List.mem_singleton.mp hs
    cases spoils
  obtain ⟨t, b, commit, decoded, exact, -, -, -, fetch, -⟩ :=
    flush_precise ran roq valid completed mem ex
  rw [bd, pc] at fetch
  exact ⟨s, rs, t, ran, roq, commit, fetch, exact.mpr quiet ▸ decoded⟩

/-- A signalling NaN is loaded to register 0 of the floating-point file, and a move behind a
load overwrites it. -/
def nanProgram : Arch where
  mem := writeMem (writeMem (writeMem (writeMem (writeMem (fun _ => 0)
    .word 0x400000 0x3c011000) .word 0x400004 0xc4200000) .word 0x400008 0x8c220000)
    .word 0x40000c 0x44800000) .word 0x10000000 0x7f800001

/-- The load of the NaN commits; then the load behind it is marked for exception. -/
def nanRun : List Act :=
  [.fetch {}, .fetch {}, .fetch {}, .fetch {}, .decode {}, .decode {}, .decode {}, .decode {},
    .mapInst, .mapInst, .mapInst, .mapInst, .writeback 0, .commit, .writeback 0, .commit,
    .writeback 0, .markEx 0]

/-- The flush leaves a quiet NaN. -/
theorem flush_quiets : ∃ s rs t b, run smallConfig nanProgram nanRun = some s ∧
    s.roq.head? = some rs ∧ rs.op = .lw ∧ rs.trap = false ∧ rs.completed = true ∧ rs.ex = true ∧
    s.commit = some t ∧ DecodedIn smallConfig nanProgram nanRun rs b ∧
    b.regs.regsF 0 = 0x7f800001 ∧ t.arch.regs.regsF 0 = 0x7fc00001 := by
  have first : (run smallConfig nanProgram nanRun).map (fun s => s.roq.head?.map fun d =>
      (d.op, d.trap, d.completed, d.ex)) = some (some (.lw, false, true, true)) := by decide
  have values : (run smallConfig nanProgram nanRun).map (fun s =>
      (s.roq.head?.map fun d => d.before.regs.regsF 0,
        s.commit.map fun t => t.arch.regs.regsF 0)) =
      some (some 0x7f800001, some 0x7fc00001) := by decide
  obtain ⟨s, ran, head⟩ := Option.map_eq_some_iff.mp first
  obtain ⟨rs, head, fields⟩ := Option.map_eq_some_iff.mp head
  simp only [Prod.mk.injEq] at fields
  obtain ⟨op, valid, completed, ex⟩ := fields
  rw [ran] at values
  obtain ⟨before, after⟩ := Prod.mk.inj (Option.some.inj values)
  rw [head] at before
  obtain ⟨t, commit, after⟩ := Option.map_eq_some_iff.mp after
  have here : rs ∈ s.live := List.mem_append_left _ (List.mem_of_head? head)
  exact ⟨s, rs, t, rs.before, ran, head, op, valid, completed, ex, commit,
    live_decodedIn ran here, Option.some.inj before, after⟩

end Example

end Precise

end Godson.Core

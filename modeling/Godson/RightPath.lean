import Godson.Flush

/-! No instruction of a wrong path commits. As long as the core speculates there is an
unresolved branch on the right path in flight; it cannot commit, so nothing behind it can. -/
namespace Godson.Core

open Mips

/-- A branch of the right path that waits for its resolution. -/
def Opener (b : InstDescript) : Prop := unresolved b = true ∧ b.specLevel = 0

structure Opened (s : Core) : Prop where
  opener : s.specLevel ≠ 0 ∨ s.enteringSpec = true → ∃ b ∈ s.live, Opener b
  retired : ∀ d ∈ s.retired, d.specLevel = 0

variable {cfg : CoreConfig} {s t : Core}

theorem Opener.incomplete {b : InstDescript} (h : Opener b) : b.completed = false := by
  have isOpen := h.1
  simp only [unresolved, Bool.and_eq_true, Bool.not_eq_true'] at isOpen
  exact isOpen.2

theorem Opener.mispredicted {b : InstDescript} (h : Opener b) : b.misPredict = true := by
  have isOpen := h.1
  simp only [unresolved, Bool.and_eq_true] at isOpen
  exact isOpen.1

/-- Everything behind an instruction of a wrong path is on a wrong path. -/
theorem Levels.deep {slot : Prop} {level : Nat} {entering : Bool} {b : InstDescript}
    {p q : List InstDescript} (h : Levels slot level entering (p ++ b :: q))
    (hb : b.specLevel ≠ 0) : level ≠ 0 ∧ Wrong q := by
  induction p with
  | nil => exact h.1 hb
  | cons a p ih => exact ih h.tail

theorem mem_modify {f : InstDescript → InstDescript} {l : List InstDescript} {b : InstDescript}
    (h : b ∈ l) (i : Nat) : b ∈ l.modify i f ∨ f b ∈ l.modify i f := by
  induction l generalizing i with
  | nil => cases h
  | cons d l ih =>
    cases i with
    | zero =>
      rcases List.mem_cons.mp h with rfl | h
      · exact .inr List.mem_cons_self
      · exact .inl (List.mem_cons_of_mem _ h)
    | succ i =>
      rcases List.mem_cons.mp h with rfl | h
      · exact .inl List.mem_cons_self
      · rcases ih h i with now | now
        · exact .inl (List.mem_cons_of_mem _ now)
        · exact .inr (List.mem_cons_of_mem _ now)

/-- Writing back does not resolve a branch. -/
theorem Opener.writeOne {b : InstDescript} (h : Opener b) (ctrl : b.ctrl = true) :
    Opener (writeOne b) := by
  unfold Core.writeOne
  split
  · exact h
  · simp only [finish, ctrl, if_true]
    exact h

theorem Opened.modify (h : Opened s) {f : InstDescript → InstDescript} (i : Nat)
    (keeps : ∀ b ∈ s.live, Opener b → Opener (f b)) :
    Opened { s with roq := s.roq.modify i f } := by
  refine ⟨?_, h.retired⟩
  intro deep
  obtain ⟨b, hb, opener⟩ := h.opener deep
  have opener' := keeps b hb opener
  rcases List.mem_append.mp hb with hb | hb
  · rcases mem_modify hb i with now | now
    · exact ⟨b, List.mem_append_left _ now, opener⟩
    · exact ⟨f b, List.mem_append_left _ now, opener'⟩
  · exact ⟨b, List.mem_append_right _ hb, opener⟩

/-- A completed head of the reorder queue is on the right path. -/
theorem Opened.head_right (h : Opened s) (sound : Sound s) {rs : InstDescript}
    {roq : List InstDescript} (head : s.roq = rs :: roq) (completed : rs.completed = true) :
    rs.specLevel = 0 := by
  have live : s.live = [] ++ rs :: (roq ++ s.decodeData) := by simp [Core.live, head]
  by_contra wrong
  have levels := sound.levels
  rw [live] at levels
  obtain ⟨deep, behind⟩ := levels.deep wrong
  obtain ⟨b, hb, opener⟩ := h.opener (.inl deep)
  rw [live, List.nil_append] at hb
  rcases List.mem_cons.mp hb with rfl | hb
  · exact wrong opener.2
  · exact behind b hb opener.2

theorem Opened.commit (h : Opened s) (sound : Sound s) (k : s.commit = some t) : Opened t := by
  simp only [Core.commit] at k
  split at k
  · cases k
    exact h
  · rename_i rs roq hr
    split at k
    · cases k
    · split at k
      · cases k
        exact h
      · rename_i done
        have completed : rs.completed = true := by simpa using done
        split at k
        · cases k
          refine ⟨?_, h.retired⟩
          rintro (deep | entering)
          · exact absurd rfl deep
          · cases entering
        · cases k
          refine ⟨?_, ?_⟩
          · intro deep
            obtain ⟨b, hb, opener⟩ := h.opener deep
            simp only [Core.live, hr, List.cons_append] at hb
            rcases List.mem_cons.mp hb with rfl | hb
            · exact absurd (opener.incomplete.symm.trans completed) (by decide)
            · exact ⟨b, hb, opener⟩
          · intro d hd
            rcases List.mem_append.mp hd with hd | hd
            · exact h.retired d hd
            · rw [List.mem_singleton.mp hd]
              exact h.head_right sound hr completed

theorem Opened.checkBrq (h : Opened s) (sound : Sound s) : Opened s.checkBrq := by
  rcases checkBrq_cases s with same | ⟨older, rs, younger, roq, ctrl, ready, resolved⟩
  · rw [same]
    exact h
  · have live : s.live = older ++ rs :: (younger ++ s.decodeData) := by simp [Core.live, roq]
    rcases resolved with ⟨right, next⟩ | ⟨mis, more, next⟩
    · rw [next]
      refine ⟨?_, h.retired⟩
      intro deep
      obtain ⟨b, hb, opener⟩ := h.opener deep
      refine ⟨b, ?_, opener⟩
      have other : b ≠ rs := by
        rintro rfl
        exact absurd (right.symm.trans opener.mispredicted) (by decide)
      rw [live] at hb
      simp only [List.mem_append, List.mem_cons, Core.live] at hb ⊢
      tauto
    · rw [next, sound.brerrRecover_front live ctrl]
      refine ⟨?_, h.retired⟩
      rintro (deep | entering)
      · have levels := sound.levels
        rw [live] at levels
        obtain ⟨deeper, wrong⟩ := levels.deep deep
        obtain ⟨b, hb, opener⟩ := h.opener (.inl deeper)
        refine ⟨b, ?_, opener⟩
        rw [live] at hb
        rcases List.mem_append.mp hb with hb | hb
        · exact List.mem_append_left _ (List.mem_append_left _ hb)
        · rcases List.mem_cons.mp hb with rfl | hb
          · exact absurd opener.2 deep
          · exact absurd opener.2 (wrong b hb)
      · cases entering

theorem Opened.decodeInst {p : Prediction} (h : Opened s) (sound : Sound s)
    (k : decodeInst cfg p s = some t) : Opened t := by
  rcases decodeInst_cases k with rfl | ⟨d, rest, d', fetched, slot, next⟩
  · exact h
  rcases next with ⟨-, rfl⟩ | ⟨x, hx, rfl⟩
  · exact ⟨h.opener, h.retired⟩
  · obtain ⟨a, r, q, saves, core, inst, -, -⟩ := execute_spec hx
    obtain ⟨f, l, n, c, sr, level, entering, rp, mis, dp, pp, enq, -, deepens⟩ :=
      enqueue_spec cfg p x
    have fresh := fresh_slot slot (sound.fresh d (by simp [fetched]))
    have live : (enqueue cfg p x).live = s.live ++ [decoded x mis dp] := by
      rw [enq, core]
      simp [Core.live, atDecode]
    have level₀ : x.core.specLevel = s.specLevel := by rw [core]; rfl
    have entering₀ : x.core.enteringSpec = s.enteringSpec := by rw [core]; rfl
    have deep' : (enqueue cfg p x).specLevel = level := by rw [enq]
    have entering' : (enqueue cfg p x).enteringSpec = entering := by rw [enq]
    refine ⟨?_, ?_⟩
    · rw [live, deep', entering']
      intro deep
      by_cases was : s.specLevel ≠ 0 ∨ s.enteringSpec = true
      · obtain ⟨b, hb, opener⟩ := h.opener was
        exact ⟨b, List.mem_append_left _ hb, opener⟩
      · simp only [not_or, not_not, Bool.not_eq_true] at was
        refine ⟨decoded x mis dp, by simp, ?_⟩
        rcases deepens with ⟨enter, -⟩ | ⟨-, -, -, rfl, -⟩ | ⟨-, -, -, same, off⟩
        · exact absurd ((entering₀.trans was.2).symm.trans enter) (by decide)
        · have incomplete := fresh.2.1
          refine ⟨?_, ?_⟩
          · rw [unresolved, decoded, inst]
            simp [incomplete]
          · rw [decoded, inst]
            exact was.1
        · rcases deep with deep | deep
          · exact absurd (same.trans (level₀.trans was.1)) deep
          · exact absurd (off.symm.trans deep) (by decide)
    · rw [show (enqueue cfg p x).retired = s.retired by rw [enq, core]; rfl]
      exact h.retired

theorem Opened.act {a : Act} (h : Opened s) (sound : Sound s) (k : act cfg s a = some t) :
    Opened t := by
  cases a with
  | commit => exact h.commit sound k
  | checkBrq => cases k; exact h.checkBrq sound
  | writeback i =>
    cases k
    apply h.modify i
    intro b hb opener
    obtain ⟨p, q, split⟩ := List.append_of_mem hb
    have levels := sound.levels
    rw [split] at levels
    exact opener.writeOne (levels.ctrl opener.mispredicted)
  | markEx i =>
    cases k
    exact h.modify i fun _ _ opener => opener
  | mapInst =>
    cases k
    unfold Core.mapInst
    split
    · exact h
    · rename_i d rest hd
      refine ⟨?_, h.retired⟩
      intro deep
      obtain ⟨b, hb, opener⟩ := h.opener deep
      exact ⟨b, by simpa [Core.live, hd] using hb, opener⟩
  | decode p => exact h.decodeInst sound k
  | fetch p => cases k; exact ⟨h.opener, h.retired⟩

theorem opened_start (cfg : CoreConfig) (arch : Arch) : Opened (start cfg arch) := by
  constructor
  · intro wrong
    rcases wrong with deep | entering
    · exact absurd rfl deep
    · cases entering
  · intro d hd
    exact absurd hd List.not_mem_nil

end Godson.Core

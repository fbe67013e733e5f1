import Godson.Quiet
import Godson.Service

/-! Which entry of the writeback queue `cache2mem` tries to issue. The scan was to start at
a position that moves on every cycle. -/
namespace Godson

variable {cfg : Config} {c : Cpu}

/-- The scan for an entry to issue, with `n` rounds left: `i` is stepped, but entry `j` is
tested. -/
def wtbkqScan (cfg : Config) (c : Cpu) : Nat → Nat → Nat → Option Nat → Option Nat
  | 0, _, _, dirtyi => dirtyi
  | n + 1, i, j, dirtyi =>
    wtbkqScan cfg c n (nextIndex cfg.wtbkqIfqSize i) (j + 1)
      (if dirtyi = none ∧ (c.wtbkq j).valid = true then some j else dirtyi)

/-- `wtbkq_dirtyi` -/
def wtbkqDirtyi (cfg : Config) (c : Cpu) : Option Nat :=
  wtbkqScan cfg c cfg.wtbkqIfqSize c.wtbkqLasti 0 none

theorem wtbkqScan_some (n i j d : Nat) : wtbkqScan cfg c n i j (some d) = some d := by
  induction n generalizing i j with
  | zero => rfl
  | succ n ih =>
    rw [wtbkqScan, if_neg (by simp), ih]

theorem wtbkqScan_none (n i j : Nat) :
    wtbkqScan cfg c n i j none = (List.range' j n).find? fun j => (c.wtbkq j).valid := by
  induction n generalizing i j with
  | zero => rfl
  | succ n ih =>
    rw [wtbkqScan, List.range'_succ, List.find?_cons]
    by_cases valid : (c.wtbkq j).valid = true
    · rw [if_pos ⟨rfl, valid⟩, wtbkqScan_some]
      simp only [valid]
    · rw [if_neg (fun h => valid h.2), ih]
      simp only [valid]

theorem wtbkqDirtyi_eq :
    wtbkqDirtyi cfg c = (List.range cfg.wtbkqIfqSize).find? fun j => (c.wtbkq j).valid := by
  rw [wtbkqDirtyi, wtbkqScan_none, List.range_eq_range']

section Section

variable {k : Nat} {s s' : Sys}

/-- The start of the scan, and one entry. -/
def Cpu.wtbkPart (j : Nat) (c : Cpu) : Nat × WtbkEntry := (c.wtbkqLasti, c.wtbkq j)

theorem wtbkPart_missqChangeState (j : Nat) (c : Cpu) (q : Nat) (next : MissState) :
    (missqChangeState c q next).wtbkPart j = c.wtbkPart j := by
  unfold missqChangeState
  dsimp only
  split <;> split <;> rfl

theorem wtbkPart_scacheWriteback {j cpuid paddr : Nat} {req : Req} {inst : Bool} {c c' : Cpu}
    (h : scacheWriteback cfg cpuid req paddr inst c = some c') :
    c'.wtbkPart j = c.wtbkPart j := by
  simp only [scacheWriteback] at h
  split at h
  · cases h
    rfl
  · cases h

theorem keeps_releaseWtbk {i j : Nat} (other : j ≠ i) :
    Sys.Keeps (Cpu.wtbkPart j) s (releaseWtbk k i s) := by
  apply Sys.Keeps.andQueue
  apply Sys.Keeps.modCpu
  simp only [Cpu.wtbkPart, Cpu.modWtbkq, Function.update_of_ne other]

theorem keeps_wtbkDeliver {i j q : Nat} (other : j ≠ i) (h : wtbkDeliver cfg k i q s = some s') :
    Sys.Keeps (Cpu.wtbkPart j) s s' := by
  simp only [wtbkDeliver] at h
  split_ifs at h
  · cases h
    exact .refl s
  · obtain ⟨c, written, rfl⟩ := Option.map_eq_some_iff.mp h
    exact (Sys.Keeps.modCpu ((wtbkPart_scacheWriteback written).trans rfl)).trans
      (keeps_releaseWtbk other)
  · obtain ⟨c, written, rfl⟩ := Option.map_eq_some_iff.mp h
    exact (Sys.Keeps.modCpu (wtbkPart_scacheWriteback written)).trans (keeps_releaseWtbk other)
  · obtain ⟨e, -, rfl⟩ := Option.map_eq_some_iff.mp h
    exact (Sys.Keeps.modCpu rfl).trans (keeps_releaseWtbk other)
  · cases h
    exact (Sys.Keeps.modCpu rfl).trans (keeps_releaseWtbk other)

theorem keeps_wtbkLocal {i j : Nat} {loc loc' : Locals} (other : j ≠ i)
    (h : wtbkLocal cfg k i loc s = some (s', loc')) : Sys.Keeps (Cpu.wtbkPart j) s s' := by
  simp only [wtbkLocal] at h
  split_ifs at h
  · cases h
    exact .refl s
  · cases h
    exact (keeps_releaseWtbk other).andQueue _ _
  · obtain ⟨t, delivered, rest⟩ := Option.map_eq_some_iff.mp h
    cases rest
    exact .foldlM (fun _ _ _ one => keeps_wtbkDeliver other one) delivered

theorem keeps_wtbkExternal {i j : Nat} (other : j ≠ i) (h : wtbkExternal cfg k i s = some s') :
    Sys.Keeps (Cpu.wtbkPart j) s s' := by
  simp only [wtbkExternal] at h
  split at h
  · cases h
  · cases h
    refine Sys.Keeps.trans (.modCpu (foldl_keeps (fun c q => ?_) _ _)) (keeps_releaseWtbk other)
    exact wtbkPart_missqChangeState j _ q .extrdy

/-- The section of the writeback queue moves the start of the scan by one, and changes no
other entry than the one that was selected. -/
theorem wtbk_step {room : Bool} {loc loc' : Locals} (h : wtbk cfg k room loc s = some (s', loc'))
    {j : Nat} (other : wtbkqDirtyi cfg (s.cpus k) ≠ some j) :
    (s'.cpus k).wtbkqLasti = nextIndex cfg.wtbkqIfqSize (s.cpus k).wtbkqLasti ∧
      (s'.cpus k).wtbkq j = (s.cpus k).wtbkq j := by
  let u := s.modCpu k fun c => { c with wtbkqLasti := nextIndex cfg.wtbkqIfqSize c.wtbkqLasti }
  have moved : (u.cpus k).wtbkPart j =
      (nextIndex cfg.wtbkqIfqSize (s.cpus k).wtbkqLasti, (s.cpus k).wtbkq j) := by
    simp only [u, Sys.modCpu, Function.update_self, Cpu.wtbkPart]
  have kept : Sys.Keeps (Cpu.wtbkPart j) u s' := by
    simp only [wtbk, ← wtbkqDirtyi_eq] at h
    split at h
    · cases h
      exact .refl u
    · rename_i i selected
      have ne : j ≠ i := by
        rintro rfl
        exact other selected
      split_ifs at h
      · exact keeps_wtbkLocal ne h
      · obtain ⟨t, answered, rest⟩ := Option.map_eq_some_iff.mp h
        cases rest
        exact keeps_wtbkExternal ne answered
      · cases h
        exact (Sys.Keeps.net _ _).trans (keeps_releaseWtbk ne)
      · cases h
        exact .refl u
  have same := (kept.eq k).trans moved
  exact ⟨congrArg Prod.fst same, congrArg Prod.snd same⟩

end Section

/-- The entry that a scan from the rotating start would select. -/
def firstFrom (cfg : Config) (c : Cpu) : Option Nat :=
  Ring.scanFrom cfg.wtbkqIfqSize c.wtbkqLasti fun i => (c.wtbkq i).valid

/-- No entry in front of the start is valid, or none from the start on. -/
def OneSided (cfg : Config) (c : Cpu) : Prop :=
  (∀ i < c.wtbkqLasti % cfg.wtbkqIfqSize, (c.wtbkq i).valid = false) ∨
    ∀ i < cfg.wtbkqIfqSize, c.wtbkqLasti % cfg.wtbkqIfqSize ≤ i → (c.wtbkq i).valid = false

theorem wtbkqDirtyi_eq_firstFrom : wtbkqDirtyi cfg c = firstFrom cfg c ↔ OneSided cfg c := by
  have low : c.wtbkqLasti % cfg.wtbkqIfqSize < cfg.wtbkqIfqSize := Nat.mod_lt _ cfg.wtbkq_pos
  have whole : List.range cfg.wtbkqIfqSize = List.range (c.wtbkqLasti % cfg.wtbkqIfqSize) ++
      List.range' (c.wtbkqLasti % cfg.wtbkqIfqSize)
        (cfg.wtbkqIfqSize - c.wtbkqLasti % cfg.wtbkqIfqSize) := by
    have joined := @List.range'_append_1 0 (c.wtbkqLasti % cfg.wtbkqIfqSize)
      (cfg.wtbkqIfqSize - c.wtbkqLasti % cfg.wtbkqIfqSize)
    rw [Nat.zero_add, Nat.add_sub_cancel' low.le] at joined
    rw [List.range_eq_range', List.range_eq_range', joined]
  rw [wtbkqDirtyi_eq, firstFrom, Ring.scanFrom_split cfg.wtbkq_pos, whole, List.find?_append]
  have front : ((List.range (c.wtbkqLasti % cfg.wtbkqIfqSize)).find? fun i =>
      (c.wtbkq i).valid) = none ↔
      ∀ i < c.wtbkqLasti % cfg.wtbkqIfqSize, (c.wtbkq i).valid = false := by
    simp [List.find?_eq_none]
  have back : ((List.range' (c.wtbkqLasti % cfg.wtbkqIfqSize)
      (cfg.wtbkqIfqSize - c.wtbkqLasti % cfg.wtbkqIfqSize)).find? fun i =>
      (c.wtbkq i).valid) = none ↔ ∀ i < cfg.wtbkqIfqSize,
        c.wtbkqLasti % cfg.wtbkqIfqSize ≤ i → (c.wtbkq i).valid = false := by
    simp only [List.find?_eq_none, List.mem_range'_1, Bool.not_eq_true]
    constructor
    · exact fun h i hi start => h i ⟨start, by omega⟩
    · exact fun h i hi => h i (by omega) hi.1
  rw [OneSided, ← front, ← back]
  constructor
  · intro same
    by_contra both
    rw [not_or] at both
    obtain ⟨i, hi⟩ := Option.ne_none_iff_exists'.mp both.1
    obtain ⟨j, hj⟩ := Option.ne_none_iff_exists'.mp both.2
    rw [hi, hj, Option.some_or, Option.some_or] at same
    have before := List.mem_range.mp (List.mem_of_find?_eq_some hi)
    have behind := (List.mem_range'_1.mp (List.mem_of_find?_eq_some hj)).1
    rw [Option.some.inj same] at before
    omega
  · rintro (none | none) <;> simp [none]

/-- The scan selects the first valid entry from the rotating start on exactly when the valid
entries all lie on one side of the start. It selects one whenever there is a valid entry, and
in as many cycles of that kind as the queue has entries it selects each one that stays valid. -/
theorem wtbkqDirtyi_rotates (cfg : Config) :
    (∀ c : Cpu, wtbkqDirtyi cfg c = firstFrom cfg c ↔ OneSided cfg c) ∧
    (∀ c : Cpu, (∃ i < cfg.wtbkqIfqSize, (c.wtbkq i).valid = true) →
      (wtbkqDirtyi cfg c).isSome = true) ∧
    ∀ c : Nat → Cpu, (∀ t, (c (t + 1)).wtbkqLasti =
        nextIndex cfg.wtbkqIfqSize (c t).wtbkqLasti) →
      (∀ t < cfg.wtbkqIfqSize, OneSided cfg (c t)) →
      ∀ i < cfg.wtbkqIfqSize, (∀ t < cfg.wtbkqIfqSize, ((c t).wtbkq i).valid = true) →
        ∃ t < cfg.wtbkqIfqSize, wtbkqDirtyi cfg (c t) = some i := by
  refine ⟨fun c => wtbkqDirtyi_eq_firstFrom, fun c ⟨i, hi, valid⟩ => ?_,
    fun c turns sides i hi valid => ?_⟩
  · rw [wtbkqDirtyi_eq, List.find?_isSome]
    exact ⟨i, List.mem_range.mpr hi, valid⟩
  · have start (t : Nat) : (c t).wtbkqLasti % cfg.wtbkqIfqSize =
        ((c 0).wtbkqLasti + t) % cfg.wtbkqIfqSize := by
      induction t with
      | zero => rfl
      | succ t ih => rw [turns, nextIndex, Nat.mod_mod, ← Nat.mod_add_mod, ih, Nat.mod_add_mod,
          Nat.add_assoc]
    obtain ⟨t, ht, there⟩ := Ring.exists_distance (c 0).wtbkqLasti hi
    refine ⟨t, ht, ?_⟩
    rw [wtbkqDirtyi_eq_firstFrom.mpr (sides t ht), firstFrom]
    have here : ((c t).wtbkqLasti + 0) % cfg.wtbkqIfqSize = i := by
      rw [Nat.add_zero, start t, there]
    rw [← here]
    apply Ring.scanFrom_eq_some cfg.wtbkq_pos
    · rw [here]
      exact valid t ht
    · intro j hj
      omega

/-- Two valid entries, of which the second stands at the start of the scan. -/
def twoNotices : Cpu where
  active := false
  wtbkq i := { valid := i == 0 || i == 1 }
  wtbkqLasti := 1
  creditReq := 0
  creditInvn := 0
  creditWtbk := 0

theorem wtbkqDirtyi_twoNotices :
    ¬ ∀ (cfg : Config) (c : Cpu), wtbkqDirtyi cfg c = firstFrom cfg c := by
  intro h
  have same := h Config.duo twoNotices
  revert same
  decide

end Godson

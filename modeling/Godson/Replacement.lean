import Godson.Service

/-! Which way a miss replaces. Both caches keep a record of their last refill, which the
choice of the next victim reads: `scache_probe` at an L2 miss, `replace_block` at a refill
of the data cache. -/
namespace Godson

variable {cfg : Config} {g : Geometry}

/-- The victim is not the way that the last refill has filled. -/
def Spares (last : Option BlkRef) (victim : BlkRef) : Prop :=
  ∀ f, last = some f → f.set = victim.set → victim.way ≠ f.way

section Scache

/-- The L2 cache of home `k`: a miss, a refill, which is remembered with the set and the way
it fills, and everything that leaves the record of the last refill as it is. A missq entry
that is taken for a new request has been cleared. -/
inductive L2Step (cfg : Config) (k : Nat) : Cpu × Option BlkRef → Cpu × Option BlkRef → Prop
  | miss (c : Cpu) (last : Option BlkRef) (simCycle qid paddr : Nat) :
      L2Step cfg k (c, last) (probeMiss cfg c simCycle qid paddr, last)
  | refill (c c' : Cpu) (last : Option BlkRef) (qid : Nat) (r : BlkRef) :
      (c.missq qid).l2ReplaceBlk = some r → scacheRefill cfg k qid c = some c' →
      L2Step cfg k (c, last) (c', some ⟨cfg.l2.setOf (c.missq qid).paddr, r.way⟩)
  | other (c c' : Cpu) (last : Option BlkRef) : c'.l2.refillSet = c.l2.refillSet →
      c'.l2.refillWay = c.l2.refillWay →
      (∀ q, (c'.missq q).l2ReplaceWay = (c.missq q).l2ReplaceWay ∨
        (c'.missq q).l2ReplaceWay = ({} : MissEntry).l2ReplaceWay) →
      L2Step cfg k (c, last) (c', last)

/-- The states of an L2 cache that has not been refilled yet, and those that follow. -/
inductive L2Reached (cfg : Config) (k : Nat) : Cpu × Option BlkRef → Prop
  | start (c : Cpu) : c.l2 = {} → (∀ q, c.missq q = {}) → L2Reached cfg k (c, none)
  | step {s t : Cpu × Option BlkRef} : L2Reached cfg k s → L2Step cfg k s t → L2Reached cfg k t

/-- The way in the record is never written: the field it is copied from has no value but
that of a cleared entry. -/
structure L2Recorded (s : Cpu × Option BlkRef) : Prop where
  entry : ∀ q, (s.1.missq q).l2ReplaceWay = 0
  way : s.1.l2.refillWay = 0
  set : ∀ f, s.2 = some f → s.1.l2.refillSet = f.set

theorem missqChangeState_replaceWay {c : Cpu} (h : ∀ q, (c.missq q).l2ReplaceWay = 0)
    (qid : Nat) (next : MissState) (q : Nat) :
    ((missqChangeState c qid next).missq q).l2ReplaceWay = 0 := by
  unfold missqChangeState
  by_cases empty : (c.missq qid).state = .empty <;> by_cases clear : next = .empty <;>
    by_cases same : q = qid <;>
    simp [empty, clear, same, Cpu.modMissq, h]

theorem missqChangeState_l2 (c : Cpu) (qid : Nat) (next : MissState) :
    (missqChangeState c qid next).l2 = c.l2 := by
  unfold missqChangeState
  dsimp only
  split <;> split <;> rfl

theorem L2Recorded.step {s t : Cpu × Option BlkRef} {k : Nat} (h : L2Recorded s)
    (e : L2Step cfg k s t) : L2Recorded t := by
  obtain ⟨entry, way, set⟩ := h
  cases e with
  | miss c last simCycle qid paddr =>
    have changed := missqChangeState_replaceWay entry qid .l2Miss
    constructor
    · intro q
      by_cases same : q = qid
      · simp only [probeMiss, Cpu.modMissq, same, Function.update_self]
        exact changed qid
      · simp only [probeMiss, Cpu.modMissq, Function.update_of_ne same]
        exact changed q
    · simp only [probeMiss, Cpu.modMissq, missqChangeState_l2]
      exact way
    · intro f last
      simp only [probeMiss, Cpu.modMissq, missqChangeState_l2]
      exact set f last
  | refill c c' last qid r victim e =>
    rw [scacheRefill, victim] at e
    cases e
    constructor
    · apply missqChangeState_replaceWay
      intro q
      by_cases same : q = qid
      · simp only [Cpu.modMissq, same, Function.update_self]
        exact entry qid
      · simp only [Cpu.modMissq, Function.update_of_ne same]
        exact entry q
    · rw [missqChangeState_l2]
      exact entry qid
    · intro f last
      cases last
      rw [missqChangeState_l2]
      rfl
  | other c c' last set' way' entry' =>
    constructor
    · intro q
      rcases entry' q with same | clear
      · exact same.trans (entry q)
      · exact clear
    · exact way'.trans way
    · intro f last
      exact set'.trans (set f last)

theorem L2Reached.recorded {s : Cpu × Option BlkRef} {k : Nat} (h : L2Reached cfg k s) :
    L2Recorded s := by
  induction h with
  | start c l2 missq =>
    constructor
    · intro q
      rw [missq]
    · rw [l2]
    · intro f none
      cases none
  | step _ e ih => exact ih.step e

end Scache

section Dcache

/-- The data cache: a refill, remembered with the block it fills and the index its choice
named, and everything that leaves the record of the last refill as it is. -/
inductive L1Step (g : Geometry) : Cache × Option (BlkRef × Nat) → Cache × Option (BlkRef × Nat) → Prop
  | refill (cp : Cache) (last : Option (BlkRef × Nat)) (simCycle paddr : Nat) (req : Req)
      (newStatus : Status) :
      L1Step g (cp, last)
        (replaceUpdate g cp (replaceVictim g cp simCycle none paddr).1
          (replaceVictim g cp simCycle none paddr).2 paddr req false false newStatus,
          some (replaceVictim g cp simCycle none paddr))
  | other (cp cp' : Cache) (last : Option (BlkRef × Nat)) : cp'.refillSet = cp.refillSet →
      cp'.refillWay = cp.refillWay → L1Step g (cp, last) (cp', last)

inductive L1Reached (g : Geometry) : Cache × Option (BlkRef × Nat) → Prop
  | start : L1Reached g ({}, none)
  | step {s t : Cache × Option (BlkRef × Nat)} : L1Reached g s → L1Step g s t → L1Reached g t

/-- The way holds the block of an address SHARED, as an UPGRADE finds it. -/
def HoldsShared (g : Geometry) (cp : Cache) (paddr : Nat) (r : BlkRef) : Prop :=
  r.set = g.setOf paddr ∧ r.way < g.assoc ∧ (cp.blks r).tag = g.tagOf paddr ∧
    (cp.blks r).status = .shared

theorem replaceVictim_cases (g : Geometry) (cp : Cache) (simCycle paddr : Nat) :
    (replaceVictim g cp simCycle none paddr).1.set = g.setOf paddr ∧
    (replaceVictim g cp simCycle none paddr).2 = (if g.setOf paddr = cp.refillSet then
      g.assoc - 1 - cp.refillWay else simCycle &&& (g.assoc - 1)) ∧
    ((∀ r, ¬HoldsShared g cp paddr r) →
      (replaceVictim g cp simCycle none paddr).1.way = (replaceVictim g cp simCycle none paddr).2) ∧
    ∀ r, HoldsShared g cp paddr r →
      HoldsShared g cp paddr (replaceVictim g cp simCycle none paddr).1 := by
  have member {r : BlkRef} : r ∈ (g.ways.map (BlkRef.mk (g.setOf paddr))).reverse ↔
      r.set = g.setOf paddr ∧ r.way < g.assoc := by
    simp only [List.mem_reverse, List.mem_map, Geometry.ways, List.mem_range]
    constructor
    · rintro ⟨w, low, rfl⟩
      exact ⟨rfl, low⟩
    · rintro ⟨set, low⟩
      exact ⟨r.way, low, by rw [← set]⟩
  simp only [replaceVictim, Option.getD_none]
  split
  · rename_i r found
    have held := List.find?_some found
    simp only [Bool.and_eq_true, beq_iff_eq] at held
    obtain ⟨set, low⟩ := member.mp (List.mem_of_find?_eq_some found)
    exact ⟨set, rfl, fun none => absurd ⟨set, low, held⟩ (none r), fun _ _ => ⟨set, low, held⟩⟩
  · rename_i none
    refine ⟨rfl, rfl, fun _ => rfl, fun r held => ?_⟩
    have missed := List.find?_eq_none.mp none r (member.mpr ⟨held.1, held.2.1⟩)
    rw [held.2.2.1, held.2.2.2] at missed
    simp at missed

/-- The record holds the index that the last choice named, and its set. -/
structure L1Recorded (g : Geometry) (s : Cache × Option (BlkRef × Nat)) : Prop where
  set : ∀ f b, s.2 = some (f, b) → s.1.refillSet = f.set
  way : ∀ f b, s.2 = some (f, b) → s.1.refillWay = b
  low : ∀ f b, s.2 = some (f, b) → b < g.assoc

theorem L1Reached.recorded {s : Cache × Option (BlkRef × Nat)} (h : L1Reached g s) :
    L1Recorded g s := by
  induction h with
  | start =>
    constructor <;> rintro f b ⟨⟩
  | step _ e ih =>
    cases e with
    | refill cp last simCycle paddr req newStatus =>
      obtain ⟨set, way, -⟩ := replaceVictim_cases g cp simCycle paddr
      have pos := g.assoc_pos
      constructor
      · intro f b last
        rw [show f = (replaceVictim g cp simCycle none paddr).1 from
          (congrArg Prod.fst (Option.some.inj last)).symm, set]
        simp only [replaceUpdate, Bool.false_eq_true, if_false]
      · intro f b last
        rw [show b = (replaceVictim g cp simCycle none paddr).2 from
          (congrArg Prod.snd (Option.some.inj last)).symm]
        simp only [replaceUpdate, Bool.false_eq_true, if_false]
      · intro f b last
        rw [show b = (replaceVictim g cp simCycle none paddr).2 from
          (congrArg Prod.snd (Option.some.inj last)).symm, way]
        split
        · omega
        · exact Nat.lt_of_le_of_lt Nat.and_le_right (by omega)
    | other cp cp' last set way =>
      exact ⟨fun f b last => set.trans (ih.set f b last),
        fun f b last => way.trans (ih.way f b last), ih.low⟩

end Dcache

/-- The victim of an L2 miss is not the way that the preceding refill has filled in its set
unless that was the last way. The way a miss of the data cache takes is not the one that the
preceding refill has filled in its set unless that lay opposite to the way its choice had
named, as the block of an UPGRADE may. An UPGRADE takes a way that holds the block. -/
theorem replacement_spares (cfg : Config) (k : Nat) :
    (∀ c last, L2Reached cfg k (c, last) → ∀ simCycle paddr,
      (Spares last (scacheVictim cfg c simCycle paddr) ↔
        ∀ f, last = some f → f.set = cfg.l2.setOf paddr → f.way + 1 ≠ cfg.l2.assoc)) ∧
    (∀ cp last, L1Reached cfg.dcache (cp, last) → ∀ simCycle paddr,
      (∀ r, ¬HoldsShared cfg.dcache cp paddr r) →
      (Spares (last.map Prod.fst) (replaceVictim cfg.dcache cp simCycle none paddr).1 ↔
        ∀ f b, last = some (f, b) → f.set = cfg.dcache.setOf paddr →
          f.way + b + 1 ≠ cfg.dcache.assoc)) ∧
    ∀ cp simCycle paddr r, HoldsShared cfg.dcache cp paddr r →
      HoldsShared cfg.dcache cp paddr (replaceVictim cfg.dcache cp simCycle none paddr).1 := by
  refine ⟨fun c last reached simCycle paddr => ?_, fun cp last reached simCycle paddr miss => ?_,
    fun cp simCycle paddr r held => (replaceVictim_cases _ cp simCycle paddr).2.2.2 r held⟩
  · have pos := cfg.l2.assoc_pos
    obtain ⟨-, way, set⟩ := reached.recorded
    have there {f : BlkRef} (eq : last = some f) (here : f.set = cfg.l2.setOf paddr) :
        (scacheVictim cfg c simCycle paddr).way = cfg.l2.assoc - 1 := by
      simp only [scacheVictim, ← here, if_pos (set f eq).symm]
      rw [show c.l2.refillWay = 0 from way, Nat.sub_zero]
    constructor
    · intro spares f eq here last
      apply spares f eq here
      rw [there eq here]
      omega
    · intro low f eq here taken
      rw [there eq here] at taken
      have := low f eq here
      omega
  · obtain ⟨set, way, low⟩ := reached.recorded
    obtain ⟨here, named, plain, -⟩ := replaceVictim_cases cfg.dcache cp simCycle paddr
    have there {f : BlkRef} {b : Nat} (eq : last = some (f, b))
        (same : f.set = cfg.dcache.setOf paddr) :
        (replaceVictim cfg.dcache cp simCycle none paddr).1.way = cfg.dcache.assoc - 1 - b := by
      rw [plain miss, named, if_pos (same.symm.trans (set f b eq).symm)]
      rw [show cp.refillWay = b from way f b eq]
    constructor
    · intro spares f b eq same opposite
      apply spares f (by rw [eq]; rfl) (same.trans here.symm)
      rw [there eq same]
      omega
    · intro apart f eq same taken
      obtain ⟨⟨f', b⟩, eq', rfl⟩ := Option.map_eq_some_iff.mp eq
      have same := same.trans here
      have low := low f' b eq'
      rw [there eq' same] at taken
      have := apart f' b eq' same
      simp only at taken low
      omega

/-- A core before its first access. -/
def coldCpu : Cpu where
  active := false
  creditReq := 0
  creditInvn := 0
  creditWtbk := 0

/-- The first two misses of a set take the same way. -/
theorem scacheVictim_twice : ¬∀ (cfg : Config) (k : Nat) (c : Cpu) (last : Option BlkRef),
    2 ≤ cfg.l2.assoc → L2Reached cfg k (c, last) →
      ∀ simCycle paddr, Spares last (scacheVictim cfg c simCycle paddr) := by
  intro h
  have missed : L2Reached Config.duo 0 (probeMiss Config.duo coldCpu 0 0 0, none) :=
    .step (.start coldCpu rfl fun _ => rfl) (.miss coldCpu none 0 0 0)
  have filled := L2Reached.step missed (.refill _ _ none 0 ⟨0, 1⟩ rfl rfl)
  exact h Config.duo 0 _ _ (by decide) filled 0 0 _ rfl rfl rfl

end Godson

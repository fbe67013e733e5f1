import Godson.Coherent

/-! What holds in every state that the pipeline reaches, as long as the fetch queue does not
overflow: where the links and the descriptors are, and what the create vector names. -/
namespace Godson.Backend

open Mips

variable {cfg : BackendConfig} {s t : Backend} {d : Nat}

theorem coherent_reachable (h : Reachable cfg (Fits cfg) s) :
    ∃ done, Coherent cfg s (s.inRoq cfg) done := by
  obtain ⟨roq, done, coherent⟩ := Coherent.reachable (fun _ _ fits => fits) h
  exact ⟨done, coherent.inRoq_eq.symm ▸ coherent⟩

/-- The instructions between decode and commit. -/
def flight (cfg : BackendConfig) (s : Backend) : List Nat := s.inRoq cfg ++ s.decodeData

section Links

/-- Every link of the pool is once in the free list, in a ready queue, in the event queue, or
in the chain of an output of one instruction in flight. -/
theorem links_conserved (h : Reachable cfg (Fits cfg) s) :
    (s.rslinkFreeList ++ ((List.range numFu).flatMap (fun fu => linkIds (s.readyQueue fu)) ++
      (linkIds s.eventQueue ++ (s.flight cfg).flatMap fun d =>
        linkIds ((s.desc d).odepList 0) ++ linkIds ((s.desc d).odepList 1)))).Perm
      (List.range maxRsLinks) ∧
    ∀ d out, d ∉ s.flight cfg ∨ 1 < out → (s.desc d).odepList out = [] := by
  obtain ⟨done, coherent⟩ := coherent_reachable h
  refine ⟨coherent.wired.pool, fun d out apart => ?_⟩
  rcases apart with apart | high
  · exact coherent.wired.idle d out apart
  · exact coherent.wired.outs d out high

theorem links_conserved_depending : ∃ t : Backend, t.flight {} = [79, 78, 77, 76, 75] ∧
    linkIds ((t.desc 79).odepList 0) = [4094, 4095] ∧ 4094 ∉ t.rslinkFreeList := by
  obtain ⟨t, reached, found⟩ := reachable_shipped (l := depending) (v := ([79, 78, 77, 76, 75],
    [4094, 4095])) (f := fun t => (t.flight {}, linkIds ((t.desc 79).odepList 0)))
    (by decide +kernel)
  obtain ⟨flight, chain⟩ := Prod.mk.inj found
  refine ⟨t, flight, chain, fun free => ?_⟩
  have once := (links_conserved reached).1.nodup_iff.mpr List.nodup_range
  rw [List.nodup_append] at once
  refine once.2.2 _ free _ ?_ rfl
  simp [flight, chain]

/-- Tags of 32 bits tell the same as long as the later one is not ahead by `2 ^ 32`. -/
theorem rslinkValid32_eq {l : RsLink} (le : l.tag ≤ (s.desc l.rs).tag)
    (young : (s.desc l.rs).tag < l.tag + 2 ^ 32) : s.rslinkValid32 l = s.rslinkValid l := by
  have same : BitVec.ofNat 32 l.tag = BitVec.ofNat 32 (s.desc l.rs).tag ↔
      l.tag = (s.desc l.rs).tag := by
    constructor
    · intro words
      have values := congrArg BitVec.toNat words
      simp only [BitVec.toNat_ofNat] at values
      omega
    · exact fun tags => congrArg _ tags
  rw [Bool.eq_iff_iff, rslinkValid32, rslinkValid, beq_iff_eq, beq_iff_eq, same]

/-- A link that passes `RSLINK_VALID`, wherever it is found, was made for the instruction
that is there now, and this is in flight. The tag of the descriptor has not come round since. -/
theorem link_valid (h : Reachable cfg (Fits cfg) s) {l : RsLink} (known : s.wiring.Known l)
    (young : (s.desc l.rs).tag < l.tag + 2 ^ 32) (valid : s.rslinkValid32 l = true) :
    l.rs ∈ s.flight cfg ∧ l.made = (s.desc l.rs).seq := by
  obtain ⟨done, coherent⟩ := coherent_reachable h
  obtain ⟨le, made⟩ := coherent.wired.known l known
  rw [rslinkValid32_eq le young] at valid
  exact made (eq_of_beq valid)

theorem link_valid_depending : ∃ (t : Backend) (x : Nat × RsLink),
    (t.desc 79).odepList 0 = [x, (0, ⟨4095, 78, 0, 1⟩)] ∧ x.2.rs ∈ t.flight {} ∧
      x.2.made = (t.desc x.2.rs).seq := by
  obtain ⟨t, reached, found⟩ := reachable_shipped (l := depending)
    (v := ([(1, ⟨4094, 78, 0, 1⟩), (0, ⟨4095, 78, 0, 1⟩)], 0, true))
    (f := fun t => ((t.desc 79).odepList 0, (t.desc 78).tag, t.rslinkValid32 ⟨4094, 78, 0, 1⟩))
    (by decide +kernel)
  obtain ⟨chain, rest⟩ := Prod.mk.inj found
  obtain ⟨tag, valid⟩ := Prod.mk.inj rest
  have held : (1, ⟨4094, 78, 0, 1⟩) ∈ t.wiring.odep 79 0 := by
    have same : t.wiring.odep 79 0 = (t.desc 79).odepList 0 := rfl
    rw [same, chain]
    exact List.mem_cons_self
  have known : t.wiring.Known ⟨4094, 78, 0, 1⟩ := .odep held
  have young : (t.desc 78).tag < 0 + 2 ^ 32 := by
    rw [tag]
    decide
  exact ⟨t, _, chain, link_valid reached known young valid⟩

end Links

section Names

/-- The youngest instruction in flight that writes a register and runs at the level or in front
of it, unless it has written back. -/
def lastWriter (cfg : BackendConfig) (s : Backend) (level name : Nat) : Option Nat :=
  let path := (s.flight cfg).filter fun d => (s.desc d).specLevel ≤ level
  (path.reverse.find? fun d => (s.desc d).onames 0 == name).filter
    fun d => !(s.desc d).completed && !(s.desc d).brcompleted

/-- At each level the create vector names the last writer on the path of the level. -/
theorem create_vector (h : Reachable cfg (Fits cfg) s) {level name : Nat}
    (le : level ≤ s.specLevel) (named : name ≠ 0) :
    s.createVector level name = (s.lastWriter cfg level name).map fun d => (d, 0) := by
  obtain ⟨done, coherent⟩ := coherent_reachable h
  have entry := coherent.renamed.named level (Nat.lt_succ_of_le le) name named
  change s.createVector level name = _ at entry
  rw [entry, Godson.entry, lastWriter]
  change (List.find? (fun d => (s.desc d).onames 0 == name)
    ((s.flight cfg).filter fun d => (s.desc d).specLevel ≤ level).reverse).bind _ = _
  cases writer : List.find? (fun d => (s.desc d).onames 0 == name)
    ((s.flight cfg).filter fun d => (s.desc d).specLevel ≤ level).reverse with
  | none => rfl
  | some d =>
    simp only [Option.bind_some, course, Trace.writtenBack, Descript.trace, Option.filter_some]
    rcases Bool.eq_false_or_eq_true (s.desc d).completed with completed | completed <;>
      rcases Bool.eq_false_or_eq_true (s.desc d).brcompleted with back | back <;>
      simp [completed, back]

theorem create_vector_depending : ∃ t : Backend, t.specLevel = 1 ∧
    t.createVector 0 3 = some (79, 0) ∧ t.createVector 1 3 = some (75, 0) := by
  obtain ⟨t, reached, found⟩ := reachable_shipped (l := depending)
    (v := (1, some 79, some 75))
    (f := fun t => (t.specLevel, t.lastWriter {} 0 3, t.lastWriter {} 1 3)) (by decide +kernel)
  obtain ⟨level, found⟩ := Prod.mk.inj found
  obtain ⟨zero, one⟩ := Prod.mk.inj found
  refine ⟨t, level, ?_, ?_⟩
  · rw [create_vector reached (Nat.zero_le _) (by decide), zero]
    rfl
  · rw [create_vector reached level.ge (by decide), one]
    rfl

end Names

section Levels

/-- A mispredicted branch that has not been recovered from. -/
def unresolved (s : Backend) (d : Nat) : Bool := (s.desc d).misPredict && !(s.desc d).completed

/-- The instructions behind a branch, without its delay slot when that is on the path of the
branch. -/
def behind (s : Backend) (d : Nat) (l : List Nat) : List Nat :=
  if (s.desc d).likely then l else l.tail

/-- The levels rise with the mispredicted branches: what a recovery from one takes back runs at
a deeper level than the branch, what is in front of it does not, and each level below that of
the fetch unit is that of one branch to recover from. -/
theorem levels_rise (h : Reachable cfg (Fits cfg) s) :
    ((s.flight cfg).Pairwise fun a b => (s.desc a).specLevel ≤ (s.desc b).specLevel) ∧
      (∀ d ∈ s.flight cfg, (s.desc d).specLevel ≤ s.specLevel) ∧
      (∀ before d rest, s.flight cfg = before ++ d :: rest → s.unresolved d = true →
        ∀ e ∈ s.behind d rest, (s.desc d).specLevel < (s.desc e).specLevel) ∧
      ∀ n < s.specLevel, ∃ d ∈ s.flight cfg, (s.desc d).ctrl = true ∧ s.unresolved d = true ∧
        (s.desc d).specLevel = n := by
  obtain ⟨done, coherent⟩ := coherent_reachable h
  have levels := coherent.renamed.levels
  refine ⟨levels.sorted, levels.bound, fun before d rest split wrong e he => ?_, fun n low => ?_⟩
  · exact (levels.nested before d rest split wrong).1 e he
  · obtain ⟨d, here, wrong, level⟩ := levels.covered n low
    have miss : (s.desc d).misPredict = true := (Bool.and_eq_true_iff.mp wrong).1
    exact ⟨d, here, levels.branch d here miss, wrong, level⟩

theorem levels_rise_depending : ∃ t : Backend, t.flight {} = [79, 78, 77, 76, 75] ∧
    t.unresolved 77 = true ∧ (t.desc 77).specLevel < (t.desc 75).specLevel := by
  obtain ⟨t, reached, found⟩ := reachable_shipped (l := depending)
    (v := ([79, 78, 77, 76, 75], true, [75])) (f := fun t =>
      (t.flight {}, t.unresolved 77, t.behind 77 [76, 75])) (by decide +kernel)
  obtain ⟨flight, found⟩ := Prod.mk.inj found
  obtain ⟨wrong, behind⟩ := Prod.mk.inj found
  refine ⟨t, flight, wrong, (levels_rise reached).2.2.1 [79, 78] 77 [76, 75] flight wrong 75 ?_⟩
  rw [behind]
  exact List.mem_singleton_self 75

end Levels

end Godson.Backend

import Godson.Flush
import Godson.Layers
import Godson.Runs

/-! The speculative memory of a core against the writes of its own path. An entry of the
store table stands for all live writes of its address, so the two agree as long as these
were all made at the level the entry carries. -/
namespace Godson.Core

open Mips Layers

/-- A step of the memory at the speculation levels. On the right path the architectural
memory itself changes. -/
inductive SpecOp
  | arch (mem : Word → Byte)
  | store (addr v : Word)
  | enter
  | recover (level : Nat) (recoverPC : Word)

/-- A recovery goes back to a level below the current one; an exception goes to level 0. -/
def specStep (cfg : CoreConfig) (w : Width) (s : Core) : SpecOp → Option Core
  | .arch mem => if s.specLevel = 0 then some { s with arch := { s.arch with mem } } else none
  | .store addr v => if s.specLevel ≠ 0 then some (s.specStore cfg w addr v) else none
  | .enter => some s.enterLevel
  | .recover level recoverPC =>
    if level < s.specLevel ∨ level = 0 then some (s.tracerRecover level recoverPC) else none

/-- The accesses of a run all have the size `w`. -/
def specRun (cfg : CoreConfig) (w : Width) (s : Core) (ops : List SpecOp) : Option Core :=
  ops.foldlM (specStep cfg w) s

/-- The checks at the head of `spec_mem_access`. -/
def accessible (cfg : CoreConfig) (w : Width) (addr : Word) : Bool :=
  w.aligned addr && validAddr cfg addr

/-- What a step means for the path. -/
def pathOp (cfg : CoreConfig) (w : Width) : SpecOp → Option (Op Word Word)
  | .arch _ => none
  | .store addr v => if accessible cfg w addr then some (.store addr (truncWord w v)) else none
  | .enter => some .enter
  | .recover level _ => some (.recover level)

/-- The stores on the path that the run has led to. -/
def path (cfg : CoreConfig) (w : Width) (ops : List SpecOp) : Layered Word Word :=
  Layered.run {} (ops.filterMap (pathOp cfg w))

/-- A store finds no entry of a shallower level, and a recovery to a positive level none of
that level. -/
def Unmixed (s : Core) : SpecOp → Prop
  | .store addr _ => ∀ e, newestEnt s.storeHtable addr = some e → e.level = s.specLevel
  | .recover level _ => level ≠ 0 → ∀ e ∈ s.storeHtable, e.level ≠ level
  | _ => True

section Table

variable {l : List SpecMemEnt} {addr : Word} {f : SpecMemEnt → SpecMemEnt}

/-- The entries of an address. -/
def ents (l : List SpecMemEnt) (addr : Word) : List SpecMemEnt :=
  l.filter fun e => e.addr == addr

theorem mem_ents {e : SpecMemEnt} : e ∈ ents l addr ↔ e ∈ l ∧ e.addr = addr := by
  simp [ents]

theorem ents_append (l q : List SpecMemEnt) (addr : Word) :
    ents (l ++ q) addr = ents l addr ++ ents q addr := List.filter_append ..

theorem ents_cons (e : SpecMemEnt) (l : List SpecMemEnt) (addr : Word) :
    ents (e :: l) addr = if e.addr = addr then e :: ents l addr else ents l addr := by
  simp only [ents, List.filter_cons, beq_iff_eq]

theorem newestEnt_eq (l : List SpecMemEnt) (addr : Word) :
    newestEnt l addr = ((ents l addr).filter fun e => decide (0 < e.level)).getLast? := by
  simp only [newestEnt, ents, List.filter_filter]
  congr 1
  apply List.filter_congr
  intro e _
  rw [SpecMemEnt.holds, Bool.and_comm]

/-- The entry that a write goes to is the last of its address. -/
theorem writeNewest_cases (l : List SpecMemEnt) (addr : Word) (f : SpecMemEnt → SpecMemEnt) :
    writeNewest addr f l = none ∧ (∀ e ∈ l, SpecMemEnt.holds addr e = false) ∨
      ∃ a e b, l = a ++ e :: b ∧ e.addr = addr ∧ writeNewest addr f l = some (a ++ f e :: b) := by
  induction l with
  | nil => exact .inl ⟨rfl, fun e he => absurd he List.not_mem_nil⟩
  | cons x l ih =>
    rcases ih with ⟨none, free⟩ | ⟨a, e, b, rfl, he, found⟩
    · cases hx : SpecMemEnt.holds addr x with
      | true =>
        refine .inr ⟨[], x, l, rfl, ?_, ?_⟩
        · simp only [SpecMemEnt.holds, Bool.and_eq_true, beq_iff_eq] at hx
          exact hx.1
        · simp [writeNewest, none, hx]
      | false =>
        refine .inl ⟨by simp [writeNewest, none, hx], ?_⟩
        intro e he
        rcases List.mem_cons.mp he with rfl | he
        · exact hx
        · exact free e he
    · exact .inr ⟨x :: a, e, b, rfl, he, by simp [writeNewest, found]⟩

/-- Replacing an entry by one of the same address. -/
theorem ents_replace {a b : List SpecMemEnt} {e : SpecMemEnt} (he : e.addr = addr)
    (hf : (f e).addr = addr) (single : ∃ d, ents (a ++ e :: b) addr = [d]) :
    ents (a ++ e :: b) addr = [e] ∧ ents (a ++ f e :: b) addr = [f e] ∧
      ∀ other, other ≠ addr → ents (a ++ f e :: b) other = ents (a ++ e :: b) other := by
  have split : ∀ x : SpecMemEnt, x.addr = addr →
      ents (a ++ x :: b) addr = ents a addr ++ x :: ents b addr := by
    intro x hx
    rw [ents_append, ents_cons, if_pos hx]
  obtain ⟨d, hd⟩ := single
  rw [split e he] at hd
  have first : ents a addr = [] := by
    cases ha : ents a addr with
    | nil => rfl
    | cons y l => simp [ha] at hd
  have last : ents b addr = [] := by
    rw [first] at hd
    exact (List.cons.inj hd).2
  refine ⟨by simp [split e he, first, last], by simp [split (f e) hf, first, last], ?_⟩
  intro other apart
  rw [ents_append, ents_append, ents_cons, ents_cons, if_neg, if_neg]
  · exact he.trans_ne (Ne.symm apart)
  · exact hf.trans_ne (Ne.symm apart)

end Table

/-- The entries of the store table against the stores of the path. -/
structure Agrees (w : Width) (s : Core) (p : Layered Word Word) : Prop where
  level : p.level = s.specLevel
  bounded : p.Bounded
  table : ∀ addr, ents s.storeHtable addr = [] ∧ (∀ x ∈ p.log, x.key ≠ addr) ∨
    ∃ e, ents s.storeHtable addr = [e] ∧ 0 < e.level ∧
      (∀ x ∈ p.log, x.key = addr → x.level = e.level) ∧
      p.lookup addr = some (truncWord w e.data)

variable {cfg : CoreConfig} {w : Width} {s t : Core} {p : Layered Word Word}

theorem lookup_none {addr : Word} (h : ∀ x ∈ p.log, x.key ≠ addr) : p.lookup addr = none := by
  rw [Layered.lookup, List.find?_eq_none.mpr, Option.map_none]
  intro x hx
  simpa using h x hx

/-- A speculative load returns the latest store of the path. -/
theorem Agrees.read (h : Agrees w s p) {addr : Word} (ok : accessible cfg w addr = true) :
    s.specRead cfg w addr = p.read (readMem s.arch.mem w) addr := by
  have check : (!w.aligned addr || !validAddr cfg addr) = false := by
    simp only [accessible, Bool.and_eq_true] at ok
    simp [ok.1, ok.2]
  simp only [specRead, check, Bool.false_eq_true, if_false, newestEnt_eq, Layered.read]
  rcases h.table addr with ⟨empty, unwritten⟩ | ⟨e, single, deep, -, latest⟩
  · rw [empty, lookup_none unwritten]
    rfl
  · rw [single, latest]
    simp [deep]

theorem truncWord_putData (w : Width) (v : Word) (e : SpecMemEnt) :
    truncWord w (putData w v e).data = truncWord w v := by
  have ones : (0xffffffff : Word) = BitVec.allOnes 32 := by decide
  cases w with
  | byte | half =>
    ext i hi
    simp only [truncWord, putData, ones, BitVec.getElem_setWidth, BitVec.getLsbD_setWidth,
      BitVec.getLsbD_or, BitVec.getLsbD_and, BitVec.getLsbD_not, BitVec.getLsbD_allOnes]
    grind
  | word =>
    ext i hi
    simp [truncWord, putData]

theorem Agrees.store (h : Agrees w s p) (spec : s.specLevel ≠ 0) {addr v : Word}
    (ok : accessible cfg w addr = true) (unmixed : Unmixed s (.store addr v)) :
    Agrees w (s.specStore cfg w addr v) (p.step (.store addr (truncWord w v))) := by
  have check : (!w.aligned addr || !validAddr cfg addr) = false := by
    simp only [accessible, Bool.and_eq_true] at ok
    simp [ok.1, ok.2]
  have apart : ∀ {other}, other ≠ addr →
      (∀ x ∈ (p.step (.store addr (truncWord w v))).log, x.key = other → x ∈ p.log) := by
    intro other ne x hx hk
    rcases List.mem_cons.mp hx with rfl | hx
    · exact absurd hk.symm ne
    · exact hx
  have others : ∀ {l' other}, other ≠ addr → ents l' other = ents s.storeHtable other →
      (ents l' other = [] ∧ (∀ x ∈ (p.step (.store addr (truncWord w v))).log, x.key ≠ other) ∨
        ∃ e, ents l' other = [e] ∧ 0 < e.level ∧
          (∀ x ∈ (p.step (.store addr (truncWord w v))).log, x.key = other → x.level = e.level) ∧
          (p.step (.store addr (truncWord w v))).lookup other = some (truncWord w e.data)) := by
    intro l' other ne same
    rw [same, Layered.lookup_store_other _ _ (Ne.symm ne)]
    rcases h.table other with ⟨empty, unwritten⟩ | ⟨e, single, deep, level, latest⟩
    · exact .inl ⟨empty, fun x hx hk => unwritten x (apart ne x hx hk) hk⟩
    · exact .inr ⟨e, single, deep, fun x hx hk => level x (apart ne x hx hk) hk, latest⟩
  simp only [specStore, check, Bool.false_eq_true, if_false]
  rcases writeNewest_cases s.storeHtable addr (putData w v) with
    ⟨none, free⟩ | ⟨a, e, b, hl, he, found⟩
  · rw [none]
    refine ⟨h.level, h.bounded.step _, ?_⟩
    have empty : ents s.storeHtable addr = [] ∧ ∀ x ∈ p.log, x.key ≠ addr := by
      rcases h.table addr with empty | ⟨e, single, deep, -⟩
      · exact empty
      · have mem : e ∈ ents s.storeHtable addr := by simp [single]
        have held := free e (mem_ents.mp mem).1
        simp [SpecMemEnt.holds, (mem_ents.mp mem).2, deep] at held
    intro other
    by_cases same : other = addr
    · subst same
      refine .inr ⟨putData w v { addr := other, level := s.specLevel }, ?_,
        Nat.pos_of_ne_zero spec, ?_, ?_⟩
      · rw [ents_cons, empty.1]
        exact if_pos rfl
      · intro x hx hk
        rcases List.mem_cons.mp hx with rfl | hx
        · exact h.level
        · exact absurd hk (empty.2 x hx)
      · rw [Layered.lookup_store_same, truncWord_putData]
    · apply others same
      rw [ents_cons]
      exact if_neg (Ne.symm same)
  · rw [found]
    refine ⟨h.level, h.bounded.step _, ?_⟩
    have here : e ∈ ents s.storeHtable addr := by
      apply mem_ents.mpr
      simp [hl, he]
    rcases h.table addr with ⟨empty, -⟩ | ⟨d, single, deep, level, latest⟩
    · rw [empty] at here
      exact absurd here List.not_mem_nil
    · rw [hl] at single
      obtain ⟨same, replaced, rest⟩ :=
        ents_replace (f := putData w v) he (show (putData w v e).addr = addr from he) ⟨d, single⟩
      have hd : d = e := by
        rw [same] at single
        exact (List.cons.inj single).1.symm
      subst hd
      have now : d.level = s.specLevel := by
        apply unmixed
        rw [newestEnt_eq, hl, same]
        simp [deep]
      intro other
      by_cases ha : other = addr
      · subst ha
        refine .inr ⟨putData w v d, replaced, deep, ?_, ?_⟩
        · intro x hx hk
          rcases List.mem_cons.mp hx with rfl | hx
          · exact h.level.trans now.symm
          · exact level x hx hk
        · rw [Layered.lookup_store_same, truncWord_putData]
      · apply others ha
        rw [rest other ha, hl]

theorem Agrees.recover (h : Agrees w s p) {level : Nat} {recoverPC : Word}
    (unmixed : Unmixed s (.recover level recoverPC)) :
    Agrees w (s.tracerRecover level recoverPC) (p.step (.recover level)) := by
  refine ⟨rfl, h.bounded.step _, ?_⟩
  intro addr
  have left : ents (s.tracerRecover level recoverPC).storeHtable addr =
      ((ents s.storeHtable addr).filter fun e => decide (e.level < level)).reverse := by
    simp only [tracerRecover, ents, List.filter_reverse, List.filter_filter]
    congr 1
    apply List.filter_congr
    intro e _
    exact Bool.and_comm ..
  have older : ∀ x ∈ (p.step (.recover level)).log, x ∈ p.log := fun x hx =>
    List.mem_of_mem_filter hx
  rw [left]
  rcases h.table addr with ⟨empty, unwritten⟩ | ⟨e, single, deep, at_level, latest⟩
  · exact .inl ⟨by simp [empty], fun x hx => unwritten x (older x hx)⟩
  · have mem : e ∈ s.storeHtable := (mem_ents.mp (by simp [single] : e ∈ ents _ addr)).1
    have strict : e.level < level ↔ e.level ≤ level := by
      by_cases zero : level = 0
      · omega
      · have := unmixed zero e mem
        omega
    rw [single, Layered.lookup_recover at_level]
    by_cases low : e.level ≤ level
    · refine .inr ⟨e, ?_, deep, fun x hx => at_level x (older x hx), ?_⟩
      · simp [strict.mpr low]
      · rw [if_pos low, latest]
    · refine .inl ⟨?_, ?_⟩
      · simp [mt strict.mp low]
      · intro x hx hk
        have bound := of_decide_eq_true (List.mem_filter.mp hx).2
        rw [at_level x (older x hx) hk] at bound
        exact low bound

/-- One step of the memory. -/
theorem Agrees.step (h : Agrees w s p) {op : SpecOp} (k : specStep cfg w s op = some t)
    (unmixed : Unmixed s op) :
    Agrees w t (p.run (pathOp cfg w op).toList) := by
  cases op with
  | arch mem =>
    simp only [specStep] at k
    split at k <;> cases k
    exact ⟨h.level, h.bounded, h.table⟩
  | store addr v =>
    simp only [specStep] at k
    split at k
    · rename_i spec
      cases k
      simp only [pathOp]
      split
      · rename_i ok
        exact h.store spec ok unmixed
      · rename_i bad
        have skip : s.specStore cfg w addr v = s := by
          have check : (!w.aligned addr || !validAddr cfg addr) = true := by
            simp only [accessible, Bool.and_eq_true] at bad
            grind
          simp only [specStore, check, if_true]
        rw [skip]
        exact h
    · cases k
  | enter =>
    cases k
    exact ⟨congrArg (· + 1) h.level, h.bounded.step .enter, h.table⟩
  | recover level recoverPC =>
    simp only [specStep] at k
    split at k <;> cases k
    exact h.recover unmixed

/-- A run of the memory. -/
theorem Agrees.run (h : Agrees w s p) {ops : List SpecOp} (k : specRun cfg w s ops = some t)
    (unmixed : Runs.Along (specStep cfg w) Unmixed s ops) :
    Agrees w t (p.run (ops.filterMap (pathOp cfg w))) := by
  induction ops generalizing s p with
  | nil =>
    cases k
    exact h
  | cons op ops ih =>
    obtain ⟨u, hu, k⟩ := Runs.run_cons.mp k
    have now := ih (h.step hu unmixed.head) k (unmixed.tail hu)
    rw [← Layered.run_append] at now
    rw [List.filterMap_cons]
    cases hp : pathOp cfg w op with
    | none =>
      rw [hp] at now
      exact now
    | some o =>
      rw [hp] at now
      exact now

theorem agrees_start (cfg : CoreConfig) (arch : Arch) (w : Width) :
    Agrees w (start cfg arch) {} := by
  refine ⟨rfl, fun e he => absurd he List.not_mem_nil, ?_⟩
  intro addr
  exact .inl ⟨rfl, fun x hx => absurd hx List.not_mem_nil⟩

/-- The memory operations leave the decode queue empty and, on a wrong path, the
architectural state alone. -/
theorem specStep_frame {op : SpecOp} (k : specStep cfg w s op = some t)
    (empty : s.decodeData = []) :
    t.decodeData = [] ∧ (s.specLevel ≠ 0 → t.arch = s.arch) := by
  cases op with
  | arch mem =>
    simp only [specStep] at k
    split at k <;> cases k
    rename_i zero
    exact ⟨empty, fun spec => absurd zero spec⟩
  | store addr v =>
    simp only [specStep] at k
    split at k <;> cases k
    simp only [specStore]
    split
    · exact ⟨empty, fun _ => rfl⟩
    · split <;> exact ⟨empty, fun _ => rfl⟩
  | enter =>
    cases k
    exact ⟨empty, fun _ => rfl⟩
  | recover level recoverPC =>
    simp only [specStep] at k
    split at k <;> cases k
    refine ⟨rfl, fun _ => ?_⟩
    simp only [tracerRecover, empty]
    rfl

theorem specStep_level {op : SpecOp} {l : Nat} (k : specStep cfg w s op = some t)
    (deep : l < s.specLevel) (above : ∀ m pc, op = .recover m pc → l < m) :
    l < t.specLevel := by
  cases op with
  | arch mem =>
    simp only [specStep] at k
    split at k <;> cases k
    exact deep
  | store addr v =>
    simp only [specStep] at k
    split at k <;> cases k
    simp only [specStore]
    split
    · exact deep
    · split <;> exact deep
  | enter =>
    cases k
    exact Nat.lt_succ_of_lt deep
  | recover level recoverPC =>
    simp only [specStep] at k
    split at k <;> cases k
    exact above level recoverPC rfl

theorem specRun_empty {ops : List SpecOp} (k : specRun cfg w s ops = some t)
    (empty : s.decodeData = []) : t.decodeData = [] :=
  Runs.invariant (I := fun s => s.decodeData = []) (fun _ _ _ h k => (specStep_frame k h).1) empty k

/-- Above a level the architectural state does not change. -/
theorem specRun_above {ops : List SpecOp} {l : Nat} (k : specRun cfg w s ops = some t)
    (empty : s.decodeData = []) (deep : l < s.specLevel)
    (above : ∀ m pc, SpecOp.recover m pc ∈ ops → l < m) :
    t.arch = s.arch ∧ l < t.specLevel := by
  induction ops generalizing s with
  | nil =>
    cases k
    exact ⟨rfl, deep⟩
  | cons op ops ih =>
    obtain ⟨u, hu, k⟩ := Runs.run_cons.mp k
    obtain ⟨clear, same⟩ := specStep_frame hu empty
    have deeper := specStep_level hu deep fun m pc hm =>
      above m pc (by rw [hm]; exact List.mem_cons_self)
    obtain ⟨rest, level⟩ := ih k clear deeper fun m pc hm =>
      above m pc (List.mem_cons_of_mem _ hm)
    exact ⟨rest.trans (same (by omega)), level⟩

theorem above_filterMap {ops : List SpecOp} {l : Nat}
    (above : ∀ m pc, SpecOp.recover m pc ∈ ops → l < m) :
    Layered.Above l (ops.filterMap (pathOp cfg w)) := by
  intro m hm
  obtain ⟨op, hop, same⟩ := List.mem_filterMap.mp hm
  cases op with
  | arch mem => cases same
  | store addr v =>
    simp only [pathOp] at same
    split at same <;> cases same
  | enter => cases same
  | recover level recoverPC =>
    cases same
    exact above m recoverPC hop

/-- Speculative loads return the latest store of their path, or the architectural memory;
and a recovery brings back what the loads of its level saw before the next was entered. -/
theorem spec_views_lawful (cfg : CoreConfig) (arch : Arch) (w : Width) (ops : List SpecOp)
    (t : Core) (run : specRun cfg w (start cfg arch) ops = some t)
    (unmixed : Runs.Along (specStep cfg w) Unmixed (start cfg arch) ops) :
    (∀ addr, accessible cfg w addr = true →
      t.specRead cfg w addr = (path cfg w ops).read (readMem t.arch.mem w) addr) ∧
    ∀ pre mid recoverPC s, ops = pre ++ .enter :: (mid ++ [.recover s.specLevel recoverPC]) →
      specRun cfg w (start cfg arch) pre = some s →
      (∀ l pc, .recover l pc ∈ mid → s.specLevel < l) →
      ∀ addr, t.specRead cfg w addr = s.specRead cfg w addr := by
  have agrees := (agrees_start cfg arch w).run run unmixed
  refine ⟨fun addr ok => agrees.read ok, ?_⟩
  intro pre mid recoverPC s split hs above addr
  subst split
  have before := (agrees_start cfg arch w).run hs unmixed.front
  obtain ⟨s', hs', run⟩ := Runs.run_append.mp run
  obtain rfl : s = s' := Option.some.inj (hs.symm.trans hs')
  obtain ⟨u, hu, run⟩ := Runs.run_cons.mp run
  obtain ⟨v, hv, run⟩ := Runs.run_append.mp run
  obtain ⟨t', ht, run⟩ := Runs.run_cons.mp run
  cases run
  have empty := specRun_empty hs rfl
  cases hu
  obtain ⟨same, deep⟩ := specRun_above hv empty (Nat.lt_succ_self s.specLevel) above
  have mem : t.arch = s.arch := by
    rw [(specStep_frame ht (specRun_empty hv empty)).2 (by omega), same]
    rfl
  have back : path cfg w (pre ++ .enter :: (mid ++ [.recover s.specLevel recoverPC])) =
      path cfg w pre := by
    have level : (path cfg w pre).level = s.specLevel := before.level
    simp only [path, List.filterMap_append, List.filterMap_cons, pathOp, Layered.run_append,
      Layered.run_cons, List.filterMap_nil, Layered.run_nil]
    rw [← level]
    apply Layered.run_recover before.bounded
    apply above_filterMap
    intro m pc hm
    exact level.trans_lt (above m pc hm)
  by_cases ok : accessible cfg w addr = true
  · rw [before.read ok, agrees.read ok, mem]
    exact congrArg (fun q => Layered.read _ q addr) back
  · have check : (!w.aligned addr || !validAddr cfg addr) = true := by
      simp only [accessible, Bool.and_eq_true] at ok
      grind
    simp only [specRead, check, if_true]

section Example

/-- The test of `Unmixed`. -/
def unmixedStep (s : Core) : SpecOp → Bool
  | .store addr _ => (newestEnt s.storeHtable addr).all fun e => e.level == s.specLevel
  | .recover level _ => level == 0 || s.storeHtable.all fun e => e.level != level
  | _ => true

theorem unmixed_of_step (s : Core) (op : SpecOp) (h : unmixedStep s op = true) :
    Unmixed s op := by
  cases op with
  | arch mem => trivial
  | store addr v =>
    intro e he
    simpa [unmixedStep, he] using h
  | enter => trivial
  | recover level recoverPC =>
    intro deep e he
    simp only [unmixedStep, Bool.or_eq_true, beq_iff_eq, deep, false_or, List.all_eq_true] at h
    simpa using h e he

/-- A store at level 2 is forgotten when level 1 is recovered. -/
def deepStore : List SpecOp := [.enter] ++ .enter :: ([.store 0x10000000 7] ++ [.recover 1 0x400000])

theorem spec_views_deepStore : ∃ s t, specRun smallConfig .word (start smallConfig {}) [.enter] =
      some s ∧ specRun smallConfig .word (start smallConfig {}) deepStore = some t ∧
    (∀ addr, accessible smallConfig .word addr = true → t.specRead smallConfig .word addr =
      (path smallConfig .word deepStore).read (readMem t.arch.mem .word) addr) ∧
    ∀ addr, t.specRead smallConfig .word addr = s.specRead smallConfig .word addr := by
  have level : (specRun smallConfig .word (start smallConfig {}) [.enter]).map specLevel = some 1 := by
    decide
  obtain ⟨s, hs, level⟩ := Option.map_eq_some_iff.mp level
  have ends : (specRun smallConfig .word (start smallConfig {}) deepStore).isSome = true := by
    decide
  obtain ⟨t, ht⟩ := Option.isSome_iff_exists.mp ends
  have unmixed : Runs.Along (specStep smallConfig .word) Unmixed (start smallConfig {}) deepStore :=
    Runs.along_of_check unmixed_of_step (by decide)
  obtain ⟨views, back⟩ := spec_views_lawful smallConfig {} .word deepStore t ht unmixed
  refine ⟨s, t, hs, ht, views, back [.enter] [.store 0x10000000 7] 0x400000 s ?_ hs ?_⟩
  · rw [level]
    rfl
  · intro l pc h
    cases List.mem_singleton.mp h

/-- A store at level 3 writes into the entry of level 1. -/
def sharedEntry : List SpecOp :=
  [.enter, .store 0x10000000 1, .enter] ++ .enter :: ([.store 0x10000000 2] ++ [.recover 2 0x400000])

/-- The store at level 3 is seen at level 2 after its recovery, where the latest store of
the path has put 1; a recovery of level 1 forgets the store of that level itself. -/
theorem spec_views_mixed :
    (specRun smallConfig .word (start smallConfig {}) sharedEntry).map
        (fun t => (t.specLevel, t.specRead smallConfig .word 0x10000000)) = some (2, 2) ∧
      (specRun smallConfig .word (start smallConfig {}) (sharedEntry.take 3)).map
        (fun s => (s.specLevel, s.specRead smallConfig .word 0x10000000)) = some (2, 1) ∧
      (path smallConfig .word sharedEntry).read (readMem (fun _ => 0) .word) 0x10000000 = 1 ∧
      (specRun smallConfig .word (start smallConfig {})
          [.enter, .store 0x10000000 1, .enter, .recover 1 0x400000]).map
        (fun t => (t.specLevel, t.specRead smallConfig .word 0x10000000)) = some (1, 0) ∧
      accessible smallConfig .word 0x10000000 = true := by
  decide

end Example

end Godson.Core

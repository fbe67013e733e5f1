import Godson.ProgramOrder
import Mathlib.Data.List.TakeWhile

/-! Waiting and waking. An input that is not ready waits in the chain of one older instruction,
and an instruction that can be issued is once in the ready queue of its unit. -/
namespace Godson

open Mips

/-- What an instruction waits for, and the ready queue in which it belongs. -/
structure Standby where
  idep : Nat → Bool
  names : Nat → Nat
  due : Option Nat
  issued : Bool

namespace Standby

/-- An input has become ready, or not. -/
def settle (num : Nat) (b : Bool) (e : Standby) : Standby :=
  { e with idep := Function.update e.idep num b }

/-- The instruction belongs in a ready queue. -/
def join (fu : Nat) (e : Standby) : Standby := { e with due := some fu }

/-- The instruction has gone to its function unit. -/
def depart (e : Standby) : Standby := { e with due := none, issued := true }

end Standby

namespace Descript

def due (d : Descript) : Option Nat :=
  if d.mapped && !d.trap && d.operandsReady && !d.issued then some d.fu.unit else none

def standby (d : Descript) : Standby := ⟨d.idepReady, d.onames, d.due, d.issued⟩

end Descript

namespace Wiring

/-- `RSLINK_VALID` -/
def valid (w : Wiring) (l : RsLink) : Bool := l.tag == w.tag l.rs

/-- A valid link for an input of an instruction. -/
def asks (w : Wiring) (d num : Nat) (x : Nat × RsLink) : Bool :=
  w.valid x.2 && x.2.rs == d && x.1 == num

/-- The links to the consumers of instructions. -/
def chains (w : Wiring) (flight : List Nat) : List (Nat × RsLink) :=
  flight.flatMap fun p => w.odep p 0 ++ w.odep p 1

/-- How often an input of an instruction waits. -/
def waits (w : Wiring) (flight : List Nat) (d num : Nat) : Nat :=
  (w.chains flight).countP (w.asks d num)

/-- How often an instruction is in a ready queue. -/
def entries (w : Wiring) (fu d : Nat) : Nat :=
  (w.ready fu).countP fun x => w.valid x.2 && x.2.rs == d

/-- A ready queue is replaced. -/
def requeue (w : Wiring) (fu : Nat) (q : List (Nat × RsLink)) : Wiring :=
  { w with ready := Function.update w.ready fu q }

@[simp] theorem entries_requeue (w : Wiring) (fu : Nat) (q : List (Nat × RsLink)) (d : Nat) :
    (w.requeue fu q).entries fu d = q.countP fun x => w.valid x.2 && x.2.rs == d := by
  simp only [entries, requeue, Function.update_self]
  rfl

theorem entries_requeue_of_ne (w : Wiring) {fu u : Nat} (ne : u ≠ fu) (q : List (Nat × RsLink))
    (d : Nat) : (w.requeue fu q).entries u d = w.entries u d := by
  simp only [entries, requeue, Function.update_of_ne ne]
  rfl

/-- A link in a chain of an instruction in flight. -/
theorem mem_chains {w : Wiring} {flight : List Nat} {x : Nat × RsLink} :
    x ∈ w.chains flight ↔ ∃ p ∈ flight, x ∈ w.odep p 0 ∨ x ∈ w.odep p 1 := by
  simp [chains]

end Wiring

/-- What waits, and what is ready, with the instructions `flight` in flight. -/
structure Awake (w : Wiring) (st : Nat → Standby) (flight : List Nat) : Prop where
  named : ∀ p out, w.odep p out ≠ [] → (st p).names out ≠ 0
  older : ∀ p out, ∀ x ∈ w.odep p out, w.valid x.2 = true → w.seq p < w.seq x.2.rs
  waits : ∀ d ∈ flight, ∀ num < 3, w.waits flight d num = if (st d).idep num then 0 else 1
  entries : ∀ d ∈ flight, ∀ fu, w.entries fu d = if (st d).due = some fu then 1 else 0
  sorted : ∀ fu, (w.ready fu).Pairwise fun a b => a.1 ≤ b.1
  keys : ∀ fu, ∀ x ∈ w.ready fu, x.1 = x.2.made % 2 ^ 32
  chosen : ∀ fu l, w.chosen fu = some l → w.valid l = true →
    (∃ x ∈ w.ready fu, x.2 = l) ∨ (st l.rs).issued = true

section Counting

variable {α : Type}

/-- One of several lists is replaced. -/
theorem countP_flatMap_update {us : List Nat} {u : Nat} (once : us.Nodup) (here : u ∈ us)
    (f : Nat → List α) (l : List α) (q : α → Bool) :
    (us.flatMap (Function.update f u l)).countP q + (f u).countP q =
      (us.flatMap f).countP q + l.countP q := by
  induction us with
  | nil => cases here
  | cons v us ih =>
    obtain ⟨new, rest⟩ := List.nodup_cons.mp once
    simp only [List.flatMap_cons, List.countP_append]
    rcases List.mem_cons.mp here with rfl | here
    · rw [flatMap_update_of_notMem new, Function.update_self]
      omega
    · have ne : v ≠ u := by
        rintro rfl
        exact new here
      have ih := ih rest here
      rw [Function.update_of_ne ne]
      omega

end Counting

namespace Awake

variable {w w' : Wiring} {st st' : Nat → Standby} {flight kept gone : List Nat} {d p out fu : Nat}
  {x : Nat × RsLink} {rest : List (Nat × RsLink)} {f : Nat → Nat → List (Nat × RsLink)}

/-- What only one instruction could change stays the same when it does not. -/
theorem kept_part {β : Type} (part : Standby → β) (others : ∀ e ≠ d, st' e = st e)
    (mine : part (st' d) = part (st d)) (e : Nat) : part (st' e) = part (st e) := by
  by_cases eq : e = d
  · rw [eq, mine]
  · rw [others e eq]

section Frames

/-- A link that is valid under later tags was valid before. -/
theorem valid_before (wired : Wired w flight) {l : RsLink} (known : w.Known l)
    (later : ∀ d, w.tag d ≤ w'.tag d) (valid : w'.valid l = true) : w.valid l = true := by
  have old := (wired.known l known).1
  have now : l.tag = w'.tag l.rs := eq_of_beq valid
  have next := later l.rs
  exact beq_iff_eq.mpr (by omega)

theorem valid_here (wired : Wired w flight) {l : RsLink} (known : w.Known l)
    (valid : w.valid l = true) : l.rs ∈ flight :=
  ((wired.known l known).2 (eq_of_beq valid)).1

theorem holder_here (wired : Wired w flight) (here : x ∈ w.odep p out) : p ∈ flight := by
  by_contra outside
  rw [wired.idle p out outside] at here
  cases here

/-- The instructions in front of those in flight are not looked at. -/
theorem front (h : Awake w st flight) (wired : Wired w flight) (ready : w'.ready = w.ready)
    (chosen : w'.chosen = w.chosen) (odep : w'.odep = w.odep) (tag : w'.tag = w.tag)
    (seq : ∀ d ∈ flight, w'.seq d = w.seq d) (same : ∀ d ∈ flight, st' d = st d) :
    Awake w' st' flight := by
  have valid : w'.valid = w.valid := by
    funext l
    rw [Wiring.valid, Wiring.valid, tag]
  have asks (d num : Nat) : w'.asks d num = w.asks d num := by
    funext x
    rw [Wiring.asks, Wiring.asks, valid]
  constructor
  case named =>
    intro p out filled
    rw [odep] at filled
    obtain ⟨x, here⟩ := List.exists_mem_of_ne_nil _ filled
    rw [same p (holder_here wired here)]
    exact h.named p out filled
  case older =>
    intro p out x here holds
    rw [odep] at here
    rw [valid] at holds
    rw [seq p (holder_here wired here), seq _ (valid_here wired (.odep here) holds)]
    exact h.older p out x here holds
  case waits =>
    intro d hd num low
    have chains : w'.chains flight = w.chains flight := by rw [Wiring.chains, Wiring.chains, odep]
    rw [Wiring.waits, chains, asks, same d hd]
    exact h.waits d hd num low
  case entries =>
    intro d hd fu
    rw [Wiring.entries, ready, valid, same d hd]
    exact h.entries d hd fu
  case sorted =>
    intro fu
    rw [ready]
    exact h.sorted fu
  case keys =>
    intro fu x here
    rw [ready] at here
    exact h.keys fu x here
  case chosen =>
    intro fu l picked holds
    rw [chosen] at picked
    rw [valid] at holds
    rw [ready, same _ (valid_here wired (.chosen picked) holds)]
    exact h.chosen fu l picked holds

/-- Neither are the pool, the event queue and the function units. -/
theorem congr (h : Awake w st flight) (free : List Nat) (event : List (Nat × RsLink))
    (unit : Nat → Nat) : Awake { w with free := free, event := event, unit := unit } st flight :=
  ⟨h.named, h.older, h.waits, h.entries, h.sorted, h.keys, h.chosen⟩

/-- Only some instructions stay in flight, none of which waits for one that leaves. -/
theorem leave (h : Awake w st flight) (wired : Wired w flight)
    (parts : flight.Perm (kept ++ gone))
    (apart : ∀ p ∈ gone, ∀ out, ∀ x ∈ w.odep p out, w.valid x.2 = true → x.2.rs ∉ kept)
    (ready : w'.ready = w.ready) (chosen : w'.chosen = w.chosen) (seq : w'.seq = w.seq)
    (later : ∀ d, w.tag d ≤ w'.tag d)
    (odep : ∀ d, w'.odep d = w.odep d ∨ w'.odep d = fun _ => [])
    (same : ∀ d ∈ kept, w'.odep d = w.odep d ∧ w'.tag d = w.tag d) : Awake w' st kept := by
  have before {p out : Nat} {x : Nat × RsLink} (here : x ∈ w'.odep p out) : x ∈ w.odep p out := by
    rcases odep p with kept | empty
    · rwa [kept] at here
    · rw [empty] at here
      cases here
  have inside {d : Nat} (hd : d ∈ kept) : d ∈ flight :=
    parts.mem_iff.mpr (List.mem_append_left _ hd)
  have valid {d : Nat} (hd : d ∈ kept) (l : RsLink) :
      (w'.valid l && l.rs == d) = (w.valid l && l.rs == d) := by
    by_cases eq : l.rs = d
    · rw [Wiring.valid, Wiring.valid, eq, (same d hd).2]
    · rw [beq_false_of_ne eq, Bool.and_false, Bool.and_false]
  constructor
  case named =>
    intro p out filled
    obtain ⟨x, here⟩ := List.exists_mem_of_ne_nil _ filled
    exact h.named p out (List.ne_nil_of_mem (before here))
  case older =>
    intro p out x here holds
    rw [seq]
    exact h.older p out x (before here) (valid_before wired (.odep (before here)) later holds)
  case waits =>
    intro d hd num low
    have asks : w'.asks d num = w.asks d num := by
      funext x
      rw [Wiring.asks, Wiring.asks, valid hd]
    have chains : w'.chains kept = w.chains kept :=
      List.flatMap_congr fun p hp => by rw [(same p hp).1]
    have none : (w.chains gone).countP (w.asks d num) = 0 := by
      rw [List.countP_eq_zero]
      intro x here holds
      obtain ⟨p, hp, held⟩ := Wiring.mem_chains.mp here
      simp only [Wiring.asks, Bool.and_eq_true, beq_iff_eq] at holds
      obtain ⟨⟨valid, rfl⟩, -⟩ := holds
      rcases held with held | held <;> exact apart p hp _ x held valid hd
    have all : w.waits flight d num = (w.chains kept).countP (w.asks d num) := by
      have split : w.chains (kept ++ gone) = w.chains kept ++ w.chains gone := List.flatMap_append
      rw [Wiring.waits, Wiring.chains, (parts.flatMap_right _).countP_eq]
      change (w.chains (kept ++ gone)).countP _ = _
      rw [split, List.countP_append, none, Nat.add_zero]
    rw [Wiring.waits, chains, asks, ← all]
    exact h.waits d (inside hd) num low
  case entries =>
    intro d hd fu
    have same : (fun x : Nat × RsLink => w'.valid x.2 && x.2.rs == d) =
        fun x => w.valid x.2 && x.2.rs == d := funext fun x => valid hd x.2
    rw [Wiring.entries, ready, same]
    exact h.entries d (inside hd) fu
  case sorted =>
    intro fu
    rw [ready]
    exact h.sorted fu
  case keys =>
    intro fu x here
    rw [ready] at here
    exact h.keys fu x here
  case chosen =>
    intro fu l picked holds
    rw [chosen] at picked
    rw [ready]
    exact h.chosen fu l picked (valid_before wired (.chosen picked) later holds)

end Frames

section Chains

/-- A chain with one link in front. -/
def longer (f : Nat → Nat → List (Nat × RsLink)) (p out : Nat) (l : List (Nat × RsLink)) :
    Nat → Nat → List (Nat × RsLink) := Function.update f p (Function.update (f p) out l)

theorem longer_apply (f : Nat → Nat → List (Nat × RsLink)) (p out : Nat) (l : List (Nat × RsLink))
    (q out' : Nat) : longer f p out l q out' = if q = p ∧ out' = out then l else f q out' := by
  by_cases eq : q = p
  · subst eq
    by_cases eq' : out' = out
    · simp [longer, eq']
    · simp [longer, eq']
  · simp [longer, eq]

theorem mem_longer {y : Nat × RsLink} {q out' : Nat} (here : y ∈ longer f p out rest q out') :
    y ∈ longer f p out (x :: rest) q out' := by
  rw [longer_apply] at here ⊢
  split_ifs at here ⊢
  · exact List.mem_cons_of_mem x here
  · exact here

/-- The link in front is counted once. -/
theorem waits_longer (once : flight.Nodup) (there : p ∈ flight) (low : out ≤ 1) (d num : Nat) :
    { w with odep := longer f p out (x :: rest) }.waits flight d num =
      { w with odep := longer f p out rest }.waits flight d num +
        if w.asks d num x then 1 else 0 := by
  have rows (l : List (Nat × RsLink)) : (fun q => longer f p out l q 0 ++ longer f p out l q 1) =
      Function.update (fun q => f q 0 ++ f q 1) p
        (Function.update (f p) out l 0 ++ Function.update (f p) out l 1) := by
    funext q
    by_cases eq : q = p
    · subst eq
      simp [longer]
    · simp [longer, eq]
  have short := countP_flatMap_update once there (fun q => f q 0 ++ f q 1)
    (Function.update (f p) out rest 0 ++ Function.update (f p) out rest 1) (w.asks d num)
  have long := countP_flatMap_update once there (fun q => f q 0 ++ f q 1)
    (Function.update (f p) out (x :: rest) 0 ++ Function.update (f p) out (x :: rest) 1)
    (w.asks d num)
  have more : (Function.update (f p) out (x :: rest) 0 ++
      Function.update (f p) out (x :: rest) 1).countP (w.asks d num) =
      (Function.update (f p) out rest 0 ++ Function.update (f p) out rest 1).countP (w.asks d num) +
        if w.asks d num x then 1 else 0 := by
    have cases : out = 0 ∨ out = 1 := by omega
    rcases cases with rfl | rfl
    · simp only [List.countP_append, List.countP_cons, Function.update_self,
        Function.update_of_ne Nat.one_ne_zero]
      omega
    · simp only [List.countP_append, List.countP_cons, Function.update_self,
        Function.update_of_ne Nat.zero_ne_one]
      omega
  simp only [Wiring.waits, Wiring.chains, rows]
  change List.countP (w.asks d num) _ = List.countP (w.asks d num) _ + _
  omega

variable (once : flight.Nodup) (there : p ∈ flight) (low : out ≤ 1)

include once there low

/-- A link that is no longer valid leaves a chain. -/
theorem skip (h : Awake { w with odep := longer f p out (x :: rest) } st flight)
    (invalid : w.valid x.2 = false) : Awake { w with odep := longer f p out rest } st flight where
  named q out' filled := by
    obtain ⟨y, here⟩ := List.exists_mem_of_ne_nil _ filled
    exact h.named q out' (List.ne_nil_of_mem (mem_longer here))
  older q out' y here := h.older q out' y (mem_longer here)
  waits d hd num small := by
    have before := h.waits d hd num small
    have asks : w.asks d num x = false := by simp [Wiring.asks, invalid]
    rw [waits_longer once there low, asks] at before
    exact before
  entries := h.entries
  sorted := h.sorted
  keys := h.keys
  chosen := h.chosen

/-- A consumer hears that its input is ready. -/
theorem wake (h : Awake { w with odep := longer f p out (x :: rest) } st flight)
    (valid : w.valid x.2 = true) (waits : (st x.2.rs).idep x.1 = false)
    (others : ∀ e ≠ x.2.rs, st' e = st e) (mine : st' x.2.rs = (st x.2.rs).settle x.1 true) :
    Awake { w with odep := longer f p out rest } st' flight := by
  constructor
  case named =>
    intro q out' filled
    obtain ⟨y, here⟩ := List.exists_mem_of_ne_nil _ filled
    rw [kept_part Standby.names others (by rw [mine]; rfl)]
    exact h.named q out' (List.ne_nil_of_mem (mem_longer here))
  case older => exact fun q out' y here => h.older q out' y (mem_longer here)
  case waits =>
    intro d hd num small
    have before := h.waits d hd num small
    rw [waits_longer once there low] at before
    by_cases eq : d = x.2.rs
    · subst eq
      rw [mine, Standby.settle]
      by_cases this : num = x.1
      · subst this
        have asks : w.asks x.2.rs x.1 x = true := by simp [Wiring.asks, valid]
        rw [asks, waits] at before
        simpa using before
      · have asks : w.asks x.2.rs num x = false := by simp [Wiring.asks, Ne.symm this]
        rw [asks] at before
        simpa [this] using before
    · have asks : w.asks d num x = false := by simp [Wiring.asks, Ne.symm eq]
      rw [asks] at before
      rw [others d eq]
      simpa using before
  case entries =>
    intro d hd fu
    rw [kept_part Standby.due others (by rw [mine]; rfl)]
    exact h.entries d hd fu
  case sorted => exact h.sorted
  case keys => exact h.keys
  case chosen =>
    intro fu l picked holds
    rw [kept_part Standby.issued others (by rw [mine]; rfl)]
    exact h.chosen fu l picked holds

end Chains

section Queues

/-- An instruction enters the ready queue in which it belongs. -/
theorem enqueue (h : Awake w st flight) (free : (st d).due = none) (id fu : Nat)
    (others : ∀ e ≠ d, st' e = st e) (mine : st' d = (st d).join fu) :
    Awake (w.requeue fu (EventQueue.insert false (w.seq d % 2 ^ 32) (w.link d id) (w.ready fu)))
      st' flight := by
  constructor
  case named =>
    intro p out filled
    rw [kept_part Standby.names others (by rw [mine]; rfl)]
    exact h.named p out filled
  case older => exact h.older
  case waits =>
    intro e he num low
    rw [kept_part Standby.idep others (by rw [mine]; rfl)]
    exact h.waits e he num low
  case entries =>
    intro e he u
    have before := h.entries e he u
    by_cases eq : u = fu
    · subst eq
      rw [Wiring.entries_requeue, (EventQueue.insert_perm false _ _ _).countP_eq,
        List.countP_cons]
      rw [Wiring.entries] at before
      rw [before]
      by_cases this : e = d
      · subst this
        have made : w.valid (w.link e id) = true := beq_self_eq_true _
        have here : (w.link e id).rs = e := rfl
        rw [mine, free, made, here]
        simp [Standby.join]
      · have other : (w.link d id).rs ≠ e := Ne.symm this
        rw [others e this]
        simp [other]
    · rw [Wiring.entries_requeue_of_ne w eq, before]
      by_cases this : e = d
      · subst this
        rw [mine, free, Standby.join]
        simp [Ne.symm eq]
      · rw [others e this]
  case sorted =>
    exact (Function.forall_update_iff w.ready (p := fun _ q => q.Pairwise _)).mpr
      ⟨EventQueue.sorted_insert (h.sorted fu), fun u _ => h.sorted u⟩
  case keys =>
    refine (Function.forall_update_iff w.ready
      (p := fun _ q => ∀ x ∈ q, x.1 = x.2.made % 2 ^ 32)).mpr ⟨fun x here => ?_, fun u _ => h.keys u⟩
    rcases EventQueue.mem_insert.mp here with rfl | here
    · rfl
    · exact h.keys fu x here
  case chosen =>
    intro u l picked holds
    rw [kept_part Standby.issued others (by rw [mine]; rfl)]
    refine (h.chosen u l picked holds).imp_left ?_
    rintro ⟨x, here, same⟩
    refine ⟨x, ?_, same⟩
    by_cases eq : u = fu
    · subst eq
      simp only [Wiring.requeue, Function.update_self, EventQueue.mem_insert]
      exact .inr here
    · simpa [Wiring.requeue, eq] using here

/-- Links leave a ready queue, with the instruction that is issued or as no longer valid. -/
theorem shorten (h : Awake w st flight) {q : List (Nat × RsLink)} (sub : q.Sublist (w.ready fu))
    (entries : ∀ d ∈ flight, ∀ u, (w.requeue fu q).entries u d =
      if (st' d).due = some u then 1 else 0)
    (names : ∀ d, (st' d).names = (st d).names) (idep : ∀ d, (st' d).idep = (st d).idep)
    (issued : ∀ d, (st d).issued = true → (st' d).issued = true)
    (left : ∀ x ∈ w.ready fu, w.valid x.2 = true → x ∈ q ∨ (st' x.2.rs).issued = true) :
    Awake (w.requeue fu q) st' flight := by
  constructor
  case named =>
    intro p out filled
    rw [names]
    exact h.named p out filled
  case older => exact h.older
  case waits =>
    intro e he num low
    rw [idep]
    exact h.waits e he num low
  case entries => exact entries
  case sorted =>
    exact (Function.forall_update_iff w.ready (p := fun _ q => q.Pairwise _)).mpr
      ⟨(h.sorted fu).sublist sub, fun u _ => h.sorted u⟩
  case keys =>
    exact (Function.forall_update_iff w.ready
      (p := fun _ q => ∀ x ∈ q, x.1 = x.2.made % 2 ^ 32)).mpr
        ⟨fun x here => h.keys fu x (sub.subset here), fun u _ => h.keys u⟩
  case chosen =>
    intro u l picked holds
    rcases h.chosen u l picked holds with ⟨x, here, rfl⟩ | gone
    · by_cases eq : u = fu
      · subst eq
        refine (left x here holds).imp_left fun stays => ⟨x, ?_, rfl⟩
        simpa [Wiring.requeue] using stays
      · exact .inl ⟨x, by simpa [Wiring.requeue, eq] using here, rfl⟩
    · exact .inr (issued _ gone)

/-- An instruction leaves its ready queue for its function unit. -/
theorem issue (h : Awake w st flight) (here : x.2.rs ∈ flight) (valid : w.valid x.2 = true)
    {q : List (Nat × RsLink)} (parts : (w.ready fu).Perm (x :: q)) (sub : q.Sublist (w.ready fu))
    (others : ∀ e ≠ x.2.rs, st' e = st e) (mine : st' x.2.rs = (st x.2.rs).depart) :
    Awake (w.requeue fu q) st' flight := by
  refine h.shorten sub (fun e he u => ?_) (kept_part Standby.names others (by rw [mine]; rfl))
    (kept_part Standby.idep others (by rw [mine]; rfl)) (fun d gone => ?_) fun y there _ => ?_
  · have before := h.entries e he u
    have once := h.entries x.2.rs here fu
    rw [Wiring.entries, parts.countP_eq, List.countP_cons, valid] at once
    simp only [BEq.rfl, Bool.and_self, if_true] at once
    have due : (st x.2.rs).due = some fu := by
      by_contra other
      rw [if_neg other] at once
      omega
    rw [if_pos due] at once
    by_cases this : e = x.2.rs
    · subst this
      rw [mine, Standby.depart]
      by_cases eq : u = fu
      · subst eq
        rw [Wiring.entries_requeue]
        simpa using once
      · rw [Wiring.entries_requeue_of_ne w eq, before, due]
        simp [Ne.symm eq]
    · rw [others e this]
      by_cases eq : u = fu
      · subst eq
        rw [Wiring.entries, parts.countP_eq, List.countP_cons] at before
        rw [Wiring.entries_requeue]
        simpa [Ne.symm this] using before
      · rw [Wiring.entries_requeue_of_ne w eq, before]
  · by_cases eq : d = x.2.rs
    · rw [eq, mine]
      rfl
    · rwa [others d eq]
  · rcases List.mem_cons.mp (parts.mem_iff.mp there) with rfl | stays
    · right
      rw [mine]
      rfl
    · exact .inl stays

/-- Links that are no longer valid leave the front of a ready queue. -/
theorem purge (h : Awake w st flight) (fu : Nat) :
    Awake (w.requeue fu ((w.ready fu).dropWhile fun x => !w.valid x.2)) st flight := by
  have parts := List.takeWhile_append_dropWhile (p := fun x : Nat × RsLink => !w.valid x.2)
    (l := w.ready fu)
  have dead : ∀ y ∈ (w.ready fu).takeWhile fun x => !w.valid x.2, w.valid y.2 = false := by
    intro y here
    simpa using List.mem_takeWhile_imp here
  refine h.shorten (List.dropWhile_sublist _) (fun e he u => ?_) (fun _ => rfl) (fun _ => rfl)
    (fun _ => id) fun y there holds => ?_
  · rw [← h.entries e he u]
    by_cases eq : u = fu
    · subst eq
      have none : ((w.ready u).takeWhile fun x => !w.valid x.2).countP
          (fun x => w.valid x.2 && x.2.rs == e) = 0 := by
        rw [List.countP_eq_zero]
        intro y here
        simp [dead y here]
      rw [Wiring.entries_requeue, Wiring.entries]
      conv_rhs => rw [← parts, List.countP_append, none, Nat.zero_add]
    · exact Wiring.entries_requeue_of_ne w eq _ e
  · rw [← parts] at there
    rcases List.mem_append.mp there with front | back
    · rw [dead y front] at holds
      cases holds
    · exact .inl back

/-- A unit marks the first instruction of its ready queue. -/
theorem choose (h : Awake w st flight) (fu : Nat) :
    Awake { w with chosen := Function.update w.chosen fu ((w.ready fu).head?.map Prod.snd) } st
      flight where
  named := h.named
  older := h.older
  waits := h.waits
  entries := h.entries
  sorted := h.sorted
  keys := h.keys
  chosen u l picked holds := by
    by_cases eq : u = fu
    · subst eq
      simp only [Function.update_self] at picked
      obtain ⟨x, first, rfl⟩ := Option.map_eq_some_iff.mp picked
      exact .inl ⟨x, List.mem_of_mem_head? first, rfl⟩
    · simp only [Function.update_of_ne eq] at picked
      exact h.chosen u l picked holds

end Queues

/-- A valid link in a chain stands for an input that is not ready. -/
theorem unready (h : Awake w st flight) (wired : Wired w flight) (hx : x ∈ w.odep p out)
    (valid : w.valid x.2 = true) : x.2.rs ∈ flight ∧ (st x.2.rs).idep x.1 = false := by
  have inside := ((wired.known x.2 (.odep hx)).2 (eq_of_beq valid)).1
  refine ⟨inside, ?_⟩
  have there : p ∈ flight := by
    by_contra apart
    rw [wired.idle p out apart] at hx
    cases hx
  have low : out = 0 ∨ out = 1 := by
    by_contra high
    rw [wired.outs p out (by omega)] at hx
    cases hx
  have chained : x ∈ w.chains flight := by
    refine Wiring.mem_chains.mpr ⟨p, there, ?_⟩
    rcases low with rfl | rfl
    · exact .inl hx
    · exact .inr hx
  have some : 0 < w.waits flight x.2.rs x.1 := by
    refine List.countP_pos_iff.mpr ⟨x, chained, ?_⟩
    rw [Wiring.asks, valid, beq_self_eq_true, beq_self_eq_true]
    rfl
  have once := h.waits x.2.rs inside x.1 (wired.inputs p out x hx)
  by_contra ready
  rw [if_pos (Bool.eq_true_of_not_eq_false ready)] at once
  omega

end Awake

/-- An instruction comes into flight, and has been linked for its first `n` inputs. -/
structure Entering (w : Wiring) (st : Nat → Standby) (flight : List Nat) (d n : Nat) : Prop
    extends Awake w st flight where
  bare : w.odep d = fun _ => []
  asked : ∀ num < 3, w.waits flight d num = if num < n ∧ (st d).idep num = false then 1 else 0
  absent : ∀ fu, w.entries fu d = 0

namespace Entering

open Awake

variable {w : Wiring} {st st' : Nat → Standby} {flight : List Nat} {d n p out : Nat}

theorem start (h : Awake w st flight) (wired : Wired w flight) (outside : d ∉ flight) :
    Entering w st flight d 0 := by
  refine ⟨h, funext fun out => wired.idle d out outside, fun num _ => ?_, fun fu => ?_⟩
  · have none : w.waits flight d num = 0 := by
      rw [Wiring.waits, List.countP_eq_zero]
      intro x here holds
      simp only [Wiring.asks, Bool.and_eq_true, beq_iff_eq] at holds
      obtain ⟨⟨valid, rfl⟩, -⟩ := holds
      obtain ⟨p, -, held⟩ := Wiring.mem_chains.mp here
      rcases held with held | held <;> exact outside (valid_here wired (.odep held) valid)
    rw [none]
    simp
  · rw [Wiring.entries, List.countP_eq_zero]
    intro x here holds
    simp only [Bool.and_eq_true, beq_iff_eq] at holds
    obtain ⟨valid, rfl⟩ := holds
    exact outside (valid_here wired (.ready here) valid)

theorem congr (h : Entering w st flight d n) (free : List Nat) (event : List (Nat × RsLink))
    (unit : Nat → Nat) : Entering { w with free := free, event := event, unit := unit } st flight d n :=
  ⟨h.toAwake.congr free event unit, h.bare, h.asked, h.absent⟩

/-- The instruction itself may change in what others do not see. -/
theorem change (h : Entering w st flight d n) (outside : d ∉ flight)
    (others : ∀ e ≠ d, st' e = st e) (issued : (st' d).issued = (st d).issued) {m : Nat}
    (asked : ∀ num < 3, w.waits flight d num =
      if num < m ∧ (st' d).idep num = false then 1 else 0) : Entering w st' flight d m := by
  have same {e : Nat} (he : e ∈ flight) : st' e = st e := by
    refine others e ?_
    rintro rfl
    exact outside he
  refine ⟨⟨fun p out filled => ?_, h.older, fun e he num low => ?_, fun e he fu => ?_, h.sorted,
    h.keys, fun fu l picked holds => ?_⟩, h.bare, asked, h.absent⟩
  · have other : p ≠ d := by
      rintro rfl
      rw [h.bare] at filled
      exact filled rfl
    rw [others p other]
    exact h.named p out filled
  · rw [same he]
    exact h.waits e he num low
  · rw [same he]
    exact h.entries e he fu
  · rw [kept_part Standby.issued others issued]
    exact h.chosen fu l picked holds

/-- The next input is ready. -/
theorem settled (h : Entering w st flight d n) (outside : d ∉ flight)
    (others : ∀ e ≠ d, st' e = st e) (mine : st' d = (st d).settle n true) :
    Entering w st' flight d (n + 1) := by
  refine h.change outside others (by rw [mine]; rfl) fun num low => ?_
  rw [h.asked num low, mine, Standby.settle]
  by_cases eq : num = n
  · simp [eq]
  · have less : num < n + 1 ↔ num < n := by omega
    simp [less, eq]

theorem longer_self (f : Nat → Nat → List (Nat × RsLink)) (p out : Nat) :
    longer f p out (f p out) = f := by
  rw [longer, Function.update_eq_self, Function.update_eq_self]

theorem mem_longer_cons {f : Nat → Nat → List (Nat × RsLink)} {x y : Nat × RsLink} {q out' : Nat}
    (here : y ∈ longer f p out (x :: f p out) q out') :
    q = p ∧ out' = out ∧ y = x ∨ y ∈ f q out' := by
  rw [longer_apply] at here
  split at here
  · rename_i place
    obtain ⟨rfl, rfl⟩ := place
    exact (List.mem_cons.mp here).imp_left fun same => ⟨rfl, rfl, same⟩
  · exact .inr here

/-- The next input waits for an older instruction. -/
theorem waiting (h : Entering w st flight d n) (once : flight.Nodup) (outside : d ∉ flight)
    (there : p ∈ flight) (low : out ≤ 1) (named : (st p).names out ≠ 0)
    (younger : w.seq p < w.seq d) (others : ∀ e ≠ d, st' e = st e)
    (mine : st' d = (st d).settle n false) (id : Nat) :
    Entering { w with odep := longer w.odep p out ((n, w.link d id) :: w.odep p out) } st' flight d
      (n + 1) := by
  have waits (e num : Nat) : { w with
        odep := longer w.odep p out ((n, w.link d id) :: w.odep p out) }.waits flight e num =
      w.waits flight e num + if num = n ∧ e = d then 1 else 0 := by
    have valid : w.valid (w.link d id) = true := beq_self_eq_true _
    have asks : w.asks e num (n, w.link d id) = decide (num = n ∧ e = d) := by
      have rs : (w.link d id).rs = d := rfl
      simp only [Wiring.asks, valid, rs, Bool.true_and, Bool.decide_and, Bool.and_comm, beq_eq_decide,
        eq_comm]
    rw [waits_longer once there low, longer_self, asks]
    simp only [decide_eq_true_eq]
  have same {e : Nat} (he : e ∈ flight) : e ≠ d ∧ st' e = st e := by
    have ne : e ≠ d := by
      rintro rfl
      exact outside he
    exact ⟨ne, others e ne⟩
  refine ⟨⟨fun q out' filled => ?_, fun q out' y here valid => ?_, fun e he num small => ?_,
    fun e he fu => ?_, h.sorted, h.keys, fun fu l picked holds => ?_⟩, ?_, fun num small => ?_,
    h.absent⟩
  · obtain ⟨y, here⟩ := List.exists_mem_of_ne_nil _ filled
    rw [kept_part Standby.names others (by rw [mine]; rfl)]
    rcases mem_longer_cons here with ⟨rfl, rfl, -⟩ | old
    · exact named
    · exact h.named q out' (List.ne_nil_of_mem old)
  · rcases mem_longer_cons here with ⟨rfl, -, rfl⟩ | old
    · exact younger
    · exact h.older q out' y old valid
  · obtain ⟨ne, same⟩ := same he
    rw [waits, same, h.waits e he num small]
    simp [ne]
  · rw [(same he).2]
    exact h.entries e he fu
  · rw [kept_part Standby.issued others (by rw [mine]; rfl)]
    exact h.chosen fu l picked holds
  · have ne : d ≠ p := by
      rintro rfl
      exact outside there
    exact (Function.update_of_ne ne _ _).trans h.bare
  · rw [waits, h.asked num small, mine, Standby.settle]
    by_cases eq : num = n
    · simp [eq]
    · have less : num < n + 1 ↔ num < n := by omega
      simp [less, eq]

/-- The inputs are linked. -/
theorem entered (h : Entering w st flight d 3) (due : (st d).due = none) :
    Awake w st (flight ++ [d]) := by
  have chains : w.chains (flight ++ [d]) = w.chains flight := by
    simp [Wiring.chains, h.bare]
  refine ⟨h.named, h.older, fun e he num low => ?_, fun e he fu => ?_, h.sorted, h.keys, h.chosen⟩
  · rw [Wiring.waits, chains]
    rcases List.mem_append.mp he with old | new
    · exact h.waits e old num low
    · rw [List.mem_singleton.mp new]
      refine (h.asked num low).trans ?_
      cases (st d).idep num <;> simp [low]
  · rcases List.mem_append.mp he with old | new
    · exact h.entries e old fu
    · rw [List.mem_singleton.mp new, h.absent, due]
      simp

end Entering

end Godson

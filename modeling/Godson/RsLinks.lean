import Godson.Inflight

/-! The links from one instruction to another: each link of the pool is in one list, and a
link is valid only while the instruction it was made for is in flight. -/
namespace Godson

open Mips

/-- The links of a list. -/
def linkIds (l : List (Nat × RsLink)) : List Nat := l.map fun x => x.2.id

/-- Where links are, and what they are compared with. -/
structure Wiring where
  free : List Nat
  ready : Nat → List (Nat × RsLink)
  chosen : Nat → Option RsLink
  event : List (Nat × RsLink)
  odep : Nat → Nat → List (Nat × RsLink)
  tag : Nat → Nat
  seq : Nat → Nat
  unit : Nat → Nat

namespace Wiring

/-- The links to the consumers of an instruction. -/
def outIds (odep : Nat → Nat → List (Nat × RsLink)) (d : Nat) : List Nat :=
  linkIds (odep d 0) ++ linkIds (odep d 1)

/-- The links of the pool, list after list, with the instructions `flight` in flight. -/
def ids (w : Wiring) (flight : List Nat) : List Nat :=
  w.free ++ ((List.range numFu).flatMap (fun fu => linkIds (w.ready fu)) ++
    (linkIds w.event ++ flight.flatMap (outIds w.odep)))

/-- A link that the program can look at. -/
inductive Known (w : Wiring) : RsLink → Prop
  | ready {fu : Nat} {x : Nat × RsLink} : x ∈ w.ready fu → Known w x.2
  | chosen {fu : Nat} {l : RsLink} : w.chosen fu = some l → Known w l
  | event {x : Nat × RsLink} : x ∈ w.event → Known w x.2
  | odep {d out : Nat} {x : Nat × RsLink} : x ∈ w.odep d out → Known w x.2

/-- The link that is made for an instruction. -/
def link (w : Wiring) (rs id : Nat) : RsLink := ⟨id, rs, w.tag rs, w.seq rs⟩

/-- A link is older than the descriptor it points to, or made for the instruction there. -/
def Sound (w : Wiring) (flight : List Nat) (l : RsLink) : Prop :=
  l.tag ≤ w.tag l.rs ∧ (l.tag = w.tag l.rs → l.rs ∈ flight ∧ l.made = w.seq l.rs)

theorem Known.mono {w w' : Wiring} {l : RsLink} (h : w'.Known l)
    (ready : ∀ fu, ∀ x ∈ w'.ready fu, x ∈ w.ready fu) (chosen : w'.chosen = w.chosen)
    (event : ∀ x ∈ w'.event, x ∈ w.event)
    (odep : ∀ d out, ∀ x ∈ w'.odep d out, x ∈ w.odep d out) : w.Known l := by
  cases h with
  | ready hx => exact .ready (ready _ _ hx)
  | chosen hx => exact .chosen (chosen ▸ hx)
  | event hx => exact .event (event _ hx)
  | odep hx => exact .odep (odep _ _ _ hx)

end Wiring

/-- The links with the instructions `flight` in flight. -/
structure Wired (w : Wiring) (flight : List Nat) : Prop where
  pool : (w.ids flight).Perm (List.range maxRsLinks)
  idle : ∀ d out, d ∉ flight → w.odep d out = []
  outs : ∀ d out, 1 < out → w.odep d out = []
  inputs : ∀ d out, ∀ x ∈ w.odep d out, x.1 < 3
  known : ∀ l, w.Known l → w.Sound flight l
  unit : ∀ d, w.unit d < numFu

section Counting

variable {α : Type}

/-- One of several lists is replaced. -/
theorem count_flatMap_update [DecidableEq α] {us : List Nat} {u : Nat} (once : us.Nodup) (here : u ∈ us)
    (f : Nat → List α) (l : List α) (a : α) :
    (us.flatMap (Function.update f u l)).count a + (f u).count a =
      (us.flatMap f).count a + l.count a := by
  induction us with
  | nil => cases here
  | cons v us ih =>
    obtain ⟨new, rest⟩ := List.nodup_cons.mp once
    simp only [List.flatMap_cons, List.count_append]
    rcases List.mem_cons.mp here with rfl | here
    · have same : us.flatMap (Function.update f u l) = us.flatMap f :=
        List.flatMap_congr fun w hw => by
          rw [Function.update_of_ne]
          rintro rfl
          exact new hw
      rw [same, Function.update_self]
      omega
    · have ne : v ≠ u := by
        rintro rfl
        exact new here
      have ih := ih rest here
      rw [Function.update_of_ne ne]
      omega

theorem flatMap_update_of_notMem {us : List Nat} {u : Nat} (out : u ∉ us) (f : Nat → List α)
    (l : List α) : us.flatMap (Function.update f u l) = us.flatMap f :=
  List.flatMap_congr fun w hw => by
    rw [Function.update_of_ne]
    rintro rfl
    exact out hw

end Counting

namespace Wired

variable {w w' : Wiring} {flight flight' : List Nat} {d : Nat}

theorem count (h : Wired w flight) (id : Nat) :
    (w.ids flight).count id = (List.range maxRsLinks).count id := h.pool.count_eq id

/-- What a changed wiring has to show. -/
theorem exchange (h : Wired w flight)
    (pool : ∀ id, (w'.ids flight').count id = (w.ids flight).count id)
    (idle : ∀ d out, d ∉ flight' → w'.odep d out = [])
    (outs : ∀ d out, 1 < out → w'.odep d out = [])
    (inputs : ∀ d out, ∀ x ∈ w'.odep d out, x.1 < 3)
    (known : ∀ l, w'.Known l → w'.Sound flight' l) (unit : w'.unit = w.unit) :
    Wired w' flight' where
  pool := List.perm_iff_count.mpr fun id => (pool id).trans (h.count id)
  idle := idle
  outs := outs
  inputs := inputs
  known := known
  unit := unit ▸ h.unit

/-- The order in which instructions are listed does not matter. -/
theorem perm (h : Wired w flight) (same : flight.Perm flight') : Wired w flight' := by
  refine h.exchange (fun id => ?_) (fun d out outside => ?_) h.outs h.inputs (fun l hl => ?_) rfl
  · simp only [Wiring.ids, List.count_append, (same.flatMap_right _).count_eq]
  · exact h.idle d out fun inside => outside (same.mem_iff.mp inside)
  · obtain ⟨le, valid⟩ := h.known l hl
    exact ⟨le, fun eq => ⟨same.mem_iff.mp (valid eq).1, (valid eq).2⟩⟩

/-- A descriptor comes into flight. -/
theorem enter (h : Wired w flight) (outside : d ∉ flight) : Wired w (d :: flight) := by
  refine h.exchange (fun id => ?_) (fun e out he => ?_) h.outs h.inputs (fun l hl => ?_) rfl
  · have none : Wiring.outIds w.odep d = [] := by
      rw [Wiring.outIds, h.idle d 0 outside, h.idle d 1 outside]
      rfl
    simp only [Wiring.ids, List.flatMap_cons, none, List.nil_append]
  · exact h.idle e out fun inside => he (List.mem_cons_of_mem _ inside)
  · obtain ⟨le, valid⟩ := h.known l hl
    exact ⟨le, fun eq => ⟨List.mem_cons_of_mem _ (valid eq).1, (valid eq).2⟩⟩

/-- The consumers of one instruction change. -/
theorem count_outs_update (once : flight.Nodup) (here : d ∈ flight)
    (odep : Nat → Nat → List (Nat × RsLink)) (row : Nat → List (Nat × RsLink)) (a : Nat) :
    (flight.flatMap (Wiring.outIds (Function.update odep d row))).count a +
        ((linkIds (odep d 0)).count a + (linkIds (odep d 1)).count a) =
      (flight.flatMap (Wiring.outIds odep)).count a +
        ((linkIds (row 0)).count a + (linkIds (row 1)).count a) := by
  have same : Wiring.outIds (Function.update odep d row) =
      Function.update (Wiring.outIds odep) d (linkIds (row 0) ++ linkIds (row 1)) := by
    funext e
    by_cases eq : e = d
    · subst eq
      simp [Wiring.outIds]
    · simp [Wiring.outIds, eq]
  have moved := count_flatMap_update once here (Wiring.outIds odep)
    (linkIds (row 0) ++ linkIds (row 1)) a
  rw [List.count_append] at moved
  rw [same, ← moved, Wiring.outIds, List.count_append]

theorem count_row_cons (row : Nat → List (Nat × RsLink)) (x : Nat × RsLink) {out : Nat}
    (low : out ≤ 1) (a : Nat) :
    (linkIds (Function.update row out (x :: row out) 0)).count a +
        (linkIds (Function.update row out (x :: row out) 1)).count a =
      (linkIds (row 0)).count a + (linkIds (row 1)).count a + if x.2.id == a then 1 else 0 := by
  rcases Nat.le_one_iff_eq_zero_or_eq_one.mp low with rfl | rfl
  · simp [linkIds, List.count_cons]
    omega
  · simp [linkIds, List.count_cons]
    omega

/-- A new link is sound. -/
theorem sound_link {rs : Nat} (here : rs ∈ flight) (id : Nat) : w.Sound flight (w.link rs id) :=
  ⟨Nat.le_refl _, fun _ => ⟨here, rfl⟩⟩

section Enter

variable {rs id : Nat} {pool : List Nat} {key : Nat}

/-- A new link is put into a ready queue. -/
theorem enqueue (h : Wired w flight) (filled : w.free = id :: pool) (here : rs ∈ flight)
    {fu : Nat} (unit : fu < numFu) :
    Wired { w with
      free := pool
      ready := Function.update w.ready fu
        (EventQueue.insert false key (w.link rs id) (w.ready fu)) } flight := by
  refine h.exchange (fun a => ?_) h.idle h.outs h.inputs (fun l hl => ?_) rfl
  · have mine : fu ∈ List.range numFu := List.mem_range.mpr unit
    have moved := count_flatMap_update List.nodup_range mine (fun fu => linkIds (w.ready fu))
      (linkIds (EventQueue.insert false key (w.link rs id) (w.ready fu))) a
    have more : (linkIds (EventQueue.insert false key (w.link rs id) (w.ready fu))).count a =
        (id :: linkIds (w.ready fu)).count a :=
      ((EventQueue.insert_perm false key (w.link rs id) (w.ready fu)).map _).count_eq a
    have same : (fun u => linkIds (Function.update w.ready fu
        (EventQueue.insert false key (w.link rs id) (w.ready fu)) u)) =
        Function.update (fun u => linkIds (w.ready u)) fu
          (linkIds (EventQueue.insert false key (w.link rs id) (w.ready fu))) := by
      funext u
      by_cases eq : u = fu <;> simp [eq]
    simp only [Wiring.ids, List.count_append, filled, List.count_cons,
      same] at moved more ⊢
    omega
  · cases hl with
    | @ready u x hx =>
      simp only at hx
      by_cases eq : u = fu
      · subst eq
        rw [Function.update_self, EventQueue.mem_insert] at hx
        rcases hx with rfl | hx
        · exact sound_link here id
        · exact h.known _ (.ready hx)
      · rw [Function.update_of_ne eq] at hx
        exact h.known _ (.ready hx)
    | chosen hx => exact h.known _ (.chosen hx)
    | event hx => exact h.known _ (.event hx)
    | odep hx => exact h.known _ (.odep hx)

/-- A new link is put into the event queue. -/
theorem schedule (h : Wired w flight) (filled : w.free = id :: pool) (here : rs ∈ flight) :
    Wired { w with
      free := pool
      event := EventQueue.insert false key (w.link rs id) w.event } flight := by
  refine h.exchange (fun a => ?_) h.idle h.outs h.inputs (fun l hl => ?_) rfl
  · have more : (linkIds (EventQueue.insert false key (w.link rs id) w.event)).count a =
        (id :: linkIds w.event).count a :=
      ((EventQueue.insert_perm false key (w.link rs id) w.event).map _).count_eq a
    simp only [Wiring.ids, List.count_append, filled, List.count_cons] at more ⊢
    omega
  · cases hl with
    | ready hx => exact h.known _ (.ready hx)
    | chosen hx => exact h.known _ (.chosen hx)
    | event hx =>
      rw [EventQueue.mem_insert] at hx
      rcases hx with rfl | hx
      · exact sound_link here id
      · exact h.known _ (.event hx)
    | odep hx => exact h.known _ (.odep hx)

/-- A new link is put into a list of consumers. -/
theorem depend (h : Wired w flight) (once : flight.Nodup) (filled : w.free = id :: pool)
    (here : rs ∈ flight) {p out : Nat} (there : p ∈ flight) (low : out ≤ 1) (input : key < 3) :
    Wired { w with
      free := pool
      odep := Function.update w.odep p
        (Function.update (w.odep p) out ((key, w.link rs id) :: w.odep p out)) } flight := by
  refine h.exchange (fun a => ?_) (fun e out' he => ?_) (fun e out' high => ?_)
    (fun e out' x hx => ?_) (fun l hl => ?_) rfl
  · have moved := count_outs_update once there w.odep
      (Function.update (w.odep p) out ((key, w.link rs id) :: w.odep p out)) a
    have more := count_row_cons (w.odep p) (key, w.link rs id) low a
    have same : (w.link rs id).id = id := rfl
    simp only [Wiring.ids, List.count_append, filled, List.count_cons] at moved more ⊢
    simp only [same] at more
    omega
  · have ne : e ≠ p := by
      rintro rfl
      exact he there
    simp only [Function.update_of_ne ne]
    exact h.idle e out' he
  · by_cases eq : e = p
    · subst eq
      have ne : out' ≠ out := by omega
      simp only [Function.update_self, Function.update_of_ne ne]
      exact h.outs e out' high
    · simp only [Function.update_of_ne eq]
      exact h.outs e out' high
  · by_cases eq : e = p
    · subst eq
      simp only [Function.update_self] at hx
      by_cases eq' : out' = out
      · subst eq'
        rw [Function.update_self] at hx
        rcases List.mem_cons.mp hx with rfl | hx
        · exact input
        · exact h.inputs _ _ _ hx
      · rw [Function.update_of_ne eq'] at hx
        exact h.inputs _ _ _ hx
    · simp only [Function.update_of_ne eq] at hx
      exact h.inputs _ _ _ hx
  · cases hl with
    | ready hx => exact h.known _ (.ready hx)
    | chosen hx => exact h.known _ (.chosen hx)
    | event hx => exact h.known _ (.event hx)
    | @odep e out' x hx =>
      simp only at hx
      by_cases eq : e = p
      · subst eq
        rw [Function.update_self] at hx
        by_cases eq' : out' = out
        · subst eq'
          rw [Function.update_self] at hx
          rcases List.mem_cons.mp hx with rfl | hx
          · exact sound_link here id
          · exact h.known _ (.odep hx)
        · rw [Function.update_of_ne eq'] at hx
          exact h.known _ (.odep hx)
      · rw [Function.update_of_ne eq] at hx
        exact h.known _ (.odep hx)

end Enter

section Leave

/-- Links leave a ready queue for the pool. -/
theorem dequeue (h : Wired w flight) {fu : Nat} (unit : fu < numFu) {gone : List Nat}
    {rest : List (Nat × RsLink)} (parts : (linkIds (w.ready fu)).Perm (gone ++ linkIds rest))
    (part : ∀ x ∈ rest, x ∈ w.ready fu) :
    Wired { w with free := gone ++ w.free, ready := Function.update w.ready fu rest } flight := by
  refine h.exchange (fun a => ?_) h.idle h.outs h.inputs (fun l hl => ?_) rfl
  · have mine : fu ∈ List.range numFu := List.mem_range.mpr unit
    have moved := count_flatMap_update List.nodup_range mine (fun fu => linkIds (w.ready fu))
      (linkIds rest) a
    have less := parts.count_eq a
    have same : (fun u => linkIds (Function.update w.ready fu rest u)) =
        Function.update (fun u => linkIds (w.ready u)) fu (linkIds rest) := by
      funext u
      by_cases eq : u = fu <;> simp [eq]
    simp only [Wiring.ids, List.count_append, same] at moved less ⊢
    omega
  · refine h.known l (hl.mono (fun u x hx => ?_) rfl (fun _ hx => hx) fun _ _ _ hx => hx)
    simp only at hx
    by_cases eq : u = fu
    · subst eq
      rw [Function.update_self] at hx
      exact part _ hx
    · rwa [Function.update_of_ne eq] at hx

/-- The first link of the event queue goes back to the pool. -/
theorem deliver (h : Wired w flight) {x : Nat × RsLink} {rest : List (Nat × RsLink)}
    (queue : w.event = x :: rest) :
    Wired { w with free := x.2.id :: w.free, event := rest } flight := by
  refine h.exchange (fun a => ?_) h.idle h.outs h.inputs (fun l hl => ?_) rfl
  · simp only [Wiring.ids, List.count_append, queue, linkIds, List.map_cons, List.count_cons]
    omega
  · exact h.known l (hl.mono (fun _ _ hx => hx) rfl
      (fun x hx => queue ▸ List.mem_cons_of_mem _ hx) fun _ _ _ hx => hx)

/-- The first link of a list of consumers goes back to the pool. -/
theorem wake (h : Wired w flight) (once : flight.Nodup) {f : Nat → Nat → List (Nat × RsLink)}
    {p out : Nat} {x : Nat × RsLink} {rest : List (Nat × RsLink)} (there : p ∈ flight)
    (low : out ≤ 1)
    (odep : w.odep = Function.update f p (Function.update (f p) out (x :: rest))) :
    Wired { w with
      free := x.2.id :: w.free
      odep := Function.update f p (Function.update (f p) out rest) } flight := by
  have row : w.odep p = Function.update (f p) out (x :: rest) := by
    rw [odep, Function.update_self]
  have idem : Function.update f p (Function.update (f p) out rest) =
      Function.update w.odep p (Function.update (f p) out rest) := by
    rw [odep, Function.update_idem]
  have part (e out' : Nat) (x' : Nat × RsLink)
      (hx : x' ∈ Function.update f p (Function.update (f p) out rest) e out') :
      x' ∈ w.odep e out' := by
    rw [odep]
    by_cases eq : e = p
    · subst eq
      rw [Function.update_self] at hx ⊢
      by_cases eq' : out' = out
      · subst eq'
        rw [Function.update_self] at hx ⊢
        exact List.mem_cons_of_mem _ hx
      · rwa [Function.update_of_ne eq'] at hx ⊢
    · rwa [Function.update_of_ne eq] at hx ⊢
  refine h.exchange (fun a => ?_) (fun e out' he => ?_) (fun e out' high => ?_)
    (fun e out' x' hx => h.inputs e out' x' (part e out' x' hx)) (fun l hl => ?_) rfl
  · have moved := count_outs_update once there w.odep (Function.update (f p) out rest) a
    simp only [Wiring.ids, List.count_append, idem, List.count_cons] at moved ⊢
    have less : (linkIds (w.odep p 0)).count a + (linkIds (w.odep p 1)).count a =
        (linkIds (Function.update (f p) out rest 0)).count a +
          (linkIds (Function.update (f p) out rest 1)).count a +
          if x.2.id == a then 1 else 0 := by
      rw [row]
      rcases Nat.le_one_iff_eq_zero_or_eq_one.mp low with rfl | rfl <;>
        simp [linkIds, List.count_cons] <;> omega
    omega
  · have ne : e ≠ p := by
      rintro rfl
      exact he there
    have before := h.idle e out' he
    rw [odep, Function.update_of_ne ne] at before
    simp only [Function.update_of_ne ne]
    exact before
  · have before := h.outs e out' high
    have ne : out' ≠ out := by omega
    rw [odep] at before
    by_cases eq : e = p
    · subst eq
      simp only [Function.update_self, Function.update_of_ne ne] at before ⊢
      exact before
    · simp only [Function.update_of_ne eq] at before ⊢
      exact before
  · exact h.known l (hl.mono (fun _ _ hx => hx) rfl (fun _ hx => hx) part)

/-- An instruction leaves flight: its consumers are forgotten, and its tag changes. -/
theorem leave (h : Wired w (d :: flight)) (once : (d :: flight).Nodup) {gone : List Nat}
    (outs : gone.Perm (Wiring.outIds w.odep d)) :
    Wired { w with
      free := gone ++ w.free
      odep := Function.update w.odep d fun _ => []
      tag := Function.update w.tag d (w.tag d + 1) } flight := by
  obtain ⟨new, -⟩ := List.nodup_cons.mp once
  have part (e out : Nat) (x : Nat × RsLink)
      (hx : x ∈ Function.update w.odep d (fun _ => []) e out) : x ∈ w.odep e out := by
    by_cases eq : e = d
    · subst eq
      simp at hx
    · rwa [Function.update_of_ne eq] at hx
  refine h.exchange (fun a => ?_) (fun e out he => ?_) (fun e out high => ?_)
    (fun e out x hx => h.inputs e out x (part e out x hx)) (fun l hl => ?_) rfl
  · have moved := count_outs_update once List.mem_cons_self w.odep (fun _ => []) a
    have same := outs.count_eq a
    simp only [Wiring.outIds, Wiring.ids, List.flatMap_cons, List.count_append, linkIds,
      List.map_nil, List.count_nil, Function.update_self] at moved same ⊢
    omega
  · by_cases eq : e = d
    · subst eq
      simp
    · simp only [Function.update_of_ne eq]
      exact h.idle e out (by simp [eq, he])
  · by_cases eq : e = d
    · subst eq
      simp
    · simp only [Function.update_of_ne eq]
      exact h.outs e out high
  · have before : w.Known l := hl.mono (fun _ _ hx => hx) rfl (fun _ hx => hx) part
    obtain ⟨le, valid⟩ := h.known l before
    by_cases eq : l.rs = d
    · subst eq
      simp only [Wiring.Sound, Function.update_self]
      exact ⟨by omega, fun same => absurd same (by omega)⟩
    · simp only [Wiring.Sound, Function.update_of_ne eq]
      refine ⟨le, fun same => ?_⟩
      obtain ⟨here, made⟩ := valid same
      exact ⟨(List.mem_cons.mp here).resolve_left eq, made⟩

/-- Descriptors get later tags, and those that are not in flight other numbers. -/
theorem recycle (h : Wired w flight) {tag seq : Nat → Nat} (later : ∀ d, w.tag d ≤ tag d)
    (same : ∀ d ∈ flight, seq d = w.seq d) :
    Wired { w with tag := tag, seq := seq } flight := by
  refine h.exchange (fun a => rfl) h.idle h.outs h.inputs (fun l hl => ?_) rfl
  have before : w.Known l :=
    hl.mono (fun _ _ hx => hx) rfl (fun _ hx => hx) fun _ _ _ hx => hx
  obtain ⟨le, valid⟩ := h.known l before
  refine ⟨Nat.le_trans le (later _), fun eq => ?_⟩
  have there := valid (Nat.le_antisymm le (eq ▸ later _))
  exact ⟨there.1, there.2.trans (same _ there.1).symm⟩

/-- An instruction gets a function unit. -/
theorem seat (h : Wired w flight) {unit : Nat → Nat} (fits : ∀ d, unit d < numFu) :
    Wired { w with unit := unit } flight where
  pool := h.pool
  idle := h.idle
  outs := h.outs
  inputs := h.inputs
  known l hl := h.known l (hl.mono (fun _ _ hx => hx) rfl (fun _ hx => hx) fun _ _ _ hx => hx)
  unit := fits

/-- A unit marks a link of its ready queue. -/
theorem choose (h : Wired w flight) {fu : Nat} {l : Option RsLink}
    (here : ∀ l', l = some l' → ∃ x ∈ w.ready fu, x.2 = l') :
    Wired { w with chosen := Function.update w.chosen fu l } flight := by
  refine h.exchange (fun a => rfl) h.idle h.outs h.inputs (fun l' hl => ?_) rfl
  cases hl with
  | ready hx => exact h.known _ (.ready hx)
  | @chosen u l' hx =>
    simp only at hx
    by_cases eq : u = fu
    · subst eq
      rw [Function.update_self] at hx
      obtain ⟨x, inside, rfl⟩ := here l' hx
      exact h.known _ (.ready inside)
    · rw [Function.update_of_ne eq] at hx
      exact h.known _ (.chosen hx)
  | event hx => exact h.known _ (.event hx)
  | odep hx => exact h.known _ (.odep hx)

end Leave

end Wired

namespace Backend

variable {cfg : BackendConfig} {s t : Backend} {flight roq done : List Nat} {d : Nat}

def wiring (s : Backend) : Wiring where
  free := s.rslinkFreeList
  ready := s.readyQueue
  chosen := s.nextIssueItem
  event := s.eventQueue
  odep d := (s.desc d).odepList
  tag d := (s.desc d).tag
  seq d := (s.desc d).seq
  unit d := (s.desc d).fu.unit

section Frames

/-- Only some fields of a descriptor belong to the links. -/
theorem wiring_update {f g : Nat → Descript} (same : ∀ d, (g d).odepList = (f d).odepList ∧
      (g d).tag = (f d).tag ∧ (g d).seq = (f d).seq ∧ (g d).fu = (f d).fu) :
    { s with desc := g }.wiring = { s with desc := f }.wiring := by
  have odep : (fun d => (g d).odepList) = fun d => (f d).odepList := funext fun d => (same d).1
  have tag : (fun d => (g d).tag) = fun d => (f d).tag := funext fun d => (same d).2.1
  have seq : (fun d => (g d).seq) = fun d => (f d).seq := funext fun d => (same d).2.2.1
  have unit : (fun d => (g d).fu.unit) = fun d => (f d).fu.unit :=
    funext fun d => congrArg Fu.unit (same d).2.2.2
  simp only [wiring, odep, tag, seq, unit]

theorem wiring_modDesc {rs : Nat} (f : Descript → Descript)
    (same : (f (s.desc rs)).odepList = (s.desc rs).odepList ∧ (f (s.desc rs)).tag = (s.desc rs).tag ∧
      (f (s.desc rs)).seq = (s.desc rs).seq ∧ (f (s.desc rs)).fu = (s.desc rs).fu) :
    (s.modDesc rs f).wiring = s.wiring := by
  refine wiring_update fun d => ?_
  by_cases eq : d = rs
  · subst eq
    rw [Function.update_self]
    exact same
  · rw [Function.update_of_ne eq]
    exact ⟨rfl, rfl, rfl, rfl⟩

theorem wiring_setOdep {rs : Nat} (row : Descript → Nat → List (Nat × RsLink)) :
    (s.modDesc rs fun d => { d with odepList := row d }).wiring =
      { s.wiring with odep := Function.update s.wiring.odep rs (row (s.desc rs)) } := by
  simp only [wiring, modDesc, Wiring.mk.injEq, true_and]
  refine ⟨?_, ?_, ?_, ?_⟩ <;> funext d <;> by_cases eq : d = rs <;> simp [eq]

end Frames

section Wakeup

variable {f : Nat → Nat → List (Nat × RsLink)}

theorem wiring_readyqEnqueue {rs : Nat} (e : s.readyqEnqueue rs = some t) :
    ∃ id pool, s.rslinkFreeList = id :: pool ∧ t.wiring = { s.wiring with
      free := pool
      ready := Function.update s.readyQueue (s.desc rs).fu.unit
        (EventQueue.insert false ((s.desc rs).seq % 2 ^ 32) (s.wiring.link rs id)
          (s.readyQueue (s.desc rs).fu.unit)) } := by
  obtain ⟨id, pool, filled, rfl⟩ := readyqEnqueue_some e
  have desc : (s.modDesc rs fun d => { d with queued := true }).wiring = s.wiring :=
    wiring_modDesc _ ⟨rfl, rfl, rfl, rfl⟩
  exact ⟨id, pool, filled, congrArg (fun w : Wiring => { w with
    free := pool
    ready := Function.update s.readyQueue (s.desc rs).fu.unit
      (EventQueue.insert false ((s.desc rs).seq % 2 ^ 32) (s.wiring.link rs id)
        (s.readyQueue (s.desc rs).fu.unit)) }) desc⟩

theorem wired_readyqEnqueue {rs : Nat} (h : Wired { s.wiring with odep := f } flight)
    (here : rs ∈ flight) (e : s.readyqEnqueue rs = some t) :
    Wired { t.wiring with odep := f } flight := by
  obtain ⟨id, pool, filled, wires⟩ := wiring_readyqEnqueue e
  rw [wires]
  exact h.enqueue filled here (h.unit rs)

theorem wired_eventqQueueEvent {rs time : Nat} (h : Wired s.wiring flight)
    (here : rs ∈ flight) (e : s.eventqQueueEvent rs time = some t) : Wired t.wiring flight := by
  obtain ⟨-, id, pool, filled, rfl⟩ := eventqQueueEvent_some e
  exact h.schedule filled here

/-- One consumer is woken up, and its link goes back. -/
theorem wired_wakeOne {p out : Nat} {x : Nat × RsLink} {rest : List (Nat × RsLink)}
    (h : Wired { s.wiring with
      odep := Function.update f p (Function.update (f p) out (x :: rest)) } flight)
    (once : flight.Nodup) (there : p ∈ flight) (low : out ≤ 1) (e : s.wakeOne x = some t) :
    Wired { t.wiring with
      odep := Function.update f p (Function.update (f p) out rest) } flight := by
  have known := h.known x.2 (@Wiring.Known.odep _ p out _ (by simp))
  have ready : (s.ready x).wiring = s.wiring := wiring_modDesc _ ⟨rfl, rfl, rfl, rfl⟩
  rcases wakeOne_some e with ⟨-, rfl⟩ | ⟨valid, -, ⟨-, rfl⟩ | ⟨-, u, entered, rfl⟩⟩
  · exact h.wake once there low rfl
  · rw [← ready] at h
    exact h.wake once there low rfl
  · have here : x.2.rs ∈ flight := (known.2 (eq_of_beq valid)).1
    rw [← ready] at h
    exact (wired_readyqEnqueue h here entered).wake once there low rfl

theorem wired_wakeAll {p out : Nat} {l : List (Nat × RsLink)}
    (h : Wired { s.wiring with
      odep := Function.update f p (Function.update (f p) out l) } flight)
    (once : flight.Nodup) (there : p ∈ flight) (low : out ≤ 1)
    (e : l.foldlM wakeOne s = some t) :
    Wired { t.wiring with odep := Function.update f p (Function.update (f p) out []) } flight := by
  induction l generalizing s with
  | nil =>
    cases e
    exact h
  | cons x l ih =>
    obtain ⟨u, first, e⟩ := Option.bind_eq_some_iff.mp e
    exact ih (wired_wakeOne h once there low first) e

/-- A wakeup touches the pool and the ready queues only. -/
theorem wiring_wakeOne {x : Nat × RsLink} (e : s.wakeOne x = some t) :
    ∃ free ready, t.wiring = { s.wiring with free := free, ready := ready } := by
  have same : (s.ready x).wiring = s.wiring := wiring_modDesc _ ⟨rfl, rfl, rfl, rfl⟩
  have freed {u : Backend} {free : List Nat} {ready : Nat → List (Nat × RsLink)}
      (wires : u.wiring = { s.wiring with free := free, ready := ready }) :
      (u.rslinkFree x.2).wiring =
        { s.wiring with free := x.2.id :: u.wiring.free, ready := ready } :=
    congrArg (fun w : Wiring => { w with free := x.2.id :: u.wiring.free }) wires
  rcases wakeOne_some e with ⟨-, rfl⟩ | ⟨-, -, ⟨-, rfl⟩ | ⟨-, u, entered, rfl⟩⟩
  · exact ⟨_, _, rfl⟩
  · exact ⟨_, _, freed same⟩
  · obtain ⟨id, pool, -, wires⟩ := wiring_readyqEnqueue entered
    rw [same] at wires
    exact ⟨_, _, freed wires⟩

theorem wiring_wakeAll {l : List (Nat × RsLink)} (e : l.foldlM wakeOne s = some t) :
    ∃ free ready, t.wiring = { s.wiring with free := free, ready := ready } := by
  induction l generalizing s with
  | nil =>
    cases e
    exact ⟨_, _, rfl⟩
  | cons x l ih =>
    obtain ⟨u, first, e⟩ := Option.bind_eq_some_iff.mp e
    obtain ⟨free, ready, one⟩ := wiring_wakeOne first
    obtain ⟨free', ready', all⟩ := ih e
    rw [one] at all
    exact ⟨free', ready', all⟩

theorem wiring_clearLevels (rs out name n level : Nat) (s : Backend) :
    (s.clearLevels rs out name n level).wiring = s.wiring ∧
      (s.clearLevels rs out name n level).desc = s.desc := by
  induction n generalizing level s with
  | zero => exact ⟨rfl, rfl⟩
  | succ n ih =>
    rw [clearLevels]
    split
    · exact ih _ _
    · exact ⟨rfl, rfl⟩

theorem wiring_updateCreateVector (rs : Nat) (s : Backend) :
    (s.updateCreateVector rs).wiring = s.wiring ∧ (s.updateCreateVector rs).desc = s.desc := by
  have one (out : Nat) (s : Backend) :
      (updateOutput rs s out).wiring = s.wiring ∧ (updateOutput rs s out).desc = s.desc := by
    simp only [updateOutput]
    split
    · exact ⟨rfl, rfl⟩
    · exact wiring_clearLevels ..
  obtain ⟨first, desc⟩ := one 0 s
  obtain ⟨second, desc'⟩ := one 1 (updateOutput rs s 0)
  exact ⟨second.trans first, desc'.trans desc⟩

/-- The consumers of one output have been woken up. -/
theorem wired_broadcast {rs out : Nat} (h : Wired s.wiring flight) (once : flight.Nodup)
    (here : rs ∈ flight) (low : out ≤ 1) (e : s.broadcast rs out = some t) :
    Wired t.wiring flight := by
  rcases broadcast_some e with ⟨-, rfl⟩ | ⟨-, u, woken, rfl⟩
  · exact h
  · obtain ⟨wires, desc⟩ := wiring_updateCreateVector rs s
    rw [← wires] at h
    rw [desc] at woken
    have start : Wired { (s.updateCreateVector rs).wiring with
        odep := Function.update (s.updateCreateVector rs).wiring.odep rs
          (Function.update ((s.updateCreateVector rs).wiring.odep rs) out
            ((s.desc rs).odepList out)) } flight := by
      have same : (s.desc rs).odepList = (s.updateCreateVector rs).wiring.odep rs := by
        rw [wires]
        rfl
      rw [same, Function.update_eq_self, Function.update_eq_self]
      exact h
    have stop := wired_wakeAll start once here low woken
    obtain ⟨free, ready, moved⟩ := wiring_wakeAll woken
    have kept : u.wiring.odep = (s.updateCreateVector rs).wiring.odep := by rw [moved]
    rw [← kept] at stop
    have same : (u.modDesc rs fun d => { d with
        odepList := Function.update d.odepList out [] }).wiring = { u.wiring with
      odep := Function.update u.wiring.odep rs (Function.update (u.wiring.odep rs) out []) } :=
      wiring_setOdep _
    rw [same]
    exact stop

/-- Events and tags stay while consumers are woken up. -/
theorem events_broadcast {rs out : Nat} (e : s.broadcast rs out = some t) :
    t.wiring.event = s.wiring.event ∧ t.wiring.tag = s.wiring.tag := by
  rcases broadcast_some e with ⟨-, rfl⟩ | ⟨-, u, woken, rfl⟩
  · exact ⟨rfl, rfl⟩
  · obtain ⟨free, ready, moved⟩ := wiring_wakeAll woken
    rw [(wiring_updateCreateVector rs s).1] at moved
    rw [wiring_setOdep, moved]
    exact ⟨rfl, rfl⟩

theorem wiring_finished (rs : Nat) (s : Backend) : (s.finished rs).wiring = s.wiring := by
  refine wiring_update (s := s) (f := s.desc) (g := (s.finished rs).desc) fun d => ?_
  by_cases eq : d = rs
  · subst eq
    simp only [finished, Function.update_self]
    split <;> simp only [and_self]
  · simp only [finished, Function.update_of_ne eq, and_self]

/-- An instruction in flight leaves its function unit. -/
theorem wired_finish {rs : Nat} (h : Wired s.wiring flight) (once : flight.Nodup)
    (here : rs ∈ flight) (e : s.finish rs = some t) : Wired t.wiring flight := by
  obtain ⟨-, u, first, second⟩ := finish_some e
  rw [← wiring_finished rs s] at h
  exact wired_broadcast (wired_broadcast h once here (Nat.zero_le 1) first) once here
    (Nat.le_refl 1) second

/-- An event is delivered. The instruction of a valid link is in flight. -/
theorem wired_deliver {time : Nat} {l : RsLink} {rest : List (Nat × RsLink)}
    (h : Wired s.wiring flight) (once : flight.Nodup) (queue : s.eventQueue = (time, l) :: rest)
    (e : s.deliver l rest = some t) : Wired t.wiring flight := by
  have freed : Wired ({ s with eventQueue := rest }.rslinkFree l).wiring flight := h.deliver queue
  simp only [deliver] at e
  split at e
  · rename_i valid
    have front : (time, l) ∈ s.wiring.event := by
      change (time, l) ∈ s.eventQueue
      rw [queue]
      exact List.mem_cons_self
    have known := h.known l (.event front)
    exact wired_finish freed once (known.2 (eq_of_beq valid)).1 e
  · cases e
    exact freed

theorem wired_nextValidNode (h : Wired s.wiring flight) {fu : Nat} (unit : fu < numFu) :
    Wired (s.nextValidNode fu).wiring flight := by
  rw [nextValidNode, rslinkFreeAll_eq]
  refine h.dequeue unit ?_ fun x hx => (List.dropWhile_sublist _).subset hx
  have parts := List.takeWhile_append_dropWhile (p := fun x : Nat × RsLink => !s.rslinkValid x.2)
    (l := s.readyQueue fu)
  have split : linkIds (s.readyQueue fu) =
      ((s.readyQueue fu).takeWhile fun x => !s.rslinkValid x.2).map (fun x => x.2.id) ++
        linkIds ((s.readyQueue fu).dropWhile fun x => !s.rslinkValid x.2) := by
    rw [linkIds, linkIds, ← List.map_append, parts]
  change (linkIds (s.readyQueue fu)).Perm _
  rw [split]
  exact (List.reverse_perm _).symm.append_right _

theorem wired_choose (h : Wired s.wiring flight) (fu : Nat) : Wired (s.choose fu).wiring flight := by
  refine h.choose fun l hl => ?_
  obtain ⟨x, first, rfl⟩ := Option.map_eq_some_iff.mp hl
  exact ⟨x, List.mem_of_head? first, rfl⟩

/-- A link is taken out of a list. -/
theorem perm_eraseP {q : List (Nat × RsLink)} {id : Nat} (found : ∃ x ∈ q, x.2.id = id) :
    (linkIds q).Perm ([id] ++ linkIds (q.eraseP fun x => x.2.id == id)) := by
  obtain ⟨x, hx, same⟩ := found
  obtain ⟨a, l, r, -, mine, split, erased⟩ :=
    List.exists_of_eraseP (p := fun x : Nat × RsLink => x.2.id == id) hx (by simpa using same)
  rw [erased, split]
  simp only [linkIds, List.map_append, List.map_cons]
  rw [eq_of_beq mine]
  exact List.perm_middle

theorem wired_issueInst {l : RsLink} (h : Wired s.wiring flight) (here : l.rs ∈ flight)
    (e : s.issueInst l = some t) : Wired t.wiring flight := by
  obtain ⟨u, v, oplat, first, rfl, e⟩ := issueInst_some e
  obtain ⟨found, rfl⟩ := deleteNode_some e
  have start : (s.issued l.rs).wiring = s.wiring := by
    have same : (s.modDesc l.rs fun d => { d with issued := true, queued := false }).wiring =
        s.wiring := wiring_modDesc _ ⟨rfl, rfl, rfl, rfl⟩
    exact same
  rw [← start] at h
  have next : Wired u.wiring flight ∧ u.wiring.unit = s.wiring.unit := by
    split at first
    · obtain ⟨-, -, -, rfl⟩ := lsqIssue_some first
      exact ⟨h, (congrArg Wiring.unit start :)⟩
    · refine ⟨wired_eventqQueueEvent h here first, ?_⟩
      obtain ⟨-, id, pool, -, rfl⟩ := eventqQueueEvent_some first
      exact (congrArg Wiring.unit start :)
  have counted : (u.countIssue (u.desc l.rs).inIntq (-1)).wiring = u.wiring := by
    rw [countIssue_eq]
    rfl
  obtain ⟨wired, units⟩ := next
  have unit := wired.unit l.rs
  rw [units] at unit
  rw [← counted] at wired
  exact wired.dequeue unit (perm_eraseP found) fun x hx => List.eraseP_subset hx

end Wakeup

section Squash

theorem wiring_squash (rs : Nat) (s : Backend) : (s.squash rs).wiring = { s.wiring with
    free := odepIds (s.desc rs) ++ s.rslinkFreeList
    odep := Function.update s.wiring.odep rs fun _ => []
    tag := Function.update s.wiring.tag rs (s.wiring.tag rs + 1) } := by
  rw [squash_eq]
  simp only [wiring, Wiring.mk.injEq, true_and]
  refine ⟨?_, ?_, ?_, ?_⟩ <;> funext d <;> by_cases eq : d = rs <;> simp [eq, squashed]

theorem wired_squash {rs : Nat} (h : Wired s.wiring (rs :: flight)) (once : (rs :: flight).Nodup) :
    Wired (s.squash rs).wiring flight := by
  rw [wiring_squash]
  refine h.leave once ?_
  rw [odepIds, Wiring.outIds, linkIds, linkIds]
  exact List.perm_append_comm.trans
    ((List.reverse_perm _).append (List.reverse_perm _))

theorem wiring_squashLast (h : Passage cfg s.place (roq ++ [d]) done)
    (e : s.squashLast cfg = some t) : t.wiring = (s.squash d).wiring := by
  obtain ⟨-, rfl⟩ := squashLast_some h.last e
  rw [squash_eq]
  rfl

/-- The youngest instructions of the reorder queue are squashed. -/
theorem wired_squashAll {gone front : List Nat} (h : Passage cfg s.place (roq ++ gone) done)
    (wired : Wired s.wiring (roq ++ gone ++ front)) (once : (roq ++ gone ++ front).Nodup)
    (e : s.squashAll cfg gone.length = some t) : Wired t.wiring (roq ++ front) := by
  refine (squashAll_invariant (P := fun roq u => Passage cfg u.place roq done ∧
    Wired u.wiring (roq ++ front) ∧ (roq ++ front).Nodup) (fun roq d u v h e => ?_)
    ⟨h, wired, once⟩ e).2.1
  obtain ⟨flow, wired, once⟩ := h
  have moved : (roq ++ [d] ++ front).Perm (d :: (roq ++ front)) := by
    rw [List.append_assoc]
    exact List.perm_middle
  have once' := moved.nodup once
  refine ⟨flow_squashLast flow e, ?_, (List.nodup_cons.mp once').2⟩
  rw [wiring_squashLast flow e]
  exact wired_squash (wired.perm moved) once'

theorem wired_tracerRecover (h : Wired s.wiring (roq ++ s.decodeData))
    (once : (roq ++ s.decodeData).Nodup) (level : Nat) : Wired (s.tracerRecover level).wiring roq := by
  have drop (l : List Nat) (u : Backend) (h : Wired u.wiring (roq ++ s.decodeData)) :
      Wired (l.foldl dropFetched u).wiring (roq ++ s.decodeData) := by
    rw [foldl_dropFetched]
    exact h.recycle (fun d => Nat.le_add_right _ _) fun _ _ => rfl
  have cut (l : List Nat) (u : Backend) (h : Wired u.wiring (roq ++ l))
      (once : (roq ++ l).Nodup) : Wired (l.reverse.foldl squashDecoded u).wiring roq := by
    induction l using List.reverseRecOn generalizing u with
    | nil => rwa [List.append_nil] at h
    | append_singleton l d ih =>
      rw [List.reverse_append, List.reverse_singleton, List.singleton_append, List.foldl_cons]
      have moved : (roq ++ (l ++ [d])).Perm (d :: (roq ++ l)) := by
        rw [← List.append_assoc]
        exact List.perm_append_singleton ..
      have once' := moved.nodup once
      exact ih _ (wired_squash (h.perm moved) once') (List.nodup_cons.mp once').2
  have queue : (s.fetchData.foldl dropFetched { s with specLevel := level }).decodeData =
      s.decodeData := by
    rw [foldl_dropFetched]
  have dropped := drop s.fetchData { s with specLevel := level } h
  have done := cut s.decodeData _ dropped once
  simp only [tracerRecover, queue]
  exact done

/-- The oldest instruction leaves the pipeline. -/
theorem wired_retire (h : Wired s.wiring (d :: flight)) (once : (d :: flight).Nodup)
    (e : (s.modDesc d fun x => { x with tag := x.tag + 1 }).retire cfg d = some t) :
    Wired t.wiring flight := by
  obtain ⟨-, zero, one, rfl⟩ := retire_some e
  rw [modDesc_self] at zero one
  have bare : (s.desc d).odepList = fun _ => [] := by
    funext out
    by_cases low : out ≤ 1
    · rcases Nat.le_one_iff_eq_zero_or_eq_one.mp low with rfl | rfl
      · exact zero
      · exact one
    · exact h.outs d out (by omega)
  have outs : List.Perm [] (Wiring.outIds s.wiring.odep d) := by
    change List.Perm [] (linkIds ((s.desc d).odepList 0) ++ linkIds ((s.desc d).odepList 1))
    rw [bare]
    exact .refl _
  have left := h.leave once outs
  have odep : Function.update s.wiring.odep d (fun _ => []) = s.wiring.odep := by
    rw [← bare]
    exact Function.update_eq_self ..
  rw [odep] at left
  have same : (s.modDesc d fun x => { x with tag := x.tag + 1 }).wiring =
      { s.wiring with tag := Function.update s.wiring.tag d (s.wiring.tag d + 1) } := by
    simp only [wiring, modDesc, Wiring.mk.injEq, true_and]
    refine ⟨?_, ?_, ?_, ?_⟩ <;> funext j <;> by_cases eq : j = d <;> simp [eq]
  exact same ▸ left

/-- All instructions in flight are dropped. -/
theorem wired_pipelineFlush (h : Passage cfg s.place roq done)
    (wired : Wired s.wiring (roq ++ s.decodeData)) (e : s.pipelineFlush cfg = some t) :
    Wired t.wiring [] := by
  obtain ⟨u, dropped, all, rfl⟩ := pipelineFlush_some h e
  have cut : Wired (s.tracerRecover 0).wiring ([] ++ roq ++ []) := by
    rw [List.append_nil]
    exact wired_tracerRecover wired (flight_nodup h) 0
  have once : ([] ++ roq ++ []).Nodup := by
    rw [List.append_nil]
    exact (List.nodup_append.mp (flight_nodup h)).1
  have flushed : Wired u.wiring [] := wired_squashAll dropped cut once all
  exact flushed

theorem decodeData_squashAll {n : Nat} (e : s.squashAll cfg n = some t) :
    t.decodeData = s.decodeData := by
  induction n generalizing s with
  | zero =>
    cases e
    rfl
  | succ n ih =>
    obtain ⟨u, first, e⟩ := Option.bind_eq_some_iff.mp e
    have decode := ih e
    obtain ⟨d, last, -⟩ := Option.bind_eq_some_iff.mp first
    obtain ⟨-, rfl⟩ := squashLast_some last first
    exact decode

/-- All instructions behind a branch and its delay slot are dropped. -/
theorem wired_brerrRecover (h : Passage cfg s.place roq done)
    (wired : Wired s.wiring (roq ++ s.decodeData)) {i : Nat} (hi : i < roq.length)
    (slot : i + 1 < roq.length) (e : s.brerrRecover cfg roq[i] = some t) :
    Wired t.wiring (roq.take (lastKept (s.desc roq[i]) i + 1)) := by
  obtain ⟨u, squashed, rfl⟩ := brerrRecover_some h hi slot e
  have once := flight_nodup h
  generalize lastKept (s.desc roq[i]) i + 1 = n at squashed ⊢
  have whole := List.take_append_drop n roq
  rw [← whole] at h wired once
  rw [← List.length_drop] at squashed
  have decode := decodeData_squashAll squashed
  have cut := wired_squashAll h wired once squashed
  have part : (roq.take n ++ s.decodeData).Sublist
      (roq.take n ++ roq.drop n ++ s.decodeData) :=
    (List.sublist_append_left ..).append_right _
  rw [← decode] at cut part
  exact wired_tracerRecover cut (once.sublist (decode ▸ part)) _

end Squash

section Map

theorem wired_placed {rest : List Nat} (h : Wired s.wiring flight) :
    Wired (s.placed cfg d rest).wiring flight := by
  have unit (cls : FuClass) : (s.resAlloc cls).1.unit < numFu := by
    simp only [resAlloc]
    cases cls
    case intALU =>
      simp only [FuClass.units, List.foldl_cons, List.foldl_nil]
      split <;> decide
    all_goals simp [FuClass.units, numFu]
  generalize fresh : (s.placed cfg d rest).desc d = e
  have desc : (s.placed cfg d rest).desc = Function.update s.desc d e := by
    rw [← fresh]
    simp only [placed, Function.update_self]
  have same : (s.placed cfg d rest).wiring = { s.wiring with
      unit := Function.update s.wiring.unit d e.fu.unit } := by
    have kept : e.odepList = (s.desc d).odepList ∧ e.tag = (s.desc d).tag ∧
        e.seq = (s.desc d).seq := by
      rw [← fresh]
      simp only [placed, Function.update_self, and_self]
    obtain ⟨odep, tag, seq⟩ := kept
    simp only [wiring, desc]
    simp only [placed, resAlloc, Wiring.mk.injEq, true_and]
    refine ⟨?_, ?_, ?_, ?_⟩ <;> funext j <;> by_cases eq : j = d <;> simp [eq, odep, tag, seq]
  rw [same]
  refine h.seat fun j => ?_
  by_cases eq : j = d
  · subst eq
    simp only [Function.update_self]
    rw [← fresh]
    simp only [placed, Function.update_self]
    exact unit _
  · simp only [Function.update_of_ne eq]
    exact h.unit j

end Map

section Decode

/-- An input of an instruction is linked to the instruction that it waits for. -/
theorem wired_roqLinkIdep {rs num name : Nat} (h : Wired s.wiring flight) (once : flight.Nodup)
    (input : num < 3) (here : rs ∈ flight) (vector : name ≠ 0 → ∀ p out,
      s.createVector s.specLevel name = some (p, out) → p ∈ flight ∧ out ≤ 1)
    (e : s.roqLinkIdep rs num name = some t) : Wired t.wiring flight := by
  rcases roqLinkIdep_some e with ⟨-, rfl⟩ | ⟨p, out, id, pool, named, entry, filled, rfl⟩
  · rwa [wiring_modDesc _ ⟨rfl, rfl, rfl, rfl⟩]
  · obtain ⟨there, low⟩ := vector named p out entry
    have first : (s.modDesc rs fun d => { d with
        idepReady := Function.update d.idepReady num false }).wiring = s.wiring :=
      wiring_modDesc _ ⟨rfl, rfl, rfl, rfl⟩
    have linked := h.depend once filled here there low input
    have same : (s.waitFor rs num p out (s.linkTo rs id)).wiring = { s.wiring with
        odep := Function.update s.wiring.odep p (Function.update (s.wiring.odep p) out
          ((num, s.linkTo rs id) :: s.wiring.odep p out)) } := by
      rw [waitFor, wiring_setOdep, first]
      have row : ((s.modDesc rs fun d => { d with
          idepReady := Function.update d.idepReady num false }).desc p).odepList =
          s.wiring.odep p := congrFun (congrArg Wiring.odep first) p
      rw [row]
    have goal : wiring { s.waitFor rs num p out (s.linkTo rs id) with rslinkFreeList := pool } =
        { (s.waitFor rs num p out (s.linkTo rs id)).wiring with free := pool } := rfl
    rw [goal, same]
    exact linked

/-- The links and the create vector stay with the other instructions. -/
theorem roqLinkIdep_bare {rs num name : Nat} (bare : (s.desc rs).odepList = fun _ => [])
    (vector : name ≠ 0 → ∀ p out, s.createVector s.specLevel name = some (p, out) → p ≠ rs)
    (e : s.roqLinkIdep rs num name = some t) :
    ((t.desc rs).odepList = fun _ => []) ∧ t.createVector = s.createVector ∧
      t.specLevel = s.specLevel := by
  rcases roqLinkIdep_some e with ⟨-, rfl⟩ | ⟨p, out, id, pool, named, entry, filled, rfl⟩
  · rw [modDesc_self]
    exact ⟨bare, rfl, rfl⟩
  · refine ⟨?_, rfl, rfl⟩
    simp only [waitFor]
    rw [modDesc_of_ne _ (vector named p out entry).symm, modDesc_self]
    exact bare

theorem wiring_roqInstallOdep (rs num name : Nat) (s : Backend)
    (bare : (s.desc rs).odepList = fun _ => []) :
    (s.roqInstallOdep rs num name).wiring = s.wiring ∧
      ((s.roqInstallOdep rs num name).desc rs).odepList = fun _ => [] := by
  have empty : Function.update (s.desc rs).odepList num [] = fun _ => [] := by
    rw [bare]
    exact Function.update_eq_self ..
  have same : (s.modDesc rs fun d => { d with
      onames := Function.update d.onames num name
      odepList := Function.update d.odepList num [] }).wiring = s.wiring :=
    wiring_modDesc _ ⟨empty.trans bare.symm, rfl, rfl, rfl⟩
  simp only [roqInstallOdep]
  split
  · exact ⟨same, by rw [modDesc_self]; exact empty⟩
  · exact ⟨same, by simpa [modDesc] using empty⟩

/-- The registers of an instruction that comes into flight are renamed. -/
theorem wired_rename {rs : Nat} (h : Wired s.wiring flight) (once : flight.Nodup)
    (outside : rs ∉ flight) (vector : ∀ name ≠ 0, ∀ p out,
      s.createVector s.specLevel name = some (p, out) → p ∈ flight ∧ out ≤ 1)
    (e : s.rename rs = some t) : Wired t.wiring (rs :: flight) := by
  have once' := List.nodup_cons.mpr ⟨outside, once⟩
  have inside {u : Backend} (cv : u.createVector = s.createVector)
      (level : u.specLevel = s.specLevel) {name : Nat} (named : name ≠ 0) (p out : Nat)
      (entry : u.createVector u.specLevel name = some (p, out)) :
      (p ∈ rs :: flight ∧ out ≤ 1) ∧ p ≠ rs := by
    rw [cv, level] at entry
    obtain ⟨there, low⟩ := vector name named p out entry
    refine ⟨⟨List.mem_cons_of_mem _ there, low⟩, ?_⟩
    rintro rfl
    exact outside there
  simp only [rename] at e
  obtain ⟨u, first, e⟩ := Option.bind_eq_some_iff.mp e
  obtain ⟨v, second, e⟩ := Option.bind_eq_some_iff.mp e
  obtain ⟨w, third, rfl⟩ := Option.map_eq_some_iff.mp e
  have entered := h.enter outside
  generalize ((s.desc rs).op.names (s.desc rs).ir) = n at first second third
  generalize ready : (s.modDesc rs fun d => { d with ins := fun i =>
    if i = 0 then n.in1 else if i = 1 then n.in2 else if i = 2 then n.in3 else 0 }) = s₀ at first
  have same : s₀.wiring = s.wiring := by
    rw [← ready]
    exact wiring_modDesc _ ⟨rfl, rfl, rfl, rfl⟩
  have bare : (s₀.desc rs).odepList = fun _ => [] := by
    funext out
    have idle := h.idle rs out outside
    rw [← same] at idle
    exact idle
  have cv : s₀.createVector = s.createVector ∧ s₀.specLevel = s.specLevel := by
    rw [← ready]
    exact ⟨rfl, rfl⟩
  rw [← same] at entered
  have wired₁ := wired_roqLinkIdep entered once' (by omega) List.mem_cons_self
    (fun named p out entry => (inside cv.1 cv.2 named p out entry).1) first
  obtain ⟨bare₁, cv₁, level₁⟩ := roqLinkIdep_bare bare
    (fun named p out entry => (inside cv.1 cv.2 named p out entry).2) first
  replace cv₁ := cv₁.trans cv.1
  replace level₁ := level₁.trans cv.2
  have wired₂ := wired_roqLinkIdep wired₁ once' (by omega) List.mem_cons_self
    (fun named p out entry => (inside cv₁ level₁ named p out entry).1) second
  obtain ⟨bare₂, cv₂, level₂⟩ := roqLinkIdep_bare bare₁
    (fun named p out entry => (inside cv₁ level₁ named p out entry).2) second
  replace cv₂ := cv₂.trans cv₁
  replace level₂ := level₂.trans level₁
  have wired₃ := wired_roqLinkIdep wired₂ once' (by omega) List.mem_cons_self
    (fun named p out entry => (inside cv₂ level₂ named p out entry).1) third
  obtain ⟨bare₃, -, -⟩ := roqLinkIdep_bare bare₂
    (fun named p out entry => (inside cv₂ level₂ named p out entry).2) third
  obtain ⟨last, bare₄⟩ := wiring_roqInstallOdep rs 0 n.out1 w bare₃
  rw [(wiring_roqInstallOdep rs 1 n.out2 _ bare₄).1, last]
  exact wired₃

theorem wiring_enterSpec {o : Outcome} {rs : Nat} (e : s.enterSpec cfg o rs = some t) :
    t.wiring = s.wiring := by
  have level {u v : Backend} (e : u.enterLevel cfg = some v) : v.wiring = u.wiring := by
    rw [enterLevel] at e
    split_ifs at e
    cases e
    rfl
  have first : (s.modDesc rs fun d =>
      { d with specLevel := s.specLevel, misPredict := false }).wiring = s.wiring :=
    wiring_modDesc _ ⟨rfl, rfl, rfl, rfl⟩
  have second : ((s.modDesc rs fun d =>
      { d with specLevel := s.specLevel, misPredict := false }).modDesc rs fun d =>
      { d with misPredict := true }).wiring = s.wiring :=
    (wiring_modDesc _ ⟨rfl, rfl, rfl, rfl⟩).trans first
  simp only [enterSpec] at e
  split at e
  · obtain ⟨u, entered, rfl⟩ := Option.map_eq_some_iff.mp e
    exact (level entered).trans first
  · split at e
    · split at e
      · exact (level e).trans second
      · cases e
        exact second
    · cases e
      exact first

theorem wiring_redirect (o : Outcome) (rs : Nat) (s : Backend) :
    (s.redirect o rs).wiring = s.wiring := by
  simp only [redirect]
  split
  · rw [foldl_returnToFreeList]
    rfl
  · split <;> rfl

theorem wiring_markSlot {rs : Nat} (e : s.markSlot rs = some t) : t.wiring = s.wiring := by
  simp only [markSlot] at e
  split at e
  · cases e
    rfl
  · split at e
    · cases e
    · cases e
      have same : (s.modDesc rs fun d =>
          if d.ctrl then { d with ir := nopInst, op := mdSetOpcode nopInst, bd := true }
          else { d with bd := true }).wiring = s.wiring :=
        wiring_modDesc _ (by split <;> exact ⟨rfl, rfl, rfl, rfl⟩)
      exact same

/-- An instruction comes into flight. -/
theorem wired_decodeNext {o : Outcome} (h : Wired s.wiring (roq ++ s.decodeData))
    (once : (roq ++ s.decodeData).Nodup) (outside : d ∉ roq ++ s.decodeData)
    (vector : ∀ name ≠ 0, ∀ p out, s.createVector s.specLevel name = some (p, out) →
      p ∈ roq ++ s.decodeData ∧ out ≤ 1)
    (e : s.decodeNext cfg o d = some t) :
    Wired t.wiring (roq ++ (s.decodeData ++ [d])) := by
  have first : (s.modDesc d fun x => { x with divDelay := o.divDelay }).wiring = s.wiring :=
    wiring_modDesc _ ⟨rfl, rfl, rfl, rfl⟩
  simp only [decodeNext] at e
  obtain ⟨u, named, e⟩ := Option.bind_eq_some_iff.mp e
  obtain ⟨v, entered, rfl⟩ := Option.map_eq_some_iff.mp e
  rw [← first] at h
  have renamed := wired_rename h once outside vector named
  have branch : (if (u.desc d).ctrl = true then { u with lastIsBranch := true } else u).wiring =
      u.wiring := by
    split <;> rfl
  have same : v.wiring = u.wiring :=
    (wiring_enterSpec entered).trans ((wiring_redirect ..).trans branch)
  rw [← same] at renamed
  have moved : (d :: (roq ++ s.decodeData)).Perm (roq ++ (s.decodeData ++ [d])) := by
    rw [← List.append_assoc]
    exact (List.perm_append_singleton ..).symm
  exact renamed.perm moved

end Decode

section Fetch

theorem wired_pushed (h : Passage cfg s.place roq done) (wired : Wired s.wiring (roq ++ s.decodeData))
    (ir : Word) (op : Op) (trap : Bool) :
    Wired (s.pushed cfg ir op trap).wiring (roq ++ s.decodeData) := by
  obtain ⟨-, decoded, queued, -⟩ := got_apart h
  obtain ⟨d, free, fresh, got, -⟩ := getFromFreeList_some s
  rw [got] at decoded queued
  have outside : d ∉ roq ++ s.decodeData := by simp [decoded, queued]
  have kept : ∀ e ∈ roq ++ s.decodeData,
      Function.update s.wiring.seq d s.instSeq e = s.wiring.seq e := by
    intro e he
    have ne : e ≠ d := by
      rintro rfl
      exact outside he
    exact Function.update_of_ne ne ..
  have moved := wired.recycle (fun _ => Nat.le_refl _) kept
  have same : (s.pushed cfg ir op trap).wiring =
      { s.wiring with seq := Function.update s.wiring.seq d s.instSeq } := by
    simp only [pushed, got, newInst, fetchPush, wiring, modDesc, Wiring.mk.injEq, true_and]
    refine ⟨?_, ?_, ?_, ?_⟩ <;> funext e <;> by_cases eq : e = d <;> simp [eq]
  rw [same]
  exact moved

theorem decodeData_pushed (ir : Word) (op : Op) (trap : Bool) :
    (s.pushed cfg ir op trap).decodeData = s.decodeData := by
  obtain ⟨d, free, fresh, got, -⟩ := getFromFreeList_some s
  rw [pushed, got]
  rfl

end Fetch

end Backend

end Godson

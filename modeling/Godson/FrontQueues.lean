import Godson.Ring
import Godson.Runs

/-! The queues between fetch, decode and map: arrays with a head, a tail and a count, as
`fetch.c`, `decode.c` and `map.c` keep them. -/
namespace Godson.FrontQueues

/-- The options that size the queues and the loops over them, with what `sim_check_options`
demands of them. It does not look at the size of the decode queue and at the speeds. -/
structure IfqConfig where
  fetchIfqSize : Nat
  fetchWidth : Nat
  fetchSpeed : Nat
  decodeIfqSize : Nat
  decodeWidth : Nat
  decodeSpeed : Nat
  mapWidth : Nat
  fetch_size : 1 ≤ fetchIfqSize ∧ fetchIfqSize &&& (fetchIfqSize - 1) = 0
  fetch_width : 1 ≤ fetchWidth ∧ fetchWidth &&& (fetchWidth - 1) = 0
  fetch_fits : fetchWidth ≤ fetchIfqSize
  decode_width : 1 ≤ decodeWidth ∧ decodeWidth &&& (decodeWidth - 1) = 0
  map_width : 1 ≤ mapWidth ∧ mapWidth &&& (mapWidth - 1) = 0

/-- A queue, with the instructions that entered it and those that left it so far, which the
program does not keep. -/
structure Ifq where
  data : Nat → Option Nat := fun _ => none
  head : Nat := 0
  tail : Nat := 0
  num : Nat := 0
  entered : List Nat := []
  left : List Nat := []

/-- An instruction enters at the tail, whose index is wrapped by a mask. -/
def Ifq.push (size a : Nat) (q : Ifq) : Ifq :=
  { q with
    data := Function.update q.data q.tail (some a)
    tail := (q.tail + 1) &&& (size - 1)
    num := q.num + 1
    entered := q.entered ++ [a] }

/-- The instruction at the head leaves, and the head moves on to `next`. -/
def Ifq.pop (next : Nat) (q : Ifq) : Option Ifq :=
  (q.data q.head).map fun a => { q with head := next, num := q.num - 1, left := q.left ++ [a] }

/-- The slots of `n` instructions from `i` on. -/
def slotsFrom (size : Nat) : Nat → Nat → List Nat
  | 0, _ => []
  | n + 1, i => i :: slotsFrom size n ((i + 1) % size)

/-- The slots of `n` instructions from `i` backwards. -/
def slotsBack (size : Nat) : Nat → Nat → List Nat
  | 0, _ => []
  | n + 1, i => i :: slotsBack size n ((i + size - 1) % size)

/-- The squash of `tracer_recover` goes through the fetch queue from its head on. -/
def Ifq.squash (size : Nat) (q : Ifq) : Option Ifq :=
  ((slotsFrom size q.num q.head).mapM q.data).map fun l =>
    { q with head := 0, tail := 0, num := 0, left := q.left ++ l }

/-- It goes through the decode queue from its tail backwards. -/
def Ifq.squashBack (size : Nat) (q : Ifq) : Option Ifq :=
  ((slotsBack size q.num ((q.tail + size - 1) % size)).mapM q.data).map fun l =>
    { q with head := 0, tail := 0, num := 0, left := q.left ++ l.reverse }

/-- `decode_stage` takes the head of the fetch queue and squashes all behind it. -/
def Ifq.takeLast (size : Nat) (q : Ifq) : Option Ifq :=
  ((q.head :: slotsFrom size (q.num - 1) ((q.head + 1) % size)).mapM q.data).map fun l =>
    { q with head := (size - 1 + 1) &&& (size - 1), tail := 0, num := 0, left := q.left ++ l }

/-- The loop that a stage is in, with its count. -/
inductive Loop
  | idle
  | fetch (i : Nat)
  | decode (branchCnt : Nat)
  | map (mapped : Nat)

structure Queues where
  fetch : Ifq := {}
  decode : Ifq := {}
  loop : Loop := .idle

/-- A stage starts, or goes once through its loop; `tracer_recover` runs between stages. A
fetched multiply or divide has a second half; a decoded instruction may be the delay slot of
the last branch, and the one behind which the fetch unit is redirected. -/
inductive Act
  | fetchStage
  | fetchInst (split : Bool) (a b : Nat)
  | decodeStage
  | decodeInst (slot redirect : Bool)
  | mapStage
  | mapInst
  | recover

variable (cfg : IfqConfig)

def step (s : Queues) : Act → Option Queues
  | .fetchStage => some { s with
      loop := if s.fetch.num + cfg.fetchWidth > cfg.fetchIfqSize then .idle else .fetch 0 }
  | .fetchInst split a b =>
    match s.loop with
    | .fetch i =>
      if i < cfg.fetchWidth * cfg.fetchSpeed ∧ s.fetch.num < cfg.fetchIfqSize then
        if split ∧ s.fetch.num = cfg.fetchWidth - 1 then some { s with loop := .idle }
        else
          let q := s.fetch.push cfg.fetchIfqSize a
          some { s with
            fetch := if split then q.push cfg.fetchIfqSize b else q
            loop := .fetch (i + 1) }
      else none
    | _ => none
  | .decodeStage => some { s with
      loop := if s.decode.num + cfg.decodeWidth > cfg.decodeIfqSize then .idle else .decode 0 }
  | .decodeInst slot redirect =>
    match s.loop with
    | .decode n =>
      if s.fetch.num ≠ 0 ∧ s.decode.num < cfg.decodeIfqSize ∧ n < cfg.decodeSpeed then
        (s.fetch.data s.fetch.head).bind fun a =>
          (if redirect then s.fetch.takeLast cfg.fetchIfqSize
            else s.fetch.pop ((s.fetch.head + 1) &&& (cfg.fetchIfqSize - 1))).map fun q =>
            { fetch := q
              decode := s.decode.push cfg.decodeIfqSize a
              loop := .decode (if slot then n + 1 else n) }
      else none
    | _ => none
  | .mapStage => some { s with loop := .map 0 }
  | .mapInst =>
    match s.loop with
    | .map n =>
      if s.decode.num ≠ 0 ∧ n < cfg.mapWidth then
        (s.decode.pop ((s.decode.head + 1) % cfg.decodeIfqSize)).map fun q =>
          { s with decode := q, loop := .map (n + 1) }
      else none
    | _ => none
  | .recover =>
    (s.fetch.squash cfg.fetchIfqSize).bind fun q =>
      (s.decode.squashBack cfg.decodeIfqSize).map fun p => { fetch := q, decode := p }

/-- A bounded queue: its slots hold, in order, what entered it and has not left. -/
structure Fifo (size : Nat) (q : Ifq) : Prop where
  bounded : q.num ≤ size
  order : q.entered.map some =
    q.left.map some ++ (List.range q.num).map fun i => q.data ((q.head + i) % size)
  behind : q.tail = (q.head + q.num) % size

/-- A multiply or divide is not fetched into the last free slot, unless the check of the
width sends it back, and the mask wraps the tail of the decode queue as its size does. -/
def Room (s : Queues) : Act → Prop
  | .fetchInst split _ _ =>
    split = true → s.fetch.num + 1 = cfg.fetchIfqSize → cfg.fetchWidth = cfg.fetchIfqSize
  | .decodeInst _ _ =>
    (s.decode.tail + 1) &&& (cfg.decodeIfqSize - 1) = (s.decode.tail + 1) % cfg.decodeIfqSize
  | _ => True

instance (s : Queues) : (a : Act) → Decidable (Room cfg s a)
  | .fetchInst split _ _ => inferInstanceAs (Decidable (split = true → _ → _))
  | .decodeInst _ _ => inferInstanceAs (Decidable (_ = _))
  | .fetchStage | .decodeStage | .mapStage | .mapInst | .recover => .isTrue trivial

variable {cfg} {size : Nat} {q p : Ifq} {l : List Nat}

/-- The slots of the queue hold the list, which is what entered and has not left. -/
structure Held (size : Nat) (q : Ifq) (l : List Nat) : Prop where
  window : Ring.Window size q.data q.head l
  num : q.num = l.length
  entered : q.entered = q.left ++ l
  behind : q.tail = (q.head + l.length) % size
  start : q.head % size = q.head

theorem Held.fifo (h : Held size q l) : Fifo size q where
  bounded := h.num ▸ h.window.length_le
  order := by rw [h.entered, List.map_append, h.num, h.window.read]
  behind := h.num ▸ h.behind

/-- The mask wraps an index as a power of two does. -/
theorem mask_mod (positive : 1 ≤ size) (power : size &&& (size - 1) = 0) (i : Nat) :
    i &&& (size - 1) = i % size := by
  obtain ⟨n, rfl⟩ := (Nat.and_sub_one_eq_zero_iff_isPowerOfTwo (by omega)).mp power
  exact Nat.and_two_pow_sub_one_eq_mod i n

theorem Held.push (h : Held size q l) (room : l.length < size)
    (mask : (q.tail + 1) &&& (size - 1) = (q.tail + 1) % size) (a : Nat) :
    Held size (q.push size a) (l ++ [a]) where
  window := by
    have put := h.window.put room a
    rw [← h.behind] at put
    exact put
  num := by simp [Ifq.push, h.num]
  entered := by simp [Ifq.push, h.entered]
  behind := by
    simp only [Ifq.push, List.length_append, List.length_singleton]
    rw [mask, h.behind, Nat.mod_add_mod, Nat.add_assoc]
  start := h.start

theorem Held.cons (h : Held size q l) (filled : q.num ≠ 0) : ∃ a rest, l = a :: rest := by
  cases l with
  | nil => exact absurd h.num filled
  | cons a rest => exact ⟨a, rest, rfl⟩

theorem Held.head {a : Nat} (h : Held size q (a :: l)) : q.data q.head = some a := by
  have first := h.window.first
  rwa [h.start] at first

theorem Held.pop {a : Nat} (h : Held size q (a :: l))
    (popped : q.pop ((q.head + 1) % size) = some p) : Held size p l := by
  rw [Ifq.pop, h.head, Option.map_some, Option.some.injEq] at popped
  subst popped
  refine ⟨h.window.pop, ?_, ?_, ?_, Nat.mod_mod _ _⟩
  · simp only [h.num, List.length_cons, Nat.add_sub_cancel]
  · rw [h.entered, List.append_assoc]
    rfl
  · have behind := h.behind
    rw [List.length_cons] at behind
    rw [Nat.mod_add_mod, Nat.add_assoc, Nat.add_comm 1]
    exact behind

theorem mapM_some {data : Nat → Option Nat} {idx : List Nat} (h : idx.map data = l.map some) :
    idx.mapM data = some l := by
  induction idx generalizing l with
  | nil =>
    rw [List.map_eq_nil_iff.mp h.symm]
    rfl
  | cons i idx ih =>
    cases l with
    | nil => cases h
    | cons a l =>
      rw [List.map_cons, List.map_cons, List.cons.injEq] at h
      rw [List.mapM_cons, h.1, ih h.2]
      rfl

theorem slotsFrom_eq (size n i : Nat) (start : i % size = i) :
    slotsFrom size n i = (List.range n).map fun j => (i + j) % size := by
  induction n generalizing i with
  | zero => rfl
  | succ n ih =>
    rw [slotsFrom, ih _ (Nat.mod_mod _ _), List.range_succ_eq_map, List.map_cons, List.map_map,
      show (i + 0) % size = i from start]
    refine congrArg _ (List.map_congr_left fun j _ => ?_)
    rw [Nat.mod_add_mod, Function.comp, Nat.add_assoc, Nat.add_comm 1]

theorem slotsBack_eq {size : Nat} (positive : 1 ≤ size) (head n : Nat) :
    slotsBack size n ((head + n + size - 1) % size) =
      ((List.range n).map fun j => (head + j) % size).reverse := by
  induction n with
  | zero => rfl
  | succ n ih =>
    have last : (head + (n + 1) + size - 1) % size = (head + n) % size := by
      rw [show head + (n + 1) + size - 1 = head + n + size by omega, Nat.add_mod_right]
    have next : ((head + n) % size + size - 1) % size = (head + n + size - 1) % size := by
      rw [Nat.add_sub_assoc positive, Nat.add_sub_assoc positive, Nat.mod_add_mod]
    rw [slotsBack, last, next, ih, List.range_succ, List.map_append, List.reverse_append]
    rfl

/-- An empty queue, after a squash. -/
theorem held_empty {left : List Nat} (h : Held size q l) (all : left = l) {head : Nat}
    (start : head = 0) : Held size
      { q with head, tail := 0, num := 0, left := q.left ++ left } [] := by
  subst start
  exact ⟨Ring.Window.nil _ _ _, rfl, by rw [List.append_nil, all]; exact h.entered,
    (Nat.zero_mod _).symm, Nat.zero_mod _⟩

theorem Held.squash (h : Held size q l) (done : q.squash size = some p) : Held size p [] := by
  have all : (slotsFrom size q.num q.head).mapM q.data = some l := by
    refine mapM_some ?_
    rw [slotsFrom_eq _ _ _ h.start, List.map_map, h.num]
    exact h.window.read
  rw [Ifq.squash, all, Option.map_some, Option.some.injEq] at done
  exact done ▸ held_empty h rfl rfl

theorem Held.squashBack (h : Held size q l) (done : q.squashBack size = some p) :
    Held size p [] := by
  have all : (slotsBack size q.num ((q.tail + size - 1) % size)).mapM q.data = some l.reverse := by
    refine mapM_some ?_
    cases l with
    | nil =>
      rw [h.num]
      rfl
    | cons a rest =>
      have positive : 1 ≤ size := Nat.le_trans (Nat.le_add_left 1 _) h.window.length_le
      have tail : (q.tail + size - 1) % size = (q.head + q.num + size - 1) % size := by
        rw [h.behind, h.num, Nat.add_sub_assoc positive, Nat.add_sub_assoc positive,
          Nat.mod_add_mod]
      rw [tail, slotsBack_eq positive, List.map_reverse, List.map_reverse, List.map_map, h.num]
      exact congrArg _ h.window.read
  rw [Ifq.squashBack, all, Option.map_some, Option.some.injEq] at done
  exact done ▸ held_empty h l.reverse_reverse rfl

theorem Held.takeLast {a : Nat} (h : Held size q (a :: l)) (power : size &&& (size - 1) = 0)
    (done : q.takeLast size = some p) : Held size p [] := by
  have all : (q.head :: slotsFrom size (q.num - 1) ((q.head + 1) % size)).mapM q.data =
      some (a :: l) := by
    have whole : q.head :: slotsFrom size (q.num - 1) ((q.head + 1) % size) =
        slotsFrom size q.num q.head := by
      rw [h.num]
      rfl
    refine mapM_some ?_
    rw [whole, slotsFrom_eq _ _ _ h.start, List.map_map, h.num]
    exact h.window.read
  rw [Ifq.takeLast, all, Option.map_some, Option.some.injEq] at done
  have positive : 1 ≤ size := Nat.le_trans (Nat.le_add_left 1 _) h.window.length_le
  have wrapped : (size - 1 + 1) &&& (size - 1) = 0 := by rw [Nat.sub_add_cancel positive, power]
  exact done ▸ held_empty h rfl wrapped

/-- Both queues hold lists. -/
structure Sound (cfg : IfqConfig) (s : Queues) : Prop where
  fetch : ∃ l, Held cfg.fetchIfqSize s.fetch l
  decode : ∃ l, Held cfg.decodeIfqSize s.decode l

variable {s t : Queues}

theorem sound_start : Sound cfg {} where
  fetch := ⟨[], Ring.Window.nil _ _ _, rfl, rfl, (Nat.zero_mod _).symm, Nat.zero_mod _⟩
  decode := ⟨[], Ring.Window.nil _ _ _, rfl, rfl, (Nat.zero_mod _).symm, Nat.zero_mod _⟩

/-- A fetched instruction, with its second half, enters the queue where it has room. -/
theorem Sound.fetchInst (h : Sound cfg s) {split : Bool} {a b : Nat}
    (room : Room cfg s (.fetchInst split a b))
    (moved : step cfg s (.fetchInst split a b) = some t) : Sound cfg t := by
  obtain ⟨l, held⟩ := h.fetch
  have mask := mask_mod cfg.fetch_size.1 cfg.fetch_size.2
  simp only [step] at moved
  split at moved
  · rename_i i _
    obtain ⟨⟨-, free⟩, moved⟩ := Option.ite_none_right_eq_some.mp moved
    split at moved
    · cases moved
      exact ⟨⟨l, held⟩, h.decode⟩
    · rename_i kept
      cases moved
      have first := held.push (held.num ▸ free) (mask _) a
      cases split with
      | false => exact ⟨⟨_, first⟩, h.decode⟩
      | true =>
        have more : (l ++ [a]).length < cfg.fetchIfqSize := by
          have width := cfg.fetch_width.1
          have full : s.fetch.num + 1 ≠ cfg.fetchIfqSize := by
            intro last
            have same := room rfl last
            exact kept ⟨rfl, by omega⟩
          rw [List.length_append, List.length_singleton, ← held.num]
          omega
        exact ⟨⟨_, first.push more (mask _) b⟩, h.decode⟩
  · cases moved

theorem Sound.decodeInst (h : Sound cfg s) {slot redirect : Bool}
    (room : Room cfg s (.decodeInst slot redirect))
    (moved : step cfg s (.decodeInst slot redirect) = some t) : Sound cfg t := by
  obtain ⟨l, held⟩ := h.fetch
  obtain ⟨m, into⟩ := h.decode
  simp only [step] at moved
  split at moved
  · obtain ⟨⟨filled, free, -⟩, moved⟩ := Option.ite_none_right_eq_some.mp moved
    obtain ⟨a, rest, rfl⟩ := held.cons filled
    rw [held.head, Option.bind_some, Option.map_eq_some_iff] at moved
    obtain ⟨q, taken, rfl⟩ := moved
    refine ⟨?_, ⟨_, into.push (into.num ▸ free) room a⟩⟩
    cases redirect with
    | true => exact ⟨_, held.takeLast cfg.fetch_size.2 taken⟩
    | false =>
      rw [mask_mod cfg.fetch_size.1 cfg.fetch_size.2] at taken
      exact ⟨_, held.pop taken⟩
  · cases moved

theorem Sound.step (h : Sound cfg s) (a : Act) (room : Room cfg s a)
    (moved : step cfg s a = some t) : Sound cfg t := by
  cases a with
  | fetchStage | decodeStage | mapStage =>
    cases moved
    exact ⟨h.fetch, h.decode⟩
  | fetchInst split a b => exact h.fetchInst room moved
  | decodeInst slot redirect => exact h.decodeInst room moved
  | mapInst =>
    obtain ⟨m, held⟩ := h.decode
    simp only [FrontQueues.step] at moved
    split at moved
    · obtain ⟨⟨filled, -⟩, moved⟩ := Option.ite_none_right_eq_some.mp moved
      obtain ⟨a, rest, rfl⟩ := held.cons filled
      obtain ⟨q, taken, rfl⟩ := Option.map_eq_some_iff.mp moved
      exact ⟨h.fetch, ⟨_, held.pop taken⟩⟩
    · cases moved
  | recover =>
    obtain ⟨l, held⟩ := h.fetch
    obtain ⟨m, into⟩ := h.decode
    obtain ⟨q, first, moved⟩ := Option.bind_eq_some_iff.mp moved
    obtain ⟨p, second, rfl⟩ := Option.map_eq_some_iff.mp moved
    exact ⟨⟨_, held.squash first⟩, ⟨_, into.squashBack second⟩⟩

/-- Without room the fetch queue overflows. -/
theorem overflow {split : Bool} {a b : Nat}
    (full : ¬ Room cfg s (.fetchInst split a b))
    (moved : FrontQueues.step cfg s (.fetchInst split a b) = some t) :
    cfg.fetchIfqSize < t.fetch.num := by
  simp only [Room, not_forall] at full
  obtain ⟨rfl, last, narrow⟩ := full
  simp only [FrontQueues.step] at moved
  split at moved
  · obtain ⟨-, moved⟩ := Option.ite_none_right_eq_some.mp moved
    have width := cfg.fetch_width.1
    rw [if_neg (by rintro ⟨-, same⟩; omega)] at moved
    cases moved
    simp only [if_true, Ifq.push]
    omega
  · cases moved

/-- A tail that the mask wraps too early is not behind the last instruction. -/
theorem wrapped_early (h : Sound cfg s) {slot redirect : Bool}
    (early : ¬ Room cfg s (.decodeInst slot redirect))
    (moved : FrontQueues.step cfg s (.decodeInst slot redirect) = some t) :
    ¬ Fifo cfg.decodeIfqSize t.decode := by
  obtain ⟨m, into⟩ := h.decode
  intro fifo
  simp only [FrontQueues.step] at moved
  split at moved
  · obtain ⟨-, moved⟩ := Option.ite_none_right_eq_some.mp moved
    obtain ⟨a, -, moved⟩ := Option.bind_eq_some_iff.mp moved
    obtain ⟨q, -, rfl⟩ := Option.map_eq_some_iff.mp moved
    refine early ?_
    have behind := fifo.behind
    simp only [Ifq.push] at behind
    rw [Room, behind, into.behind, Nat.mod_add_mod, into.num, Nat.add_assoc]
  · cases moved

/-- The queues are bounded and first-in first-out in every state of a run whose steps have
room, and a further step keeps them so if and only if it has room. -/
theorem fifo_iff (cfg : IfqConfig) (acts : List Act) (s : Queues)
    (ran : acts.foldlM (FrontQueues.step cfg) {} = some s)
    (room : Runs.Along (FrontQueues.step cfg) (Room cfg) {} acts) :
    (Fifo cfg.fetchIfqSize s.fetch ∧ Fifo cfg.decodeIfqSize s.decode) ∧
      ∀ a t, FrontQueues.step cfg s a = some t →
        (Fifo cfg.fetchIfqSize t.fetch ∧ Fifo cfg.decodeIfqSize t.decode ↔ Room cfg s a) := by
  have both {u : Queues} (h : Sound cfg u) :
      Fifo cfg.fetchIfqSize u.fetch ∧ Fifo cfg.decodeIfqSize u.decode := by
    obtain ⟨⟨l, fetch⟩, ⟨m, decode⟩⟩ := h
    exact ⟨fetch.fifo, decode.fifo⟩
  have sound := room.invariant (I := Sound cfg) (fun s a t h room moved => h.step a room moved)
    sound_start ran
  refine ⟨both sound, fun a t moved => ⟨fun fifo => ?_, fun room => both (sound.step a room moved)⟩⟩
  cases a with
  | fetchInst split a b =>
    by_contra full
    exact absurd fifo.1.bounded (Nat.not_le.mpr (overflow full moved))
  | decodeInst slot redirect =>
    by_contra early
    exact wrapped_early sound early moved fifo.2
  | _ => trivial

/-- A power of two as its size gives the decode queue room. -/
theorem decode_room (positive : 1 ≤ cfg.decodeIfqSize)
    (power : cfg.decodeIfqSize &&& (cfg.decodeIfqSize - 1) = 0) (slot redirect : Bool) :
    Room cfg s (.decodeInst slot redirect) := mask_mod positive power _

/-- A fetch queue that is longer than a fetch group. -/
def longConfig : IfqConfig where
  fetchIfqSize := 8
  fetchWidth := 4
  fetchSpeed := 1
  decodeIfqSize := 8
  decodeWidth := 4
  decodeSpeed := 1
  mapWidth := 4
  fetch_size := ⟨Nat.le_add_left 1 7, rfl⟩
  fetch_width := ⟨Nat.le_add_left 1 3, rfl⟩
  fetch_fits := Nat.le_add_left 4 4
  decode_width := ⟨Nat.le_add_left 1 3, rfl⟩
  map_width := ⟨Nat.le_add_left 1 3, rfl⟩

/-- A decode queue whose size is not a power of two. -/
def oddConfig : IfqConfig where
  fetchIfqSize := 4
  fetchWidth := 4
  fetchSpeed := 1
  decodeIfqSize := 6
  decodeWidth := 4
  decodeSpeed := 1
  mapWidth := 4
  fetch_size := ⟨Nat.le_add_left 1 3, rfl⟩
  fetch_width := ⟨Nat.le_add_left 1 3, rfl⟩
  fetch_fits := Nat.le_refl 4
  decode_width := ⟨Nat.le_add_left 1 3, rfl⟩
  map_width := ⟨Nat.le_add_left 1 3, rfl⟩

/-- A multiply that is fetched into the last free slot overwrites the oldest instruction,
and the third instruction in the decode queue overwrites the first. -/
theorem fifo_broken :
    (∃ s, [Act.fetchStage, .fetchInst false 1 0, .fetchInst false 2 0, .fetchStage,
          .fetchInst true 3 4, .fetchInst true 5 6, .fetchInst false 7 0,
          .fetchInst true 8 9].foldlM (FrontQueues.step longConfig) {} = some s ∧
        ¬ Fifo longConfig.fetchIfqSize s.fetch) ∧
      ∃ s, [Act.fetchStage, .fetchInst false 1 0, .fetchInst false 2 0, .fetchInst false 3 0,
          .decodeStage, .decodeInst false false, .decodeInst false false,
          .decodeInst false false].foldlM (FrontQueues.step oddConfig) {} = some s ∧
        ¬ Fifo oddConfig.decodeIfqSize s.decode := by
  constructor
  · exact ⟨_, rfl, fun fifo => absurd fifo.bounded (by decide)⟩
  · exact ⟨_, rfl, fun fifo => absurd fifo.behind (by decide)⟩

/-- A multiply passes through both queues. -/
theorem fifo_sample : ∃ s, [Act.fetchStage, .fetchInst true 1 2, .decodeStage,
      .decodeInst false false, .mapStage, .mapInst].foldlM (FrontQueues.step longConfig) {} =
        some s ∧
    Fifo longConfig.fetchIfqSize s.fetch ∧ Fifo longConfig.decodeIfqSize s.decode := by
  refine ⟨_, rfl, (fifo_iff longConfig [.fetchStage, .fetchInst true 1 2, .decodeStage,
    .decodeInst false false, .mapStage, .mapInst] _ rfl ?_).1⟩
  exact Runs.along_of_check (fun _ _ => of_decide_eq_true) (by decide)

end Godson.FrontQueues

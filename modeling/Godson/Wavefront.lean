import Godson.Matching
import Godson.Router

/-! The wave front allocator of `noc_wf.c`: the requests of every input buffer are
collected by a bounded look-ahead and granted diagonal by diagonal, starting from a
priority that rotates. -/
namespace Godson

open Matching

/-- `WF_SEARCH_DEPTH` -/
def wfSearchDepth : Nat := 8

/-- The router with the rotating priority. -/
structure WaveRouter extends Router where
  priority : Chan → Nat := fun _ => 0

namespace WaveRouter

variable (size x y : Nat) (type : Chan) (r : WaveRouter)

/-- The look-ahead in one input buffer, with `n` slots left from the `k`th on and `j`
requests found: the first flit for each output makes a request. -/
def collect (slots : Nat → Option Flit) (head : Nat) :
    Nat → Nat → Nat → (Direction → Option Flit) → Direction → Option Flit
  | 0, _, _, reqs => reqs
  | n + 1, k, j, reqs =>
    if j < wfSearchDepth then
      match slots ((head + k) % size) with
      | none => collect slots head n (k + 1) j reqs
      | some p =>
        let dest := p.selectDestChannel x y
        if reqs dest = none then
          collect slots head n (k + 1) (j + 1) (Function.update reqs dest (some p))
        else collect slots head n (k + 1) j reqs
    else reqs

/-- The requests of one input buffer. -/
def reqs (i : Direction) : Direction → Option Flit :=
  if r.ingressNum type i = 0 then fun _ => none
  else collect size x y (r.ingress type i) (r.ingressHead type i) size 0 0 fun _ => none

/-- The credit an output needs. -/
def credited (out : Direction) : Bool :=
  decide (r.egressCredit type out > if type = .req ∧ out = .home then 1 else 0)

/-- The local variables of `arbitrate` and what it writes, for one message type. -/
structure Wave where
  pri : Nat
  priority : Nat
  rowToken : Direction → Bool := fun _ => false
  colToken : Direction → Bool := fun _ => false
  egressGrant : Direction → Option Flit := fun _ => none

/-- The column that a diagonal has in a row. -/
def diagonal (pri : Nat) (i : Direction) : Direction :=
  Direction.all.getD ((pri + 5 - i.number) % 5) .home

/-- One cell of a diagonal. -/
def allocate (w : Wave) (i : Direction) : Wave :=
  if r.ingressNum type i = 0 then w
  else
    let out := diagonal w.pri i
    match reqs size x y type r i out with
    | none => w
    | some p =>
      if !w.rowToken i && !w.colToken out && credited type r out then
        { w with
          egressGrant := Function.update w.egressGrant out (some p)
          rowToken := Function.update w.rowToken i true
          colToken := Function.update w.colToken out true
          priority := (w.pri + 1) % 5 }
      else w

/-- One diagonal. -/
def allocateDiagonal (w : Wave) : Wave :=
  let w := Direction.all.foldl (allocate size x y type r) w
  { w with pri := (w.pri + 1) % 5 }

/-- `n` diagonals. -/
def allocateWaves : Nat → Wave → Wave
  | 0, w => w
  | n + 1, w => allocateWaves n (allocateDiagonal size x y type r w)

/-- The allocation for one message type. -/
def allocated : Wave := allocateWaves size x y type r 5 ⟨r.priority type, r.priority type,
  fun _ => false, fun _ => false, fun _ => none⟩

/-- `arbitrate`, which asserts that the look-ahead fits into a buffer. -/
def arbitrate : Option WaveRouter :=
  if wfSearchDepth ≤ size then
    some { r with
      egressGrant := fun type => (allocated size x y type r).egressGrant
      priority := fun type => (allocated size x y type r).priority }
  else none

section Requests

variable {size x y type r} {slots : Nat → Option Flit} {head : Nat}

/-- The flits of a buffer in `n` slots from the `k`th on. -/
def waiting (size : Nat) (slots : Nat → Option Flit) (head k n : Nat) : List Flit :=
  (List.range' k n).filterMap fun k => slots ((head + k) % size)

theorem waiting_succ (k n : Nat) : waiting size slots head k (n + 1) =
    (slots ((head + k) % size)).toList ++ waiting size slots head (k + 1) n := by
  rw [waiting, List.range'_succ, List.filterMap_cons]
  cases slots ((head + k) % size) <;> rfl

/-- The number of outputs that are requested. -/
def requested (reqs : Direction → Option Flit) : Nat :=
  Direction.all.countP fun out => (reqs out).isSome

theorem requested_lt (reqs : Direction → Option Flit) : requested reqs < wfSearchDepth :=
  Nat.lt_of_le_of_lt List.countP_le_length (by decide)

theorem requested_update {reqs : Direction → Option Flit} {dest : Direction}
    (free : reqs dest = none) (p : Flit) :
    requested (Function.update reqs dest (some p)) = requested reqs + 1 := by
  cases dest <;> simp [requested, Direction.all, List.countP_cons, Function.update_apply, free] <;>
    omega

/-- The look-ahead finds for each output the first flit that wants it: its bound is not reached,
since no output is requested twice. -/
theorem collect_first (n k : Nat) (reqs : Direction → Option Flit) (out : Direction) :
    collect size x y slots head n k (requested reqs) reqs out =
      (reqs out).or ((waiting size slots head k n).find? fun p =>
        p.selectDestChannel x y == out) := by
  induction n generalizing k reqs with
  | zero => simp [collect, waiting]
  | succ n ih =>
    rw [collect, if_pos (requested_lt reqs), waiting_succ]
    cases held : slots ((head + k) % size) with
    | none => exact ih (k + 1) reqs
    | some p =>
      simp only [Option.toList_some, List.singleton_append]
      by_cases free : reqs (p.selectDestChannel x y) = none
      · rw [if_pos free, ← requested_update free p, ih, Function.update_apply]
        by_cases here : out = p.selectDestChannel x y
        · rw [if_pos here, here, free]
          simp
        · rw [if_neg here, List.find?_cons_of_neg (by simpa using Ne.symm here)]
      · rw [if_neg free, ih]
        by_cases here : out = p.selectDestChannel x y
        · obtain ⟨q, taken⟩ := Option.ne_none_iff_exists'.mp free
          rw [here, taken]
          rfl
        · rw [List.find?_cons_of_neg (by simpa using Ne.symm here)]

/-- A buffer requests each output for the first of its flits that wants it. -/
theorem reqs_first (i out : Direction) : reqs size x y type r i out =
    if r.ingressNum type i = 0 then none
    else (waiting size (r.ingress type i) (r.ingressHead type i) 0 size).find? fun p =>
      p.selectDestChannel x y == out := by
  unfold reqs
  split
  · rfl
  · exact (collect_first size 0 (fun _ => none) out).trans (Option.none_or ..)

/-- A request of a buffer is for a flit in it, and for the output of that flit. -/
theorem reqs_requested {i out : Direction} {p : Flit}
    (request : reqs size x y type r i out = some p) :
    p.selectDestChannel x y = out ∧ ∃ pos, r.ingress type i pos = some p := by
  rw [reqs_first] at request
  split at request
  · cases request
  · obtain ⟨k, -, held⟩ := List.mem_filterMap.mp (List.mem_of_find?_eq_some request)
    exact ⟨by simpa using List.find?_some request, _, held⟩

end Requests

section Sweep

/-- A cell that may be granted: it has a request, and its output the credit. -/
def allowed (i out : Direction) : Bool :=
  (reqs size x y type r i out).isSome && credited type r out

/-- The cells in the order of the sweep. -/
def cells (pri n : Nat) : List (Direction × Direction) :=
  (List.range n).flatMap fun t => Direction.all.map fun i => (i, diagonal (pri + t) i)

variable {size x y type r} {w : Wave} {t : Tokens Direction Direction}

/-- The tokens and grants of the source are those of a greedy sweep. -/
structure Tracks (size x y : Nat) (type : Chan) (r : WaveRouter) (w : Wave)
    (t : Tokens Direction Direction) : Prop where
  row : w.rowToken = t.row
  col : w.colToken = t.col
  grant : w.egressGrant = fun out => (t.grant out).bind fun i => reqs size x y type r i out

theorem allocate_tracks (h : Tracks size x y type r w t) (i : Direction) :
    Tracks size x y type r (allocate size x y type r w i)
      (t.visit (allowed size x y type r) (i, diagonal w.pri i)) ∧
    (allocate size x y type r w i).pri = w.pri := by
  unfold allocate
  split
  · rename_i empty
    have idle : allowed size x y type r i (diagonal w.pri i) = false := by
      simp [allowed, reqs, empty]
    simp only [Tokens.visit, idle, Bool.false_and, Bool.false_eq_true, if_false]
    exact ⟨h, trivial⟩
  · dsimp only
    split
    · rename_i idle
      simp only [Tokens.visit, allowed, idle, Option.isSome_none, Bool.false_and,
        Bool.false_eq_true, if_false]
      exact ⟨h, trivial⟩
    · rename_i p request
      simp only [Tokens.visit, allowed, request, Option.isSome_some, Bool.true_and, h.row, h.col]
      by_cases free : (!t.row i && !t.col (diagonal w.pri i) &&
          credited type r (diagonal w.pri i)) = true
      · have free' : (credited type r (diagonal w.pri i) && !t.row i &&
            !t.col (diagonal w.pri i)) = true := by
          rw [← free]
          ac_rfl
        rw [if_pos free, if_pos free']
        refine ⟨⟨rfl, rfl, ?_⟩, rfl⟩
        funext out
        simp only [h.grant, Tokens.take, Function.update_apply]
        split
        · rename_i here
          rw [here, Option.bind_some, request]
        · rfl
      · have free' : ¬(credited type r (diagonal w.pri i) && !t.row i &&
            !t.col (diagonal w.pri i)) = true := by
          intro all
          apply free
          rw [← all]
          ac_rfl
        rw [if_neg free, if_neg free']
        exact ⟨h, rfl⟩

theorem allocateRow_tracks (l : List Direction) (h : Tracks size x y type r w t) :
    Tracks size x y type r (l.foldl (allocate size x y type r) w)
      (t.sweep (allowed size x y type r) (l.map fun i => (i, diagonal w.pri i))) ∧
    (l.foldl (allocate size x y type r) w).pri = w.pri := by
  induction l generalizing w t with
  | nil => exact ⟨h, rfl⟩
  | cons i l ih =>
    obtain ⟨first, pri⟩ := allocate_tracks h i
    obtain ⟨rest, pri'⟩ := ih first
    rw [pri] at rest
    exact ⟨rest, pri'.trans pri⟩

theorem diagonal_mod (pri : Nat) (i : Direction) : diagonal (pri % 5) i = diagonal pri i := by
  have low : i.number < 5 := by cases i <;> decide
  have same : (pri % 5 + 5 - i.number) % 5 = (pri + 5 - i.number) % 5 := by omega
  rw [diagonal, diagonal, same]

theorem cells_succ (pri n : Nat) : cells pri (n + 1) =
    (Direction.all.map fun i => (i, diagonal pri i)) ++ cells ((pri + 1) % 5) n := by
  have later : ∀ s i, diagonal ((pri + 1) % 5 + s) i = diagonal (pri + (s + 1)) i := by
    intro s i
    rw [← diagonal_mod ((pri + 1) % 5 + s), ← diagonal_mod (pri + (s + 1)), Nat.mod_add_mod]
    congr 2
    omega
  simp only [cells, List.range_succ_eq_map, List.flatMap_cons, List.flatMap_map, Nat.add_zero,
    later, Nat.succ_eq_add_one]

theorem allocateWaves_tracks (n : Nat) (h : Tracks size x y type r w t) :
    Tracks size x y type r (allocateWaves size x y type r n w)
      (t.sweep (allowed size x y type r) (cells w.pri n)) := by
  induction n generalizing w t with
  | zero => exact h
  | succ n ih =>
    obtain ⟨row, pri⟩ := allocateRow_tracks Direction.all h
    have next := @ih (allocateDiagonal size x y type r w) _ ⟨row.row, row.col, row.grant⟩
    have turned : (allocateDiagonal size x y type r w).pri = (w.pri + 1) % 5 :=
      congrArg (fun pri => (pri + 1) % 5) pri
    rw [turned] at next
    rw [cells_succ, Tokens.sweep, List.foldl_append]
    exact next

/-- Five diagonals visit every cell. -/
theorem cells_all (pri : Nat) (i out : Direction) : (i, out) ∈ cells pri 5 := by
  have low : i.number < 5 := by cases i <;> decide
  have low' : out.number < 5 := by cases out <;> decide
  have order : Direction.all.getD out.number .home = out := by cases out <;> rfl
  have mem : i ∈ Direction.all := by cases i <;> decide
  refine List.mem_flatMap.mpr ⟨(out.number + i.number + (5 - pri % 5)) % 5, ?_, ?_⟩
  · exact List.mem_range.mpr (Nat.mod_lt _ (by omega))
  · refine List.mem_map.mpr ⟨i, mem, ?_⟩
    have here : (pri + (out.number + i.number + (5 - pri % 5)) % 5 + 5 - i.number) % 5 =
        out.number := by omega
    rw [diagonal, here, order]

end Sweep

/-- The grants of a message type in a cycle, with the input buffer of each granted output:
a matching of buffers and outputs, in which each grant is a request that was collected, for
the output its flit has to take, which has the credit it needs; no request for an output
with credit has both its buffer and its output left over. -/
structure Granted (size x y : Nat) (type : Chan) (r t : WaveRouter)
    (input : Direction → Option Direction) : Prop where
  grant : ∀ out, t.egressGrant type out = (input out).bind fun i => reqs size x y type r i out
  sound : ∀ out i, input out = some i → credited type r out = true ∧
    ∃ p pos, t.egressGrant type out = some p ∧ r.ingress type i pos = some p ∧
      p.selectDestChannel x y = out
  single : ∀ out out' i, input out = some i → input out' = some i → out = out'
  maximal : ∀ i out, (reqs size x y type r i out).isSome = true → credited type r out = true →
    (∃ out', input out' = some i) ∨ (input out).isSome = true

theorem arbitrate_granted {size x y : Nat} {r t : WaveRouter}
    (h : arbitrate size x y r = some t) (type : Chan) :
    ∃ input, Granted size x y type r t input := by
  unfold arbitrate at h
  split at h
  · cases h
    have start : Tracks size x y type r ⟨r.priority type, r.priority type, fun _ => false,
        fun _ => false, fun _ => none⟩ Tokens.empty := ⟨rfl, rfl, rfl⟩
    have tracks := allocateWaves_tracks 5 start
    have matched : Tokens.Matched (allowed size x y type r)
        (Tokens.empty.sweep (allowed size x y type r) (cells (r.priority type) 5)) :=
      Tokens.matched_empty.sweep _
    refine ⟨(Tokens.empty.sweep (allowed size x y type r) (cells (r.priority type) 5)).grant, ?_⟩
    constructor
    · exact fun out => congrFun tracks.grant out
    · intro out i grant
      have sound := matched.sound i out grant
      simp only [allowed, Bool.and_eq_true, Option.isSome_iff_exists] at sound
      obtain ⟨⟨p, request⟩, credit⟩ := sound
      obtain ⟨dest, pos, held⟩ := reqs_requested request
      have given := congrFun tracks.grant out
      rw [grant, Option.bind_some, request] at given
      exact ⟨credit, p, pos, given, held, dest⟩
    · exact fun out out' i => matched.single i out out'
    · intro i out request credit
      apply Tokens.sweep_maximal (cells_all (r.priority type))
      rw [allowed, request, credit]
      rfl
  · cases h

/-- Three input buffers, two of which hold a flit for the same output. -/
def contended : WaveRouter :=
  let flit (id destX : Nat) (d : Direction) : Flit :=
    ⟨id, d, 0, destX, 1, ⟨.req, destX, .readShd, .untouched, 0, 0, 0, false⟩⟩
  { egressCredit := fun _ _ => 1
    ingress := fun type d pos => match type, d, pos with
      | .req, .home, 0 => some (flit 0 2 .home)
      | .req, .left, 0 => some (flit 1 2 .left)
      | .req, .up, 0 => some (flit 2 0 .up)
      | _, _, _ => none
    ingressNum := fun type d => if type = .req ∧ (d = .home ∨ d = .left ∨ d = .up) then 1 else 0 }

theorem arbitrate_granted_contended : ∃ t, arbitrate 8 1 1 contended = some t ∧
    (t.egressGrant .req .right).map Flit.id = some 1 ∧
    (t.egressGrant .req .left).map Flit.id = some 2 ∧
    ∃ input, Granted 8 1 1 .req contended t input :=
  ⟨_, rfl, by decide +kernel, by decide +kernel, arbitrate_granted rfl .req⟩

end WaveRouter

end Godson

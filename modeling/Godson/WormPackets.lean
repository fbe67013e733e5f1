import Godson.Switch
import Godson.Wormhole

/-! Every router of `noc_worm.c` is a switch that keeps packets whole. The flits of a packet
have consecutive numbers, and the same contents. -/
namespace Godson.Worm

open Switch (Whole)

variable {cfg : MeshConfig} {pack : PackSize}

/-- What the switch of node `k` knows of flits. -/
def PackSize.format (pack : PackSize) (cfg : MeshConfig) (k : Nat) :
    Switch.Format Direction Letter where
  First a := a.1 % pack.size = 0
  Last a := (a.1 + 1) % pack.size = 0
  Next a b := b.1 = a.1 + 1 ∧ b.2 = a.2
  route a := cfg.route a.2.dest k
  route_next h := by rw [h.2]

/-- The flits of the packet whose first flit is `a`, with their kinds. -/
def PackSize.flits (pack : PackSize) (a : Letter) : List (FlitType × Letter) :=
  (List.range pack.size).map fun j => (pack.flitType j, (a.1 + j, a.2))

/-- Packet after packet, the last one perhaps unfinished. -/
def Packed (pack : PackSize) (l : List (FlitType × Letter)) : Prop :=
  ∃ packets : List Letter, l <+: packets.flatMap pack.flits

/-! ### Kinds of flits -/

theorem PackSize.mod_lt (pack : PackSize) (n : Nat) : n % pack.size < pack.size :=
  Nat.mod_lt _ pack.positive

theorem PackSize.last_iff (pack : PackSize) (n : Nat) :
    (n + 1) % pack.size = 0 ↔ n % pack.size = pack.size - 1 := by
  have positive := pack.positive
  have below := pack.mod_lt n
  rw [← Nat.mod_add_mod]
  rcases Nat.lt_or_ge (n % pack.size + 1) pack.size with inside | outside
  · rw [Nat.mod_eq_of_lt inside]
    omega
  · have full : n % pack.size + 1 = pack.size := by omega
    rw [full, Nat.mod_self]
    omega

/-- Behind a flit that is not the last one its packet goes on. -/
theorem PackSize.mod_succ {pack : PackSize} {n : Nat} (going : (n + 1) % pack.size ≠ 0) :
    (n + 1) % pack.size = n % pack.size + 1 := by
  have below := pack.mod_lt n
  rw [Ne, pack.last_iff] at going
  rw [← Nat.mod_add_mod, Nat.mod_eq_of_lt (by omega)]

theorem PackSize.flitType_tail (pack : PackSize) (n : Nat) :
    pack.flitType (n % pack.size) = .tail ↔ 1 < pack.size ∧ (n + 1) % pack.size = 0 := by
  rw [pack.last_iff]
  unfold flitType
  split_ifs with tail head
  · simpa using tail
  · simpa using tail
  · simpa using tail

/-! ### Whole packets -/

theorem whole_any {l : List Letter} {k k' : Nat} (h : Whole (pack.format cfg k) l) :
    Whole (pack.format cfg k') l :=
  ⟨h.chain, h.first⟩

/-- A flit with the kind that its place in the packet has. -/
def PackSize.typed (pack : PackSize) (a : Letter) : FlitType × Letter :=
  (pack.flitType (a.1 % pack.size), a)

/-- The packet of flit `a` from `a` on. -/
def PackSize.rest (pack : PackSize) (a : Letter) (n : Nat) : List (FlitType × Letter) :=
  (List.range n).map fun j => (pack.flitType (a.1 % pack.size + j), (a.1 + j, a.2))

theorem PackSize.rest_succ (pack : PackSize) (a : Letter) (n : Nat) :
    pack.rest a (n + 1) = pack.typed a :: (List.range n).map fun j =>
      (pack.flitType (a.1 % pack.size + (j + 1)), (a.1 + (j + 1), a.2)) := by
  simp [rest, typed, List.range_succ_eq_map, Function.comp_def]

theorem PackSize.rest_next {pack : PackSize} {a b : Letter} (n : Nat)
    (going : (a.1 + 1) % pack.size ≠ 0) (next : b.1 = a.1 + 1 ∧ b.2 = a.2) :
    pack.rest a (n + 1) = pack.typed a :: pack.rest b n := by
  rw [rest_succ, rest, next.1, next.2, mod_succ going]
  simp only [Nat.add_assoc, Nat.add_comm 1]

/-- A chain of flits that begins within a packet. -/
theorem packed_chain {k : Nat} {a : Letter} {l : List Letter}
    (chain : (a :: l).IsChain (pack.format cfg k).Follows) : ∃ packets : List Letter,
      (a :: l).map pack.typed <+:
        pack.rest a (pack.size - a.1 % pack.size) ++ packets.flatMap pack.flits := by
  have below := pack.mod_lt a.1
  obtain ⟨n, size⟩ : ∃ n, pack.size - a.1 % pack.size = n + 1 :=
    ⟨pack.size - a.1 % pack.size - 1, by omega⟩
  induction l generalizing a n with
  | nil =>
    refine ⟨[], ?_⟩
    rw [size, pack.rest_succ]
    exact List.prefix_append [pack.typed a] _
  | cons b l ih =>
    obtain ⟨follows, chain⟩ := List.isChain_cons_cons.mp chain
    by_cases last : (a.1 + 1) % pack.size = 0
    · -- a new packet begins
      have first : b.1 % pack.size = 0 := follows.1 last
      have whole : pack.rest b (pack.size - b.1 % pack.size) = pack.flits b := by
        simp [PackSize.rest, PackSize.flits, first]
      obtain ⟨packets, front⟩ := ih chain (pack.mod_lt b.1) (pack.size - 1) (by omega)
      refine ⟨b :: packets, ?_⟩
      rw [whole] at front
      obtain rfl : n = 0 := by
        rw [pack.last_iff] at last
        omega
      rw [size, pack.rest_succ]
      exact (List.cons_prefix_cons).mpr ⟨rfl, front⟩
    · have next := follows.2 last
      have place : b.1 % pack.size = a.1 % pack.size + 1 := by
        rw [next.1, PackSize.mod_succ last]
      have below' := pack.mod_lt b.1
      obtain ⟨m, rfl⟩ : ∃ m, n = m + 1 := ⟨n - 1, by omega⟩
      obtain ⟨packets, front⟩ := ih chain below' m (by omega)
      refine ⟨packets, ?_⟩
      rw [size, PackSize.rest_next _ last next, show m + 1 = pack.size - b.1 % pack.size by omega]
      exact (List.cons_prefix_cons).mpr ⟨rfl, front⟩

theorem packed_of_whole {k : Nat} {l : List Letter} (h : Whole (pack.format cfg k) l) :
    Packed pack (l.map pack.typed) := by
  cases l with
  | nil => exact ⟨[], List.nil_prefix⟩
  | cons a l =>
    obtain ⟨packets, front⟩ := packed_chain h.chain
    refine ⟨a :: packets, ?_⟩
    have first : a.1 % pack.size = 0 := h.first a rfl
    have whole : pack.rest a (pack.size - a.1 % pack.size) = pack.flits a := by
      simp [PackSize.rest, PackSize.flits, first]
    rwa [whole] at front

/-- The flits of a packet, in order. -/
def PackSize.letters (pack : PackSize) (a : Letter) : List Letter :=
  (List.range pack.size).map fun j => (a.1 + j, a.2)

theorem PackSize.letters_append {k : Nat} {a : Letter} {l : List Letter}
    (h : Whole (pack.format cfg k) l) (first : a.1 % pack.size = 0)
    (ended : ∀ b, l.getLast? = some b → (b.1 + 1) % pack.size = 0) :
    Whole (pack.format cfg k) (l ++ pack.letters a) ∧
      ∀ b, (l ++ pack.letters a).getLast? = some b → (b.1 + 1) % pack.size = 0 := by
  suffices some_ : ∀ n ≤ pack.size,
      Whole (pack.format cfg k) (l ++ (List.range n).map fun j => (a.1 + j, a.2)) ∧
        (0 < n → (l ++ (List.range n).map fun j => (a.1 + j, a.2)).getLast? =
          some (a.1 + (n - 1), a.2)) by
    obtain ⟨whole, last⟩ := some_ pack.size (Nat.le_refl _)
    refine ⟨whole, fun b hb => ?_⟩
    obtain rfl := Option.some.inj ((last pack.positive).symm.trans hb)
    rw [Nat.add_assoc, Nat.sub_add_cancel pack.positive, Nat.add_mod_right]
    exact first
  intro n
  induction n with
  | zero =>
    intro _
    refine ⟨?_, fun no => absurd no (by decide)⟩
    simpa using h
  | succ n ih =>
    intro inside
    obtain ⟨whole, last⟩ := ih (by omega)
    rw [List.range_succ, List.map_append, ← List.append_assoc]
    refine ⟨whole.concat ?_ ?_, fun _ => List.getLast?_concat⟩
    · intro b hb
      rcases Nat.eq_zero_or_pos n with rfl | positive
      · simp only [List.range_zero, List.map_nil, List.append_nil] at hb
        exact ⟨fun _ => first, fun no => absurd (ended b hb) no⟩
      · obtain rfl := Option.some.inj ((last positive).symm.trans hb)
        have going : ¬ (a.1 + (n - 1) + 1) % pack.size = 0 := by
          rw [Nat.add_assoc, Nat.sub_add_cancel positive, ← Nat.mod_add_mod, first, Nat.zero_add,
            Nat.mod_eq_of_lt (by omega)]
          omega
        refine ⟨fun yes => absurd yes going, fun _ => ⟨?_, rfl⟩⟩
        change a.1 + n = a.1 + (n - 1) + 1
        omega
    · intro empty
      obtain ⟨-, none_⟩ := List.append_eq_nil_iff.mp empty
      have zero : n = 0 := by simpa using none_
      subst zero
      exact first

/-! ### The switches of the network -/

namespace Net

variable (cfg) (w : Net)

/-- The flits that a node has injected. -/
def acceptedBy (k : Nat) (type : Chan) : List Letter :=
  w.mesh.accepted.filter fun a => a.2.cpuid == k && a.2.chan == type

/-- The flits that were sent to an input. -/
def into (k : Nat) (type : Chan) (d : Direction) : List Letter :=
  if d = .home then w.acceptedBy k type
  else match cfg.hop k d with
    | some j => w.sent j type d.opposite
    | none => []

/-- The grant of an output that has not been carried out yet: only some are left. -/
def pending (left : List (Chan × Direction)) (k : Nat) (type : Chan) (out : Direction) :
    Option Flit :=
  if (type, out) ∈ left then (w.mesh.routers k).egressGrant type out else none

end Net

/-- A router as a switch. What has been granted counts as sent. -/
structure Linked (cfg : MeshConfig) (pack : PackSize) (w : Net) (left : List (Chan × Direction))
    (k : Nat) (type : Chan) (s : Switch.State Direction Direction Letter) : Prop where
  kept : Switch.Kept (pack.format cfg k) s
  input : ∀ d, s.past d ++ s.wait d = w.into cfg k type d
  sent : ∀ o, s.sent o = w.sent k type o ++ ((w.pending left k type o).map Flit.letter).toList
  owner : ∀ o, s.owner o = if (w.ports k).used type o then (w.ports k).inputdirec type o else none
  known : ∀ o, (w.ports k).used type o = true → ((w.ports k).inputdirec type o).isSome
  line : ∀ d, (∀ o p, w.pending left k type o = some p → p.sourceChannel ≠ d) →
    w.mesh.line cfg k type d = s.wait d
  front : ∀ o p, w.pending left k type o = some p →
    w.mesh.line cfg k type p.sourceChannel = p.letter :: s.wait p.sourceChannel

variable {w w' : Net} {left left' : List (Chan × Direction)} {k : Nat} {type : Chan}
  {s : Switch.State Direction Direction Letter}

/-- The switch is the same when everything that it is made of is. -/
theorem Linked.congr (h : Linked cfg pack w left k type s)
    (input : ∀ d, w'.into cfg k type d = w.into cfg k type d)
    (sent : ∀ o, w'.sent k type o = w.sent k type o)
    (pending : ∀ o, w'.pending left' k type o = w.pending left k type o)
    (ports : w'.ports k = w.ports k)
    (line : ∀ d, w'.mesh.line cfg k type d = w.mesh.line cfg k type d) :
    Linked cfg pack w' left' k type s := by
  constructor
  · exact h.kept
  · intro d
    rw [input]
    exact h.input d
  · intro o
    rw [sent, pending]
    exact h.sent o
  · rw [ports]
    exact h.owner
  · rw [ports]
    exact h.known
  · intro d free
    rw [line]
    exact h.line d fun o p hp => free o p ((pending o).trans hp)
  · intro o p hp
    rw [line]
    exact h.front o p ((pending o).symm.trans hp)

/-- Flits come to one input. -/
theorem Linked.arrive (h : Linked cfg pack w left k type s) {d : Direction} {l : List Letter}
    (whole : Whole (pack.format cfg k) (w.into cfg k type d ++ l))
    (input : ∀ e, w'.into cfg k type e =
      if e = d then w.into cfg k type e ++ l else w.into cfg k type e)
    (sent : ∀ o, w'.sent k type o = w.sent k type o)
    (pending : ∀ o, w'.pending left' k type o = w.pending left k type o)
    (ports : w'.ports k = w.ports k)
    (line : ∀ e, w'.mesh.line cfg k type e =
      if e = d then w.mesh.line cfg k type e ++ l else w.mesh.line cfg k type e) :
    ∃ t, Linked cfg pack w' left' k type t := by
  have more : ∀ e, s.past e ++ (if e = d then s.wait e ++ l else s.wait e) =
      w'.into cfg k type e := by
    intro e
    rw [input, ← h.input]
    split_ifs
    · rw [List.append_assoc]
    · rfl
  refine ⟨{ s with wait := fun e => if e = d then s.wait e ++ l else s.wait e }, ?_⟩
  constructor
  · apply h.kept.arrive
    intro e
    rw [more, input]
    split_ifs with same
    · rw [same]
      exact whole
    · rw [← h.input]
      exact h.kept.input e
  · exact more
  · intro o
    rw [sent, pending]
    exact h.sent o
  · rw [ports]
    exact h.owner
  · rw [ports]
    exact h.known
  · intro e free
    rw [line, h.line e fun o p hp => free o p ((pending o).trans hp)]
  · intro o p hp
    rw [line, h.front o p ((pending o).symm.trans hp)]
    dsimp only
    split_ifs
    · rfl
    · rfl

end Godson.Worm

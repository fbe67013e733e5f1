import Godson.WormSteps

/-! A round of `arbitrate_worm` is a round of the switches: an output is given to the input
that it takes from, or, while it is free, to one whose first flit wants it. -/
namespace Godson.Worm

section Serve

variable {pack : PackSize} {flitType : Nat → FlitType} {x y : Nat} {type : Chan}
  {out : Direction} {r : Router} {s : Ports} {p : Flit}

/-- What has been granted was at the head of its input, and the output now takes from there
until the packet ends. -/
theorem serve_grant (now : (serve pack flitType x y type out r s).grant = some p) :
    active type out r = true ∧ ∃ d, r.ingressFirst type d = some p ∧
      ((s.used type out = true ∧ s.inputdirec type out = some d ∧
        (serve pack flitType x y type out r s).used = decide (flitType p.id ≠ .tail) ∧
        (serve pack flitType x y type out r s).inputdirec =
          if flitType p.id = .tail then none else some d) ∨
      (s.used type out = false ∧ asks flitType x y out p = true ∧
        (serve pack flitType x y type out r s).used = decide (1 < pack.size) ∧
        (serve pack flitType x y type out r s).inputdirec = some d)) := by
  unfold serve at now ⊢
  split at now
  · rename_i on
    rw [if_pos on]
    refine ⟨on, ?_⟩
    split at now
    · rename_i used
      rw [if_pos used]
      split at now
      · cases now
      · rename_i d own
        simp only [own]
        split at now
        · cases now
        · rename_i q first
          refine ⟨d, ?_, .inl ⟨used, rfl, ?_⟩⟩
          all_goals
            split at now
            all_goals
              rename_i kind
              obtain rfl := Option.some.inj now
              first
              | exact first
              | simp [kind]
    · rename_i used
      rw [if_neg used]
      split at now
      · cases now
      · rename_i d won
        have asked := List.find?_some won
        refine ⟨d, now, .inr ⟨by simpa using used, ?_, rfl, rfl⟩⟩
        rwa [show r.ingressFirst type d = some p from now, Option.any_some] at asked
  · cases now

theorem serve_idle (now : (serve pack flitType x y type out r s).grant = none) :
    (serve pack flitType x y type out r s).used = s.used type out ∧
      (serve pack flitType x y type out r s).inputdirec = s.inputdirec type out := by
  unfold serve at now ⊢
  split at now
  · rename_i on
    rw [if_pos on]
    split at now
    · rename_i used
      rw [if_pos used]
      split at now
      · rename_i own
        simp only [own]
        exact ⟨rfl, own⟩
      · rename_i d own
        simp only [own]
        split at now
        · rename_i first
          exact ⟨rfl, own⟩
        · split at now
          · cases now
          · cases now
    · rename_i used
      rw [if_neg used]
      split at now
      · rename_i won
        exact ⟨rfl, rfl⟩
      · rename_i d won
        have asked := List.find?_some won
        rw [show r.ingressFirst type d = none from now] at asked
        cases asked
  · rename_i off
    rw [if_neg off]
    exact ⟨rfl, rfl⟩

end Serve

variable {cfg : MeshConfig} {pack : PackSize} {w : Net} {k : Nat} {type : Chan}
  {out : Direction} {p : Flit} {s : Switch.State Direction Direction Letter}

/-- What the arbiter of a node leaves for an output. -/
def Net.served (cfg : MeshConfig) (pack : PackSize) (w : Net) (k : Nat) (type : Chan)
    (out : Direction) : Service :=
  serve pack w.flitType (cfg.homeX k) (cfg.homeY k) type out (w.mesh.routers k) (w.ports k)

/-- Between the departures and the arbitration nothing is granted, and the flits in the
buffers have the kinds of their places. -/
structure Cleared (cfg : MeshConfig) (pack : PackSize) (w : Net) (k : Nat) (type : Chan)
    (s : Switch.State Direction Direction Letter) : Prop where
  sound : w.mesh.Sound cfg
  node : k < cfg.totalCpus
  linked : Linked cfg pack w [] k type s
  typed : ∀ d, ∀ p ∈ w.mesh.buf cfg k type d, w.flitType p.id = pack.flitType (p.id % pack.size)

theorem Cleared.wait (h : Cleared cfg pack w k type s) (d : Direction) :
    s.wait d = w.mesh.line cfg k type d := by
  rw [h.linked.line]
  intro o p none_
  rw [Net.pending, if_neg List.not_mem_nil] at none_
  cases none_

/-- A flit that an input shows to the arbiter. -/
theorem Cleared.shown (h : Cleared cfg pack w k type s) {d : Direction}
    (first : (w.mesh.routers k).ingressFirst type d = some p) :
    p.sourceChannel = d ∧ (w.mesh.buf cfg k type d).head? = some p ∧
      (s.wait d).head? = some p.letter := by
  rw [(h.sound.wf k).ingressFirst_eq] at first
  refine ⟨?_, first, ?_⟩
  · apply ((h.sound.wf k).place type d 0 p _).1
    rwa [← List.head?_eq_getElem?]
  · rw [h.wait, Mesh.line, List.head?_map, List.head?_append]
    change Option.map _ (((w.mesh.routers k).buf cfg.routerIfqSize type d).head?.or _) = _
    rw [first]
    rfl

theorem Cleared.fits (h : Cleared cfg pack w k type s) {d : Direction}
    (first : (w.mesh.buf cfg k type d).head? = some p) : p.Fits cfg k type d :=
  h.sound.fits k h.node type d p (List.mem_of_head? first)

/-- A grant of the arbiter is a grant of the switch. -/
theorem Cleared.grant (h : Cleared cfg pack w k type s)
    (now : (w.served cfg pack k type out).grant = some p) :
    Switch.Grant (pack.format cfg k) s out p.sourceChannel p.letter := by
  obtain ⟨-, d, first, turn⟩ := serve_grant now
  obtain ⟨rfl, head, wait⟩ := h.shown first
  refine ⟨wait, ?_⟩
  rw [h.linked.owner]
  rcases turn with ⟨used, own, -⟩ | ⟨free, asks_, -⟩
  · left
    rw [if_pos used]
    exact own
  · right
    refine ⟨by simp [free], ?_⟩
    unfold asks at asks_
    rw [Bool.and_eq_true] at asks_
    exact ((MeshConfig.wants_route (h.fits head).addressed k out).mp asks_.2).symm

/-- The output takes from the input of the granted flit until the packet ends. -/
theorem Cleared.owner (h : Cleared cfg pack w k type s)
    (now : (w.served cfg pack k type out).grant = some p) :
    (if (w.served cfg pack k type out).used then (w.served cfg pack k type out).inputdirec
      else none) = if (p.id + 1) % pack.size = 0 then none else some p.sourceChannel := by
  have grant := h.grant now
  have positive := pack.positive
  obtain ⟨-, d, first, turn⟩ := serve_grant now
  obtain ⟨rfl, head, wait⟩ := h.shown first
  rcases turn with ⟨used, own, used', own'⟩ | ⟨free, -, used', own'⟩
  · have owned : s.owner out = some p.sourceChannel := by
      rw [h.linked.owner, if_pos used]
      exact own
    obtain ⟨a, -, -, going, -⟩ := h.linked.kept.owned out _ owned
    have multi : 1 < pack.size := by
      by_contra single
      apply going
      change (a.1 + 1) % pack.size = 0
      rw [show pack.size = 1 by omega, Nat.mod_one]
    have kind : w.flitType p.id = .tail ↔ (p.id + 1) % pack.size = 0 := by
      rw [h.typed _ p (List.mem_of_head? head), pack.flitType_tail]
      exact and_iff_right multi
    rw [Net.served, used', own']
    simp only [ne_eq, kind, decide_not, Bool.not_eq_eq_eq_not, Bool.not_true,
      decide_eq_false_iff_not]
    split_ifs
    · rfl
    · rfl
  · have none_ : s.owner out = none := by
      rw [h.linked.owner, free]
      rfl
    have start : p.id % pack.size = 0 :=
      h.linked.kept.grant_first none_ wait (h.linked.kept.grant_route grant)
    have last := pack.last_iff p.id
    rw [start] at last
    rw [Net.served, used', own']
    simp only [decide_eq_true_eq, last]
    split_ifs
    · omega
    · rfl
    · rfl
    · omega

theorem Cleared.known (h : Cleared cfg pack w k type s)
    (used : (w.served cfg pack k type out).used = true) :
    (w.served cfg pack k type out).inputdirec.isSome := by
  cases now : (w.served cfg pack k type out).grant with
  | none =>
    obtain ⟨used', own'⟩ := serve_idle now
    rw [Net.served, own']
    exact h.linked.known out (used'.symm.trans used)
  | some p =>
    obtain ⟨-, d, -, ⟨-, -, used', own'⟩ | ⟨-, -, -, own'⟩⟩ := serve_grant now
    · rw [Net.served, used'] at used
      rw [Net.served, own', if_neg (by simpa using used)]
      rfl
    · rw [Net.served, own']
      rfl

/-- Something from this input has been granted. -/
def takes (g : Direction → Option Flit) (d : Direction) : Bool :=
  Direction.all.any fun o => (g o).any fun p => p.sourceChannel == d

theorem takes_iff {g : Direction → Option Flit} {d : Direction} :
    takes g d = true ↔ ∃ o p, g o = some p ∧ p.sourceChannel = d := by
  simp only [takes, List.any_eq_true, Option.any_eq_true, beq_iff_eq]
  constructor
  · rintro ⟨o, -, p, now, source⟩
    exact ⟨o, p, now, source⟩
  · rintro ⟨o, p, now, source⟩
    exact ⟨o, by cases o <;> decide, p, now, source⟩

/-- The switch after a round of the arbiter. -/
def arbitrated (cfg : MeshConfig) (pack : PackSize) (w : Net) (k : Nat) (type : Chan)
    (s : Switch.State Direction Direction Letter) : Switch.State Direction Direction Letter :=
  let g := fun out => (w.served cfg pack k type out).grant
  { past := fun d => if takes g d then s.past d ++ (s.wait d).head?.toList else s.past d
    wait := fun d => if takes g d then (s.wait d).tail else s.wait d
    sent := fun o => s.sent o ++ ((g o).map Flit.letter).toList
    owner := fun o => if (w.served cfg pack k type o).used then
      (w.served cfg pack k type o).inputdirec else none }

theorem Cleared.round (h : Cleared cfg pack w k type s) :
    Switch.Round (pack.format cfg k) s (arbitrated cfg pack w k type s) fun out =>
      (w.served cfg pack k type out).grant.map fun p => (p.sourceChannel, p.letter) := by
  have one : ∀ {o d a}, ((w.served cfg pack k type o).grant.map fun p =>
      (p.sourceChannel, p.letter)) = some (d, a) → ∃ p,
        (w.served cfg pack k type o).grant = some p ∧ p.sourceChannel = d ∧ p.letter = a := by
    intro o d a now
    obtain ⟨p, now, same⟩ := Option.map_eq_some_iff.mp now
    obtain ⟨source, letter⟩ := Prod.mk.inj same
    exact ⟨p, now, source, letter⟩
  constructor
  case grant =>
    intro o d a now
    obtain ⟨p, granted, rfl, rfl⟩ := one now
    exact h.grant granted
  case sent =>
    intro o
    simp [arbitrated, Option.map_map, Function.comp_def]
  case rest =>
    intro o now
    rw [Option.map_eq_none_iff] at now
    obtain ⟨used, own⟩ := serve_idle now
    rw [h.linked.owner]
    simp only [arbitrated, Net.served, used, own]
  case ends =>
    intro o d a now last
    obtain ⟨p, granted, rfl, rfl⟩ := one now
    exact (h.owner granted).trans (if_pos last)
  case goes =>
    intro o d a now going
    obtain ⟨p, granted, rfl, rfl⟩ := one now
    exact (h.owner granted).trans (if_neg going)
  case taken =>
    intro o d a now
    obtain ⟨p, granted, rfl, rfl⟩ := one now
    obtain ⟨rest, wait⟩ := (h.grant granted).wait
    have taken : takes (fun out => (w.served cfg pack k type out).grant) p.sourceChannel = true :=
      takes_iff.mpr ⟨o, p, granted, rfl⟩
    simp only [arbitrated, taken, if_true]
    rw [wait]
    exact ⟨rfl, rfl⟩
  case other =>
    intro d none_
    have free : takes (fun out => (w.served cfg pack k type out).grant) d = false := by
      rw [Bool.eq_false_iff, Ne, takes_iff]
      rintro ⟨o, p, now, rfl⟩
      refine none_ o p.letter ?_
      rw [show (w.served cfg pack k type o).grant = some p from now]
      rfl
    simp only [arbitrated, free]
    exact ⟨rfl, rfl⟩

theorem mem_outputs (type : Chan) (out : Direction) : (type, out) ∈ Mesh.outputs := by
  cases type <;> cases out <;> decide

/-- The router and the ports that the arbiter leaves. -/
def Net.arbitratedRouter (cfg : MeshConfig) (pack : PackSize) (w : Net) (k : Nat) : Router :=
  { w.mesh.routers k with
    egressGrant := fun type out => (w.served cfg pack k type out).grant
    egressLastGrant := fun type out => (w.served cfg pack k type out).lastGrant }

def Net.arbitratedPorts (cfg : MeshConfig) (pack : PackSize) (w : Net) (k : Nat) : Ports where
  used type out := (w.served cfg pack k type out).used
  inputdirec type out := (w.served cfg pack k type out).inputdirec

def Net.arbitrated (cfg : MeshConfig) (pack : PackSize) (w : Net) (k : Nat) : Net :=
  { w with
    mesh := w.mesh.setRouter k (w.arbitratedRouter cfg pack k)
    ports := Function.update w.ports k (w.arbitratedPorts cfg pack k) }

theorem Cleared.arbitrated (h : Cleared cfg pack w k type s) :
    Linked cfg pack (w.arbitrated cfg pack k) Mesh.outputs k type
      (Worm.arbitrated cfg pack w k type s) := by
  have round := h.round
  have pending : ∀ o, (w.arbitrated cfg pack k).pending Mesh.outputs k type o =
      (w.served cfg pack k type o).grant := by
    intro o
    rw [Net.pending, if_pos (mem_outputs type o)]
    simp [Net.arbitrated, Mesh.setRouter, Net.arbitratedRouter]
  have line : (w.arbitrated cfg pack k).mesh.line cfg = w.mesh.line cfg := Mesh.line_internal rfl rfl
  have ports : (w.arbitrated cfg pack k).ports k = w.arbitratedPorts cfg pack k :=
    Function.update_self ..
  have old : ∀ o, s.sent o = w.sent k type o := by
    intro o
    rw [h.linked.sent, Net.pending, if_neg List.not_mem_nil]
    exact List.append_nil _
  constructor
  · exact h.linked.kept.round round
  · intro d
    rw [round.input]
    exact h.linked.input d
  · intro o
    rw [pending, round.sent, old, Option.map_map]
    rfl
  · intro o
    rw [ports]
    rfl
  · intro o used
    rw [ports] at used ⊢
    exact h.known used
  · intro d free
    rw [line, ← h.wait]
    have none_ : takes (fun out => (w.served cfg pack k type out).grant) d = false := by
      rw [Bool.eq_false_iff, Ne, takes_iff]
      rintro ⟨o, p, now, source⟩
      exact free o p ((pending o).trans now) source
    simp [Worm.arbitrated, none_]
  · intro o p now
    rw [pending] at now
    have taken := round.taken o p.sourceChannel p.letter (by simp [now])
    rw [line, ← h.wait]
    exact taken.2

/-- The arbiter does not stop, and what it grants can be carried out. -/
theorem arbitrateWorm_spec (h : w.mesh.Sound cfg) (hk : k < cfg.totalCpus)
    (linked : ∀ type, ∃ s, Linked cfg pack w [] k type s)
    (typed : ∀ type d, ∀ p ∈ w.mesh.buf cfg k type d,
      w.flitType p.id = pack.flitType (p.id % pack.size)) :
    arbitrateWorm pack w.flitType (cfg.homeX k) (cfg.homeY k) (w.mesh.routers k) (w.ports k) =
        .ok (w.arbitratedRouter cfg pack k, w.arbitratedPorts cfg pack k) ∧
      (w.arbitratedRouter cfg pack k).GrantsOk cfg.routerIfqSize (cfg.homeX k) (cfg.homeY k) := by
  have cleared : ∀ type, ∃ s, Cleared cfg pack w k type s := by
    intro type
    obtain ⟨s, now⟩ := linked type
    exact ⟨s, h, hk, now, typed type⟩
  constructor
  · unfold arbitrateWorm
    rw [if_neg]
    · rfl
    · rw [List.any_eq_true]
      rintro ⟨⟨type, out⟩, -, stops⟩
      obtain ⟨s, now⟩ := cleared type
      simp only [lost, Bool.and_eq_true, Option.isNone_iff_eq_none] at stops
      have known := now.linked.known out stops.1.2
      rw [stops.2] at known
      cases known
  · intro type out p granted
    obtain ⟨s, now⟩ := cleared type
    have granted : (w.served cfg pack k type out).grant = some p := granted
    have grant := now.grant granted
    obtain ⟨on, d, first, -⟩ := serve_grant granted
    obtain ⟨rfl, head, -⟩ := now.shown first
    refine ⟨head, ?_, fun away => ?_⟩
    · rw [MeshConfig.wants_route (now.fits head).addressed]
      exact (now.linked.kept.grant_route grant).symm
    · unfold active Router.hasCredit at on
      rw [Bool.and_eq_true, if_neg away] at on
      exact of_decide_eq_true on.2

end Godson.Worm

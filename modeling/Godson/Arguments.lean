import Mathlib.Data.List.Chain
import Mathlib.Data.List.TakeWhile
import Mathlib.Tactic

/-! The arguments of the simulated programs. `check_multiprog_args` gets one string for each
program, cuts it at its spaces and looks for a redirection of stdin. -/
namespace Godson

/-- `MAX_ARGC` -/
def maxArgc : Nat := 16

/-- `MAX_STRING_LENGTH`, the room of one entry of `mpargv`. -/
def maxStringLength : Nat := 128

def nul : Char := Char.ofNat 0

structure CString where
  chars : List Char
  ended : nul ∉ chars

/-- What can go wrong: a panic of the source, a character behind the end of a string, an index
outside `mpargv[i]`, a negative length or one beyond the room of an entry, no end. -/
inductive ArgFault
  | panic (text : String)
  | outside
  | index
  | negative
  | room
  | endless
  deriving DecidableEq

/-- `*(p+m)` -/
def CString.read (p : CString) (m : Nat) : Except ArgFault Char :=
  match (p.chars ++ [nul])[m]? with
  | some c => .ok c
  | none => .error .outside

/-- `while (go(*(p+m))) m++` -/
def CString.skip (p : CString) (go : Char → Bool) : Nat → Nat → Except ArgFault Nat
  | 0, _ => .error .endless
  | fuel + 1, m => do
    let c ← p.read m
    if go c then p.skip go fuel (m + 1) else return m

structure Scan where
  m : Nat
  n : Nat
  argv : List (List Char)

def inWord (c : Char) : Bool := c != ' ' && c != nul

/-- One round of the scan. An entry is filled by `memcpy` and ended with a zero. -/
def scanStep (p : CString) (s : Scan) : Except ArgFault Scan := do
  let m ← p.skip (· == ' ') (p.chars.length + 1) s.m
  let n ← p.skip inWord (p.chars.length + 1) s.n
  if m = n then
    return ⟨m, n, s.argv⟩
  else if maxArgc ≤ s.argv.length then
    throw .index
  else if n < m then
    throw .negative
  else if maxStringLength ≤ n - m then
    throw .room
  else
    return ⟨n, n + 1, s.argv ++ [(p.chars.drop m).take (n - m) ++ [nul]]⟩

def scan (p : CString) : Nat → Scan → Except ArgFault Scan
  | 0, _ => .error .endless
  | fuel + 1, s => do
    if (← p.read s.m) = nul then
      return s
    else if (← p.read s.n) = nul then
      return s
    else
      scan p fuel (← scanStep p s)

/-- The row `mpargv[i]` of a string. -/
def splitArg (p : CString) : Except ArgFault (List (List Char)) := do
  return (← scan p (p.chars.length + 1) ⟨0, 0, []⟩).argv

structure Program where
  argv : List (List Char)
  argc : Nat
  stdin : Option (List Char)
  deriving DecidableEq

/-- The check for a redirection: `<` at `mpargc[i] - 2`. -/
def redirect (argv : List (List Char)) : Except ArgFault Program :=
  let entry := fun k => (argv.getD k []).takeWhile (· ≠ nul)
  let index := argv.length - 2
  if argv.length < 2 then .error .index
  else if entry index = ['<'] then .ok ⟨argv, index, some (entry (index + 1))⟩
  else .ok ⟨argv, argv.length, none⟩

/-- The digits that `atoi` reads. -/
def digits : Nat → List Char → Nat
  | value, [] => value
  | value, c :: s =>
    if c.isDigit then digits (10 * value + (c.toNat - 48)) s else value

def atoi (s : List Char) : Int :=
  match s.dropWhile Char.isWhitespace with
  | '-' :: s => -digits 0 s
  | '+' :: s => digits 0 s
  | s => digits 0 s

def checkMultiprogArgs (totalCpus : Nat) (colonNum : CString) (myargv : List CString) :
    Except ArgFault (List Program) := do
  if (← colonNum.read 0) ≠ ':' then
    throw (.panic "something wrong happen while check multiprog num!\n")
  let multiprogNum := atoi (colonNum.chars.drop 1)
  if (totalCpus : Int) < multiprogNum then
    throw (.panic "multiprog num cannot be more than total cpu num!\n")
  if multiprogNum ≠ myargv.length then
    throw (.panic "multiprog num should be equal to number of arguments!\n")
  let rows ← myargv.mapM splitArg
  rows.mapM redirect

/-! What the split is for: the words of a string are its maximal runs without a space. -/

def words (q : List Char) : List (List Char) := (q.splitOn ' ').filter (· ≠ [])

theorem words_nil : words [] = [] := rfl

theorem words_word {w : List Char} (plain : ' ' ∉ w) (ne : w ≠ []) : words w = [w] := by
  simp [words, List.splitOn_eq_singleton plain, ne]

theorem words_cons {w : List Char} (plain : ' ' ∉ w) (ne : w ≠ []) (q : List Char) :
    words (w ++ ' ' :: q) = w :: words q := by
  rw [words, List.splitOn_append_cons_self_of_not_mem plain, List.filter_cons_of_pos (by simp [ne]),
    words]

theorem mem_splitOn {q w : List Char} (hw : w ∈ q.splitOn ' ') {c : Char} (hc : c ∈ w) : c ∈ q := by
  induction q generalizing w with
  | nil =>
    rw [List.splitOn_nil, List.mem_singleton] at hw
    exact hw ▸ hc
  | cons a q ih =>
    rw [List.splitOn_cons_eq_if_modifyHead] at hw
    split_ifs at hw with space
    · rcases List.mem_cons.mp hw with rfl | hw
      · cases hc
      · exact List.mem_cons_of_mem a (ih hw hc)
    · cases pieces : q.splitOn ' ' with
      | nil => exact absurd pieces (List.splitOn_ne_nil _ _)
      | cons v pieces' =>
        rw [pieces, List.modifyHead_cons] at hw
        rcases List.mem_cons.mp hw with rfl | hw
        · rcases List.mem_cons.mp hc with rfl | hc
          · exact List.mem_cons_self
          · exact List.mem_cons_of_mem a (ih (pieces ▸ List.mem_cons_self) hc)
        · exact List.mem_cons_of_mem a (ih (pieces ▸ List.mem_cons_of_mem v hw) hc)

/-- No space in front, and no two together. -/
def Spaced (q : List Char) : Prop := (' ' :: q).IsChain fun a b => ¬(a = ' ' ∧ b = ' ')

theorem spaced_nil : Spaced [] := .singleton _

theorem not_spaced_space (q : List Char) : ¬ Spaced (' ' :: q) := by
  intro spaced
  exact (List.isChain_cons_cons.mp spaced).1 ⟨rfl, rfl⟩

theorem spaced_word {w : List Char} (plain : ' ' ∉ w) : Spaced w := by
  induction w with
  | nil => exact spaced_nil
  | cons a w ih =>
    have rest := ih (fun h => plain (List.mem_cons_of_mem a h))
    have ne : a ≠ ' ' := fun h => plain (h ▸ List.mem_cons_self)
    refine List.isChain_cons_cons.mpr ⟨fun h => ne h.2, ?_⟩
    cases w with
    | nil => exact .singleton a
    | cons b w =>
      exact List.isChain_cons_cons.mpr ⟨fun h => ne h.1, (List.isChain_cons_cons.mp rest).2⟩

theorem spaced_cons {w : List Char} (plain : ' ' ∉ w) (ne : w ≠ []) (q : List Char) :
    Spaced (w ++ ' ' :: q) ↔ Spaced q := by
  have front : Spaced w := spaced_word plain
  constructor
  · intro spaced
    exact (List.isChain_append.mp (show List.IsChain _ ((' ' :: w) ++ ' ' :: q) from spaced)).2.1
  · intro spaced
    show List.IsChain _ ((' ' :: w) ++ ' ' :: q)
    refine List.isChain_append.mpr ⟨front, spaced, fun a ha b hb => ?_⟩
    rw [List.getLast?_cons_of_ne_nil ne] at ha
    rintro ⟨rfl, -⟩
    exact plain (List.mem_of_getLast? ha)

/-- The rest `q` of a string can be split, with `j` entries filled. -/
structure Splits (j : Nat) (q : List Char) : Prop where
  spaced : Spaced q
  few : j + (words q).length ≤ maxArgc
  short : ∀ w ∈ words q, w.length < maxStringLength

theorem splits_nil {j : Nat} (few : j ≤ maxArgc) : Splits j [] := by
  refine ⟨spaced_nil, few, ?_⟩
  intro w hw
  cases hw

theorem splits_word {w : List Char} (plain : ' ' ∉ w) (ne : w ≠ []) {j : Nat} :
    Splits j w ↔ j < maxArgc ∧ w.length < maxStringLength := by
  constructor
  · intro h
    have few := h.few
    rw [words_word plain ne] at few
    exact ⟨few, h.short w (by simp [words_word plain ne])⟩
  · rintro ⟨few, short⟩
    refine ⟨spaced_word plain, ?_, ?_⟩
    · rw [words_word plain ne]
      exact few
    · simpa [words_word plain ne] using short

theorem splits_cons {w : List Char} (plain : ' ' ∉ w) (ne : w ≠ []) (q : List Char) {j : Nat} :
    Splits j (w ++ ' ' :: q) ↔
      j < maxArgc ∧ w.length < maxStringLength ∧ Splits (j + 1) q := by
  constructor
  · intro h
    have few := h.few
    have short := h.short
    rw [words_cons plain ne, List.length_cons] at few
    rw [words_cons plain ne, List.forall_mem_cons] at short
    exact ⟨by omega, short.1, (spaced_cons plain ne q).mp h.spaced, by omega, short.2⟩
  · rintro ⟨-, short, rest⟩
    have few := rest.few
    refine ⟨(spaced_cons plain ne q).mpr rest.spaced, ?_, ?_⟩
    · rw [words_cons plain ne, List.length_cons]
      omega
    · rw [words_cons plain ne, List.forall_mem_cons]
      exact ⟨short, rest.short⟩

/-! The scan. -/

variable {p : CString} {k : Nat} {q : List Char}

theorem read_cons {c : Char} (rest : p.chars.drop k = c :: q) : p.read k = .ok c := by
  have front : (p.chars ++ [nul])[k]? = some c := by
    have inside : k < p.chars.length := by
      by_contra outside
      rw [List.drop_eq_nil_of_le (by omega)] at rest
      cases rest
    rw [List.getElem?_append_left inside, ← List.head?_drop, rest, List.head?_cons]
  simp only [CString.read, front]

theorem read_end : p.read p.chars.length = .ok nul := by
  simp [CString.read]

theorem drop_succ {c : Char} (rest : p.chars.drop k = c :: q) : p.chars.drop (k + 1) = q := by
  rw [← List.drop_drop, rest, List.drop_one, List.tail_cons]

theorem drop_length (rest : p.chars.drop k = q) (inside : k ≤ p.chars.length) :
    k + q.length = p.chars.length := by
  rw [← rest, List.length_drop]
  omega

theorem skip_eq {go : Char → Bool} (stops : go nul = false) {fuel : Nat}
    (rest : p.chars.drop k = q) (inside : k ≤ p.chars.length) (enough : q.length < fuel) :
    p.skip go fuel k = .ok (k + (q.takeWhile go).length) := by
  induction q generalizing k fuel with
  | nil =>
    obtain ⟨fuel, rfl⟩ := Nat.exists_eq_succ_of_ne_zero (by omega : fuel ≠ 0)
    have last : k = p.chars.length := drop_length rest inside
    simp [CString.skip, last, read_end, stops, bind, Except.bind, pure, Except.pure]
  | cons c q ih =>
    obtain ⟨fuel, rfl⟩ := Nat.exists_eq_succ_of_ne_zero (by omega : fuel ≠ 0)
    have whole := drop_length rest inside
    simp only [List.length_cons] at whole enough
    by_cases h : go c = true
    · have moved := ih (drop_succ rest) (by omega) (show q.length < fuel by omega)
      simp only [CString.skip, read_cons rest, bind, Except.bind, h, if_true, moved,
        List.takeWhile_cons_of_pos, List.length_cons]
      congr 1
      omega
    · simp [CString.skip, read_cons rest, bind, Except.bind, h, pure, Except.pure]

theorem inWord_nul : inWord nul = false := rfl

theorem space_nul : (nul == ' ') = false := rfl

theorem spaces_cons (q : List Char) :
    (' ' :: q).takeWhile (· == ' ') = ' ' :: q.takeWhile (· == ' ') := rfl

/-- Where a round begins: both indices at `k`, or the first at the space in front of it. -/
def Begins (p : CString) (m k : Nat) : Prop :=
  m = k ∨ m + 1 = k ∧ p.chars.drop m = ' ' :: p.chars.drop k

theorem begins_space (rest : p.chars.drop k = ' ' :: q) : Begins p k (k + 1) :=
  .inr ⟨rfl, by rw [rest, drop_succ rest]⟩

theorem begins_skip {m : Nat} (start : Begins p m k) (rest : p.chars.drop k = q)
    (inside : k ≤ p.chars.length) :
    p.skip (· == ' ') (p.chars.length + 1) m = .ok (k + (q.takeWhile (· == ' ')).length) := by
  have whole := drop_length rest inside
  rcases start with rfl | ⟨rfl, front⟩
  · exact skip_eq space_nul rest inside (by omega)
  · rw [skip_eq space_nul (front.trans (congrArg _ rest)) (by omega)
      (by simp only [List.length_cons]; omega)]
    rw [spaces_cons, List.length_cons]
    congr 1
    omega

/-- In front of a space the round fails. -/
theorem scanStep_space {m : Nat} {argv : List (List Char)} (start : Begins p m k)
    (rest : p.chars.drop k = ' ' :: q) (inside : k ≤ p.chars.length) :
    ∃ f, scanStep p ⟨m, k, argv⟩ = .error f ∧ f ≠ .endless := by
  have whole := drop_length rest inside
  have first := begins_skip start rest inside
  have second := skip_eq inWord_nul rest inside (show _ < p.chars.length + 1 by omega)
  rw [spaces_cons, List.length_cons] at first
  rw [List.takeWhile_cons_of_neg (by decide)] at second
  simp only [scanStep, first, second, bind, Except.bind, List.length_nil, Nat.add_zero]
  rw [if_neg (by omega)]
  split_ifs with full
  · exact ⟨.index, rfl, by simp⟩
  · exact ⟨.negative, rfl, by simp⟩
  · omega
  · omega

/-- In front of a word the round takes the word, where it has room for it. -/
theorem scanStep_word {m : Nat} {argv : List (List Char)} {w : List Char}
    (start : Begins p m k) (rest : p.chars.drop k = w ++ q) (inside : k ≤ p.chars.length)
    (ne : w ≠ []) (isWord : ∀ c ∈ w, inWord c = true) (stop : q.takeWhile inWord = []) :
    (argv.length < maxArgc ∧ w.length < maxStringLength →
      scanStep p ⟨m, k, argv⟩ =
        .ok ⟨k + w.length, k + w.length + 1, argv ++ [w ++ [nul]]⟩) ∧
    (¬(argv.length < maxArgc ∧ w.length < maxStringLength) →
      ∃ f, scanStep p ⟨m, k, argv⟩ = .error f ∧ f ≠ .endless) := by
  have whole := drop_length rest inside
  have first := begins_skip start rfl inside
  have second := skip_eq inWord_nul rest inside (show _ < p.chars.length + 1 by omega)
  have front : (w ++ q).takeWhile (· == ' ') = [] := by
    obtain ⟨c, v, rfl⟩ := List.exists_cons_of_ne_nil ne
    have plain := isWord c List.mem_cons_self
    apply List.takeWhile_cons_of_neg
    simp only [inWord, Bool.and_eq_true, bne_iff_ne] at plain
    simpa using plain.1
  have long : 0 < w.length := List.length_pos_iff.mpr ne
  rw [rest, front] at first
  rw [List.takeWhile_append_of_pos isWord, stop, List.append_nil] at second
  simp only [scanStep, first, second, bind, Except.bind, List.length_nil, Nat.add_zero]
  rw [if_neg (by omega)]
  constructor
  · rintro ⟨few, short⟩
    rw [if_neg (by omega), if_neg (by omega), if_neg (by omega), rest, Nat.add_sub_cancel_left,
      List.take_left]
    rfl
  · intro h
    split_ifs with full minus long
    · exact ⟨.index, rfl, by simp⟩
    · omega
    · exact ⟨.room, rfl, by simp⟩
    · omega

theorem scan_succ (fuel m n : Nat) (argv : List (List Char)) {c d : Char}
    (first : p.read m = .ok c) (second : p.read n = .ok d) (h : c ≠ nul) (h' : d ≠ nul) :
    scan p (fuel + 1) ⟨m, n, argv⟩ = (scanStep p ⟨m, n, argv⟩).bind (scan p fuel) := by
  simp only [scan, first, second, bind, Except.bind, if_neg h, if_neg h']

theorem scan_end (fuel n : Nat) (argv : List (List Char)) :
    scan p (fuel + 1) ⟨p.chars.length, n, argv⟩ = .ok ⟨p.chars.length, n, argv⟩ := by
  simp [scan, read_end, bind, Except.bind, pure, Except.pure]

theorem ne_nul {c : Char} (rest : p.chars.drop k = c :: q) : c ≠ nul := by
  rintro rfl
  exact p.ended (List.mem_of_mem_drop (rest ▸ List.mem_cons_self))

theorem begins_read {m : Nat} (start : Begins p m k) {c : Char}
    (rest : p.chars.drop k = c :: q) : ∃ d, p.read m = .ok d ∧ d ≠ nul := by
  rcases start with rfl | ⟨rfl, front⟩
  · exact ⟨c, read_cons rest, ne_nul rest⟩
  · exact ⟨' ', read_cons front, by decide⟩

/-- The rest of a string is a word with what follows it, or begins with a space. -/
theorem rest_cases (rest : p.chars.drop k = q) (ne : q ≠ []) :
    (∃ v, q = ' ' :: v) ∨
    ∃ w v, w ≠ [] ∧ (∀ c ∈ w, inWord c = true) ∧ q = w ++ v ∧ (v = [] ∨ ∃ u, v = ' ' :: u) := by
  obtain ⟨c, u, rfl⟩ := List.exists_cons_of_ne_nil ne
  by_cases space : c = ' '
  · subst space
    exact .inl ⟨u, rfl⟩
  · have word : inWord c = true := by simp [inWord, space, ne_nul rest]
    refine .inr ⟨(c :: u).takeWhile inWord, (c :: u).dropWhile inWord, ?_, ?_, ?_, ?_⟩
    · simp [List.takeWhile_cons_of_pos word]
    · exact fun d hd => List.mem_takeWhile_imp hd
    · exact List.takeWhile_append_dropWhile.symm
    · cases left : (c :: u).dropWhile inWord with
      | nil => exact .inl rfl
      | cons d v =>
        have stops : ¬ inWord d = true := by
          have first := List.head?_dropWhile_not inWord (c :: u)
          simpa [left] using first
        have zero : d ≠ nul := by
          rintro rfl
          have inside : nul ∈ (c :: u).dropWhile inWord := left ▸ List.mem_cons_self
          have : nul ∈ p.chars.drop k := rest ▸ (List.dropWhile_sublist _).subset inside
          exact p.ended (List.mem_of_mem_drop this)
        refine .inr ⟨v, ?_⟩
        simp only [inWord, Bool.and_eq_true, bne_iff_ne, not_and, ne_eq, not_not] at stops
        by_contra other
        exact zero (stops (fun h => other (by rw [h])))

/-- From a round on the scan splits the rest `q` of the string, or fails. -/
structure Ends (p : CString) (fuel m k : Nat) (argv : List (List Char)) (q : List Char) :
    Prop where
  good : Splits argv.length q → ∃ s, scan p fuel ⟨m, k, argv⟩ = .ok s ∧
    s.argv = argv ++ (words q).map (· ++ [nul])
  bad : ¬ Splits argv.length q → ∃ f, scan p fuel ⟨m, k, argv⟩ = .error f ∧ f ≠ .endless

variable {m fuel : Nat} {argv : List (List Char)}

theorem ends_nil (start : Begins p m k) (last : k = p.chars.length)
    (few : argv.length ≤ maxArgc) : Ends p (fuel + 1) m k argv [] := by
  have done : scan p (fuel + 1) ⟨m, k, argv⟩ = .ok ⟨m, k, argv⟩ := by
    rcases start with rfl | ⟨rfl, front⟩
    · rw [last, scan_end]
    · simp [scan, read_cons front, last, read_end, bind, Except.bind, pure, Except.pure,
        show (' ' : Char) ≠ nul by decide]
  constructor
  · intro _
    exact ⟨_, done, by rw [words_nil, List.map_nil, List.append_nil]⟩
  · intro no
    exact absurd (splits_nil few) no

theorem ends_space (start : Begins p m k) (rest : p.chars.drop k = ' ' :: q)
    (inside : k ≤ p.chars.length) : Ends p (fuel + 1) m k argv (' ' :: q) := by
  obtain ⟨d, first, zero⟩ := begins_read start rest
  obtain ⟨f, failed, notEnd⟩ := @scanStep_space p k q m argv start rest inside
  constructor
  · intro yes
    exact absurd yes.spaced (not_spaced_space q)
  · intro _
    refine ⟨f, ?_, notEnd⟩
    rw [scan_succ fuel m k argv first (read_cons rest) zero (ne_nul rest), failed]
    rfl

/-- A round in front of a word, and what the rounds behind it do. -/
theorem ends_word {w : List Char} (start : Begins p m k) (rest : p.chars.drop k = w ++ q)
    (inside : k ≤ p.chars.length) (ne : w ≠ []) (isWord : ∀ c ∈ w, inWord c = true)
    (stop : q.takeWhile inWord = [])
    (takes : ∀ j, Splits j (w ++ q) → j < maxArgc ∧ w.length < maxStringLength)
    (next : argv.length < maxArgc → w.length < maxStringLength →
      (Splits argv.length (w ++ q) →
        ∃ s, scan p fuel ⟨k + w.length, k + w.length + 1, argv ++ [w ++ [nul]]⟩ = .ok s ∧
          s.argv = argv ++ (words (w ++ q)).map (· ++ [nul])) ∧
      (¬ Splits argv.length (w ++ q) →
        ∃ f, scan p fuel ⟨k + w.length, k + w.length + 1, argv ++ [w ++ [nul]]⟩ = .error f ∧
          f ≠ .endless)) : Ends p (fuel + 1) m k argv (w ++ q) := by
  obtain ⟨taken, failed⟩ := @scanStep_word p k q m argv w start rest inside ne isWord stop
  obtain ⟨c, u, rfl⟩ := List.exists_cons_of_ne_nil ne
  obtain ⟨d, first, zero⟩ := begins_read start rest
  have round := scan_succ fuel m k argv first (read_cons rest) zero (ne_nul rest)
  by_cases fits : argv.length < maxArgc ∧ (c :: u).length < maxStringLength
  · obtain ⟨good, bad⟩ := next fits.1 fits.2
    constructor
    · rw [round, taken fits]
      exact good
    · rw [round, taken fits]
      exact bad
  · obtain ⟨f, stuck, notEnd⟩ := failed fits
    constructor
    · intro yes
      exact absurd (takes _ yes) fits
    · intro _
      exact ⟨f, by rw [round, stuck]; rfl, notEnd⟩

theorem scan_rest (start : Begins p m k) (rest : p.chars.drop k = q)
    (inside : k ≤ p.chars.length) (enough : q.length < fuel) (few : argv.length ≤ maxArgc) :
    Ends p fuel m k argv q := by
  induction fuel generalizing m k q argv with
  | zero => omega
  | succ fuel ih =>
    have whole := drop_length rest inside
    by_cases ne : q = []
    · subst ne
      exact ends_nil start whole few
    · rcases rest_cases rest ne with ⟨v, rfl⟩ | ⟨w, v, wne, isWord, rfl, follows⟩
      · exact ends_space start rest inside
      · have plain : ' ' ∉ w := fun h => absurd (isWord ' ' h) (by decide)
        have long : 0 < w.length := List.length_pos_iff.mpr wne
        have after : p.chars.drop (k + w.length) = v := by
          rw [← List.drop_drop, rest, List.drop_left]
        rw [List.length_append] at whole enough
        rcases follows with rfl | ⟨u, rfl⟩
        · -- the last word: the next round finds the end of the string
          obtain ⟨more, rfl⟩ := Nat.exists_eq_succ_of_ne_zero (show fuel ≠ 0 by omega)
          refine ends_word start rest inside wne isWord rfl (fun j yes => ?_) fun room short => ?_
          · rw [List.append_nil] at yes
            exact (splits_word plain wne).mp yes
          · rw [List.append_nil, words_word plain wne, splits_word plain wne,
              show k + w.length = p.chars.length from whole]
            refine ⟨fun _ => ⟨_, scan_end more _ _, rfl⟩, fun no => absurd ⟨room, short⟩ no⟩
        · rw [List.length_cons] at whole enough
          refine ends_word start rest inside wne isWord
            (List.takeWhile_cons_of_neg (by decide)) (fun j yes => ?_) fun room short => ?_
          · obtain ⟨room, short, -⟩ := (splits_cons plain wne u).mp yes
            exact ⟨room, short⟩
          · have rounds : Ends p fuel (k + w.length) (k + w.length + 1) (argv ++ [w ++ [nul]]) u :=
              ih (begins_space after) (drop_succ after) (by omega) (by omega)
                (by rw [List.length_append, List.length_singleton]; omega)
            have grown : (argv ++ [w ++ [nul]]).length = argv.length + 1 := List.length_append
            rw [splits_cons plain wne, words_cons plain wne]
            constructor
            · rintro ⟨-, -, yes⟩
              obtain ⟨s, result, row⟩ := rounds.good (grown ▸ yes)
              exact ⟨s, result, by rw [row, List.append_assoc]; rfl⟩
            · intro no
              exact rounds.bad fun yes => no ⟨room, short, grown ▸ yes⟩

/-! The rows, and the redirection. -/

theorem splitArg_words (p : CString) :
    (Splits 0 p.chars → splitArg p = .ok ((words p.chars).map (· ++ [nul]))) ∧
    (¬ Splits 0 p.chars → ∃ f, splitArg p = .error f ∧ f ≠ .endless) := by
  have whole : Ends p (p.chars.length + 1) 0 0 [] p.chars :=
    scan_rest (.inl rfl) rfl (Nat.zero_le _) (by omega) (by decide)
  constructor
  · intro yes
    obtain ⟨s, result, row⟩ := whole.good yes
    simp only [splitArg, result, bind, Except.bind, pure, Except.pure, row, List.nil_append]
  · intro no
    obtain ⟨f, result, notEnd⟩ := whole.bad no
    exact ⟨f, by simp only [splitArg, result, bind, Except.bind], notEnd⟩

/-- What is to become of a string: its words, each ended with a zero, less a redirection. -/
def program (q : List Char) : Program :=
  let argv := (words q).map (· ++ [nul])
  let index := (words q).length - 2
  if (words q).getD index [] = ['<'] then ⟨argv, index, some ((words q).getD (index + 1) [])⟩
  else ⟨argv, (words q).length, none⟩

theorem entry_word (p : CString) (k : Nat) :
    (((words p.chars).map (· ++ [nul])).getD k []).takeWhile (· ≠ nul) =
      (words p.chars).getD k [] := by
  rw [List.getD_eq_getElem?_getD, List.getD_eq_getElem?_getD, List.getElem?_map]
  cases found : (words p.chars)[k]? with
  | none => rfl
  | some w =>
    have inside : w ∈ p.chars.splitOn ' ' :=
      (List.mem_filter.mp (List.mem_of_getElem? found)).1
    have plain : ∀ c ∈ w, decide (c ≠ nul) = true := by
      intro c hc
      refine decide_eq_true ?_
      rintro rfl
      exact p.ended (mem_splitOn inside hc)
    simp only [Option.map_some, Option.getD_some]
    rw [List.takeWhile_append_of_pos plain, List.takeWhile_cons_of_neg (by simp), List.append_nil]

theorem redirect_words (p : CString) :
    redirect ((words p.chars).map (· ++ [nul])) =
      if (words p.chars).length < 2 then .error .index else .ok (program p.chars) := by
  simp only [redirect, entry_word, List.length_map, program]
  split_ifs <;> rfl

/-- The strings that are split without a fault. -/
structure WellSpaced (p : CString) : Prop where
  splits : Splits 0 p.chars
  two : 2 ≤ (words p.chars).length

section MapM

variable {α β ε : Type} {f : α → Except ε β}

theorem mapM_ok {g : α → β} {l : List α} (h : ∀ a ∈ l, f a = .ok (g a)) :
    l.mapM f = .ok (l.map g) := by
  induction l with
  | nil => rfl
  | cons a l ih =>
    have rest := ih fun b hb => h b (List.mem_cons_of_mem a hb)
    simp only [List.mapM_cons, h a List.mem_cons_self, rest, bind, Except.bind, pure, Except.pure,
      List.map_cons]

theorem mapM_eq_ok {l : List α} {bs : List β} (h : l.mapM f = .ok bs) :
    ∀ a ∈ l, ∃ b, f a = .ok b := by
  induction l generalizing bs with
  | nil =>
    intro a ha
    cases ha
  | cons c l ih =>
    rw [List.mapM_cons] at h
    cases head : f c with
    | error e => simp [head, bind, Except.bind] at h
    | ok b =>
      cases tail : l.mapM f with
      | error e => simp [head, tail, bind, Except.bind] at h
      | ok bs' =>
        rintro a (_ | ⟨_, ha⟩)
        · exact ⟨b, head⟩
        · exact ih tail a ha

theorem mapM_eq_error {l : List α} {e : ε} (h : l.mapM f = .error e) :
    ∃ a ∈ l, f a = .error e := by
  induction l with
  | nil => cases h
  | cons c l ih =>
    rw [List.mapM_cons] at h
    cases head : f c with
    | error e' =>
      refine ⟨c, List.mem_cons_self, ?_⟩
      simpa [head, bind, Except.bind] using h
    | ok b =>
      cases tail : l.mapM f with
      | error e' =>
        obtain rfl : e' = e := by simpa [head, tail, bind, Except.bind] using h
        obtain ⟨a, ha, failed⟩ := ih tail
        exact ⟨a, List.mem_cons_of_mem c ha, failed⟩
      | ok bs => simp [head, tail, bind, Except.bind, pure, Except.pure] at h

end MapM

/-- What the source checks about the count in front of the strings. -/
structure Admitted (totalCpus : Nat) (colonNum : CString) (myargv : List CString) : Prop where
  colon : colonNum.read 0 = .ok ':'
  few : atoi (colonNum.chars.drop 1) ≤ totalCpus
  count : atoi (colonNum.chars.drop 1) = myargv.length

theorem checkMultiprogArgs_admitted {totalCpus : Nat} {colonNum : CString}
    {myargv : List CString} (h : Admitted totalCpus colonNum myargv) :
    checkMultiprogArgs totalCpus colonNum myargv =
      (myargv.mapM splitArg).bind fun rows => rows.mapM redirect := by
  have few : ¬ (totalCpus : Int) < atoi (colonNum.chars.drop 1) := by
    have := h.few
    omega
  simp only [checkMultiprogArgs, h.colon, h.count, bind, Except.bind]
  rw [if_neg (by simp), if_neg (h.count ▸ few), if_neg (by simp)]

/-- The strings are split into their words, without a fault, exactly when each has no space
in front and no two together, has between two and sixteen words, and these fit the room of
their entries. The scan always ends. -/
theorem checkMultiprogArgs_splits {totalCpus : Nat} {colonNum : CString}
    {myargv : List CString} (h : Admitted totalCpus colonNum myargv) :
    (checkMultiprogArgs totalCpus colonNum myargv = .ok (myargv.map fun p => program p.chars) ↔
      ∀ p ∈ myargv, WellSpaced p) ∧
    checkMultiprogArgs totalCpus colonNum myargv ≠ .error .endless := by
  rw [checkMultiprogArgs_admitted h]
  refine ⟨⟨fun done => ?_, fun spaced => ?_⟩, fun stuck => ?_⟩
  · cases rows : myargv.mapM splitArg with
    | error f =>
      rw [rows] at done
      cases done
    | ok argvs =>
      have splits : ∀ p ∈ myargv, Splits 0 p.chars := by
        intro p hp
        by_contra no
        obtain ⟨f, failed, -⟩ := (splitArg_words p).2 no
        obtain ⟨argv, row⟩ := mapM_eq_ok rows p hp
        rw [row] at failed
        cases failed
      rw [mapM_ok fun p hp => (splitArg_words p).1 (splits p hp)] at done
      intro p hp
      refine ⟨splits p hp, ?_⟩
      by_contra two
      obtain ⟨row, checked⟩ := mapM_eq_ok done _ (List.mem_map_of_mem hp)
      rw [redirect_words, if_pos (by omega)] at checked
      cases checked
  · rw [mapM_ok fun p hp => (splitArg_words p).1 (spaced p hp).splits]
    change List.mapM redirect _ = _
    have checked : ∀ p ∈ myargv, redirect ((words p.chars).map (· ++ [nul])) =
        .ok (program p.chars) := by
      intro p hp
      have two := (spaced p hp).two
      rw [redirect_words, if_neg (by omega)]
    rw [List.mapM_map]
    exact mapM_ok checked
  · cases rows : myargv.mapM splitArg with
    | error f =>
      rw [rows] at stuck
      obtain rfl : f = .endless := Except.error.inj stuck
      obtain ⟨p, -, failed⟩ := mapM_eq_error rows
      by_cases splits : Splits 0 p.chars
      · rw [(splitArg_words p).1 splits] at failed
        cases failed
      · obtain ⟨f, other, ne⟩ := (splitArg_words p).2 splits
        rw [other] at failed
        exact ne (Except.error.inj failed)
    | ok argvs =>
      rw [rows] at stuck
      obtain ⟨argv, -, failed⟩ := mapM_eq_error (show argvs.mapM redirect = _ from stuck)
      simp only [redirect] at failed
      split_ifs at failed
      · cases Except.error.inj failed

theorem checkMultiprogArgs_splits_redirected :
    (checkMultiprogArgs 1 ⟨[':', '1'], by decide⟩ [⟨['c', ' ', '<', ' ', 'f'], by decide⟩] =
        .ok [program ['c', ' ', '<', ' ', 'f']] ↔
      ∀ p ∈ [(⟨['c', ' ', '<', ' ', 'f'], by decide⟩ : CString)], WellSpaced p) ∧
    checkMultiprogArgs 1 ⟨[':', '1'], by decide⟩ [⟨['c', ' ', '<', ' ', 'f'], by decide⟩] ≠
      .error .endless :=
  checkMultiprogArgs_splits ⟨by decide, by decide, by decide⟩

theorem checkMultiprogArgs_doubled : ¬ ∀ totalCpus colonNum myargv,
    Admitted totalCpus colonNum myargv →
      checkMultiprogArgs totalCpus colonNum myargv =
        .ok (myargv.map fun p => program p.chars) := by
  intro always
  have split := always 1 ⟨[':', '1'], by decide⟩ [⟨['a', ' ', ' ', 'b'], by decide⟩]
    ⟨by decide, by decide, by decide⟩
  have fault : checkMultiprogArgs 1 ⟨[':', '1'], by decide⟩
      [⟨['a', ' ', ' ', 'b'], by decide⟩] = .error .negative := by decide
  rw [fault] at split
  cases split

end Godson

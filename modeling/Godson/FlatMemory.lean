import Mathlib.Data.Finset.Card
import Godson.Memory

/-! The page tables of `memory.c` against a flat memory: a byte for each address, and the pages
that were written. -/
namespace Godson.Memory

open Mips Buckets

/-- The purpose of the memory. -/
structure Flat where
  bytes : Word → Byte := fun _ => 0
  pages : Finset Word := ∅

/-- The entry of an address. -/
def Mem.entry (m : Mem) (addr : Word) : Option Pte :=
  lookup Pte.tag (ptabTag addr) (m.ptab (ptabSet addr))

def Mem.bytes (m : Mem) (addr : Word) : Byte :=
  match m.entry addr with
  | none => 0
  | some pte => m.host pte.page (memOffset addr)

/-- No page has two entries, and no two entries have one host page. -/
structure Tables (m : Mem) : Prop where
  unique : ∀ set, Unique Pte.tag (m.ptab set)
  known : ∀ set, ∀ pte ∈ m.ptab set, pte.page < m.core
  apart : ∀ set, ∀ pte ∈ m.ptab set, ∀ set', ∀ pte' ∈ m.ptab set', pte.page = pte'.page →
    set = set' ∧ pte.tag = pte'.tag

/-- The page tables, and what they contain. -/
structure Holds (m : Mem) (f : Flat) : Prop extends Tables m where
  bytes : ∀ addr, m.bytes addr = f.bytes addr
  pages : ∀ addr, (m.entry addr).isSome = true ↔ addr >>> 12 ∈ f.pages
  count : m.pageCount = f.pages.card

/-- Entries have moved in their buckets. -/
structure Moved (m m' : Mem) : Prop where
  perm : ∀ set, (m.ptab set).Perm (m'.ptab set)
  host : m'.host = m.host
  core : m'.core = m.core
  count : m'.pageCount = m.pageCount

variable {m m' : Mem} {f : Flat} {a b : Word} {pte : Pte}

theorem entry_some (h : m.entry a = some pte) :
    pte ∈ m.ptab (ptabSet a) ∧ pte.tag = ptabTag a := lookup_some h

section Moves

theorem Moved.entry (moved : Moved m m') (h : Tables m) (a : Word) : m'.entry a = m.entry a :=
  lookup_perm (moved.perm _) (h.unique _)

theorem Moved.tables (moved : Moved m m') (h : Tables m) : Tables m' where
  unique set := unique_perm (moved.perm set) (h.unique set)
  known set pte here := by
    rw [moved.core]
    exact h.known set pte ((moved.perm set).mem_iff.mpr here)
  apart set pte here set' pte' here' same :=
    h.apart set pte ((moved.perm set).mem_iff.mpr here) set' pte'
      ((moved.perm set').mem_iff.mpr here') same

theorem Moved.holds (moved : Moved m m') (h : Holds m f) : Holds m' f where
  toTables := moved.tables h.toTables
  bytes a := by
    rw [← h.bytes a, Mem.bytes, Mem.bytes, moved.entry h.toTables, moved.host]
  pages a := by
    rw [moved.entry h.toTables]
    exact h.pages a
  count := moved.count.trans h.count

theorem memTranslate_spec (h : Tables m) (a : Word) :
    (memTranslate a m).1 = (m.entry a).map Pte.page ∧ Moved m (memTranslate a m).2 := by
  simp only [memTranslate]
  split
  · rename_i absent
    have none : m.entry a = none := takeOut_none absent
    exact ⟨by rw [none]; rfl, fun set => .refl _, rfl, rfl, rfl⟩
  · rename_i pte rest found
    obtain ⟨tag, perm⟩ := takeOut_some found
    have entry : m.entry a = some pte :=
      (lookup_eq_some (h.unique _)).mpr ⟨perm.mem_iff.mp List.mem_cons_self, tag⟩
    refine ⟨by rw [entry]; rfl, fun set => ?_, rfl, rfl, rfl⟩
    by_cases same : set = ptabSet a
    · subst same
      simpa using perm.symm
    · simp [same]

/-- `MEM_PAGE` finds the page of an address, whichever entry is the first one. -/
theorem memPage_spec (h : Tables m) (a : Word) :
    (memPage a m).1 = (m.entry a).map Pte.page ∧ Moved m (memPage a m).2 := by
  simp only [memPage]
  split
  · exact memTranslate_spec h a
  · rename_i pte rest bucket
    split
    · rename_i same
      have entry : m.entry a = some pte := by
        rw [Mem.entry, bucket, lookup_cons, if_pos same]
      exact ⟨by rw [entry]; rfl, fun set => .refl _, rfl, rfl, rfl⟩
    · exact memTranslate_spec h a

end Moves

section Steps

/-- A page is written for the first time. -/
def Flat.touch (a : Word) (f : Flat) : Flat := { f with pages := insert (a >>> 12) f.pages }

def Flat.write (a : Word) (v : Byte) (f : Flat) : Flat :=
  { bytes := Function.update f.bytes a v, pages := insert (a >>> 12) f.pages }

theorem ptab_memNewpage (a set : Word) (m : Mem) : (memNewpage a m).ptab set =
    if set = ptabSet a then ⟨ptabTag a, m.core⟩ :: m.ptab set else m.ptab set := by
  simp only [memNewpage]
  split
  · rename_i same
    rw [same, Function.update_self]
  · rename_i other
    rw [Function.update_of_ne other]

theorem entry_memNewpage (a b : Word) (m : Mem) : (memNewpage a m).entry b =
    if a >>> 12 = b >>> 12 then some ⟨ptabTag a, m.core⟩ else m.entry b := by
  rw [Mem.entry, ptab_memNewpage]
  by_cases set : ptabSet b = ptabSet a
  · rw [if_pos set, lookup_cons]
    by_cases tag : ptabTag a = ptabTag b
    · rw [if_pos tag, if_pos (same_page.mp ⟨set.symm, tag⟩)]
    · rw [if_neg tag, if_neg fun page => tag (same_page.mpr page).2]
      rfl
  · rw [if_neg set, if_neg fun page => set (same_page.mpr page).1.symm]
    rfl

theorem tables_memNewpage (h : Tables m) (absent : m.entry a = none) :
    Tables (memNewpage a m) := by
  have cases (set : Word) (pte : Pte) (here : pte ∈ (memNewpage a m).ptab set) :
      (set = ptabSet a ∧ pte = ⟨ptabTag a, m.core⟩) ∨ pte ∈ m.ptab set := by
    rw [ptab_memNewpage] at here
    split at here
    · rename_i same
      exact (List.mem_cons.mp here).imp_left fun new => ⟨same, new⟩
    · exact .inr here
  refine ⟨fun set => ?_, fun set pte here => ?_, fun set pte here set' pte' here' same => ?_⟩
  · rw [ptab_memNewpage]
    split
    · rename_i same
      exact unique_cons (h.unique _) (same ▸ absent)
    · exact h.unique set
  · rcases cases set pte here with ⟨-, rfl⟩ | old
    · exact Nat.lt_succ_self _
    · exact Nat.lt_succ_of_lt (h.known set pte old)
  · rcases cases set pte here with ⟨rfl, rfl⟩ | old <;>
      rcases cases set' pte' here' with ⟨rfl, rfl⟩ | old'
    · exact ⟨rfl, rfl⟩
    · have below := h.known set' pte' old'
      have same : m.core = pte'.page := same
      omega
    · have below := h.known set pte old
      have same : pte.page = m.core := same
      omega
    · exact h.apart set pte old set' pte' old' same

theorem memNewpage_holds (h : Holds m f) (absent : m.entry a = none) :
    Holds (memNewpage a m) (f.touch a) := by
  have fresh : a >>> 12 ∉ f.pages := fun here => by
    have some := (h.pages a).mpr here
    rw [absent] at some
    cases some
  refine ⟨tables_memNewpage h.toTables absent, fun b => ?_, fun b => ?_, ?_⟩
  · rw [Mem.bytes, entry_memNewpage]
    by_cases page : a >>> 12 = b >>> 12
    · have zero : f.bytes b = 0 := by
        rw [← h.bytes b, Mem.bytes]
        obtain ⟨set, tag⟩ := same_page.mpr page
        have none : m.entry b = none := by rw [← absent, Mem.entry, Mem.entry, set, tag]
        rw [none]
      rw [if_pos page]
      simp only [memNewpage, Function.update_self]
      exact zero.symm
    · have same : (f.touch a).bytes b = m.bytes b := (h.bytes b).symm
      rw [if_neg page, same, Mem.bytes]
      split
      · rfl
      · rename_i pte found
        have older : pte.page ≠ m.core := (h.known _ pte (entry_some found).1).ne
        simp only [memNewpage, Function.update_of_ne older]
  · rw [entry_memNewpage, Flat.touch, Finset.mem_insert, ← h.pages b]
    split
    · rename_i page
      simp [page]
    · rename_i other
      simp [Ne.symm other]
  · rw [Flat.touch, Finset.card_insert_of_notMem fresh, ← h.count]
    rfl

theorem memTickle_holds (h : Holds m f) (a : Word) :
    Holds (memTickle a m) (f.touch a) := by
  obtain ⟨found, moved⟩ := memPage_spec h.toTables a
  have next := moved.holds h
  have entry := moved.entry h.toTables a
  simp only [memTickle]
  split
  · rename_i m' absent
    rw [absent] at found next entry
    have none : m.entry a = none := Option.map_eq_none_iff.mp found.symm
    exact memNewpage_holds next (entry.trans none)
  · rename_i page m' here
    rw [here] at found next
    obtain ⟨pte, some, -⟩ := Option.map_eq_some_iff.mp found.symm
    have touched : f.touch a = f := by
      have member : a >>> 12 ∈ f.pages := (h.pages a).mp (by rw [some]; rfl)
      rw [Flat.touch, Finset.insert_eq_self.mpr member]
    rw [touched]
    exact next

theorem memReadByte_spec (h : Holds m f) (a : Word) :
    (memReadByte a m).1 = f.bytes a ∧ Holds (memReadByte a m).2 f := by
  obtain ⟨found, moved⟩ := memPage_spec h.toTables a
  have next := moved.holds h
  have entry := moved.entry h.toTables a
  rw [← h.bytes a, Mem.bytes]
  simp only [memReadByte]
  split
  · rename_i m' absent
    rw [absent] at found next
    rw [Option.map_eq_none_iff.mp found.symm]
    exact ⟨rfl, next⟩
  · rename_i page m' here
    rw [here] at found next entry moved
    obtain ⟨again, moved'⟩ := memPage_spec next.toTables a
    have last := moved'.holds next
    obtain ⟨pte, some, -⟩ := Option.map_eq_some_iff.mp found.symm
    have host := moved'.host.trans moved.host
    rw [entry, some] at again
    rw [some]
    split
    · rename_i page' m'' here'
      rw [here'] at again last host
      cases again
      exact ⟨by rw [host], last⟩
    · rename_i m'' absent
      rw [absent] at again
      cases again

theorem memWriteByte_holds (h : Holds m f) (a : Word) (v : Byte) :
    Holds (memWriteByte a v m) (f.write a v) := by
  have ready := memTickle_holds h a
  obtain ⟨found, moved⟩ := memPage_spec ready.toTables a
  have next := moved.holds ready
  have present : (memTickle a m).entry a ≠ none := by
    have here := (ready.pages a).mpr (Finset.mem_insert_self _ _)
    exact fun none => by simp [none] at here
  simp only [memWriteByte]
  split
  · rename_i page m' here
    rw [here] at found next moved
    obtain ⟨pte, entry, same⟩ := Option.map_eq_some_iff.mp found.symm
    have entry' : m'.entry a = some pte := (moved.entry ready.toTables a).trans entry
    refine ⟨⟨next.unique, next.known, next.apart⟩, fun b => ?_, next.pages, next.count⟩
    have before := next.bytes b
    rw [Mem.bytes] at before
    have entryB (host : Nat → Word → Byte) : Mem.entry { m' with host := host } b = m'.entry b :=
      rfl
    rw [Mem.bytes, entryB, Flat.write]
    by_cases at_a : b = a
    · subst at_a
      simp [entry', same]
    · simp only [Function.update_of_ne at_a]
      cases other : m'.entry b with
      | none =>
        rw [other] at before
        exact before
      | some q =>
        rw [other] at before
        have before : m'.host q.page (memOffset b) = f.bytes b := before
        by_cases shared : q.page = page
        · obtain ⟨set, tag⟩ := next.apart _ q (entry_some other).1 _ pte (entry_some entry').1
            (shared.trans same.symm)
          rw [(entry_some other).2, (entry_some entry').2] at tag
          have offset : memOffset b ≠ memOffset a := fun offset =>
            at_a (same_address (same_page.mp ⟨set, tag⟩) offset)
          rw [shared] at before
          simp only [shared, Function.update_self, Function.update_of_ne offset]
          exact before
        · simp only [Function.update_of_ne shared]
          exact before
  · rename_i m' absent
    rw [absent] at found
    exact absurd (Option.map_eq_none_iff.mp found.symm) present

end Steps

end Godson.Memory

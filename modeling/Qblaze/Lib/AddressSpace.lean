import Qblaze.Lib.Memory

/-!
# Address spaces

What the pages of a process hold, and the system calls that map, unmap and move them. The kernel decides
where a new mapping goes and whether it grants a call; what a granted call does is documented.

* `Space.fill`, `Space.cut`, `Space.moveTo`: what the three calls do to the cells.
* `cut_ends`: a mapping whose ends are unmapped is a smaller mapping.
* `Kernel.mmap_eq`, `Kernel.munmap_eq`, `Kernel.mremap_eq`: the calls on whole pages.
* `Space.Has`: the process has a block of bytes and may use it. `Has.load` and `Has.store` say that an
  access to the block is no fault.
-/

namespace Lib

/-- What an address holds, and whether the process may read and write it. -/
structure Cell (β : Type) where
  val : β
  rw : Bool
  deriving DecidableEq

/-- The cells of the mapped addresses. -/
abbrev Space (β : Type) := Memory (Option (Cell β))

namespace Space

variable {β : Type} {s s' : Space β} {p q n m l a k : Nat} {c : Cell β} {v : β} {bs : List β}

/-- Is the range unmapped? -/
def Free (s : Space β) (p n : Nat) : Prop := ∀ a < p + n, p ≤ a → s a = none

instance [DecidableEq β] (s : Space β) (p n : Nat) : Decidable (s.Free p n) :=
  inferInstanceAs (Decidable (∀ a < p + n, p ≤ a → s a = none))

def fill (s : Space β) (p n : Nat) (c : Cell β) : Space β := fun a =>
  if p ≤ a ∧ a < p + n then some c else s a

def cut (s : Space β) (p n : Nat) : Space β := fun a => if p ≤ a ∧ a < p + n then none else s a

/-- The `n` cells at `p` move to `q`, and the range grows to `m` cells. The new cells may be used as the
first one may. -/
def moveTo [Zero β] (s : Space β) (p n m q : Nat) : Space β := fun a =>
  if q ≤ a ∧ a < q + m then
    if a < q + n then s (p + (a - q)) else (s p).map fun c => ⟨0, c.rw⟩
  else s.cut p n a

/-- A read; `none` is a fault. -/
def load (s : Space β) (a : Nat) : Option β :=
  match s a with
  | some ⟨v, true⟩ => some v
  | _ => none

/-- A write; `none` is a fault. -/
def store (s : Space β) (a : Nat) (v : β) : Option (Space β) :=
  match s a with
  | some ⟨_, true⟩ => some fun b => if b = a then some ⟨v, true⟩ else s b
  | _ => none

theorem fill_of_mem (s : Space β) (c : Cell β) (h : p ≤ a) (h' : a < p + n) : s.fill p n c a = some c :=
  if_pos ⟨h, h'⟩

theorem fill_of_notMem (s : Space β) (c : Cell β) (h : a < p ∨ p + n ≤ a) : s.fill p n c a = s a :=
  if_neg (by omega)

theorem cut_of_mem (s : Space β) (h : p ≤ a) (h' : a < p + n) : s.cut p n a = none := if_pos ⟨h, h'⟩

theorem cut_of_notMem (s : Space β) (h : a < p ∨ p + n ≤ a) : s.cut p n a = s a := if_neg (by omega)

theorem moveTo_of_lt [Zero β] (s : Space β) (hk : k < n) (hm : n ≤ m) :
    s.moveTo p n m q (q + k) = s (p + k) := by
  rw [moveTo, if_pos (by omega), if_pos (by omega), Nat.add_sub_cancel_left]

theorem moveTo_of_ge [Zero β] (hk : n ≤ k) (hm : k < m) (hp : s p = some c) :
    s.moveTo p n m q (q + k) = some ⟨0, c.rw⟩ := by
  rw [moveTo, if_pos (by omega), if_neg (by omega), hp, Option.map_some]

theorem moveTo_of_notMem [Zero β] (s : Space β) (h : a < q ∨ q + m ≤ a) :
    s.moveTo p n m q a = s.cut p n a := if_neg (by omega)

/-- A mapping whose ends are unmapped is a smaller mapping. -/
theorem cut_ends (hfree : s.Free p (l + n + m)) (c : Cell β) :
    ((s.fill p (l + n + m) c).cut p l).cut (p + l + n) m = s.fill (p + l) n c := by
  funext a
  by_cases hmid : p + l ≤ a ∧ a < p + l + n
  · rw [cut_of_notMem _ (by omega), cut_of_notMem _ (by omega), fill_of_mem _ _ (by omega) (by omega),
      fill_of_mem _ _ (by omega) (by omega)]
  · rw [fill_of_notMem s c (by omega)]
    by_cases hin : p ≤ a ∧ a < p + (l + n + m)
    · rw [hfree a hin.2 hin.1]
      by_cases hl : a < p + l
      · rw [cut_of_notMem _ (by omega), cut_of_mem _ (by omega) (by omega)]
      · rw [cut_of_mem _ (by omega) (by omega)]
    · rw [cut_of_notMem _ (by omega), cut_of_notMem _ (by omega), fill_of_notMem s c (by omega)]

theorem cut_zero (s : Space β) (p : Nat) : s.cut p 0 = s := by
  funext a
  exact cut_of_notMem s (by omega)

/-! ## Blocks of a process -/

/-- The process has the bytes at `p`, and may use them. -/
def Has (s : Space β) (p : Nat) (bs : List β) : Prop := ∀ k v, bs[k]? = some v → s (p + k) = some ⟨v, true⟩

theorem has_nil (s : Space β) (p : Nat) : s.Has p [] := nofun

theorem Has.congr (h : s.Has p bs) (hs : ∀ k < bs.length, s' (p + k) = s (p + k)) : s'.Has p bs := by
  intro k v hk
  rw [hs k (List.getElem?_eq_some_iff.mp hk).1]
  exact h k v hk

/-- A block has no place where nothing is mapped. -/
theorem Has.ne_none (h : s.Has p bs) (hk : k < bs.length) : s (p + k) ≠ none := by
  rw [h k bs[k] (List.getElem?_eq_getElem hk)]
  exact Option.some_ne_none _

theorem Has.load (h : s.Has p bs) (hk : bs[k]? = some v) : s.load (p + k) = some v := by
  rw [Space.load, h k v hk]

/-- A write to a block changes one byte of it, and nothing else. -/
theorem Has.store (h : s.Has p bs) (hk : k < bs.length) (v : β) :
    ∃ s', s.store (p + k) v = some s' ∧ s'.Has p (bs.set k v) ∧ ∀ a, a ≠ p + k → s' a = s a := by
  refine ⟨_, by rw [Space.store, h k bs[k] (List.getElem?_eq_getElem hk)], ?_, fun a ha => if_neg ha⟩
  intro j w hj
  rw [List.getElem?_set] at hj
  by_cases hkj : k = j
  · subst hkj
    rw [if_pos rfl, if_pos hk] at hj
    cases hj
    exact if_pos rfl
  · rw [if_neg hkj] at hj
    refine (if_neg ?_).trans (h j w hj)
    omega

/-- A fresh mapping is a block of zeros. -/
theorem has_fill [Zero β] (s : Space β) (p n : Nat) :
    (s.fill p n ⟨0, true⟩).Has p (List.replicate n 0) := by
  intro k v hk
  obtain ⟨hlt, rfl⟩ := List.getElem?_eq_some_iff.mp hk
  rw [List.length_replicate] at hlt
  rw [fill_of_mem _ _ (by omega) (by omega), List.getElem_replicate]

/-- A block that moves keeps its bytes and grows by zeros. -/
theorem Has.moveTo [Zero β] (h : s.Has p bs) (hpos : 0 < bs.length) (hle : bs.length ≤ m) (q : Nat) :
    (s.moveTo p bs.length m q).Has q (bs ++ List.replicate (m - bs.length) 0) := by
  intro k v hk
  by_cases hlt : k < bs.length
  · rw [List.getElem?_append_left hlt] at hk
    rw [moveTo_of_lt s hlt hle]
    exact h k v hk
  · rw [List.getElem?_append_right (by omega), List.getElem?_replicate] at hk
    split at hk
    · cases hk
      have h0 := h 0 bs[0] (List.getElem?_eq_getElem hpos)
      rw [Nat.add_zero] at h0
      rw [moveTo_of_ge (by omega) (by omega) h0]
    · cases hk

end Space

/-! ## System calls -/

/-- What the kernel decides: the place of a new mapping, and whether it grants the other calls. The page
size is a power of two, and a new mapping goes to pages that are free. -/
structure Kernel (β : Type) where
  pageSize : Nat
  pageSize_pow : ∃ k, pageSize = 2 ^ k
  place : Space β → Nat → Option Nat
  place_ok : ∀ s len p, place s len = some p → 0 < p ∧ pageSize ∣ p ∧
    p + (len + padding pageSize len) ≤ 2 ^ 64 ∧ s.Free p (len + padding pageSize len)
  unmaps : Space β → Nat → Nat → Bool
  remaps : Space β → Nat → Nat → Nat → Nat → Bool

namespace Kernel

variable {β : Type} {K : Kernel β} {s s' : Space β} {p q n m len : Nat} {rw : Bool}

theorem pageSize_pos (K : Kernel β) : 0 < K.pageSize := by
  obtain ⟨k, hk⟩ := K.pageSize_pow
  rw [hk]
  exact Nat.two_pow_pos k

/-- A length in whole pages. -/
def pages (K : Kernel β) (len : Nat) : Nat := len + padding K.pageSize len

theorem pages_of_dvd (h : K.pageSize ∣ len) : K.pages len = len := by
  rw [pages, padding, Nat.mod_eq_zero_of_dvd h, Nat.sub_zero, Nat.mod_self, Nat.add_zero]

/-- `mmap` of private anonymous memory, at an address that the kernel chooses. The memory is zero.
`none` is `MAP_FAILED`. -/
def mmap [Zero β] (K : Kernel β) (len : Nat) (rw : Bool) (s : Space β) : Option (Nat × Space β) :=
  if len = 0 then none else (K.place s len).map fun p => (p, s.fill p (K.pages len) ⟨0, rw⟩)

/-- `munmap`; a call that is not granted changes nothing. -/
def munmap (K : Kernel β) (p len : Nat) (s : Space β) : Space β :=
  if K.pageSize ∣ p ∧ len ≠ 0 ∧ K.unmaps s p len then s.cut p (K.pages len) else s

/-- `mremap` to a fixed address, where the old and the new range may not overlap. `none` is `MAP_FAILED`. -/
def mremap [Zero β] (K : Kernel β) (p n m q : Nat) (s : Space β) : Option (Space β) :=
  if K.pageSize ∣ p ∧ K.pageSize ∣ q ∧ m ≠ 0 ∧ (p + K.pages n ≤ q ∨ q + K.pages m ≤ p) ∧
      K.remaps s p n m q then
    some (s.moveTo p (K.pages n) (K.pages m) q)
  else none

theorem mmap_eq [Zero β] (h : K.mmap len rw s = some (p, s')) (hlen : K.pageSize ∣ len) :
    0 < len ∧ 0 < p ∧ K.pageSize ∣ p ∧ p + len ≤ 2 ^ 64 ∧ s.Free p len ∧ s' = s.fill p len ⟨0, rw⟩ := by
  unfold mmap at h
  split at h
  · cases h
  · obtain ⟨p', hp, heq⟩ := Option.map_eq_some_iff.mp h
    cases heq
    obtain ⟨h1, h2, h3, h4⟩ := K.place_ok s len p hp
    have hpages : len + padding K.pageSize len = len := pages_of_dvd hlen
    rw [hpages] at h3 h4
    exact ⟨by omega, h1, h2, h3, h4, by rw [pages_of_dvd hlen]⟩

theorem munmap_eq (hgrant : ∀ s p n, K.unmaps s p n = true) (hp : K.pageSize ∣ p) (hlen : K.pageSize ∣ len)
    (s : Space β) : K.munmap p len s = s.cut p len := by
  unfold munmap
  by_cases h0 : len = 0
  · rw [if_neg (by simp [h0]), h0, Space.cut_zero]
  · rw [if_pos ⟨hp, h0, hgrant s p len⟩, pages_of_dvd hlen]

/-- A range that may be empty is unmapped. -/
theorem munmap_ends (hgrant : ∀ s p n, K.unmaps s p n = true) (hp : K.pageSize ∣ p) (hlen : K.pageSize ∣ len)
    (s : Space β) : (if len ≠ 0 then K.munmap p len s else s) = s.cut p len := by
  by_cases h0 : len = 0
  · rw [if_neg (not_not_intro h0), h0, Space.cut_zero]
  · rw [if_pos h0, munmap_eq hgrant hp hlen]

theorem mremap_eq [Zero β] (h : K.mremap p n m q s = some s') (hn : K.pageSize ∣ n) (hm : K.pageSize ∣ m) :
    m ≠ 0 ∧ s' = s.moveTo p n m q := by
  unfold mremap at h
  split at h
  · rename_i hc
    cases h
    exact ⟨hc.2.2.1, by rw [pages_of_dvd hn, pages_of_dvd hm]⟩
  · cases h

/-- A granted move to a range that is apart. -/
theorem mremap_of_granted [Zero β] (hp : K.pageSize ∣ p) (hq : K.pageSize ∣ q) (hn : K.pageSize ∣ n)
    (hm : K.pageSize ∣ m) (hpos : m ≠ 0) (hapart : p + n ≤ q ∨ q + m ≤ p) (h : K.remaps s p n m q = true) :
    K.mremap p n m q s = some (s.moveTo p n m q) := by
  unfold mremap
  rw [pages_of_dvd hn, pages_of_dvd hm]
  exact if_pos ⟨hp, hq, hpos, hapart, h⟩

end Kernel

end Lib

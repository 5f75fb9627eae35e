import Mathlib.Data.Nat.Bitwise
import Mathlib.Logic.Function.Basic
import Qblaze.Buffer
import Qblaze.Lib.AddressSpace
import Qblaze.Lib.Session

/-!
# Buffers from the kernel (`src/buffer.rs`, `src/buffer/os.mmap.rs`)

A buffer is a mapping of its own. To get one on a huge page, more is mapped than is needed and both ends
are unmapped; to grow, the pages of the old mapping are moved over a new one.

* `realloc_spec`: what is returned, and what has changed in the address space.
* `reserve_room_iff`: for which sizes a reservation that succeeds gives the room that was asked for. The
  sum that rounds the size up may wrap.
* `reserve_returns`: a reservation gives room or changes nothing, and the process aborts exactly if the
  kernel refuses to move the pages.

What a program with several buffers sees is in `Qblaze/Buffers.lean`.
-/

namespace Qblaze

open Lib Function

def HUGE_PAGE_SIZE : Nat := 1 <<< 21

/-- `x.wrapping_neg() & (align - 1)` -/
def negMask (align x : Nat) : Nat := (2 ^ 64 - x) % 2 ^ 64 &&& (align - 1)

/-- The sum of two `usize`, without overflow checks. -/
def wrapAdd (x y : Nat) : Nat := (x + y) % 2 ^ 64

/-- `os::dealloc`; the result of `munmap` is ignored. -/
def dealloc (K : Kernel Byte) (p bytes : Nat) (s : Space Byte) : Space Byte := K.munmap p bytes s

/-- `os::realloc`: the pointer and the number of bytes. Zero is the null pointer, and `none` is the
`abort`. -/
def realloc (K : Kernel Byte) (oldP oldBytes bytes align : Nat) (s : Space Byte) :
    Option ((Nat × Nat) × Space Byte) :=
  let align := max align HUGE_PAGE_SIZE
  -- the pages of a new mapping that takes over an old one are not accessible before
  let flags := oldBytes == 0
  let bytes := wrapAdd bytes (negMask align bytes)
  let bytes := wrapAdd bytes (align - K.pageSize)
  match K.mmap bytes flags s with
  | none => some ((0, 0), s)
  | some (p, s) =>
    let alignLeft := negMask align p
    let s := if alignLeft ≠ 0 then K.munmap p alignLeft s else s
    let p := p + alignLeft
    let bytes := bytes - alignLeft
    let alignRight := bytes &&& (align - 1)
    let bytes := bytes - alignRight
    let s := if alignRight ≠ 0 then K.munmap (p + bytes) alignRight s else s
    if oldBytes ≠ 0 then (K.mremap oldP oldBytes bytes p s).map fun s => ((p, bytes), s)
    else some ((p, bytes), s)

/-- The size and the alignment of a type. -/
structure ElementType where
  size : Nat
  align : Nat
  pow : ∃ k < 64, align = 2 ^ k

/-- The alignment of the buffers for a type. -/
def ElementType.bufAlign (T : ElementType) : Nat := max T.align HUGE_PAGE_SIZE

structure RawBuf where
  ptr : Nat
  capacityBytes : Nat
  deriving DecidableEq

namespace RawBuf

/-- `RawBuf::empty`, with the dangling pointer. -/
def empty (T : ElementType) : RawBuf := ⟨T.align, 0⟩

/-- `RawBuf::drop` -/
def drop (K : Kernel Byte) (b : RawBuf) (s : Space Byte) : Space Byte :=
  if b.capacityBytes = 0 then s else dealloc K b.ptr b.capacityBytes s

/-- `RawBuf::try_reserve`: is it `Ok`, the buffer and the address space. -/
def tryReserve (K : Kernel Byte) (T : ElementType) (b : RawBuf) (size : Nat) (s : Space Byte) :
    Option (Bool × RawBuf × Space Byte) :=
  let bytes := size * T.size
  if 2 ^ 64 ≤ bytes then some (false, b, s)
  else
    let cap := b.capacityBytes
    if bytes ≤ cap then some (true, b, s)
    else
      (realloc K b.ptr cap bytes T.align s).map fun r =>
        if r.1.1 = 0 then (false, b, r.2) else (true, ⟨r.1.1, r.1.2⟩, r.2)

/-- The addresses of the buffer. -/
def Covers (b : RawBuf) (a : Nat) : Prop := b.ptr ≤ a ∧ a < b.ptr + b.capacityBytes

end RawBuf

/-! ## Rounding -/

section

variable {align k x y : Nat}

theorem negMask_eq (hk : k < 64) (hx : x < 2 ^ 64) : negMask (2 ^ k) x = padding (2 ^ k) x := by
  have hpos := Nat.two_pow_pos k
  have hdvd : 2 ^ k ∣ 2 ^ 64 := Nat.pow_dvd_pow 2 (by omega)
  rw [negMask, Nat.and_two_pow_sub_one_eq_mod, Nat.mod_mod_of_dvd _ hdvd, padding]
  obtain ⟨c, hc⟩ := hdvd
  rw [hc] at hx ⊢
  -- both are the same number below a multiple
  have hlt : x / 2 ^ k < c := Nat.div_lt_of_lt_mul hx
  have hmod := Nat.mod_lt x hpos
  have hx' : 2 ^ k * c - x = 2 ^ k * (c - x / 2 ^ k - 1) + (2 ^ k - x % 2 ^ k) := by
    have h1 := Nat.div_add_mod x (2 ^ k)
    have h2 : 2 ^ k * c = 2 ^ k * (c - x / 2 ^ k - 1) + 2 ^ k * (x / 2 ^ k) + 2 ^ k := by
      rw [← Nat.mul_add, ← Nat.mul_succ]
      congr 1
      omega
    omega
  rw [hx', Nat.mul_add_mod]

theorem bufAlign_pow (T : ElementType) : ∃ k, 21 ≤ k ∧ k < 64 ∧ T.bufAlign = 2 ^ k := by
  obtain ⟨k, hk, hT⟩ := T.pow
  have h21 : HUGE_PAGE_SIZE = 2 ^ 21 := rfl
  unfold ElementType.bufAlign
  rw [h21, hT]
  by_cases hle : k ≤ 21
  · exact ⟨21, by omega, by omega, Nat.max_eq_right (Nat.pow_le_pow_right (by omega) hle)⟩
  · exact ⟨k, by omega, hk, Nat.max_eq_left (Nat.pow_le_pow_right (by omega) (by omega))⟩

/-- A multiple of `d` below a multiple of `d` is at least `d` below. -/
theorem le_sub_of_dvd {d : Nat} (hx : d ∣ x) (hy : d ∣ y) (h : x < y) : x ≤ y - d := by
  have hle := Nat.le_of_dvd (by omega) (Nat.dvd_sub hy hx)
  omega

end

/-! ## Reallocation -/

section

variable {K : Kernel Byte} {T : ElementType} {s s' : Space Byte} {oldP oldBytes bytes p n : Nat}

theorem bufAlign_pos (T : ElementType) : 0 < T.bufAlign := by
  obtain ⟨k, -, -, hA⟩ := bufAlign_pow T
  exact hA ▸ Nat.two_pow_pos k

/-- The alignment of a buffer is a number of whole pages. -/
theorem pageSize_dvd (hpage : K.pageSize ∣ HUGE_PAGE_SIZE) (T : ElementType) : K.pageSize ∣ T.bufAlign := by
  obtain ⟨k, hk21, -, hA⟩ := bufAlign_pow T
  exact Nat.dvd_trans hpage (hA ▸ Nat.pow_dvd_pow 2 hk21)

/-- A range of whole huge pages in a mapping, of whole pages, that is too long by less than the alignment:
the ends that are unmapped are whole pages. -/
theorem ends_of_mapping {A q : Nat} (hA : 0 < A) (hpage : K.pageSize ∣ A) (hq : K.pageSize ∣ q)
    (hn : A ∣ n) :
    padding A q ≤ A - K.pageSize ∧ K.pageSize ∣ padding A q ∧
      (n + (A - K.pageSize) - padding A q) % A = A - K.pageSize - padding A q ∧
      K.pageSize ∣ A - K.pageSize - padding A q := by
  have hpos := K.pageSize_pos
  have hdvd : K.pageSize ∣ padding A q := dvd_padding hA hpage hq
  have hle := le_sub_of_dvd hdvd hpage (padding_lt hA q)
  refine ⟨hle, hdvd, ?_, Nat.dvd_sub (Nat.dvd_sub hpage (Nat.dvd_refl _)) hdvd⟩
  obtain ⟨c, rfl⟩ := hn
  rw [Nat.add_sub_assoc hle, Nat.mul_add_mod, Nat.mod_eq_of_lt (by omega)]

/-- `realloc` maps a range that was free, rounded up to the alignment. What is left to do is to move the
old pages there. -/
theorem realloc_eq (oldP oldBytes bytes : Nat) (hpage : K.pageSize ∣ HUGE_PAGE_SIZE)
    (hunmap : ∀ s p n, K.unmaps s p n = true) (hfit : bytes ≤ 2 ^ 64 - T.bufAlign)
    (hn : n = bytes + padding T.bufAlign bytes) {r : Option (Nat × Space Byte)}
    (hm : K.mmap (n + (T.bufAlign - K.pageSize)) (oldBytes == 0) s = r) :
    (r = none ∧ realloc K oldP oldBytes bytes T.align s = some ((0, 0), s)) ∨
    ∃ q s₁ p, r = some (q, s₁) ∧ p = q + padding T.bufAlign q ∧ 0 < p ∧ T.bufAlign ∣ p ∧ p + n ≤ 2 ^ 64 ∧
      s.Free p n ∧ realloc K oldP oldBytes bytes T.align s =
        if oldBytes ≠ 0 then
          (K.mremap oldP oldBytes n p (s.fill p n ⟨0, false⟩)).map fun s => ((p, n), s)
        else some ((p, n), s.fill p n ⟨0, true⟩) := by
  obtain ⟨k, hk21, hk, hA⟩ := bufAlign_pow T
  have hApos : 0 < T.bufAlign := hA ▸ Nat.two_pow_pos k
  have hA64 : T.bufAlign ∣ 2 ^ 64 := hA ▸ Nat.pow_dvd_pow 2 (by omega)
  have hAlt : T.bufAlign < 2 ^ 64 := hA ▸ Nat.pow_lt_pow_right (by omega) hk
  have hpA : K.pageSize ∣ T.bufAlign := pageSize_dvd hpage T
  have hpos := K.pageSize_pos
  have hpageA := Nat.le_of_dvd hApos hpA
  have hmask : ∀ x < 2 ^ 64, negMask T.bufAlign x = padding T.bufAlign x := fun x hx => by
    rw [hA, negMask_eq hk hx]
  have hnA : T.bufAlign ∣ n := hn ▸ dvd_add_padding hApos bytes
  have hpn : K.pageSize ∣ n := Nat.dvd_trans hpA hnA
  -- no sum wraps
  have hlt := padding_lt hApos bytes
  have hle := le_sub_of_dvd hnA hA64 (by omega)
  have hround : wrapAdd (wrapAdd bytes (negMask T.bufAlign bytes)) (T.bufAlign - K.pageSize) =
      n + (T.bufAlign - K.pageSize) := by
    rw [hmask bytes (by omega), wrapAdd, wrapAdd, ← hn, Nat.mod_eq_of_lt (by omega : n < 2 ^ 64),
      Nat.mod_eq_of_lt (by omega)]
  simp only [realloc]
  rw [show max T.align HUGE_PAGE_SIZE = T.bufAlign from rfl, hround]
  rw [hm]
  cases r with
  | none => exact .inl ⟨rfl, rfl⟩
  | some r =>
    obtain ⟨q, s₁⟩ := r
    obtain ⟨hlen, hq0, hq, hq64, hfree, rfl⟩ :=
      Kernel.mmap_eq hm (Nat.dvd_add hpn (Nat.dvd_sub hpA (Nat.dvd_refl _)))
    obtain ⟨hL, hLdvd, hR, hRdvd⟩ := ends_of_mapping hApos hpA hq hnA
    have hLA := dvd_add_padding hApos q
    simp only [hmask q (by omega : q < 2 ^ 64)]
    generalize hleft : padding T.bufAlign q = left at *
    have hand : n + (T.bufAlign - K.pageSize) - left &&& (T.bufAlign - 1) =
        T.bufAlign - K.pageSize - left := by
      rw [hA, Nat.and_two_pow_sub_one_eq_mod, ← hA, hR]
    have hrest : n + (T.bufAlign - K.pageSize) - left - (T.bufAlign - K.pageSize - left) = n := by
      omega
    have hsum : n + (T.bufAlign - K.pageSize) = left + n + (T.bufAlign - K.pageSize - left) := by
      omega
    have hpq : K.pageSize ∣ q + left := Nat.dvd_trans hpA hLA
    rw [hand, hrest, Kernel.munmap_ends hunmap hq hLdvd,
      Kernel.munmap_ends hunmap (Nat.dvd_add hpq hpn) hRdvd, hsum, Space.cut_ends (hsum ▸ hfree)]
    refine .inr ⟨q, _, q + left, rfl, by rw [hleft], by omega, hLA, by omega,
      fun a ha ha' => hfree a (by omega) (by omega), ?_⟩
    by_cases h0 : oldBytes = 0
    · rw [if_neg (not_not_intro h0), if_neg (not_not_intro h0), h0]
      rfl
    · rw [if_pos h0, if_pos h0, beq_eq_false_iff_ne.mpr h0]

/-- `realloc` fails and changes nothing, or the bytes of the old buffer have moved to the new one. -/
theorem realloc_spec (hpage : K.pageSize ∣ HUGE_PAGE_SIZE) (hunmap : ∀ s p n, K.unmaps s p n = true)
    (hfit : bytes ≤ 2 ^ 64 - T.bufAlign) (hold : K.pageSize ∣ oldBytes)
    (h : realloc K oldP oldBytes bytes T.align s = some ((p, n), s')) :
    (p = 0 ∧ s' = s) ∨
    (0 < p ∧ T.bufAlign ∣ p ∧ n = bytes + padding T.bufAlign bytes ∧ p + n ≤ 2 ^ 64 ∧ s.Free p n ∧
      s' = if oldBytes = 0 then s.fill p n ⟨0, true⟩
        else (s.fill p n ⟨0, false⟩).moveTo oldP oldBytes n p) := by
  obtain ⟨-, heq⟩ | ⟨-, -, q, -, -, hq0, hqA, hq64, hfree, heq⟩ :=
    realloc_eq oldP oldBytes bytes hpage hunmap hfit rfl rfl
  · rw [h] at heq
    cases heq
    exact .inl ⟨rfl, rfl⟩
  · rw [h] at heq
    by_cases h0 : oldBytes = 0
    · rw [if_neg (not_not_intro h0)] at heq
      cases heq
      exact .inr ⟨hq0, hqA, rfl, hq64, hfree, by rw [if_pos h0]⟩
    · rw [if_pos h0] at heq
      obtain ⟨s₂, hs₂, heq⟩ := Option.map_eq_some_iff.mp heq.symm
      cases heq
      have hpn : K.pageSize ∣ bytes + padding T.bufAlign bytes :=
        Nat.dvd_trans (pageSize_dvd hpage T) (dvd_add_padding (bufAlign_pos T) bytes)
      obtain ⟨-, rfl⟩ := Kernel.mremap_eq hs₂ hold hpn
      exact .inr ⟨hq0, hqA, rfl, hq64, hfree, by rw [if_neg h0]⟩

/-- When the sum that rounds the size wraps, nothing of the new mapping is left. -/
theorem realloc_wraps (hpage : K.pageSize ∣ HUGE_PAGE_SIZE) (hlarge : 2 ^ 64 - T.bufAlign < bytes)
    (hbytes : bytes < 2 ^ 64) (h : realloc K oldP oldBytes bytes T.align s = some ((p, n), s')) : n = 0 := by
  obtain ⟨k, -, hk, hA⟩ := bufAlign_pow T
  have hApos := bufAlign_pos T
  have hA64 : T.bufAlign ∣ 2 ^ 64 := hA ▸ Nat.pow_dvd_pow 2 (by omega)
  have hAlt : T.bufAlign < 2 ^ 64 := hA ▸ Nat.pow_lt_pow_right (by omega) hk
  have hpos := K.pageSize_pos
  have hpageA := Nat.le_of_dvd hApos (pageSize_dvd hpage T)
  have hsum : bytes + padding T.bufAlign bytes = 2 ^ 64 := by
    have hdvd := dvd_add_padding hApos bytes
    have hlt := padding_lt hApos bytes
    by_contra hne
    rcases Nat.lt_or_gt_of_ne hne with hlt' | hgt
    · have := le_sub_of_dvd hdvd hA64 hlt'
      omega
    · have := le_sub_of_dvd hA64 hdvd hgt
      omega
  have hround : wrapAdd (wrapAdd bytes (negMask T.bufAlign bytes)) (T.bufAlign - K.pageSize) =
      T.bufAlign - K.pageSize := by
    rw [hA, negMask_eq hk hbytes, ← hA, wrapAdd, wrapAdd, hsum, Nat.mod_self, Nat.zero_add,
      Nat.mod_eq_of_lt (by omega)]
  -- all that is mapped is less than the alignment
  have hzero : ∀ l, T.bufAlign - K.pageSize - l - (T.bufAlign - K.pageSize - l &&& (T.bufAlign - 1)) = 0 := by
    intro l
    have hand : T.bufAlign - K.pageSize - l &&& (T.bufAlign - 1) = T.bufAlign - K.pageSize - l := by
      rw [hA, Nat.and_two_pow_sub_one_eq_mod, ← hA, Nat.mod_eq_of_lt (by omega)]
    rw [hand, Nat.sub_self]
  simp only [realloc] at h
  rw [show max T.align HUGE_PAGE_SIZE = T.bufAlign from rfl, hround] at h
  split at h
  · cases h
    rfl
  · simp only [hzero] at h
    split at h
    · obtain ⟨s₂, -, heq⟩ := Option.map_eq_some_iff.mp h
      cases heq
      rfl
    · cases h
      rfl

/-! ## A kernel with one place -/

/-- A kernel that maps at one address only, which is not on a huge page. -/
def onePlace : Kernel Byte where
  pageSize := 4096
  pageSize_pow := ⟨12, rfl⟩
  place s len :=
    if 0x201000 + (len + padding 4096 len) ≤ 2 ^ 64 ∧ s.Free 0x201000 (len + padding 4096 len) then
      some 0x201000
    else none
  place_ok s len p h := by
    split at h
    · rename_i hc
      cases h
      exact ⟨by omega, ⟨0x201, rfl⟩, hc⟩
    · cases h
  unmaps _ _ _ := true
  remaps _ _ _ _ _ := true

def byteType : ElementType := ⟨1, 1, 0, by omega, rfl⟩

theorem onePlace_mmap {s : Space Byte} {len : Nat} {rw : Bool} (hlen : len ≠ 0)
    (h : 0x201000 + (len + padding 4096 len) ≤ 2 ^ 64) (hs : s.Free 0x201000 (len + padding 4096 len)) :
    onePlace.mmap len rw s = some (0x201000, s.fill 0x201000 (onePlace.pages len) ⟨0, rw⟩) := by
  unfold Kernel.mmap
  have hplace : onePlace.place s len = some 0x201000 := if_pos ⟨h, hs⟩
  rw [if_neg hlen, hplace, Option.map_some]

theorem onePlace_realloc : realloc onePlace 1 0 3 1 (fun _ => none) =
    some ((0x400000, 0x200000), Space.fill (fun _ => none) 0x400000 0x200000 ⟨0, true⟩) := by
  have hm : onePlace.mmap 0x3ff000 true (fun _ => none) = some (0x201000, _) :=
    onePlace_mmap (by decide) (by decide) fun _ _ _ => rfl
  obtain ⟨hno, -⟩ | ⟨q, s, p, hq, hp, -, -, -, -, heq⟩ := realloc_eq (T := byteType) (n := 0x200000) 1 0 3
    (by decide) (fun _ _ _ => rfl) (by decide) (by decide) hm
  · cases hno
  · cases hq
    have hp' : p = 0x400000 := hp.trans (by decide)
    rw [if_neg (not_not_intro rfl), hp'] at heq
    exact heq

/-- A reservation for three bytes. -/
theorem onePlace_reserve : (RawBuf.empty byteType).tryReserve onePlace byteType 3 (fun _ => none) =
    some (true, ⟨0x400000, 0x200000⟩, Space.fill (fun _ => none) 0x400000 0x200000 ⟨0, true⟩) := by
  have hre : realloc onePlace (RawBuf.empty byteType).ptr (RawBuf.empty byteType).capacityBytes
      (3 * byteType.size) byteType.align (fun _ => none) = some _ := onePlace_realloc
  unfold RawBuf.tryReserve
  simp only
  rw [if_neg (by decide), if_neg (by decide), hre]
  rfl

/-! ## The block of a buffer -/

/-- The buffer is a mapping with the bytes `bs`, aligned for its type. -/
structure RawBuf.Owns (T : ElementType) (b : RawBuf) (s : Space Byte) (bs : List Byte) : Prop where
  length : bs.length = b.capacityBytes
  has : s.Has b.ptr bs
  whole : T.bufAlign ∣ b.capacityBytes
  aligned : b.capacityBytes ≠ 0 → T.bufAlign ∣ b.ptr
  pos : 0 < b.ptr
  le : b.ptr + b.capacityBytes ≤ 2 ^ 64

namespace RawBuf

variable {b b' : RawBuf} {bs : List Byte} {size : Nat} {ok : Bool} {a : Nat}

theorem owns_empty (T : ElementType) (s : Space Byte) : (empty T).Owns T s [] := by
  obtain ⟨k, hk, hT⟩ := T.pow
  refine ⟨rfl, Space.has_nil s _, Nat.dvd_zero _, fun h => absurd rfl h, ?_, ?_⟩
  · exact (hT ▸ Nat.two_pow_pos k : 0 < T.align)
  · exact (hT ▸ Nat.pow_le_pow_right (by omega) (by omega) : T.align ≤ 2 ^ 64)

theorem not_covers_iff : ¬ b.Covers a ↔ a < b.ptr ∨ b.ptr + b.capacityBytes ≤ a := by
  unfold Covers
  omega

theorem not_covers (h : b.capacityBytes = 0) (a : Nat) : ¬ b.Covers a := by
  rintro ⟨h1, h2⟩
  omega

theorem Owns.ne_none (h : b.Owns T s bs) (ha : b.Covers a) : s a ≠ none := by
  obtain ⟨h1, h2⟩ := ha
  have hk := h.has.ne_none (k := a - b.ptr) (by rw [h.length]; omega)
  rwa [Nat.add_sub_cancel' h1] at hk

/-- A buffer does not see what changes elsewhere. -/
theorem Owns.congr (h : b.Owns T s bs) (hs : ∀ a, b.Covers a → s' a = s a) : b.Owns T s' bs :=
  ⟨h.length, h.has.congr fun k hk => hs _ ⟨by omega, by have := h.length; omega⟩, h.whole, h.aligned, h.pos,
    h.le⟩

/-- A buffer for a type that is aligned to less. -/
theorem Owns.cast {U : ElementType} (h : b.Owns T s bs) (hU : U.align ≤ T.align) : b.Owns U s bs := by
  have hdvd : U.bufAlign ∣ T.bufAlign := by
    obtain ⟨k, -, -, hk⟩ := bufAlign_pow U
    obtain ⟨l, -, -, hl⟩ := bufAlign_pow T
    have hle : U.bufAlign ≤ T.bufAlign := max_le_max_right _ hU
    rw [hk, hl] at hle ⊢
    exact Nat.pow_dvd_pow 2 ((Nat.pow_le_pow_iff_right (by omega)).mp hle)
  exact ⟨h.length, h.has, Nat.dvd_trans hdvd h.whole, fun h0 => Nat.dvd_trans hdvd (h.aligned h0), h.pos, h.le⟩

/-- What a change of one buffer does to the address space: the buffer has what was free or its own, and what
it had and has no more is unmapped. -/
structure Change (b b' : RawBuf) (s s' : Space Byte) : Prop where
  new : ∀ a, b'.Covers a → s a = none ∨ b.Covers a
  old : ∀ a, ¬ b'.Covers a → b.Covers a → s' a = none
  rest : ∀ a, ¬ b'.Covers a → ¬ b.Covers a → s' a = s a

theorem Change.refl (b : RawBuf) (s : Space Byte) : b.Change b s s :=
  ⟨fun _ => .inr, fun _ h h' => absurd h' h, fun _ _ _ => rfl⟩

/-- `drop` unmaps the buffer. -/
theorem drop_spec (hpage : K.pageSize ∣ HUGE_PAGE_SIZE) (hunmap : ∀ s p n, K.unmaps s p n = true)
    (h : b.Owns T s bs) : b.Change (empty T) s (b.drop K s) := by
  have hcut : ∀ a, b.drop K s a = s.cut b.ptr b.capacityBytes a := by
    intro a
    unfold drop
    split
    · rename_i h0
      rw [h0, Space.cut_zero]
    · rename_i h0
      have hpT := pageSize_dvd hpage T
      rw [dealloc, Kernel.munmap_eq hunmap (Nat.dvd_trans hpT (h.aligned h0)) (Nat.dvd_trans hpT h.whole)]
  refine ⟨fun a ha => absurd ha (not_covers rfl a), fun a _ ha => ?_, fun a _ ha => ?_⟩
  · rw [hcut, Space.cut_of_mem s ha.1 ha.2]
  · exact (hcut a).trans (Space.cut_of_notMem s (not_covers_iff.mp ha))

/-- The bytes move to a range that was free, and the old range is unmapped. -/
theorem Owns.grow (h : b.Owns T s bs) (hfree : s.Free p n) (hle : b.capacityBytes ≤ n)
    (hs : s' = if b.capacityBytes = 0 then s.fill p n ⟨0, true⟩
      else (s.fill p n ⟨0, false⟩).moveTo b.ptr b.capacityBytes n p) :
    s'.Has p (bs ++ List.replicate (n - b.capacityBytes) 0) ∧ b.Change ⟨p, n⟩ s s' := by
  have hnew : ∀ a, Covers ⟨p, n⟩ a → s a = none ∨ b.Covers a := fun a ha => .inl (hfree a ha.2 ha.1)
  have hout : ∀ a, ¬ Covers ⟨p, n⟩ a → a < p ∨ p + n ≤ a := fun _ => not_covers_iff.mp
  by_cases h0 : b.capacityBytes = 0
  · rw [if_pos h0] at hs
    subst hs
    have hnil : bs = [] := List.length_eq_zero_iff.mp (h.length.trans h0)
    refine ⟨?_, hnew, fun a _ ha => absurd ha (not_covers h0 a), fun a ha _ => ?_⟩
    · rw [hnil, List.nil_append, h0, Nat.sub_zero]
      exact Space.has_fill s p n
    · exact Space.fill_of_notMem s _ (hout a ha)
  · rw [if_neg h0] at hs
    subst hs
    -- the new mapping is apart from the old one
    have hhas : (s.fill p n ⟨0, false⟩).Has b.ptr bs := by
      refine h.has.congr fun k hk => Space.fill_of_notMem s _ ?_
      by_contra hn
      exact h.has.ne_none hk (hfree _ (by omega) (by omega))
    have hmove := hhas.moveTo (m := n) (by rw [h.length]; omega) (by rwa [h.length]) p
    rw [h.length] at hmove
    refine ⟨hmove, hnew, fun a ha hb => ?_, fun a ha hb => ?_⟩
    · rw [Space.moveTo_of_notMem _ (hout a ha), Space.cut_of_mem _ hb.1 hb.2]
    · rw [Space.moveTo_of_notMem _ (hout a ha), Space.cut_of_notMem _ (not_covers_iff.mp hb),
        Space.fill_of_notMem s _ (hout a ha)]

/-- The sum that rounds the size does not wrap, or the size is rejected. -/
def Fits (T : ElementType) (size : Nat) : Prop :=
  size * T.size ≤ 2 ^ 64 - T.bufAlign ∨ 2 ^ 64 ≤ size * T.size

/-- `try_reserve` gives the room that was asked for; the buffer keeps its bytes, and the new ones are zero.
If it fails nothing changes. -/
theorem tryReserve_spec (hpage : K.pageSize ∣ HUGE_PAGE_SIZE) (hunmap : ∀ s p n, K.unmaps s p n = true)
    (hown : b.Owns T s bs) (hfit : Fits T size) (h : b.tryReserve K T size s = some (ok, b', s')) :
    (ok = false → b.capacityBytes < size * T.size ∧ b' = b ∧ s' = s) ∧
    (ok = true → size * T.size ≤ b'.capacityBytes ∧ b.capacityBytes ≤ b'.capacityBytes ∧
      b'.Owns T s' (bs ++ List.replicate (b'.capacityBytes - b.capacityBytes) 0) ∧ b.Change b' s s') := by
  unfold tryReserve at h
  simp only at h
  by_cases h64 : 2 ^ 64 ≤ size * T.size
  · rw [if_pos h64] at h
    cases h
    have h1 := hown.pos
    have h2 := hown.le
    exact ⟨fun _ => ⟨by omega, rfl, rfl⟩, nofun⟩
  rw [if_neg h64] at h
  by_cases hcap : size * T.size ≤ b.capacityBytes
  · rw [if_pos hcap] at h
    cases h
    refine ⟨nofun, fun _ => ⟨hcap, Nat.le_refl _, ?_, .refl b s⟩⟩
    rwa [Nat.sub_self, List.replicate_zero, List.append_nil]
  rw [if_neg hcap] at h
  obtain ⟨⟨⟨p, n⟩, s₁⟩, hre, heq⟩ := Option.map_eq_some_iff.mp h
  have hpT := pageSize_dvd hpage T
  have hfit' := hfit.resolve_right h64
  obtain ⟨rfl, rfl⟩ | ⟨hp, hpA, rfl, hp64, hfree, hs₁⟩ :=
    realloc_spec hpage hunmap hfit' (Nat.dvd_trans hpT hown.whole) hre
  · rw [if_pos rfl] at heq
    cases heq
    exact ⟨fun _ => ⟨by omega, rfl, rfl⟩, nofun⟩
  · rw [if_neg (by simp only; omega)] at heq
    cases heq
    have hroom : size * T.size ≤ size * T.size + padding T.bufAlign (size * T.size) := Nat.le_add_right ..
    have hnA := dvd_add_padding (bufAlign_pos T) (size * T.size)
    generalize size * T.size + padding T.bufAlign (size * T.size) = n at *
    have hle : b.capacityBytes ≤ n := by omega
    obtain ⟨hhas, hchange⟩ := hown.grow hfree hle hs₁
    refine ⟨nofun, fun _ => ⟨hroom, hle, ⟨?_, hhas, hnA, fun _ => hpA, hp, hp64⟩, hchange⟩⟩
    rw [List.length_append, List.length_replicate, hown.length]
    exact Nat.add_sub_cancel' hle

/-- The operations on states know of a reservation only whether it succeeds. -/
theorem tryReserve_alloc (h : b.tryReserve K T size s = some (ok, b', s')) :
    Qblaze.tryReserve ok size = ok := by
  by_cases h0 : size = 0
  · unfold tryReserve at h
    subst h0
    simp only [Nat.zero_mul] at h
    rw [if_neg (by omega), if_pos (Nat.zero_le _)] at h
    cases h
    rfl
  · rw [Qblaze.tryReserve, beq_eq_false_iff_ne.mpr h0, Bool.false_or]

/-- Every slot that a `BufWriter` writes is in the buffer that was reserved for it. -/
theorem covers_of_filled {α : Type} {w : BufWriter} {outs : List (List (List α))} (hf : w.Filled outs)
    (hroom : w.partSizes.sum * T.size ≤ b.capacityBytes) {slot : Nat × α} (hslot : slot ∈ w.writes outs)
    {k : Nat} (hk : k < T.size) : b.Covers (b.ptr + (slot.1 * T.size + k)) := by
  have hmem : slot.1 ∈ (w.writes outs).map Prod.fst := List.mem_map_of_mem hslot
  rw [hf.slots, List.mem_range] at hmem
  have hle : (slot.1 + 1) * T.size ≤ w.partSizes.sum * T.size := Nat.mul_le_mul_right _ hmem
  rw [Nat.succ_mul] at hle
  exact ⟨by omega, by omega⟩

/-- A reservation that succeeds gives the room that was asked for, unless the sum that rounds the size
wraps. -/
theorem reserve_room_iff (hpage : K.pageSize ∣ HUGE_PAGE_SIZE) (hunmap : ∀ s p n, K.unmaps s p n = true)
    (hown : b.Owns T s bs) (h : b.tryReserve K T size s = some (true, b', s')) :
    size * T.size ≤ b'.capacityBytes ↔ size * T.size ≤ 2 ^ 64 - T.bufAlign := by
  constructor
  · intro hroom
    by_contra hlarge
    -- no buffer is that large
    have hcap : b.capacityBytes ≤ 2 ^ 64 - T.bufAlign := by
      by_cases h0 : b.capacityBytes = 0
      · omega
      · have hle := Nat.le_of_dvd hown.pos (hown.aligned h0)
        have := hown.le
        omega
    unfold tryReserve at h
    simp only at h
    by_cases h64 : 2 ^ 64 ≤ size * T.size
    · rw [if_pos h64] at h
      cases h
    rw [if_neg h64, if_neg (by omega)] at h
    obtain ⟨⟨⟨p, n⟩, s₁⟩, hre, heq⟩ := Option.map_eq_some_iff.mp h
    have hn := realloc_wraps hpage (by omega) (by omega) hre
    split at heq
    · cases heq
    · cases heq
      simp only [hn] at hroom
      omega
  · exact fun hfit => ((tryReserve_spec hpage hunmap hown (.inl hfit) h).2 rfl).1

theorem reserve_room_iff_three :
    3 * byteType.size ≤ 0x200000 ↔ 3 * byteType.size ≤ 2 ^ 64 - byteType.bufAlign :=
  reserve_room_iff (by decide) (fun _ _ _ => rfl) (owns_empty _ _) onePlace_reserve

/-- The buffer is to grow, the kernel has mapped the new range, and it refuses to move the pages of the
buffer there. -/
def MoveRefused (K : Kernel Byte) (T : ElementType) (b : RawBuf) (size : Nat) (s : Space Byte) : Prop :=
  let n := size * T.size + padding T.bufAlign (size * T.size)
  0 < b.capacityBytes ∧ b.capacityBytes < size * T.size ∧ size * T.size < 2 ^ 64 ∧
    ∃ q s₁, K.mmap (n + (T.bufAlign - K.pageSize)) false s = some (q, s₁) ∧
      K.remaps (s.fill (q + padding T.bufAlign q) n ⟨0, false⟩) b.ptr b.capacityBytes n
        (q + padding T.bufAlign q) = false

/-- The process aborts in `realloc` exactly if the kernel refuses to move the pages. -/
theorem realloc_aborts_iff (hpage : K.pageSize ∣ HUGE_PAGE_SIZE) (hunmap : ∀ s p n, K.unmaps s p n = true)
    (hown : b.Owns T s bs) (hfit : size * T.size ≤ 2 ^ 64 - T.bufAlign)
    (hcap : b.capacityBytes < size * T.size) :
    realloc K b.ptr b.capacityBytes (size * T.size) T.align s = none ↔ b.MoveRefused K T size s := by
  have hpT := pageSize_dvd hpage T
  have hA := bufAlign_pos T
  have hnA := dvd_add_padding hA (size * T.size)
  unfold MoveRefused
  by_cases h0 : b.capacityBytes = 0
  · -- there is nothing to move
    refine iff_of_false ?_ fun h => by omega
    obtain ⟨-, heq⟩ | ⟨-, -, p, -, -, -, -, -, -, heq⟩ :=
      realloc_eq b.ptr b.capacityBytes (size * T.size) hpage hunmap hfit rfl rfl
    · rw [heq]
      nofun
    · rw [heq, if_neg (not_not_intro h0)]
      nofun
  · obtain ⟨hm, heq⟩ | ⟨q, s₁, p, hm, rfl, hp0, hpA, hp64, hfree, heq⟩ :=
      realloc_eq b.ptr b.capacityBytes (size * T.size) hpage hunmap hfit rfl rfl
    · rw [beq_eq_false_iff_ne.mpr h0] at hm
      rw [heq]
      refine iff_of_false nofun fun ⟨_, _, _, q, s₁, hq, _⟩ => ?_
      rw [hm] at hq
      cases hq
    · rw [beq_eq_false_iff_ne.mpr h0] at hm
      rw [heq, if_pos h0, Option.map_eq_none_iff]
      simp only
      generalize hn : size * T.size + padding T.bufAlign (size * T.size) = n at *
      generalize hp : q + padding T.bufAlign q = p at *
      -- the new range was free, so it is apart from the old one
      have hapart : b.ptr + b.capacityBytes ≤ p ∨ p + n ≤ b.ptr := by
        by_contra hover
        exact hown.ne_none (a := max b.ptr p) ⟨Nat.le_max_left .., by omega⟩ (hfree _ (by omega) (by omega))
      constructor
      · intro hnone
        refine ⟨by omega, hcap, by omega, q, s₁, hm, ?_⟩
        rw [hp, Bool.eq_false_iff]
        intro hgrant
        rw [Kernel.mremap_of_granted (Nat.dvd_trans hpT (hown.aligned h0)) (Nat.dvd_trans hpT hpA)
          (Nat.dvd_trans hpT hown.whole) (Nat.dvd_trans hpT hnA) (by omega) hapart hgrant] at hnone
        cases hnone
      · rintro ⟨-, -, -, q', s', hq', hno⟩
        rw [hm] at hq'
        cases hq'
        rw [hp] at hno
        unfold Kernel.mremap
        exact if_neg fun h => by rw [hno] at h; exact absurd h.2.2.2.2 Bool.false_ne_true

/-- A reservation whose size does not wrap gives the room that was asked for, or fails and changes
nothing. The process aborts exactly if the kernel refuses to move the pages. -/
theorem reserve_returns (hpage : K.pageSize ∣ HUGE_PAGE_SIZE) (hunmap : ∀ s p n, K.unmaps s p n = true)
    (hown : b.Owns T s bs) (hfit : Fits T size) :
    (∀ b' s', b.tryReserve K T size s = some (true, b', s') → size * T.size ≤ b'.capacityBytes ∧
      b'.Owns T s' (bs ++ List.replicate (b'.capacityBytes - b.capacityBytes) 0) ∧ b.Change b' s s') ∧
    (∀ b' s', b.tryReserve K T size s = some (false, b', s') → b' = b ∧ s' = s) ∧
    (b.tryReserve K T size s = none ↔ b.MoveRefused K T size s) := by
  refine ⟨fun b' s' h => ?_, fun b' s' h => ((tryReserve_spec hpage hunmap hown hfit h).1 rfl).2, ?_⟩
  · obtain ⟨hroom, -, hown', hchange⟩ := (tryReserve_spec hpage hunmap hown hfit h).2 rfl
    exact ⟨hroom, hown', hchange⟩
  · unfold tryReserve
    simp only
    by_cases h64 : 2 ^ 64 ≤ size * T.size
    · rw [if_pos h64]
      exact iff_of_false nofun fun h => absurd h.2.2.1 (Nat.not_lt.mpr h64)
    rw [if_neg h64]
    by_cases hcap : size * T.size ≤ b.capacityBytes
    · rw [if_pos hcap]
      exact iff_of_false nofun fun h => absurd h.2.1 (Nat.not_lt.mpr hcap)
    rw [if_neg hcap, Option.map_eq_none_iff]
    exact realloc_aborts_iff hpage hunmap hown (hfit.resolve_right h64) (Nat.lt_of_not_ge hcap)

/-- A kernel that maps at another address, and does not move pages. -/
def neverMoves : Kernel Byte where
  pageSize := 4096
  pageSize_pow := ⟨12, rfl⟩
  place s len :=
    if 0x800000 + (len + padding 4096 len) ≤ 2 ^ 64 ∧ s.Free 0x800000 (len + padding 4096 len) then
      some 0x800000
    else none
  place_ok s len p h := by
    split at h
    · rename_i hc
      cases h
      exact ⟨by omega, ⟨0x800, rfl⟩, hc⟩
    · cases h
  unmaps _ _ _ := true
  remaps _ _ _ _ _ := false

theorem neverMoves_mmap {s : Space Byte} {len : Nat} (h0 : len ≠ 0)
    (hend : 0x800000 + (len + padding 4096 len) ≤ 2 ^ 64)
    (hfree : s.Free 0x800000 (len + padding 4096 len)) :
    neverMoves.mmap len false s =
      some (0x800000, s.fill 0x800000 (len + padding 4096 len) ⟨0, false⟩) := by
  unfold Kernel.mmap
  rw [if_neg h0]
  exact Option.map_eq_some_iff.mpr ⟨0x800000, if_pos ⟨hend, hfree⟩, rfl⟩

/-- A reservation for three bytes gives room. When the buffer is to grow and its pages may not move, the
process aborts. -/
theorem reserve_returns_three :
    (∃ b' s', (empty byteType).tryReserve onePlace byteType 3 (fun _ => none) = some (true, b', s') ∧
      3 * byteType.size ≤ b'.capacityBytes) ∧
    (⟨0x400000, 0x200000⟩ : RawBuf).tryReserve neverMoves byteType 0x200001
      (Space.fill (fun _ => none) 0x400000 0x200000 ⟨0, true⟩) = none := by
  have hfits : Fits byteType 3 ∧ Fits byteType 0x200001 := ⟨.inl (by decide), .inl (by decide)⟩
  have h := reserve_returns (K := onePlace) (by decide) (fun _ _ _ => rfl)
    (owns_empty byteType fun _ => none) hfits.1
  obtain ⟨hroom, hown, -⟩ := h.1 _ _ onePlace_reserve
  refine ⟨⟨_, _, onePlace_reserve, hroom⟩, ?_⟩
  refine (reserve_returns (K := neverMoves) (by decide) (fun _ _ _ => rfl) hown hfits.2).2.2.mpr
    ⟨by decide, by decide, by decide, 0x800000, _,
      neverMoves_mmap (by decide) (by decide) fun a ha _ => ?_, rfl⟩
  exact Space.fill_of_notMem _ _ (.inr (by omega))

end RawBuf

end

end Qblaze

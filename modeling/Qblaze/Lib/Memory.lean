import Mathlib.Algebra.Group.Nat.Defs
import Mathlib.Algebra.GroupWithZero.Nat

/-!
# Memory as bytes

Addresses are natural numbers. A memory gives every address a cell, which is a byte unless the user
has cells of another type; a block is read and written as a list of cells, and a number as a fixed
number of bytes, the lowest one first.

* `read_write_self`, `read_write_of_disjoint`: what a write does to reads.
* `Same`: two blocks, perhaps of two memories, with the same bytes. A move of a block makes it, and
  writes outside of the block keep it.
* `padding`: the distance to the next multiple. It depends on the address only modulo the alignment.
-/

namespace Lib

abbrev Byte := Fin 256

instance Byte.neZero : NeZero 256 := ⟨by decide⟩

/-- A cell for each address. -/
abbrev Memory (β : Type := Byte) := Nat → β

/-! ## Numbers as bytes -/

/-- The lowest `n` bytes of a number. -/
def encode : Nat → Nat → List Byte
  | 0, _ => []
  | n + 1, x => Fin.ofNat 256 x :: encode n (x / 256)

def decode : List Byte → Nat
  | [] => 0
  | b :: bs => b.val + 256 * decode bs

@[simp] theorem length_encode (n x : Nat) : (encode n x).length = n := by
  induction n generalizing x with
  | zero => rfl
  | succ n ih => simp [encode, ih]

theorem decode_encode {n x : Nat} (h : x < 256 ^ n) : decode (encode n x) = x := by
  induction n generalizing x with
  | zero =>
    have : x = 0 := by simpa using h
    rw [this]
    rfl
  | succ n ih =>
    have hx : x / 256 < 256 ^ n := Nat.div_lt_of_lt_mul (by rwa [pow_succ, Nat.mul_comm] at h)
    rw [encode, decode, ih hx]
    exact Nat.mod_add_div x 256

theorem decode_zeros {bs : List Byte} (h : ∀ b ∈ bs, b = 0) : decode bs = 0 := by
  induction bs with
  | nil => rfl
  | cons b bs ih =>
    rw [decode, ih fun b' hb' => h b' (List.mem_cons_of_mem _ hb'), h b (List.mem_cons_self ..)]
    rfl

namespace Memory

variable {β : Type} {m m' : Memory β} {p q n b b' : Nat} {bs : List β}

def read (m : Memory β) (p n : Nat) : List β := (List.range n).map fun k => m (p + k)

def write (m : Memory β) (p : Nat) (bs : List β) : Memory β := fun a =>
  if p ≤ a then bs[a - p]?.getD (m a) else m a

/-- The memory after the `n` cells at `src` were moved to `dst`; the other cells are those of `m'`. -/
def move (m : Memory β) (src dst n : Nat) (m' : Memory β) : Memory β := fun a =>
  if dst ≤ a ∧ a < dst + n then m (src + (a - dst)) else m' a

@[simp] theorem length_read (m : Memory β) (p n : Nat) : (m.read p n).length = n := by
  simp [read]

theorem write_of_lt (m : Memory β) (bs : List β) {a : Nat} (h : a < p) : m.write p bs a = m a := by
  rw [write, if_neg (Nat.not_le.mpr h)]

theorem write_of_ge (m : Memory β) {a : Nat} (h : p + bs.length ≤ a) : m.write p bs a = m a := by
  rw [write, if_pos (by omega), List.getElem?_eq_none (by omega), Option.getD_none]

theorem read_write_self (m : Memory β) (p : Nat) (bs : List β) :
    (m.write p bs).read p bs.length = bs := by
  refine List.ext_getElem (by simp) fun k h1 h2 => ?_
  simp [read, write, h2]

/-- A number that was written is read back. -/
theorem decode_read_write (m : Memory) (p : Nat) {n x : Nat} (h : x < 256 ^ n) :
    decode ((m.write p (encode n x)).read p n) = x := by
  have hread := read_write_self m p (encode n x)
  rw [length_encode] at hread
  rw [hread, decode_encode h]

theorem read_add (m : Memory β) (p n k : Nat) : m.read p (n + k) = m.read p n ++ m.read (p + n) k := by
  simp [read, List.range_add, Nat.add_assoc]

theorem read_congr (h : ∀ k < n, m' (q + k) = m (p + k)) : m'.read q n = m.read p n := by
  refine List.map_congr_left fun k hk => h k (List.mem_range.mp hk)

/-- A write does not change a block that it does not touch. -/
theorem read_write_of_disjoint (m : Memory β) (h : q + n ≤ p ∨ p + bs.length ≤ q) :
    (m.write p bs).read q n = m.read q n := by
  refine read_congr fun k hk => ?_
  rcases h with h | h
  · exact write_of_lt m bs (by omega)
  · exact write_of_ge m (by omega)

/-- The first `n` cells at `b` in `m` are those at `b'` in `m'`. -/
def Same (m : Memory β) (b : Nat) (m' : Memory β) (b' n : Nat) : Prop :=
  ∀ k < n, m' (b' + k) = m (b + k)

theorem Same.read (h : Same m b m' b' n) {o k : Nat} (hk : o + k ≤ n) :
    m'.read (b' + o) k = m.read (b + o) k := by
  refine read_congr fun i hi => ?_
  rw [Nat.add_assoc, Nat.add_assoc]
  exact h _ (by omega)

theorem Same.mono (h : Same m b m' b' n) {k : Nat} (hk : k ≤ n) : Same m b m' b' k :=
  fun i hi => h i (by omega)

/-- Writing at or after the end of the block keeps it. -/
theorem Same.write (h : Same m b m' b' n) (hp : b' + n ≤ p) (bs : List β) :
    Same m b (m'.write p bs) b' n := by
  intro k hk
  rw [write_of_lt m' bs (by omega)]
  exact h k hk

theorem same_refl (m : Memory β) (b n : Nat) : Same m b m b n := fun _ _ => rfl

theorem same_move (m : Memory β) (b b' n : Nat) (m' : Memory β) :
    Same m b (m.move b b' n m') b' n := by
  intro k hk
  rw [move, if_pos (by omega)]
  congr 1
  omega

end Memory

/-! ## Alignment -/

/-- The distance from `p` to the next multiple of `a`. -/
def padding (a p : Nat) : Nat := (a - p % a) % a

theorem padding_lt {a : Nat} (ha : 0 < a) (p : Nat) : padding a p < a := Nat.mod_lt _ ha

theorem dvd_add_padding {a : Nat} (ha : 0 < a) (p : Nat) : a ∣ p + padding a p := by
  have hp := Nat.mod_lt p ha
  refine Nat.dvd_of_mod_eq_zero ?_
  rw [padding, Nat.add_mod_mod, Nat.add_mod, ← Nat.add_mod_mod, Nat.mod_mod]
  by_cases h : p % a = 0
  · simp [h]
  · rw [Nat.mod_eq_of_lt (by omega : a - p % a < a), Nat.add_sub_cancel' (by omega), Nat.mod_self]

/-- The padding does not depend on an aligned base. -/
theorem padding_add {a b : Nat} (h : a ∣ b) (p : Nat) : padding a (b + p) = padding a p := by
  rw [padding, padding, Nat.add_mod, Nat.mod_eq_zero_of_dvd h, Nat.zero_add, Nat.mod_mod]

/-- A number that divides the alignment and the address divides the padding. -/
theorem dvd_padding {a d p : Nat} (ha : 0 < a) (hd : d ∣ a) (hp : d ∣ p) : d ∣ padding a p :=
  (Nat.dvd_add_right hp).mp (Nat.dvd_trans hd (dvd_add_padding ha p))

end Lib

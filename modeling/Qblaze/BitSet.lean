import Mathlib.Data.Fintype.Pi
import Mathlib.Data.Fin.Tuple.Basic
import Qblaze.Lib.Word
import Qblaze.Qubit

/-!
# Bit sets (`src/bitset.rs`)

A `BitSet N` is `N` words; bit `i` is bit `i % 64` of word `i / 64`. The derived order compares
words from word `0` on. It is the order of the number whose most significant digit is word `0`
(`key`, `lt_iff_key`), which makes it a linear order with short proofs.

Every operation is described by the bits of its result (`get_toggle`, `get_and`, ...). The order is
compared with the order of the sets without one bit (`without_lt_without`), the key of the merges.
-/

namespace Qblaze

open Lib

/-- `N` words. -/
@[ext] structure BitSet (N : Nat) where
  words : Fin N → BitVec 64
  deriving DecidableEq

namespace BitSet

variable {N : Nat} {a b : BitSet N} {i j : Nat}

/-- No bit. -/
def empty : BitSet N := ⟨fun _ => 0#64⟩

/-- `BitSet::from_index` -/
def fromIndex (i : Nat) : BitSet N := ⟨fun k => if k.val = 0 then BitVec.ofNat 64 i else 0#64⟩

/-- `BitSet::get`. A `BitIndex<N>` is below `64 * N`; the other bits count as unset. -/
def get (b : BitSet N) (i : Nat) : Bool :=
  if h : i / 64 < N then decide (b.words ⟨i / 64, h⟩ &&& 1#64 <<< (i % 64) ≠ 0#64) else false

/-- Change the word that holds bit `i`. -/
def modifyWord (b : BitSet N) (i : Nat) (f : BitVec 64 → BitVec 64) : BitSet N :=
  ⟨fun k => if k.val = i / 64 then f (b.words k) else b.words k⟩

/-- `BitSet::set` -/
def set (b : BitSet N) (i : Nat) (v : Bool) : BitSet N :=
  b.modifyWord i fun w => if v then w ||| 1#64 <<< (i % 64) else w &&& ~~~(1#64 <<< (i % 64))

/-- `BitSet::toggle` -/
def toggle (b : BitSet N) (i : Nat) : BitSet N :=
  b.modifyWord i fun w => w ^^^ 1#64 <<< (i % 64)

/-- `!` -/
def compl (a : BitSet N) : BitSet N := ⟨fun k => ~~~a.words k⟩

/-- `&` -/
def and (a b : BitSet N) : BitSet N := ⟨fun k => a.words k &&& b.words k⟩

/-- `^` -/
def xor (a b : BitSet N) : BitSet N := ⟨fun k => a.words k ^^^ b.words k⟩

/-- `collect` of bit indices. -/
def fromIter (l : List Nat) : BitSet N := l.foldl (fun b i => b.set i true) empty

/-- The mask `!0` with bit `q` toggled. -/
def maskWithout (q : Nat) : BitSet N := (compl empty).toggle q

/-- The basis state that a bit set stands for: the qubits from `64 * N` on are `0`. -/
def toState (b : BitSet N) : Qubit → Bool := fun q => b.get q.val

/-! ## Bits -/

theorem get_eq (b : BitSet N) (h : i / 64 < N) :
    b.get i = (b.words ⟨i / 64, h⟩).getLsbD (i % 64) := by
  unfold get
  rw [dif_pos h, Bool.eq_iff_iff, decide_eq_true_iff]
  exact Word.and_shiftLeft_ne_zero

theorem get_of_ge (b : BitSet N) (h : 64 * N ≤ i) : b.get i = false := by
  unfold get
  rw [dif_neg (by omega)]

theorem ext_get (h : ∀ i < 64 * N, a.get i = b.get i) : a = b := by
  refine BitSet.ext (funext fun k => BitVec.eq_of_getLsbD_eq fun j hj => ?_)
  have hk := k.isLt
  have hw : (64 * k.val + j) / 64 = k.val := by omega
  have := h (64 * k.val + j) (by omega)
  rw [get_eq _ (by omega), get_eq _ (by omega)] at this
  simp only [hw, show (64 * k.val + j) % 64 = j by omega] at this
  exact this

theorem get_empty : (empty : BitSet N).get i = false := by
  by_cases h : i / 64 < N
  · rw [get_eq _ h]; simp [empty]
  · exact get_of_ge _ (by omega)

theorem get_modifyWord (f : BitVec 64 → BitVec 64) (h : j / 64 < N) :
    (b.modifyWord i f).get j =
      if j / 64 = i / 64 then (f (b.words ⟨j / 64, h⟩)).getLsbD (j % 64) else b.get j := by
  rw [get_eq _ h, get_eq _ h]
  unfold modifyWord
  simp only
  split <;> rfl

theorem get_toggle (hi : i < 64 * N) : (b.toggle i).get j = (b.get j ^^ decide (j = i)) := by
  by_cases h : j / 64 < N
  · unfold toggle
    rw [get_modifyWord _ h]
    split
    · rename_i hw
      rw [Word.getLsbD_flip (Nat.mod_lt _ (by decide)), get_eq _ h]
      congr 1
      rw [decide_eq_decide]
      omega
    · rename_i hw
      have : j ≠ i := fun e => hw (e ▸ rfl)
      simp [this]
  · rw [get_of_ge _ (by omega), get_of_ge _ (by omega), decide_eq_false (by omega)]
    rfl

theorem get_set_true (hi : i < 64 * N) : (b.set i true).get j = (b.get j || decide (j = i)) := by
  by_cases h : j / 64 < N
  · unfold set
    rw [get_modifyWord _ h]
    split
    · rename_i hw
      rw [if_pos rfl, Word.getLsbD_set (Nat.mod_lt _ (by decide)), get_eq _ h]
      congr 1
      rw [decide_eq_decide]
      omega
    · rename_i hw
      have : j ≠ i := fun e => hw (e ▸ rfl)
      simp [this]
  · rw [get_of_ge _ (by omega), get_of_ge _ (by omega), decide_eq_false (by omega)]
    rfl

theorem get_and : (a.and b).get i = (a.get i && b.get i) := by
  by_cases h : i / 64 < N
  · rw [get_eq _ h, get_eq _ h, get_eq _ h]
    exact BitVec.getLsbD_and
  · rw [get_of_ge _ (by omega), get_of_ge _ (by omega)]; rfl

theorem get_xor : (a.xor b).get i = (a.get i ^^ b.get i) := by
  by_cases h : i / 64 < N
  · rw [get_eq _ h, get_eq _ h, get_eq _ h]
    exact BitVec.getLsbD_xor
  · rw [get_of_ge _ (by omega), get_of_ge _ (by omega), get_of_ge _ (by omega)]; rfl

theorem get_fromIter (l : List Nat) (hl : ∀ k ∈ l, k < 64 * N) :
    (fromIter l : BitSet N).get i = decide (i ∈ l) := by
  have hfold : ∀ (l : List Nat) (b : BitSet N), (∀ k ∈ l, k < 64 * N) →
      (l.foldl (fun b i => b.set i true) b).get i = (b.get i || decide (i ∈ l)) := by
    intro l
    induction l with
    | nil => intro b _; simp
    | cons k l ih =>
      intro b hl
      rw [List.foldl_cons, ih _ fun k' hk' => hl k' (List.mem_cons_of_mem _ hk'),
        get_set_true (hl k (List.mem_cons_self ..))]
      simp only [List.mem_cons, Bool.decide_or, Bool.or_assoc]
  unfold fromIter
  rw [hfold l empty hl, get_empty, Bool.false_or]

theorem get_maskWithout {q : Nat} (hq : q < 64 * N) :
    (maskWithout q : BitSet N).get i = (decide (i < 64 * N) && decide (i ≠ q)) := by
  unfold maskWithout
  rw [get_toggle hq]
  by_cases h : i / 64 < N
  · have hc : (compl (empty : BitSet N)).get i = true := by
      rw [get_eq _ h]
      show (~~~(0#64)).getLsbD (i % 64) = true
      rw [BitVec.getLsbD_not]
      simp [Nat.mod_lt]
    rw [hc, decide_eq_true (by omega : i < 64 * N)]
    by_cases hi : i = q <;> simp [hi]
  · rw [get_of_ge _ (by omega), decide_eq_false (by omega : ¬ i < 64 * N),
      decide_eq_false (by omega : ¬ i = q)]
    rfl

/-! ## The order -/

/-- The number with the words as its digits, word `0` first. -/
def keyOf : (n : Nat) → (Fin n → BitVec 64) → Nat
  | 0, _ => 0
  | n + 1, f => keyOf n (fun k => f k.castSucc) * 2 ^ 64 + (f (Fin.last n)).toNat

def key (b : BitSet N) : Nat := keyOf N b.words

/-- Two-digit numbers. -/
theorem digit_lt {x y c d B : Nat} (hc : c < B) (hd : d < B) :
    x * B + c < y * B + d ↔ x < y ∨ (x = y ∧ c < d) := by
  rcases Nat.lt_trichotomy x y with h | h | h
  · have : (x + 1) * B ≤ y * B := Nat.mul_le_mul_right B h
    rw [Nat.add_mul] at this
    simp only [h, true_or, iff_true]
    omega
  · subst h
    simp
  · have : (y + 1) * B ≤ x * B := Nat.mul_le_mul_right B h
    rw [Nat.add_mul] at this
    simp only [show ¬ x < y by omega, show x ≠ y by omega, false_and, or_false, iff_false]
    omega

theorem digit_inj {x y c d B : Nat} (hc : c < B) (hd : d < B) (h : x * B + c = y * B + d) :
    x = y ∧ c = d := by
  have h1 := (digit_lt (x := x) (y := y) hc hd).not.mp (by omega)
  have h2 := (digit_lt (x := y) (y := x) hd hc).not.mp (by omega)
  omega

theorem keyOf_injective {n : Nat} {f g : Fin n → BitVec 64} (h : keyOf n f = keyOf n g) : f = g := by
  induction n with
  | zero => funext k; exact k.elim0
  | succ n ih =>
    rw [keyOf, keyOf] at h
    obtain ⟨h1, h2⟩ := digit_inj (f (Fin.last n)).isLt (g (Fin.last n)).isLt h
    have hinit := ih h1
    have hlast : f (Fin.last n) = g (Fin.last n) := BitVec.eq_of_toNat_eq h2
    funext k
    refine Fin.lastCases hlast (fun k => ?_) k
    exact congrFun hinit k

theorem key_injective : Function.Injective (key : BitSet N → Nat) :=
  fun _ _ h => BitSet.ext (keyOf_injective h)

/-- The derived order of `[u64; N]`. -/
instance : LinearOrder (BitSet N) := LinearOrder.lift' key key_injective

theorem lt_iff_key : a < b ↔ a.key < b.key := Iff.rfl

theorem keyOf_lt_iff {n : Nat} {f g : Fin n → BitVec 64} :
    keyOf n f < keyOf n g ↔ ∃ k, (∀ m < k, f m = g m) ∧ f k < g k := by
  induction n with
  | zero =>
    refine ⟨fun h => absurd h (Nat.lt_irrefl _), ?_⟩
    rintro ⟨k, -⟩
    exact k.elim0
  | succ n ih =>
    have hf := (f (Fin.last n)).isLt
    have hg := (g (Fin.last n)).isLt
    rw [keyOf, keyOf, digit_lt hf hg, ih]
    constructor
    · rintro (⟨k, hk, hlt⟩ | ⟨heq, hlt⟩)
      · refine ⟨k.castSucc, fun m hm => ?_, hlt⟩
        have hmn : m.val < n := lt_trans (Fin.lt_def.mp hm) k.isLt
        exact hk ⟨m.val, hmn⟩ (Fin.lt_def.mpr (Fin.lt_def.mp hm))
      · have hinit := keyOf_injective heq
        refine ⟨Fin.last n, fun m hm => ?_, BitVec.lt_def.mpr hlt⟩
        exact congrFun hinit ⟨m.val, Fin.lt_def.mp hm⟩
    · rintro ⟨k, hk, hlt⟩
      by_cases hl : k = Fin.last n
      · subst hl
        refine .inr ⟨congrArg (keyOf n) (funext fun m => hk m.castSucc m.castSucc_lt_last), ?_⟩
        exact BitVec.lt_def.mp hlt
      · have hkn : k.val < n := Nat.lt_of_le_of_ne (Nat.le_of_lt_succ k.isLt) fun h => hl (Fin.ext h)
        exact .inl ⟨⟨k.val, hkn⟩, fun m hm => hk m.castSucc hm, hlt⟩

/-- The order is lexicographic, from word `0` on. -/
theorem lt_iff : a < b ↔ ∃ k, (∀ m < k, a.words m = b.words m) ∧ a.words k < b.words k :=
  keyOf_lt_iff

/-! ## The order without one bit -/

/-- `b & mask` for the mask without bit `q`. -/
def without (b : BitSet N) (q : Nat) : BitSet N := b.and (maskWithout q)

theorem get_without {q : Nat} (hq : q < 64 * N) :
    (b.without q).get i = (b.get i && decide (i ≠ q)) := by
  unfold without
  rw [get_and, get_maskWithout hq]
  by_cases h : i < 64 * N
  · simp [h]
  · rw [get_of_ge _ (by omega)]; simp

theorem toNat_clear (v : BitVec 64) (j : Nat) :
    (v &&& ~~~(1#64 <<< j)).toNat + (if v.getLsbD j then 2 ^ j else 0) = v.toNat := by
  have hd : (v &&& ~~~(1#64 <<< j)) &&& (v &&& 1#64 <<< j) = 0#64 := by
    refine BitVec.eq_of_getLsbD_eq fun k hk => ?_
    simp only [BitVec.getLsbD_and, BitVec.getLsbD_not, BitVec.getLsbD_zero]
    cases ((1#64) <<< j).getLsbD k <;> simp
  have hs : (v &&& ~~~(1#64 <<< j)) + (v &&& 1#64 <<< j) = v := by
    rw [BitVec.add_eq_or_of_and_eq_zero _ _ hd]
    refine BitVec.eq_of_getLsbD_eq fun k hk => ?_
    simp only [BitVec.getLsbD_or, BitVec.getLsbD_and, BitVec.getLsbD_not, hk, decide_true]
    cases ((1#64) <<< j).getLsbD k <;> simp
  have hn := BitVec.toNat_add_of_and_eq_zero hd
  rw [hs] at hn
  rw [hn]
  congr 1
  rw [← BitVec.twoPow_eq, BitVec.and_twoPow]
  split
  · rename_i hv
    have hj := BitVec.lt_of_getLsbD hv
    rw [BitVec.toNat_twoPow, Nat.mod_eq_of_lt (Nat.pow_lt_pow_right (by decide) hj)]
  · rfl

/-- Clearing one bit of one word. -/
theorem keyOf_clear (n : Nat) (f : Fin n → BitVec 64) (k : Fin n) (j : Nat) :
    keyOf n (Function.update f k (f k &&& ~~~(1#64 <<< j))) +
      (if (f k).getLsbD j then 2 ^ (64 * (n - 1 - k.val) + j) else 0) = keyOf n f := by
  induction n with
  | zero => exact k.elim0
  | succ n ih =>
    rw [keyOf, keyOf]
    by_cases hl : k = Fin.last n
    · subst hl
      have hinit : (fun m : Fin n => Function.update f (Fin.last n)
          (f (Fin.last n) &&& ~~~(1#64 <<< j)) m.castSucc) = fun m => f m.castSucc := by
        funext m
        rw [Function.update_of_ne (Fin.castSucc_lt_last m).ne]
      rw [hinit, Function.update_self]
      have := toNat_clear (f (Fin.last n)) j
      simp only [Fin.val_last, Nat.add_sub_cancel, Nat.sub_self, Nat.mul_zero, Nat.zero_add]
      omega
    · have hkn : k.val < n := Nat.lt_of_le_of_ne (Nat.le_of_lt_succ k.isLt) fun h => hl (Fin.ext h)
      obtain ⟨k', rfl⟩ : ∃ k' : Fin n, k = k'.castSucc := ⟨⟨k.val, hkn⟩, rfl⟩
      have hinit : (fun m : Fin n => Function.update f k'.castSucc
          (f k'.castSucc &&& ~~~(1#64 <<< j)) m.castSucc) =
          Function.update (fun m : Fin n => f m.castSucc) k'
            ((fun m : Fin n => f m.castSucc) k' &&& ~~~(1#64 <<< j)) := by
        funext m
        by_cases hm : m = k'
        · subst hm; rw [Function.update_self, Function.update_self]
        · rw [Function.update_of_ne hm,
            Function.update_of_ne fun h => hm (Fin.castSucc_injective n h)]
      have hlast : Function.update f k'.castSucc (f k'.castSucc &&& ~~~(1#64 <<< j)) (Fin.last n) =
          f (Fin.last n) := Function.update_of_ne (Fin.castSucc_lt_last k').ne' _ _
      have hpow : 2 ^ (64 * (n + 1 - 1 - k'.castSucc.val) + j) =
          2 ^ (64 * (n - 1 - k'.val) + j) * 2 ^ 64 := by
        rw [← Nat.pow_add]
        congr 1
        have := k'.isLt
        simp only [Fin.val_castSucc]
        omega
      have hi := ih (fun m => f m.castSucc) k'
      rw [hinit, hlast, hpow]
      by_cases hc : (f k'.castSucc).getLsbD j = true
      · simp only [hc, if_true] at hi ⊢
        omega
      · simp only [hc, Bool.false_eq_true, if_false] at hi ⊢
        omega

/-- The key, from the key without bit `q`. -/
theorem key_without {q : Nat} (hq : q < 64 * N) (b : BitSet N) :
    (b.without q).key + (if b.get q then 2 ^ (64 * (N - 1 - q / 64) + q % 64) else 0) = b.key := by
  have hw : q / 64 < N := by omega
  have h := keyOf_clear N b.words ⟨q / 64, hw⟩ (q % 64)
  rw [← get_eq b hw] at h
  have he : b.without q = ⟨Function.update b.words ⟨q / 64, hw⟩
      (b.words ⟨q / 64, hw⟩ &&& ~~~(1#64 <<< (q % 64)))⟩ := by
    refine ext_get fun i hi => ?_
    have hiw : i / 64 < N := by omega
    rw [get_without hq, get_eq _ hiw, get_eq _ hiw]
    by_cases hk : i / 64 = q / 64
    · have hfin : (⟨i / 64, hiw⟩ : Fin N) = ⟨q / 64, hw⟩ := Fin.ext hk
      rw [hfin]
      simp only [Function.update_self, Word.getLsbD_clear]
      congr 1
      rw [decide_eq_decide]
      omega
    · simp only
      rw [Function.update_of_ne fun h => hk (congrArg Fin.val h),
        decide_eq_true (by rintro rfl; exact hk rfl), Bool.and_true]
  rw [he]
  exact h

/-- Sets that agree on bit `q` compare as they do without it. -/
theorem without_lt_without {q : Nat} (hq : q < 64 * N) (h : a.get q = b.get q) :
    a.without q < b.without q ↔ a < b := by
  have ha := key_without hq a
  have hb := key_without hq b
  rw [h] at ha
  rw [lt_iff_key, lt_iff_key]
  omega

theorem without_inj {q : Nat} (hq : q < 64 * N) (h : a.get q = b.get q)
    (hw : a.without q = b.without q) : a = b := by
  refine ext_get fun i _ => ?_
  by_cases hi : i = q
  · rw [hi, h]
  · have := congrArg (fun s : BitSet N => s.get i) hw
    simp only [get_without hq, decide_eq_true (show i ≠ q from hi), Bool.and_true] at this
    exact this

theorem toggle_toggle (hi : i < 64 * N) : (b.toggle i).toggle i = b := by
  refine ext_get fun j _ => ?_
  rw [get_toggle hi, get_toggle hi, Bool.xor_assoc, Bool.xor_self, Bool.xor_false]

theorem without_toggle {q : Nat} (hq : q < 64 * N) : (b.toggle q).without q = b.without q := by
  refine ext_get fun i _ => ?_
  rw [get_without hq, get_without hq, get_toggle hq]
  by_cases hi : i = q <;> simp [hi]

end BitSet

end Qblaze

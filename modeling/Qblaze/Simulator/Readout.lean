import Qblaze.Simulator.Session

/-!
# Reading amplitudes (`src/capi.rs`)

The amplitudes of a simulator are read from the flushed vector: into a dense buffer, one after the other with a
bitmap of the basis state, or as lines of text. The bitmap has the words of the bit pattern, with the lowest byte
first. A line has the binary digits of the first word.

* `copied_elements`: a dense buffer gets the amplitude of every basis state that has an index in it.
* `bitmapGet_item`: bit `q` of the bitmap is the value of qubit `q`.
* `dumped_elements`: the digits of a line are the values of the first qubits, as many as are needed.
* `amplitudes_refine`: after any session, what is read is the state of the register, with one factor for all
  amplitudes.
-/

namespace Qblaze

open Lib Lib.Run

variable {F : Type} {N : Nat}

/-! ## The iterator of the C interface -/

/-- `QBlazeIter`, after a call of `qblaze_iter_next`. -/
structure QBlazeIter (F : Type) where
  amplitude : Cplx F
  bitmap : List Byte

/-- `qblaze_iter_next`, for an item of the iterator. `none` is a panic. -/
def qblazeIterNext (qubitCount : Nat) (item : List (BitVec 64) × Cplx F) : Option (QBlazeIter F) :=
  if qubitCount = 64 * item.1.length then some ⟨item.2, item.1.flatMap fun w => encode 8 w.toNat⟩ else none

/-- `qblaze_iter_new`, and calls of `qblaze_iter_next` until there is no item left. The flushed vector is at
`ptr`. The result is `qubit_count` and what the calls leave; `none` is the null pointer. -/
def qblazeIter [Field F] [LinearOrder F] [Eps F] [Scalar F] [DecidableEq F] (env : Env) (m : Heap F)
    (ptr : Nat) : Sim F (Option (Nat × List (QBlazeIter F))) := do
  Simulator.flush env
  let sim ← read
  if sim.isError then return none
  else do
    Simulator.trim
    let sim ← read
    let qubitCount := (sim.maxQubit + 1 + 63) / 64 * 64
    let items ← Simulator.orPanic ((sim.state.vec.export ptr).iter m)
    let entries ← Simulator.orPanic (items.mapM (qblazeIterNext qubitCount))
    return some (qubitCount, entries)

/-- `{:0n$b}`: the binary digits, with zeros before them if there are less than `n`. -/
def binary (n w : Nat) : List Char := (Nat.toDigits 2 w).leftpad n '0'

/-- A line of `qblaze_dump`: the digits, and the amplitude that is printed after them. -/
structure DumpLine (F : Type) where
  digits : List Char
  amplitude : Cplx F

/-- The first loop of `qblaze_dump`: the largest first word, and at least 1. `none` is a panic. -/
def dumpMax (items : List (List (BitVec 64) × Cplx F)) : Option (BitVec 64) :=
  items.foldlM (fun max item => do
    let w ← item.1[0]?
    return if max < w then w else max) 1

/-- One turn of the second loop. -/
def dumpLine (n : Nat) (item : List (BitVec 64) × Cplx F) : Option (DumpLine F) := do
  let w ← item.1[0]?
  return ⟨binary n w.toNat, item.2⟩

/-- `qblaze_dump`: the result and the lines. The flushed vector is at `ptr`. -/
def qblazeDump [Field F] [LinearOrder F] [Eps F] [Scalar F] [DecidableEq F] (env : Env) (m : Heap F)
    (ptr : Nat) : Sim F (Int × List (DumpLine F)) := do
  Simulator.flush env
  let sim ← read
  if sim.isError then return (QBLAZE_ERR_MEMORY, [])
  else do
    let items ← Simulator.orPanic ((sim.state.vec.export ptr).iter m)
    let max ← Simulator.orPanic (dumpMax items)
    let n := 64 - max.clz.toNat
    let items ← Simulator.orPanic ((sim.state.vec.export ptr).iter m)
    let lines ← Simulator.orPanic (items.mapM (dumpLine n))
    return (0, lines)

/-- Bit `q` of a bitmap. -/
def bitmapGet (bitmap : List Byte) (q : Nat) : Bool := (bitmap[q / 8]?.getD 0).val.testBit (q % 8)

theorem encode_testBit (n x : Nat) {k j : Nat} (hk : k < n) (hj : j < 8) :
    ((encode n x)[k]?.getD 0).val.testBit j = x.testBit (8 * k + j) := by
  induction n generalizing x k with
  | zero => omega
  | succ n ih =>
    rw [encode]
    cases k with
    | zero =>
      rw [List.getElem?_cons_zero, Option.getD_some, Nat.mul_zero, Nat.zero_add]
      show (x % 2 ^ 8).testBit j = _
      rw [Nat.testBit_mod_two_pow, decide_eq_true hj, Bool.true_and]
    | succ k =>
      rw [List.getElem?_cons_succ, ih (x / 256) (by omega)]
      show (x / 2 ^ 8).testBit _ = _
      rw [Nat.testBit_div_two_pow]
      congr 1
      omega

theorem length_flatMap_encode (ws : List (BitVec 64)) :
    (ws.flatMap fun w => encode 8 w.toNat).length = 8 * ws.length := by
  induction ws with
  | nil => rfl
  | cons w ws ih =>
    rw [List.flatMap_cons, List.length_append, length_encode, ih, List.length_cons]
    omega

/-- The bits of the bytes are those of the words. -/
theorem bitmapGet_words (ws : List (BitVec 64)) (q : Nat) :
    bitmapGet (ws.flatMap fun w => encode 8 w.toNat) q = (ws[q / 64]?.getD 0).getLsbD (q % 64) := by
  unfold bitmapGet
  induction ws generalizing q with
  | nil => simp
  | cons w ws ih =>
    rw [List.flatMap_cons]
    by_cases hq : q < 64
    · rw [List.getElem?_append_left (by rw [length_encode]; omega), encode_testBit 8 _ (by omega) (by omega),
        show q / 64 = 0 by omega, List.getElem?_cons_zero, Option.getD_some,
        show 8 * (q / 8) + q % 8 = q % 64 by omega]
      rfl
    · obtain ⟨r, rfl⟩ : ∃ r, q = 64 + r := ⟨q - 64, by omega⟩
      rw [List.getElem?_append_right (by rw [length_encode]; omega), length_encode,
        show (64 + r) / 8 - 8 = r / 8 by omega, show (64 + r) % 8 = r % 8 by omega, ih r,
        show (64 + r) / 64 = r / 64 + 1 by omega, List.getElem?_cons_succ, show (64 + r) % 64 = r % 64 by omega]

/-- The bitmap of an item is the basis state. -/
theorem bitmapGet_item (e : Element N F) (q : Qubit) :
    bitmapGet (e.item.1.flatMap fun w => encode 8 w.toNat) q.val = e.bits.toState q := by
  rw [bitmapGet_words]
  show (e.bits.wordList[q.val / 64]?.getD 0).getLsbD _ = e.bits.get q.val
  by_cases hq : q.val / 64 < N
  · rw [BitSet.get_eq _ hq, BitSet.wordList, List.getElem?_ofFn, dif_pos hq, Option.getD_some]
  · rw [BitSet.get_of_ge _ (by omega), BitSet.wordList, List.getElem?_ofFn, dif_neg hq, Option.getD_none]
    exact BitVec.getLsbD_zero

/-! ## Digits -/

/-- The last digit is that of bit 0. -/
theorem binary_succ {n : Nat} (hn : 0 < n) (w : Nat) :
    binary (n + 1) w = binary n (w / 2) ++ [Nat.digitChar (w % 2)] := by
  have hpad : ∀ l : List Char, ∀ c, (l ++ [c]).leftpad (n + 1) '0' = l.leftpad n '0' ++ [c] := fun l c => by
    rw [List.leftpad, List.leftpad, List.length_append, List.length_singleton, Nat.add_sub_add_right,
      List.append_assoc]
  unfold binary
  by_cases hw : w < 2
  · obtain ⟨k, rfl⟩ : ∃ k, n = k + 1 := ⟨n - 1, by omega⟩
    rw [Nat.toDigits_of_lt_base hw, Nat.div_eq_of_lt hw, Nat.mod_eq_of_lt hw, Nat.toDigits_zero, List.leftpad,
      List.leftpad]
    show List.replicate (k + 1) '0' ++ _ = List.replicate k '0' ++ ['0'] ++ _
    rw [List.replicate_succ']
  · rw [Nat.toDigits_of_base_le (by decide) (Nat.le_of_not_lt hw), hpad]

theorem digitChar_mod_two (w : Nat) : Nat.digitChar (w % 2) = if w.testBit 0 then '1' else '0' := by
  rcases Nat.mod_two_eq_zero_or_one w with h | h <;> simp [Nat.testBit_zero, h]

/-- The digits of a number that fits. -/
theorem binary_eq {n w : Nat} (hn : 0 < n) (hw : w < 2 ^ n) :
    binary n w = (List.range n).reverse.map fun j => if w.testBit j then '1' else '0' := by
  induction n generalizing w with
  | zero => omega
  | succ n ih =>
    rcases Nat.eq_zero_or_pos n with rfl | hn
    · rw [binary, Nat.toDigits_of_lt_base (by omega), ← Nat.mod_eq_of_lt (show w < 2 by omega),
        digitChar_mod_two, Nat.mod_eq_of_lt (by omega)]
      rfl
    · rw [binary_succ hn, ih hn (by rw [Nat.pow_succ] at hw; omega), digitChar_mod_two, List.range_succ_eq_map,
        List.reverse_cons, List.map_append, ← List.map_reverse, List.map_map]
      simp only [Nat.testBit_div_two, Function.comp_def, List.map_cons, List.map_nil]

/-- The largest first word. -/
theorem dumpMax_spec {ws : List (BitVec 64)} {items : List (List (BitVec 64) × Cplx F)}
    (h : List.Forall₂ (fun w item => item.1[0]? = some w) ws items) :
    ∃ max, dumpMax items = some max ∧ 1 ≤ max ∧ ∀ w ∈ ws, w ≤ max := by
  suffices hfrom : ∀ m : BitVec 64, ∃ max, items.foldlM (fun max item => do
      let w ← item.1[0]?
      return if max < w then w else max) m = some max ∧ m ≤ max ∧ ∀ w ∈ ws, w ≤ max from hfrom 1
  induction h with
  | nil => exact fun m => ⟨m, rfl, BitVec.le_refl m, fun w hw => absurd hw List.not_mem_nil⟩
  | @cons w item ws items hw _ ih =>
    intro m
    obtain ⟨max, hmax, hle, hall⟩ := ih (if m < w then w else m)
    refine ⟨max, ?_, ?_, List.forall_mem_cons.mpr ⟨?_, hall⟩⟩
    · rw [List.foldlM_cons, hw]
      exact hmax
    all_goals
      split at hle <;> bv_omega

/-! ## The dense buffer -/

/-- The index of an element is its first word, if the other words are zero. -/
theorem item_fromIndex (hN : 0 < N) (e : Element N F) : ∃ w ws, e.item.1 = w :: ws ∧ ∀ i < 2 ^ 64,
    (e.bits = BitSet.fromIndex i ↔ ws.any (fun m => decide (m ≠ 0#64)) = false ∧ w.toNat = i) := by
  obtain ⟨n, rfl⟩ : ∃ n, N = n + 1 := ⟨N - 1, by omega⟩
  refine ⟨e.bits.words 0, List.ofFn fun k : Fin n => e.bits.words k.succ, List.ofFn_succ, fun i hi => ?_⟩
  rw [List.any_eq_false]
  constructor
  · intro h
    rw [h]
    refine ⟨fun w hw => ?_, Nat.mod_eq_of_lt hi⟩
    obtain ⟨k, rfl⟩ := List.mem_ofFn.mp hw
    simp [BitSet.fromIndex]
  · rintro ⟨h, rfl⟩
    refine BitSet.ext (funext fun k => ?_)
    refine Fin.cases ?_ (fun k => ?_) k
    · simp [BitSet.fromIndex]
    · have hz := h (e.bits.words k.succ) (List.mem_ofFn.mpr ⟨k, rfl⟩)
      simpa [BitSet.fromIndex] using hz

variable {buffer : List (Cplx F)} {l : List (Element N F)}

/-- One item is copied to its index. -/
theorem copyAmplitude_item (hN : 0 < N) (e : Element N F) (hb : buffer.length ≤ 2 ^ 64) :
    (copyAmplitude buffer e.item).length = buffer.length ∧ ∀ i < buffer.length,
      (copyAmplitude buffer e.item)[i]? = if e.bits = BitSet.fromIndex i then some e.val else buffer[i]? := by
  obtain ⟨w, ws, hitem, hindex⟩ := item_fromIndex hN e
  have heq : e.item = (w :: ws, e.val) := Prod.ext hitem rfl
  rw [heq, copyAmplitude]
  by_cases hany : ws.any (fun m => decide (m ≠ 0#64)) = true
  · rw [hany, Bool.true_or, if_pos rfl]
    refine ⟨rfl, fun i hi => ?_⟩
    rw [if_neg fun he => ?_]
    rw [hindex i (by omega), hany] at he
    exact Bool.true_eq_false.mp he.1
  · rw [Bool.not_eq_true] at hany
    rw [hany, Bool.false_or]
    by_cases hlt : buffer.length ≤ w.toNat
    · rw [if_pos (decide_eq_true hlt)]
      refine ⟨rfl, fun i hi => ?_⟩
      rw [if_neg fun he => ?_]
      rw [hindex i (by omega)] at he
      omega
    · rw [if_neg (by rw [decide_eq_true_iff]; exact hlt)]
      refine ⟨List.length_set, fun i hi => ?_⟩
      by_cases he : e.bits = BitSet.fromIndex i
      · obtain ⟨-, rfl⟩ := (hindex i (by omega)).mp he
        rw [if_pos he, List.getElem?_set_self hi]
      · rw [if_neg he, List.getElem?_set_ne fun hw => he ((hindex i (by omega)).mpr ⟨hany, hw⟩)]

/-- The amplitude of every basis state that has an index in the buffer is copied, and nothing else changes. -/
theorem copyElements_spec (hN : 0 < N) (hd : Statevector.Distinct l) (hb : buffer.length ≤ 2 ^ 64) :
    ((l.map Element.item).foldl copyAmplitude buffer).length = buffer.length ∧ ∀ i < buffer.length,
      (∀ e ∈ l, e.bits = BitSet.fromIndex i →
        ((l.map Element.item).foldl copyAmplitude buffer)[i]? = some e.val) ∧
      ((∀ e ∈ l, e.bits ≠ BitSet.fromIndex i) →
        ((l.map Element.item).foldl copyAmplitude buffer)[i]? = buffer[i]?) := by
  induction l generalizing buffer with
  | nil => exact ⟨rfl, fun i hi => ⟨fun e he => absurd he List.not_mem_nil, fun _ => rfl⟩⟩
  | cons e l ih =>
    rw [Statevector.Distinct, List.pairwise_cons] at hd
    obtain ⟨hlen, hone⟩ := copyAmplitude_item hN e hb
    rw [List.map_cons, List.foldl_cons]
    obtain ⟨hlen', hrest⟩ := @ih (copyAmplitude buffer e.item) hd.2 (hlen ▸ hb)
    refine ⟨hlen'.trans hlen, fun i hi => ?_⟩
    obtain ⟨hin, hout⟩ := hrest i (hlen ▸ hi)
    refine ⟨List.forall_mem_cons.mpr ⟨fun he => ?_, hin⟩, fun h => ?_⟩
    · rw [hout fun r hr hri => hd.1 r hr (he.trans hri.symm), hone i hi, if_pos he]
    · obtain ⟨he, hl⟩ := List.forall_mem_cons.mp h
      rw [hout hl, hone i hi, if_neg he]

/-! ## The amplitudes of a vector -/

/-- The amplitude of an element. -/
theorem elementsKet_apply {l : List (Element N ℝ)} (hN : N ≤ 62) (hd : Statevector.Distinct l) {e : Element N ℝ}
    (he : e ∈ l) : elementsKet l e.bits.toState = e.val.toC := by
  induction l with
  | nil => exact absurd he List.not_mem_nil
  | cons r l ih =>
    rw [Statevector.Distinct, List.pairwise_cons] at hd
    rw [elementsKet_cons, Pi.add_apply, Element.toKet, Pi.smul_apply, ket_apply, smul_eq_mul]
    rcases List.mem_cons.mp he with rfl | hel
    · have hz : elementsKet l e.bits.toState = 0 := Statevector.elementsKet_apply_eq_zero fun r hr hre =>
        hd.1 r hr (Statevector.toState_injective hN hre.symm)
      rw [if_pos rfl, mul_one, hz, add_zero]
    · rw [if_neg fun hre => hd.1 e hel (Statevector.toState_injective hN hre.symm), mul_zero, zero_add,
        ih hd.2 hel]

section

variable {c : ℂ} {ψ : Ket Qubit}

/-- A dense buffer after the amplitudes of a register were copied to it, with the factor `c`. What has no
amplitude may keep what it held. -/
def Copied (c : ℂ) (ψ : Ket Qubit) (buffer out : List (Cplx ℝ)) : Prop :=
  out.length = buffer.length ∧ ∀ k < buffer.length,
    out[k]?.map Cplx.toC = some (c * ψ fun q => k.testBit q.val) ∨
      (ψ fun q => k.testBit q.val) = 0 ∧ out[k]? = buffer[k]?

/-- The amplitudes of a register, with the factor `c`: no basis state comes twice, and each that has an amplitude
comes. -/
def Reads (c : ℂ) (ψ : Ket Qubit) (read : List ((Qubit → Bool) × ℂ)) : Prop :=
  (∀ p ∈ read, p.2 = c * ψ p.1) ∧ (read.Pairwise fun p p' => p.1 ≠ p'.1) ∧ ∀ x, ψ x ≠ 0 → ∃ p ∈ read, p.1 = x

/-- The state that an entry of the iterator is for. -/
def entryState (entry : QBlazeIter ℝ) : Qubit → Bool := fun q => bitmapGet entry.bitmap q.val

/-- What the iterator yields for a register. The bitmaps have `n` bits. -/
def Iterated (c : ℂ) (ψ : Ket Qubit) (n : Nat) (entries : List (QBlazeIter ℝ)) : Prop :=
  (∀ entry ∈ entries, 8 * entry.bitmap.length = n) ∧
    Reads c ψ (entries.map fun entry => (entryState entry, entry.amplitude.toC))

/-- The `n` digits are the values of the first `n` qubits, and those after them, up to the 64th, are zero. -/
def Digits (n : Nat) (x : Qubit → Bool) (digits : List Char) : Prop :=
  digits.length = n ∧ (∀ q : Qubit, q.val < n → digits[n - 1 - q.val]? = some (if x q then '1' else '0')) ∧
    ∀ q : Qubit, n ≤ q.val → q.val < 64 → x q = false

/-- What is printed for a register. All lines have as many digits. -/
def Dumped (c : ℂ) (ψ : Ket Qubit) (lines : List (DumpLine ℝ)) : Prop :=
  ∃ n read, Reads c ψ read ∧ List.Forall₂ (fun p line => line.amplitude.toC = p.2 ∧ Digits n p.1 line.digits)
    read lines

variable {l : List (Element N ℝ)}

/-- The elements are what is read. -/
theorem reads_elements (hN : N ≤ 62) (hd : Statevector.Distinct l) (hc : c ≠ 0)
    (hket : ∀ x, elementsKet l x = c * ψ x) : Reads c ψ (l.map fun e => (e.bits.toState, e.val.toC)) := by
  refine ⟨?_, List.pairwise_map.mpr (hd.imp fun hne heq => hne (Statevector.toState_injective hN heq)),
    fun x hx => ?_⟩
  · intro p hp
    obtain ⟨e, he, rfl⟩ := List.mem_map.mp hp
    rw [← hket]
    exact (elementsKet_apply hN hd he).symm
  · have hne : elementsKet l x ≠ 0 := by
      rw [hket]
      exact mul_ne_zero hc hx
    by_contra hn
    exact hne (Statevector.elementsKet_apply_eq_zero fun e he heq => hn ⟨_, List.mem_map.mpr ⟨e, he, rfl⟩, heq⟩)

/-- What is copied into a buffer. -/
theorem copied_elements (hN : 0 < N) (hsmall : N ≤ 62) (hd : Statevector.Distinct l) (hc : c ≠ 0)
    (hket : ∀ x, elementsKet l x = c * ψ x) {buffer : List (Cplx ℝ)} (hb : buffer.length ≤ 2 ^ 64) :
    Copied c ψ buffer ((l.map Element.item).foldl copyAmplitude buffer) := by
  obtain ⟨hlen, hcopy⟩ := copyElements_spec hN hd hb
  refine ⟨hlen, fun k hk => ?_⟩
  obtain ⟨hin, hout⟩ := hcopy k hk
  have hstate : (BitSet.fromIndex k : BitSet N).toState = fun q => k.testBit q.val :=
    Simulator.toState_fromIndex hN (by omega)
  rw [← hstate, ← hket]
  by_cases h : ∃ e ∈ l, e.bits = BitSet.fromIndex k
  · obtain ⟨e, he, heq⟩ := h
    rw [hin e he heq, Option.map_some, ← heq, elementsKet_apply hsmall hd he]
    exact .inl rfl
  · have hnone : ∀ e ∈ l, e.bits ≠ BitSet.fromIndex k := fun e he heq => h ⟨e, he, heq⟩
    have hzero : elementsKet l (BitSet.fromIndex k : BitSet N).toState = 0 :=
      Statevector.elementsKet_apply_eq_zero fun e he hs =>
        hnone e he (Statevector.toState_injective hsmall hs)
    rw [hket] at hzero
    exact .inr ⟨(mul_eq_zero.mp hzero).resolve_left hc, hout hnone⟩

/-- A buffer of zeros gets the amplitudes of all basis states that have an index in it. -/
theorem Copied.of_zeros {L : Nat} {out : List (Cplx ℝ)} (h : Copied c ψ (List.replicate L Cplx.ZERO) out) :
    ∀ k < L, out[k]?.map Cplx.toC = some (c * ψ fun q => k.testBit q.val) := by
  intro k hk
  rcases h.2 k (by rwa [List.length_replicate]) with h | ⟨hz, h⟩
  · exact h
  · rw [h, hz, List.getElem?_replicate_of_lt hk, mul_zero]
    rfl

end

/-- A function of the items that does not fail. -/
theorem mapM_item {β : Type} {f : List (BitVec 64) × Cplx F → Option β} {g : Element N F → β}
    (h : ∀ e : Element N F, f e.item = some (g e)) (l : List (Element N F)) :
    (l.map Element.item).mapM f = some (l.map g) := by
  induction l with
  | nil => rfl
  | cons e l ih =>
    rw [List.map_cons, List.mapM_cons, h e, ih]
    rfl

/-- An item passes the assertion of `qblaze_iter_next`. -/
theorem iterNext_item (e : Element N F) :
    qblazeIterNext (64 * N) e.item = some ⟨e.val, e.item.1.flatMap fun w => encode 8 w.toNat⟩ := by
  rw [qblazeIterNext, show e.item.1.length = N from length_wordList e.bits, if_pos rfl]
  rfl

/-- It has a first word. -/
theorem firstWord_item (hN : 0 < N) (e : Element N F) : e.item.1[0]? = some (e.bits.words ⟨0, hN⟩) := by
  show e.bits.wordList[0]? = _
  rw [BitSet.wordList, List.getElem?_ofFn, dif_pos hN]

theorem dumpLine_item (hN : 0 < N) (n : Nat) (e : Element N F) :
    dumpLine n e.item = some ⟨binary n (e.bits.words ⟨0, hN⟩).toNat, e.val⟩ := by
  rw [dumpLine, firstWord_item hN e]
  rfl

/-- The entries of a vector. -/
theorem iterated_elements {c : ℂ} {ψ : Ket Qubit} {l : List (Element N ℝ)} (hN : N ≤ 62)
    (hd : Statevector.Distinct l) (hc : c ≠ 0) (hket : ∀ x, elementsKet l x = c * ψ x) :
    Iterated c ψ (64 * N) (l.map fun e => ⟨e.val, e.item.1.flatMap fun w => encode 8 w.toNat⟩) := by
  refine ⟨fun entry hentry => ?_, ?_⟩
  · obtain ⟨e, -, rfl⟩ := List.mem_map.mp hentry
    show 8 * (e.item.1.flatMap fun w => encode 8 w.toNat).length = _
    rw [length_flatMap_encode, show e.item.1.length = N from length_wordList e.bits]
    omega
  · rw [List.map_map]
    have hstate : ∀ e : Element N ℝ,
        entryState ⟨e.val, e.item.1.flatMap fun w => encode 8 w.toNat⟩ = e.bits.toState := fun e =>
      funext fun q => bitmapGet_item e q
    simp only [Function.comp_def, hstate]
    exact reads_elements hN hd hc hket

/-- The digits of an element whose first word fits. -/
theorem digits_item {n : Nat} (hn : 0 < n) (hn64 : n ≤ 64) (e : Element N F) (hN : 0 < N)
    (hw : (e.bits.words ⟨0, hN⟩).toNat < 2 ^ n) :
    Digits n e.bits.toState (binary n (e.bits.words ⟨0, hN⟩).toNat) := by
  have hbit : ∀ q : Qubit, q.val < 64 → e.bits.toState q = (e.bits.words ⟨0, hN⟩).toNat.testBit q.val := by
    intro q hq
    have h0 : q.val / 64 = 0 := by omega
    show e.bits.get q.val = _
    rw [BitSet.get_eq _ (by omega)]
    simp only [h0, Nat.mod_eq_of_lt hq]
    rfl
  rw [binary_eq hn hw]
  refine ⟨by simp, fun q hq => ?_, fun q hq hq64 => ?_⟩
  · rw [hbit q (by omega), List.getElem?_map, List.getElem?_reverse (by rw [List.length_range]; omega),
      List.length_range, List.getElem?_range (by omega), Option.map_some, show n - 1 - (n - 1 - q.val) = q.val by omega]
  · rw [hbit q hq64]
    exact Nat.testBit_lt_two_pow (Nat.lt_of_lt_of_le hw (Nat.pow_le_pow_right (by decide) hq))

/-- The lines for a vector. -/
theorem dumped_elements {c : ℂ} {ψ : Ket Qubit} {l : List (Element N ℝ)} (hN : 0 < N) (hsmall : N ≤ 62)
    (hd : Statevector.Distinct l) (hc : c ≠ 0) (hket : ∀ x, elementsKet l x = c * ψ x) :
    ∃ max lines, dumpMax (l.map Element.item) = some max ∧
      (l.map Element.item).mapM (dumpLine (64 - max.clz.toNat)) = some lines ∧ Dumped c ψ lines := by
  have hwords : List.Forall₂ (fun w item => item.1[0]? = some w) (l.map fun e => e.bits.words ⟨0, hN⟩)
      (l.map Element.item) := by
    rw [List.forall₂_map_left_iff, List.forall₂_map_right_iff, List.forall₂_same]
    exact fun e _ => firstWord_item hN e
  obtain ⟨max, hmax, h1, hall⟩ := dumpMax_spec hwords
  have hlt : max.toNat < 2 ^ (64 - max.clz.toNat) := BitVec.toNat_lt_two_pow_sub_clz
  have hne : max ≠ 0#64 := fun h => by rw [h] at h1; exact absurd h1 (by decide)
  have hclz : max.clz.toNat < 64 := BitVec.lt_def.mp (BitVec.clz_lt_iff_ne_zero.mpr hne)
  generalize hn : 64 - max.clz.toNat = n at *
  refine ⟨max, _, hmax, by rw [hn]; exact mapM_item (dumpLine_item hN n) l, n, _,
    reads_elements hsmall hd hc hket, ?_⟩
  rw [List.forall₂_map_left_iff, List.forall₂_map_right_iff, List.forall₂_same]
  intro e he
  have hle := hall _ (List.mem_map.mpr ⟨e, he, rfl⟩)
  exact ⟨rfl, digits_item (by omega) (by omega) e hN (Nat.lt_of_le_of_lt (BitVec.le_def.mp hle) hlt)⟩

namespace Simulator

/-- The vector of a flushed simulator is `c` times the state of a register. -/
structure Readable (c : ℂ) (ψ : Ket Qubit) (u : Simulator ℝ) : Prop where
  words : 0 < u.state.words
  small : u.state.words ≤ 62
  inv : u.state.vec.Inv
  ket : ∀ x, u.state.vec.toKet x = c * ψ x

/-- What the amplitudes are read from if nothing is queued or pending. -/
theorem Holds.readable {ψ : Ket Qubit} {u : Simulator ℝ} (h : Holds ψ u) (hq : u.sfreeQueue.isEmpty = true)
    (hp : ∀ q, u.qubits q = none) : ∃ c, c ≠ 0 ∧ Readable c ψ u := by
  obtain ⟨c, hc, hket⟩ := h.scale
  rw [logical_of_empty hp hq] at hket
  exact ⟨c, hc, h.range.words, h.small, h.inv, fun x => by rw [hket, Pi.smul_apply, smul_eq_mul]⟩

/-- So it is after a flush. -/
theorem Holds.flushed {ψ : Ket Qubit} {s u : Simulator ℝ} {env : Env} (h : Holds ψ s) (hψ : ψ ≠ 0)
    (henv : env.Granted) (hu : (flush env).result s = .ok ((), u)) :
    u.isError = false ∧ ∃ c, c ≠ 0 ∧ Readable c ψ u := by
  have hflush := (@wp_eval_gate ψ s env .flush henv h hψ (.inl trivial) trivial trivial).ends () u hu
  rw [show (Call.flush).operator ψ = ψ from rfl] at hflush
  have hempty := Wp.ends (wp_flush_flags h.clean) () u hu
  exact ⟨(nonzero_of_logical (hflush.1.logical_ne_zero hψ)).isEmpty, hflush.1.readable hempty.2 hempty.1⟩

section

variable {s u : Simulator ℝ} {env : Env} {m : Heap ℝ} {ptr : Nat}

/-- The vector of the flushed simulator is at `ptr`. -/
def InMemory (env : Env) (s : Simulator ℝ) (m : Heap ℝ) (ptr : Nat) : Prop :=
  ∀ u, (flush env).result s = .ok ((), u) → ptr % 8 = 0 ∧ Stored m ptr u.state.vec.elements

/-- After a flush that fails, memory is missing. -/
theorem qblazeCopyAmplitudes_lost (hu : (flush env).result s = .ok ((), u)) (he : u.isError = true)
    (buffer : List (Cplx ℝ)) :
    (qblazeCopyAmplitudes env m ptr buffer).result s = .ok ((QBLAZE_ERR_MEMORY, buffer), u) := by
  unfold qblazeCopyAmplitudes
  rw [result_bind hu, result_bind_read, if_pos he]
  rfl

theorem qblazeIter_lost (hu : (flush env).result s = .ok ((), u)) (he : u.isError = true) :
    (qblazeIter env m ptr).result s = .ok (none, u) := by
  unfold qblazeIter
  rw [result_bind hu, result_bind_read, if_pos he]
  rfl

theorem qblazeDump_lost (hu : (flush env).result s = .ok ((), u)) (he : u.isError = true) :
    (qblazeDump env m ptr).result s = .ok ((QBLAZE_ERR_MEMORY, []), u) := by
  unfold qblazeDump
  rw [result_bind hu, result_bind_read, if_pos he]
  rfl

variable {c : ℂ} {ψ : Ket Qubit}

/-- Otherwise the amplitudes of the register are read. -/
theorem Readable.copied (h : Readable c ψ u) (hc : c ≠ 0) (hu : (flush env).result s = .ok ((), u))
    (he : u.isError = false) (hptr : ptr % 8 = 0) (hm : Stored m ptr u.state.vec.elements)
    {buffer : List (Cplx ℝ)} (hb : buffer.length ≤ 2 ^ 64) :
    ∃ out, (qblazeCopyAmplitudes env m ptr buffer).result s = .ok ((0, out), u) ∧ Copied c ψ buffer out := by
  refine ⟨_, ?_, copied_elements h.words h.small h.inv.distinct hc h.ket hb⟩
  unfold qblazeCopyAmplitudes
  rw [result_bind hu, result_bind_read, if_neg (by rw [he]; exact Bool.false_ne_true), result_bind rfl,
    result_bind_read]
  show (orPanic ((u.state.vec.export ptr).iter m) >>= _).result u = _
  rw [items_export h.words hptr hm]
  rfl

theorem Readable.iterated (h : Readable c ψ u) (hc : c ≠ 0) (hu : (flush env).result s = .ok ((), u))
    (he : u.isError = false) (hptr : ptr % 8 = 0) (hm : Stored m ptr u.state.vec.elements) :
    ∃ n entries, (qblazeIter env m ptr).result s = .ok (some (n, entries), u) ∧ Iterated c ψ n entries := by
  refine ⟨_, _, ?_, iterated_elements h.small h.inv.distinct hc h.ket⟩
  have hcount : (u.maxQubit + 1 + 63) / 64 * 64 = 64 * u.state.words := by
    show (64 * u.state.words - 1 + 1 + 63) / 64 * 64 = _
    have := h.words
    omega
  unfold qblazeIter
  rw [result_bind hu, result_bind_read, if_neg (by rw [he]; exact Bool.false_ne_true), result_bind rfl,
    result_bind_read]
  show (orPanic ((u.state.vec.export ptr).iter m) >>= fun items =>
    orPanic (items.mapM (qblazeIterNext ((u.maxQubit + 1 + 63) / 64 * 64))) >>= fun entries =>
      pure (some ((u.maxQubit + 1 + 63) / 64 * 64, entries))).result u = _
  rw [items_export h.words hptr hm, hcount, result_bind rfl, mapM_item iterNext_item]
  rfl

theorem Readable.dumped (h : Readable c ψ u) (hc : c ≠ 0) (hu : (flush env).result s = .ok ((), u))
    (he : u.isError = false) (hptr : ptr % 8 = 0) (hm : Stored m ptr u.state.vec.elements) :
    ∃ lines, (qblazeDump env m ptr).result s = .ok ((0, lines), u) ∧ Dumped c ψ lines := by
  obtain ⟨max, lines, hmax, hlines, hdumped⟩ := dumped_elements h.words h.small h.inv.distinct hc h.ket
  refine ⟨lines, ?_, hdumped⟩
  unfold qblazeDump
  rw [result_bind hu, result_bind_read, if_neg (by rw [he]; exact Bool.false_ne_true),
    items_export h.words hptr hm, result_bind rfl, hmax, result_bind rfl, result_bind rfl, hlines]
  rfl

end

/-- What is read after a session is the state of the register, up to one factor. A dense buffer gets the
amplitudes of all basis states that have an index in it. The iterator yields no basis state twice, and every
one that has an amplitude. -/
theorem amplitudes_refine {cmds : List Command} {as : List (Answer ℝ)} {sims : List (Simulator ℝ)}
    (h : Runs Command.Step [] cmds as sims) (hi : ∀ c ∈ cmds, c.Imports) {i : Nat} {s u : Simulator ℝ}
    (hs : sims[i]? = some s) {env : Env} (henv : env.Granted) (hu : (flush env).result s = .ok ((), u))
    {m : Heap ℝ} {ptr : Nat} (hptr : ptr % 8 = 0) (hm : Stored m ptr u.state.vec.elements) :
    ∃ ψ, (specRun Command.ideal [] cmds).2[i]? = some ψ ∧ ∃ c : ℂ, c ≠ 0 ∧
      (∀ L ≤ 2 ^ 64, ∃ out,
        (qblazeCopyAmplitudes env m ptr (List.replicate L Cplx.ZERO)).result s = .ok ((0, out), u) ∧
        ∀ k < L, out[k]?.map Cplx.toC = some (c * ψ fun q => k.testBit q.val)) ∧
      ∃ n entries, (qblazeIter env m ptr).result s = .ok (some (n, entries), u) ∧
        (∀ entry ∈ entries, 8 * entry.bitmap.length = n ∧ entry.amplitude.toC = c * ψ (entryState entry)) ∧
        (entries.Pairwise fun entry entry' => entryState entry ≠ entryState entry') ∧
        ∀ x, ψ x ≠ 0 → ∃ entry ∈ entries, entryState entry = x := by
  obtain ⟨-, hold⟩ := h.refines (step_refines False) (accepted_of hi fun _ _ => False.elim) .nil
  obtain ⟨ψ, hψs, hψ, hsψ, -⟩ := forall₂_getElem hold hs
  obtain ⟨he, c, hc, hread⟩ := hsψ.flushed hψ henv hu
  obtain ⟨n, entries, hiter, hlen, hval, hne, hall⟩ := hread.iterated hc hu he hptr hm
  rw [List.forall_mem_map] at hval
  rw [List.pairwise_map] at hne
  refine ⟨ψ, hψs, c, hc, fun L hL => ?_, n, entries, hiter, fun entry hentry => ⟨hlen entry hentry,
    hval entry hentry⟩, hne, fun x hx => ?_⟩
  · have hb : (List.replicate L (Cplx.ZERO : Cplx ℝ)).length ≤ 2 ^ 64 := by rwa [List.length_replicate]
    obtain ⟨out, hout, hcopied⟩ := hread.copied hc hu he hptr hm hb
    exact ⟨out, hout, hcopied.of_zeros⟩
  · obtain ⟨p, hp, rfl⟩ := hall x hx
    obtain ⟨entry, hentry, rfl⟩ := List.mem_map.mp hp
    exact ⟨entry, hentry, rfl⟩

/-- A qubit in superposition is read. -/
theorem amplitudes_refine_plus : ∃ (s u : Simulator ℝ) (m : Heap ℝ) (ψ : Ket Qubit) (c : ℂ), c ≠ 0 ∧
    (specRun Command.ideal [] (plusCommands Context.default)).2[0]? = some ψ ∧
    ∃ out, (qblazeCopyAmplitudes Env.default m 0 (List.replicate 2 Cplx.ZERO)).result s = .ok ((0, out), u) ∧
      ∀ k < 2, out[k]?.map Cplx.toC = some (c * ψ fun q => k.testBit q.val) := by
  have hctx := Context.default_positive
  obtain ⟨as, s, h⟩ := plus_runs hctx (by decide)
  obtain ⟨-, hold⟩ := h.refines (step_refines True) (plus_accepted hctx) .nil
  obtain ⟨ψ, -, hψ, hs, hp⟩ := forall₂_getElem hold (i := 0) (d := s) rfl
  have hflush := @wp_eval_gate ψ s Env.default .flush default_granted hs hψ (.inl trivial) trivial trivial
  obtain ⟨u, hu⟩ := returns_unit (returns_of_wp hflush (fun _ hn => hn) (hp trivial))
  obtain ⟨m, hm⟩ := exists_stored u.state.vec.elements 0
  obtain ⟨ψ, hψs, c, hc, hcopy, -⟩ :=
    amplitudes_refine h (plus_imports hctx) (i := 0) rfl default_granted hu rfl hm
  exact ⟨s, u, m, ψ, c, hc, hψs, hcopy (1 + 1) (by decide)⟩

end Simulator

end Qblaze

import Qblaze.Lib.Memory
import Qblaze.Statevector.Measure

/-!
# Records in memory (`src/statevector.rs`, `src/simulator.rs`)

`export` hands out the buffer of a vector as records of bytes, with a stride and the offsets of their
fields. `import` copies them into records with another number of words, chunk by chunk, and the
iterator of the simulator reads them one after the other.

* `importBytes_export`: the copy of an export is the vector with more words (`importFrom`), for every
  order of the chunks.
* `items_export`: the iterator yields the words and the amplitudes of the elements in order.

An amplitude is read and written as a whole, so that its bytes are symbols: the cell `amp v k` is the
byte `k` of `v`.
-/

namespace Qblaze

open Lib

variable {N M : Nat} {F : Type}

/-- What an address of a buffer holds. -/
inductive Cell (F : Type) where
  | byte (b : Byte)
  | amp (v : Cplx F) (k : Nat)
  deriving DecidableEq

abbrev Heap (F : Type) := Memory (Cell F)

/-! ## The layout of records -/

/-- The bytes of a word. -/
def wordCells (w : BitVec 64) : List (Cell F) := (encode 8 w.toNat).map .byte

/-- The words of a bit pattern, as a slice. -/
def BitSet.wordList (b : BitSet N) : List (BitVec 64) := List.ofFn b.words

def BitSet.cells (b : BitSet N) : List (Cell F) := b.wordList.flatMap wordCells

/-- The bytes of a `Complex`. -/
def ampCells (v : Cplx F) : List (Cell F) := (List.range 16).map (.amp v)

/-- The fields of `sfree::Element`, which is `repr(C)`: the bits at `0`, the value after them. -/
def Element.cells (e : Element N F) : List (Cell F) := e.bits.cells ++ ampCells e.val

/-- The elements are the records of the buffer at `ptr`. -/
def Stored (m : Heap F) (ptr : Nat) (l : List (Element N F)) : Prop :=
  ∀ i e, l[i]? = some e →
    m.read (ptr + i * Statevector.elementSize N) (Statevector.elementSize N) = e.cells

def Cell.byte? : Cell F → Option Byte
  | byte b => some b
  | amp _ _ => none

/-- Read a `u64`. -/
def readWord (m : Heap F) (p : Nat) : Option (BitVec 64) :=
  ((m.read p 8).mapM Cell.byte?).map fun bs => BitVec.ofNat 64 (decode bs)

/-- Read a slice of `u64`. -/
def readWords (m : Heap F) (p : Nat) : Nat → Option (List (BitVec 64))
  | 0 => some []
  | n + 1 => do
    let w ← readWord m p
    let ws ← readWords m (p + 8) n
    return w :: ws

/-- Read a `Complex`. -/
def readAmp [DecidableEq F] (m : Heap F) (p : Nat) : Option (Cplx F) :=
  match m p with
  | .amp v _ => if m.read p 16 = ampCells v then some v else none
  | .byte _ => none

/-- `ExportSlice` -/
structure ExportSlice where
  ptr : Nat
  len : Nat
  stride : Nat
  bitsOffset : Nat
  bitsSize : Nat
  valueOffset : Nat
  partitionedBy : Option Qubit
  partitionedAt : Nat

/-- `export`, of a vector whose buffer is at `ptr`. -/
def Statevector.export (s : Statevector N F) (ptr : Nat) : ExportSlice :=
  ⟨ptr, s.len, elementSize N, 0, 8 * N, 8 * N, s.partitionedBy, s.part0.length⟩

section Layout

variable {w : BitVec 64} {m : Heap F} {p ptr i : Nat} {l : List (Element N F)} {e : Element N F}

@[simp] theorem length_wordCells : (wordCells w : List (Cell F)).length = 8 := by
  simp [wordCells]

@[simp] theorem length_wordList (b : BitSet N) : b.wordList.length = N := List.length_ofFn

theorem length_flatMap_wordCells (ws : List (BitVec 64)) :
    (ws.flatMap wordCells : List (Cell F)).length = 8 * ws.length := by
  induction ws with
  | nil => rfl
  | cons w ws ih =>
    rw [List.flatMap_cons, List.length_append, ih, length_wordCells, List.length_cons]
    omega

@[simp] theorem length_cells (b : BitSet N) : (b.cells : List (Cell F)).length = 8 * N := by
  rw [BitSet.cells, length_flatMap_wordCells, length_wordList]

@[simp] theorem length_ampCells (v : Cplx F) : (ampCells v).length = 16 := by
  simp [ampCells]

theorem mapM_byte (bs : List Byte) : (bs.map (Cell.byte (F := F))).mapM Cell.byte? = some bs := by
  induction bs with
  | nil => rfl
  | cons b bs ih =>
    rw [List.map_cons, List.mapM_cons, ih]
    rfl

/-- A word that is stored is read back. -/
theorem readWord_eq (h : m.read p 8 = wordCells w) : readWord m p = some w := by
  rw [readWord, h, wordCells, mapM_byte, Option.map_some, decode_encode (by have := w.isLt; omega),
    BitVec.ofNat_toNat, BitVec.setWidth_eq]

theorem readWords_eq (ws : List (BitVec 64)) (h : m.read p (8 * ws.length) = ws.flatMap wordCells) :
    readWords m p ws.length = some ws := by
  induction ws generalizing p with
  | nil => rfl
  | cons w ws ih =>
    rw [List.length_cons, Nat.mul_succ, Nat.add_comm, Memory.read_add, List.flatMap_cons] at h
    obtain ⟨hw, hws⟩ := List.append_inj h (by simp)
    rw [List.length_cons, readWords, readWord_eq hw, ih hws]
    rfl

theorem readAmp_eq [DecidableEq F] {v : Cplx F} (h : m.read p 16 = ampCells v) :
    readAmp m p = some v := by
  have h0 : m p = .amp v 0 := by
    have := congrArg (fun l => l[0]?) h
    simpa [Memory.read, ampCells] using this
  rw [readAmp, h0]
  exact if_pos h

/-- The fields of a stored element. -/
theorem Stored.fields (h : Stored m ptr l) (he : l[i]? = some e) :
    m.read (ptr + i * Statevector.elementSize N) (8 * N) = e.bits.cells ∧
      m.read (ptr + i * Statevector.elementSize N + 8 * N) 16 = ampCells e.val := by
  have hr := h i e he
  rw [show Statevector.elementSize N = 8 * N + 16 from rfl, Memory.read_add, Element.cells] at hr
  exact List.append_inj hr (by simp)

@[simp] theorem length_elementCells (e : Element N F) :
    e.cells.length = Statevector.elementSize N := by
  rw [Element.cells, List.length_append, length_cells, length_ampCells]
  rfl

/-- A vector can be in memory. -/
theorem exists_stored (l : List (Element N F)) (ptr : Nat) : ∃ m : Heap F, Stored m ptr l := by
  induction l generalizing ptr with
  | nil => exact ⟨fun _ => .byte 0, fun i e he => nomatch he⟩
  | cons e l ih =>
    obtain ⟨m, hm⟩ := ih (ptr + Statevector.elementSize N)
    refine ⟨m.write ptr e.cells, fun i r hr => ?_⟩
    cases i with
    | zero =>
      cases hr
      rw [Nat.zero_mul, Nat.add_zero, ← length_elementCells e]
      exact Memory.read_write_self m ptr e.cells
    | succ i =>
      rw [show ptr + (i + 1) * Statevector.elementSize N =
        ptr + Statevector.elementSize N + i * Statevector.elementSize N by rw [Nat.succ_mul]; omega]
      refine (Memory.read_write_of_disjoint m ?_).trans (hm i r hr)
      rw [length_elementCells]
      omega

end Layout

/-! ## The iterator -/

/-- `Iter::next`: the words and the amplitude of a record, and the rest of the slice. -/
def ExportSlice.next [DecidableEq F] (m : Heap F) (slice : ExportSlice) :
    Option (Option (List (BitVec 64) × Cplx F) × ExportSlice) :=
  if slice.len = 0 then none
  else
    let item := do
      let words ← readWords m (slice.ptr + slice.bitsOffset) (slice.bitsSize / 8)
      let val ← readAmp m (slice.ptr + slice.valueOffset)
      return (words, val)
    some (item, { slice with ptr := slice.ptr + slice.stride, len := slice.len - 1 })

/-- What the iterator yields in `n` steps. -/
def ExportSlice.items [DecidableEq F] (m : Heap F) :
    Nat → ExportSlice → Option (List (List (BitVec 64) × Cplx F))
  | 0, _ => some []
  | n + 1, slice =>
    match slice.next m with
    | none => some []
    | some (item, slice) => do
      let item ← item
      let items ← items m n slice
      return item :: items

/-- `Simulator::iter`: the assertions, and all items. -/
def ExportSlice.iter [DecidableEq F] (m : Heap F) (slice : ExportSlice) :
    Option (List (List (BitVec 64) × Cplx F)) :=
  if slice.stride % 8 = 0 ∧ 8 ≤ slice.bitsSize ∧ slice.bitsSize % 8 = 0 ∧
      (slice.ptr + slice.bitsOffset) % 8 = 0 then
    slice.items m slice.len
  else none

/-- The item of an element. -/
def Element.item (e : Element N F) : List (BitVec 64) × Cplx F := (e.bits.wordList, e.val)

theorem stored_tail {m : Heap F} {ptr : Nat} {e : Element N F} {l : List (Element N F)}
    (h : Stored m ptr (e :: l)) : Stored m (ptr + Statevector.elementSize N) l := by
  intro i e' he
  have := h (i + 1) e' he
  rwa [Nat.succ_mul, Nat.add_comm (i * _), ← Nat.add_assoc] at this

section Iter

variable [DecidableEq F] {m : Heap F} {ptr : Nat} {l : List (Element N F)}

theorem items_stored (h : Stored m ptr l) (partitionedBy : Option Qubit) (partitionedAt : Nat) :
    (⟨ptr, l.length, Statevector.elementSize N, 0, 8 * N, 8 * N, partitionedBy, partitionedAt⟩ :
      ExportSlice).items m l.length = some (l.map Element.item) := by
  induction l generalizing ptr with
  | nil => rfl
  | cons e l ih =>
    obtain ⟨hbits, hval⟩ := h.fields (i := 0) rfl
    rw [Nat.zero_mul, Nat.add_zero] at hbits hval
    have hwords : readWords m ptr N = some e.bits.wordList := by
      have := readWords_eq (m := m) (p := ptr) e.bits.wordList
      rw [length_wordList] at this
      exact this hbits
    rw [List.length_cons, ExportSlice.items, ExportSlice.next, if_neg (Nat.succ_ne_zero _)]
    simp only [Nat.add_zero, Nat.mul_div_cancel_left N (Nat.succ_pos 7), hwords, readAmp_eq hval,
      Nat.add_sub_cancel]
    show (ExportSlice.items m l.length _).bind _ = _
    rw [ih (stored_tail h)]
    rfl

/-- The iterator over an export yields the words and the amplitudes of the elements in order. -/
theorem items_export {s : Statevector N F} (hN : 0 < N) (hp : ptr % 8 = 0)
    (h : Stored m ptr s.elements) :
    (s.export ptr).iter m = some (s.elements.map Element.item) := by
  have hlen : s.len = s.elements.length := List.length_append.symm
  rw [ExportSlice.iter, if_pos]
  · rw [Statevector.export, hlen]
    exact items_stored h _ _
  · simp only [Statevector.export, Statevector.elementSize]
    omega

end Iter

/-! ## Import -/

/-- The record that `import` writes for the record `i` of `data`: the words are zero after those that are
copied. -/
def importRecord (N : Nat) (m : Heap F) (data : ExportSlice) (i : Nat) : List (Cell F) :=
  let bitsSize := min data.bitsSize (8 * N)
  let p := data.ptr + i * data.stride
  (m.read (p + data.bitsOffset) bitsSize ++ (BitSet.empty : BitSet N).cells.drop bitsSize) ++
    m.read (p + data.valueOffset) 16

/-- One turn of the loop of `import`, with the buffer at `dst`. -/
def importStep (N dst : Nat) (data : ExportSlice) (m : Heap F) (i : Nat) : Heap F :=
  m.write (dst + i * Statevector.elementSize N) (importRecord N m data i)

/-- The indices of a chunk of `import`. -/
def importIndices (len chunkI : Nat) : List Nat :=
  (List.range (min (2 ^ 12) (len - chunkI * 2 ^ 12))).map fun i => chunkI * 2 ^ 12 + i

/-- The chunks of `import`, in the order in which the threads take them. -/
def importChunks (N dst : Nat) (data : ExportSlice) (order : List Nat) (m : Heap F) : Heap F :=
  order.foldl (fun m chunkI => (importIndices data.len chunkI).foldl (importStep N dst data) m) m

/-- Read an element of a buffer. -/
def readElement (N : Nat) [DecidableEq F] (m : Heap F) (p : Nat) : Option (Element N F) := do
  let words ← readWords m p N
  let val ← readAmp m (p + 8 * N)
  return ⟨⟨fun k => words[k.val]?.getD 0#64⟩, val⟩

/-- Read the elements of a buffer. -/
def readElements (N : Nat) [DecidableEq F] (m : Heap F) (p : Nat) : Nat → Option (List (Element N F))
  | 0 => some []
  | n + 1 => do
    let e ← readElement N m p
    let l ← readElements N m (p + Statevector.elementSize N) n
    return e :: l

/-- `import`, into a buffer at `dst`: the memory after it, and the vector. -/
def Statevector.importBytes [DecidableEq F] (s : Statevector N F) (alloc : Bool) (dst : Nat)
    (order : List Nat) (m : Heap F) (data : ExportSlice) : Option (Heap F × Statevector N F) :=
  if tryReserve alloc data.len then do
    let m := importChunks N dst data order m
    let elements ← readElements N m dst data.len
    let partitionedBy ← match data.partitionedBy with
      | none => some none
      | some q => (bitIndex N q).map some
    return (m, ⟨partitionedBy, elements.take data.partitionedAt, elements.drop data.partitionedAt⟩)
  else some (m, s.clear)

section Import

variable {m m' : Heap F} {ptr dst i : Nat} {l : List (Element M F)} {data : ExportSlice}

theorem wordList_empty : (BitSet.empty : BitSet N).wordList = List.replicate N 0#64 := by
  refine List.ext_getElem (by simp) fun i h1 h2 => ?_
  simp [BitSet.wordList, BitSet.empty]

/-- The words of a pattern with more words. -/
theorem wordList_resize (hM : M ≤ N) (b : BitSet M) :
    (b.resize N).wordList = b.wordList ++ List.replicate (N - M) 0#64 := by
  refine List.ext_getElem (by simp; omega) fun i h1 h2 => ?_
  by_cases hi : i < M
  · rw [List.getElem_append_left (by simpa using hi)]
    simp [BitSet.wordList, BitSet.resize, hi]
  · rw [List.getElem_append_right (by simpa using hi)]
    simp [BitSet.wordList, BitSet.resize, hi]

/-- The bytes of a pattern with more words. -/
theorem cells_resize (hM : M ≤ N) (b : BitSet M) : ((b.resize N).cells : List (Cell F)) =
    b.cells ++ (BitSet.empty : BitSet N).cells.drop (8 * M) := by
  have hzero : (BitSet.empty : BitSet N).cells = ((List.replicate M 0#64).flatMap wordCells ++
      (List.replicate (N - M) 0#64).flatMap wordCells : List (Cell F)) := by
    rw [BitSet.cells, wordList_empty, ← List.flatMap_append, List.replicate_append_replicate,
      Nat.add_sub_cancel' hM]
  rw [hzero, List.drop_left' (by rw [length_flatMap_wordCells, List.length_replicate]),
    BitSet.cells, wordList_resize hM, List.flatMap_append]
  rfl

/-- A record of an export becomes the record of the element with more words. -/
theorem importRecord_stored (hM : M ≤ N) (h : Stored m ptr l) {e : Element M F} (he : l[i]? = some e)
    (len : Nat) (partitionedBy : Option Qubit) (partitionedAt : Nat) :
    importRecord N m ⟨ptr, len, Statevector.elementSize M, 0, 8 * M, 8 * M, partitionedBy,
      partitionedAt⟩ i = (Statevector.resizeElement N e).cells := by
  obtain ⟨hbits, hval⟩ := h.fields he
  simp only [importRecord, Nat.add_zero, Nat.min_eq_left (Nat.mul_le_mul_left 8 hM), hbits, hval]
  rw [← cells_resize hM]
  rfl

theorem length_importRecord (N : Nat) (m : Heap F) (data : ExportSlice) (i : Nat) :
    (importRecord N m data i).length = Statevector.elementSize N := by
  simp only [importRecord, List.length_append, Memory.length_read, List.length_drop, length_cells,
    Statevector.elementSize]
  omega

/-- A record is copied from its own bytes. -/
theorem importRecord_congr (hi : i < data.len) (hb : data.bitsOffset + data.bitsSize ≤ data.stride)
    (hv : data.valueOffset + 16 ≤ data.stride)
    (h : ∀ a, data.ptr ≤ a → a < data.ptr + data.len * data.stride → m' a = m a) :
    importRecord N m' data i = importRecord N m data i := by
  have hle : (i + 1) * data.stride ≤ data.len * data.stride := Nat.mul_le_mul_right _ hi
  rw [Nat.succ_mul] at hle
  simp only [importRecord]
  congr 1
  · congr 1
    refine Memory.read_congr fun k hk => h _ (by omega) (by omega)
  · refine Memory.read_congr fun k hk => h _ (by omega) (by omega)

/-- The steps of `import` write the records of their indices, and nothing else. -/
theorem importSteps_spec {slots : List Nat} (hs : ∀ i ∈ slots, i < data.len)
    (hb : data.bitsOffset + data.bitsSize ≤ data.stride) (hv : data.valueOffset + 16 ≤ data.stride)
    (hd : data.ptr + data.len * data.stride ≤ dst ∨
      dst + data.len * Statevector.elementSize N ≤ data.ptr) (m : Heap F) :
    (∀ a, a < dst ∨ dst + data.len * Statevector.elementSize N ≤ a →
      slots.foldl (importStep N dst data) m a = m a) ∧
    (∀ j, j ∉ slots → (slots.foldl (importStep N dst data) m).read
        (dst + j * Statevector.elementSize N) (Statevector.elementSize N) =
      m.read (dst + j * Statevector.elementSize N) (Statevector.elementSize N)) ∧
    ∀ i ∈ slots, (slots.foldl (importStep N dst data) m).read
      (dst + i * Statevector.elementSize N) (Statevector.elementSize N) = importRecord N m data i := by
  induction slots generalizing m with
  | nil => exact ⟨fun _ _ => rfl, fun _ _ => rfl, fun i hi => absurd hi List.not_mem_nil⟩
  | cons i slots ih =>
    have hi := hs i List.mem_cons_self
    have hslot : (i + 1) * Statevector.elementSize N ≤ data.len * Statevector.elementSize N :=
      Nat.mul_le_mul_right _ hi
    rw [Nat.succ_mul] at hslot
    have hlen := length_importRecord N m data i
    have hout : ∀ a, a < dst ∨ dst + data.len * Statevector.elementSize N ≤ a →
        importStep N dst data m i a = m a := by
      intro a ha
      rcases ha with ha | ha
      · exact Memory.write_of_lt m _ (by omega)
      · exact Memory.write_of_ge m (by omega)
    have hself : (importStep N dst data m i).read (dst + i * Statevector.elementSize N)
        (Statevector.elementSize N) = importRecord N m data i := by
      have := Memory.read_write_self m (dst + i * Statevector.elementSize N) (importRecord N m data i)
      rwa [hlen] at this
    have hother : ∀ j, j ≠ i → (importStep N dst data m i).read
        (dst + j * Statevector.elementSize N) (Statevector.elementSize N) =
        m.read (dst + j * Statevector.elementSize N) (Statevector.elementSize N) := by
      intro j hj
      refine Memory.read_write_of_disjoint m ?_
      rw [hlen]
      rcases Nat.lt_or_gt_of_ne hj with hj | hj
      · have := Nat.mul_le_mul_right (Statevector.elementSize N) hj
        rw [Nat.succ_mul] at this
        omega
      · have := Nat.mul_le_mul_right (Statevector.elementSize N) hj
        rw [Nat.succ_mul] at this
        omega
    obtain ⟨h1, h2, h3⟩ := ih (fun j hj => hs j (List.mem_cons_of_mem i hj)) (importStep N dst data m i)
    have hrec : ∀ j ∈ slots, importRecord N (importStep N dst data m i) data j =
        importRecord N m data j := fun j hj =>
      importRecord_congr (hs j (List.mem_cons_of_mem i hj)) hb hv fun a h1 h2 => hout a (by omega)
    rw [List.foldl_cons]
    refine ⟨fun a ha => (h1 a ha).trans (hout a ha), fun j hj => ?_, fun j hj => ?_⟩
    · rw [h2 j fun h => hj (List.mem_cons_of_mem i h)]
      exact hother j fun e => hj (e ▸ List.mem_cons_self)
    · by_cases hjs : j ∈ slots
      · rw [h3 j hjs, hrec j hjs]
      · obtain rfl : j = i := (List.mem_cons.mp hj).resolve_right hjs
        rw [h2 j hjs, hself]

theorem importChunks_eq (N dst : Nat) (data : ExportSlice) (order : List Nat) (m : Heap F) :
    importChunks N dst data order m =
      (order.flatMap (importIndices data.len)).foldl (importStep N dst data) m := by
  rw [importChunks, List.foldl_flatMap]

/-- The chunks have every index. -/
theorem mem_importIndices {len k : Nat} (hk : len ≤ k * 2 ^ 12) {order : List Nat}
    (ho : order.Perm (List.range k)) : i ∈ order.flatMap (importIndices len) ↔ i < len := by
  simp only [List.mem_flatMap, importIndices, List.mem_map, List.mem_range, ho.mem_iff]
  constructor
  · rintro ⟨c, hc, j, hj, rfl⟩
    omega
  · intro hi
    exact ⟨i / 2 ^ 12, by omega, i % 2 ^ 12, by omega, by omega⟩

section Read

variable [DecidableEq F]

theorem readElements_stored {l : List (Element N F)} (h : Stored m ptr l) :
    readElements N m ptr l.length = some l := by
  induction l generalizing ptr with
  | nil => rfl
  | cons e l ih =>
    obtain ⟨hbits, hval⟩ := h.fields (i := 0) rfl
    rw [Nat.zero_mul, Nat.add_zero] at hbits hval
    have hwords : readWords m ptr N = some e.bits.wordList := by
      have := readWords_eq (m := m) (p := ptr) e.bits.wordList
      rw [length_wordList] at this
      exact this hbits
    have hread : readElement N m ptr = some e := by
      rw [readElement, hwords, readAmp_eq hval]
      simp [BitSet.wordList]
    rw [List.length_cons, readElements, hread, ih (stored_tail h)]
    rfl

/-- `import` of an export is a vector with the same elements, with more words, in memory and as a value,
for every order of the chunks. It keeps what is not in its buffer. -/
theorem importBytes_export {s : Statevector N F} {v : Statevector M F} {alloc : Bool} {k : Nat}
    {order : List Nat} (hM : M ≤ N) (h : Stored m ptr v.elements)
    (hd : ptr + v.len * Statevector.elementSize M ≤ dst ∨
      dst + v.len * Statevector.elementSize N ≤ ptr)
    (hk : v.len ≤ k * 2 ^ 12) (ho : order.Perm (List.range k)) :
    ∃ m', s.importBytes alloc dst order m (v.export ptr) =
        (s.importFrom alloc v).map (fun t => (m', t)) ∧
      (∀ a, a < dst ∨ dst + v.len * Statevector.elementSize N ≤ a → m' a = m a) ∧
      (tryReserve alloc v.len = true → ∀ t, s.importFrom alloc v = some t →
        Stored m' dst t.elements) := by
  have hlen : v.len = v.elements.length := List.length_append.symm
  by_cases hr : tryReserve alloc v.len = true
  · obtain ⟨hout, -, hrec⟩ := @importSteps_spec N F dst (v.export ptr)
      (order.flatMap (importIndices v.len)) (fun i => (mem_importIndices hk ho).mp)
      (by simp [Statevector.export, Statevector.elementSize])
      (by simp [Statevector.export, Statevector.elementSize]) hd m
    have hchunks := importChunks_eq N dst (v.export ptr) order m
    have hstored : Stored (importChunks N dst (v.export ptr) order m) dst
        (v.elements.map (Statevector.resizeElement N)) := by
      intro i e he
      rw [List.getElem?_map] at he
      obtain ⟨e, hv, rfl⟩ := Option.map_eq_some_iff.mp he
      have hi : i < v.len := hlen ▸ (List.getElem?_eq_some_iff.mp hv).1
      rw [hchunks]
      exact (hrec i ((mem_importIndices hk ho).mpr hi)).trans (importRecord_stored hM h hv _ _ _)
    have hread := readElements_stored hstored
    rw [List.length_map, ← hlen] at hread
    refine ⟨importChunks N dst (v.export ptr) order m, ?_, fun a ha => ?_, fun _ t ht => ?_⟩
    · have hsplit : (v.elements.map (Statevector.resizeElement N)).take v.part0.length =
            v.part0.map (Statevector.resizeElement N) ∧
          (v.elements.map (Statevector.resizeElement N)).drop v.part0.length =
            v.part1.map (Statevector.resizeElement N) := by
        rw [Statevector.elements, List.map_append]
        exact ⟨List.take_left' (List.length_map ..), List.drop_left' (List.length_map ..)⟩
      unfold Statevector.importBytes Statevector.importFrom
      rw [if_pos hr, if_pos (show tryReserve alloc (v.export ptr).len = true from hr)]
      simp only [show (v.export ptr).len = v.len from rfl, hread,
        show (v.export ptr).partitionedAt = v.part0.length from rfl, Option.bind_eq_bind,
        Option.bind_some, show (v.export ptr).partitionedBy = v.partitionedBy from rfl, hsplit]
      cases v.partitionedBy with
      | none => rfl
      | some q => cases hq : bitIndex N q <;> simp only [hq] <;> rfl
    · rw [hchunks]
      exact hout a ha
    · rcases Statevector.importFrom_cases ht with ⟨-, rfl⟩ | ⟨-, rfl⟩
      · exact fun i e he => nomatch he
      · rwa [Statevector.elements, ← List.map_append]
  · refine ⟨m, ?_, fun a _ => rfl, fun ht => absurd ht hr⟩
    unfold Statevector.importBytes Statevector.importFrom
    rw [if_neg hr, if_neg (show ¬ tryReserve alloc (v.export ptr).len = true from hr)]
    rfl

end Read

end Import

end Qblaze

import Mathlib.Data.List.Pairwise
import Qblaze.Lib.Memory

/-!
# The arena (`src/arena.rs`)

An arena hands out memory from chunks and never takes a value back: the values are dropped with the
arena. A chunk has no list of its allocations. Before each value is the address of the function that
drops it, and the function returns where the value ends; the walk of `Chunk::drop` aligns that address
and looks for the next function, and takes eight zero bytes for padding.

- **Layout** (`Layout`): the allocations of a chunk, in order, as the walk finds them. It depends on the
  headers and the padding only (`Layout.congr`), so the owners may change the values.
- **Invariant** (`Inv`): every chunk has a layout that ends at `ptr`, and the chunks are disjoint. Every
  operation succeeds and keeps it (`step_inv`).
- **Walk** (`walk_layout`): over a layout, the walk calls each drop function once and ends at `ptr`.

Addresses and sizes are natural numbers. A function pointer and a `usize` have eight bytes and are
aligned to eight.
-/

namespace Qblaze

open Lib

/-- The types of the values in an arena. -/
structure Types (τ : Type) where
  size : τ → Nat
  align : τ → Nat
  pow : ∀ t, ∃ k, align t = 2 ^ k
  /-- `ptr::drop_in_place`, which may write to the value. -/
  drop : τ → Nat → Memory → Memory
  drop_frame : ∀ t p m a, a < p ∨ p + size t ≤ a → drop t p m a = m a

/-- The instances of `drop_one` and `drop_seq`. -/
inductive DropFunc (τ : Type)
  | dropOne (t : τ)
  | dropSeq (t : τ)

/-- Where an allocation is: its drop function is stored at `header`, and it has `len` values. -/
structure Block (τ : Type) where
  func : DropFunc τ
  header : Nat
  len : Nat

namespace DropFunc

variable {τ : Type}

def type : DropFunc τ → τ
  | dropOne t => t
  | dropSeq t => t

/-- `ptr::drop_in_place` of a slice with `len` elements at `p`. -/
def dropSlice (T : Types τ) (t : τ) (p len : Nat) (m : Memory) : Memory :=
  (List.range len).foldl (fun m i => T.drop t (p + T.size t * i) m) m

/-- A call of the function: the address that it returns, and the memory. -/
def call (T : Types τ) : DropFunc τ → Nat → Memory → Nat × Memory
  | dropOne t, p, m => (p + T.size t, T.drop t p m)
  | dropSeq t, p, m =>
    let len := decode (m.read p 8)
    let p := p + 8
    (p + T.size t * len, dropSlice T t p len m)

end DropFunc

namespace Block

variable {τ : Type}

/-- The address of the values: after the function, and for a `Seq` after its length. -/
def data (b : Block τ) : Nat :=
  match b.func with
  | .dropOne _ => b.header + 8
  | .dropSeq _ => b.header + 8 + 8

def stop (T : Types τ) (b : Block τ) : Nat := b.data + T.size b.func.type * b.len

end Block

/-- Is there a value at this address? -/
def Owned {τ : Type} (T : Types τ) (live : List (Block τ)) (p : Nat) : Prop :=
  ∃ b ∈ live, b.data ≤ p ∧ p < b.stop T

instance {τ : Type} (T : Types τ) (live : List (Block τ)) (p : Nat) : Decidable (Owned T live p) :=
  inferInstanceAs (Decidable (∃ b ∈ live, b.data ≤ p ∧ p < b.stop T))

/-- The machine code: what is at an address, if it is a function. Two functions that do the same may
have one address. -/
structure DropCode {τ : Type} (T : Types τ) where
  addr : DropFunc τ → Nat
  exec : Nat → Option (Nat → Memory → Nat × Memory)
  addr_ne : ∀ f, addr f ≠ 0
  addr_lt : ∀ f, addr f < 2 ^ 64
  exec_addr : ∀ f, exec (addr f) = some (f.call T)

structure Chunk where
  ptr : Nat
  allocEnd : Nat
  base : Nat

/-- `alloc::alloc` for the alignment of a function pointer, when it does not fail: the new memory is
apart from the chunks that there are. -/
structure Malloc where
  base : List Chunk → Nat → Nat
  aligned : ∀ mem size, 8 ∣ base mem size
  disjoint : ∀ mem size, ∀ c ∈ mem, c.allocEnd ≤ base mem size ∨ base mem size + size ≤ c.base

namespace Chunk

/-- `Chunk::new`, for the address that the allocator returns. -/
def new (base size : Nat) : Chunk := ⟨base, base + size, base⟩

/-- `Chunk::try_alloc` -/
def tryAlloc (c : Chunk) (header size align : Nat) (m : Memory) : Option (Nat × Chunk × Memory) :=
  let ptr := c.ptr
  let space := c.allocEnd - ptr
  if space < header then none
  else
    let space := space - header
    if space < size then none
    else
      let space := space - size
      let offset := padding align (ptr + header)
      if space < offset then none
      else
        let m := m.write ptr (List.replicate offset 0)
        let ptr := ptr + offset
        some (ptr, { c with ptr := ptr + (header + size) }, m)

/-- What the walk does in one round. -/
inductive Event
  /-- No function at this address. -/
  | null (p : Nat)
  /-- The function `f` is called with this address. -/
  | call (f p : Nat)

/-- How the walk can fail. -/
inductive Fault
  /-- `debug_assert!(at < self.ptr)` -/
  | assertion
  /-- A read of a function pointer that is not aligned. -/
  | unaligned
  /-- A call of an address where no function is. -/
  | noFunction
  /-- The rounds are used up. -/
  | rounds
  deriving DecidableEq

variable {τ : Type} {T : Types τ}

/-- `Chunk::drop` up to the `dealloc`, from the address `p`: what it does in each round, and the
memory at the end. The first argument bounds the rounds. -/
def walk (C : DropCode T) (c : Chunk) : Nat → Nat → Memory → Except Fault (List Event × Memory)
  | 0, _, _ => .error .rounds
  | n + 1, p, m =>
    if ¬ p < c.ptr then .error .assertion
    else if ¬ 8 ∣ p then .error .unaligned
    else
      let f := decode (m.read p 8)
      let p' := p + 8
      if f = 0 then (walk C c n p' m).map fun (es, m) => (.null p :: es, m)
      else
        match C.exec f with
        | none => .error .noFunction
        | some func =>
          let (q, m) := func p' m
          if q = c.ptr then .ok ([.call f p'], m)
          else (walk C c n (q + padding 8 q) m).map fun (es, m) => (.call f p' :: es, m)

/-- The function and the argument, if the event is a call. -/
def Event.called : Event → Option (Nat × Nat)
  | null _ => none
  | call f p => some (f, p)

end Chunk

structure Arena where
  mem : List Chunk
  memory : Memory

namespace Arena

variable {τ : Type} {T : Types τ}

/-- `Arena::new`, in a memory. -/
def new (m : Memory) : Arena := ⟨[], m⟩

def write (a : Arena) (p : Nat) (bs : List Byte) : Arena := { a with memory := a.memory.write p bs }

/-- The last part of `Arena::alloc_bytes`: a new chunk. -/
def allocChunk (M : Malloc) (a : Arena) (header size align : Nat) : Option (Nat × Arena) :=
  let allocSize := max (size + header + align) (1024 <<< (a.mem.length / 2))
  let chunk := Chunk.new (M.base a.mem allocSize) allocSize
  match chunk.tryAlloc header size align a.memory with
  | some (ptr, chunk, m) => some (ptr, ⟨a.mem ++ [chunk], m⟩)
  | none => none

/-- `Arena::alloc_bytes`; `none` is the panic of `unwrap`. -/
def allocBytes (M : Malloc) (a : Arena) (header size align : Nat) : Option (Nat × Arena) :=
  match a.mem.getLast? with
  | some chunk =>
    match chunk.tryAlloc header size align a.memory with
    | some (ptr, chunk, m) => some (ptr, ⟨a.mem.dropLast ++ [chunk], m⟩)
    | none => allocChunk M a header size align
  | none => allocChunk M a header size align

/-- The bytes of a value. -/
abbrev Value (T : Types τ) (t : τ) := { bs : List Byte // bs.length = T.size t }

/-- `Arena::alloc` -/
def alloc (C : DropCode T) (M : Malloc) (a : Arena) (t : τ) (val : Value T t) : Option (Nat × Arena) := do
  let (basePtr, a) ← allocBytes M a 8 (T.size t) (max (T.align t) 8)
  let a := a.write basePtr (encode 8 (C.addr (.dropOne t)))
  let dataPtr := basePtr + 8
  return (dataPtr, a.write dataPtr val)

/-- `Arena::alloc_vec` -/
def allocVec (C : DropCode T) (M : Malloc) (a : Arena) (t : τ) (vals : List (Value T t)) :
    Option (Nat × Arena) := do
  let (basePtr, a) ← allocBytes M a (8 + 8) (T.size t * vals.length) (max (T.align t) 8)
  let a := a.write basePtr (encode 8 (C.addr (.dropSeq t)))
  let seqPtr := basePtr + 8
  let a := a.write seqPtr (encode 8 vals.length)
  let dataPtr := seqPtr + 8
  return (seqPtr, a.write dataPtr (vals.flatMap (·.val)))

/-- The drop of `mem`: the chunks are dropped in order. `n` bounds the rounds for each chunk. -/
def drop (C : DropCode T) (n : Nat) : List Chunk → Memory → Except Chunk.Fault (List Chunk.Event × Memory)
  | [], m => .ok ([], m)
  | c :: mem, m => do
    let (es, m) ← c.walk C n c.base m
    let (es', m) ← drop C n mem m
    return (es ++ es', m)

/-! ## Sequences of operations -/

/-- What a user of the arena does. -/
inductive Op (T : Types τ)
  | alloc (t : τ) (val : Value T t)
  /-- A `Vec` has less than `2 ^ 64` elements. -/
  | allocVec (t : τ) (vals : { vs : List (Value T t) // vs.length < 2 ^ 64 })
  /-- The users write to the values that they have. -/
  | use (other : Memory)

/-- One operation; with the arena go the allocations so far, at the addresses that were returned. -/
def step (C : DropCode T) (M : Malloc) : Arena × List (Block τ) → Op T → Option (Arena × List (Block τ))
  | (a, live), .alloc t val =>
    (a.alloc C M t val).map fun (p, a) => (a, live ++ [⟨.dropOne t, p - 8, 1⟩])
  | (a, live), .allocVec t vals =>
    (a.allocVec C M t vals).map fun (p, a) => (a, live ++ [⟨.dropSeq t, p - 8, vals.val.length⟩])
  | (a, live), .use other =>
    some ({ a with memory := fun p => if Owned T live p then other p else a.memory p }, live)

end Arena

/-! ## The layout of a chunk -/

variable {τ : Type} {T : Types τ} {C : DropCode T} {M : Malloc} {m m' : Memory} {b : Block τ}
  {bs live : List (Block τ)} {s e : Nat}

namespace Block

theorem header_lt_data (b : Block τ) : b.header + 8 ≤ b.data := by
  obtain ⟨f, header, len⟩ := b
  cases f <;> simp [data]

theorem data_le_stop (b : Block τ) : b.data ≤ b.stop T := Nat.le_add_right ..

/-- The number of values is where the drop function finds it. -/
def HasLen (m : Memory) (b : Block τ) : Prop :=
  match b.func with
  | .dropOne _ => b.len = 1
  | .dropSeq _ => decode (m.read (b.header + 8) 8) = b.len

/-- The block is in memory, after zeros that start at `s`. -/
structure Placed (C : DropCode T) (m : Memory) (s : Nat) (b : Block τ) : Prop where
  le : s ≤ b.header
  zero : ∀ p, s ≤ p → p < b.header → m p = 0
  aligned : 8 ∣ b.header
  data_aligned : T.align b.func.type ∣ b.data
  func : decode (m.read b.header 8) = C.addr b.func
  hasLen : b.HasLen m

/-- Only the bytes before the values matter. -/
theorem Placed.congr (h : b.Placed C m s) (hm : ∀ p, s ≤ p → p < b.data → m' p = m p) :
    b.Placed C m' s := by
  have hread : ∀ p n, s ≤ p → p + n ≤ b.data → m'.read p n = m.read p n := fun p n h1 h2 =>
    Memory.read_congr fun k hk => hm _ (by omega) (by omega)
  have hlt := b.header_lt_data
  refine ⟨h.le, fun p h1 h2 => ?_, h.aligned, h.data_aligned, ?_, ?_⟩
  · rw [hm p h1 (by omega)]
    exact h.zero p h1 h2
  · rw [hread _ _ h.le hlt]
    exact h.func
  · have hlen := h.hasLen
    have hle := h.le
    obtain ⟨f, header, len⟩ := b
    cases f with
    | dropOne t => exact hlen
    | dropSeq t =>
      have hread : m'.read (header + 8) 8 = m.read (header + 8) 8 :=
        hread _ _ (Nat.le_trans hle (Nat.le_add_right ..)) (Nat.le_refl _)
      exact (congrArg decode hread).trans hlen

end Block

/-- The blocks `bs` fill a chunk from `s` to `e`. -/
def Layout (C : DropCode T) (m : Memory) : Nat → List (Block τ) → Nat → Prop
  | s, [], e => s = e
  | s, b :: bs, e => b.Placed C m s ∧ Layout C m (b.stop T) bs e

theorem Layout.append {bs' : List (Block τ)} {q : Nat} (h : Layout C m s bs q)
    (h' : Layout C m q bs' e) : Layout C m s (bs ++ bs') e := by
  induction bs generalizing s with
  | nil =>
    have hq : s = q := h
    rwa [hq]
  | cons b bs ih => exact ⟨h.1, ih h.2⟩

theorem Layout.le (h : Layout C m s bs e) : s ≤ e := by
  induction bs generalizing s with
  | nil => exact Nat.le_of_eq h
  | cons b bs ih =>
    have h1 := h.1.le
    have h2 := ih h.2
    have h3 := b.header_lt_data
    have h4 := b.data_le_stop (T := T)
    omega

theorem Layout.mem (h : Layout C m s bs e) (hb : b ∈ bs) : s ≤ b.header ∧ b.stop T ≤ e := by
  induction bs generalizing s with
  | nil => cases hb
  | cons b' bs ih =>
    rcases List.mem_cons.mp hb with rfl | hb
    · exact ⟨h.1.le, h.2.le⟩
    · have h1 := h.1.le
      have h2 := ih h.2 hb
      have h3 := b'.header_lt_data
      have h4 := b'.data_le_stop (T := T)
      exact ⟨by omega, h2.2⟩

theorem Layout.placed (h : Layout C m s bs e) (hb : b ∈ bs) : ∃ s, b.Placed C m s := by
  induction bs generalizing s with
  | nil => cases hb
  | cons b' bs ih =>
    rcases List.mem_cons.mp hb with rfl | hb
    · exact ⟨s, h.1⟩
    · exact ih h.2 hb

theorem Layout.pairwise (h : Layout C m s bs e) : bs.Pairwise fun b b' => b.stop T ≤ b'.header := by
  induction bs generalizing s with
  | nil => exact .nil
  | cons b bs ih => exact .cons (fun b' hb' => (h.2.mem hb').1) (ih h.2)

/-- An address before the layout or in its first header is in no value. -/
theorem Layout.not_owned (h : Layout C m s bs e) {p : Nat} (hp : p < s) : ¬ Owned T bs p := by
  rintro ⟨b, hb, h1, -⟩
  have h2 := (h.mem hb).1
  have h3 := b.header_lt_data
  omega

/-- The layout does not depend on the values. -/
theorem Layout.congr (h : Layout C m s bs e)
    (hm : ∀ p, s ≤ p → p < e → ¬ Owned T bs p → m' p = m p) : Layout C m' s bs e := by
  induction bs generalizing s with
  | nil => exact h
  | cons b bs ih =>
    have h1 := h.1.le
    have h2 := b.header_lt_data
    have h3 := b.data_le_stop (T := T)
    have h4 := h.2.le
    refine ⟨h.1.congr fun p hs hp => hm p hs (by omega) ?_, ih h.2 fun p hs hp hn => ?_⟩
    · rintro ⟨b', hb', h5, h6⟩
      rcases List.mem_cons.mp hb' with rfl | hb'
      · omega
      · exact h.2.not_owned (by omega) ⟨b', hb', h5, h6⟩
    · refine hm p (by omega) hp ?_
      rintro ⟨b', hb', h5, h6⟩
      rcases List.mem_cons.mp hb' with rfl | hb'
      · omega
      · exact hn ⟨b', hb', h5, h6⟩

/-! ## The walk over a layout -/

theorem DropFunc.dropSlice_frame (t : τ) {p a : Nat} (len : Nat) (m : Memory)
    (ha : a < p ∨ p + T.size t * len ≤ a) : dropSlice T t p len m a = m a := by
  induction len with
  | zero => rfl
  | succ len ih =>
    rw [Nat.mul_succ] at ha
    rw [dropSlice, List.range_succ, List.foldl_append]
    exact (T.drop_frame _ _ _ _ (by omega)).trans (ih (by omega))

/-- The drop function of a block returns where the block ends, and writes to the values only. -/
theorem Block.Placed.call (h : b.Placed C m s) :
    (b.func.call T (b.header + 8) m).1 = b.stop T ∧
      ∀ p, p < b.data ∨ b.stop T ≤ p → (b.func.call T (b.header + 8) m).2 p = m p := by
  have hlen := h.hasLen
  obtain ⟨f, header, len⟩ := b
  cases f with
  | dropOne t =>
    have hlen : len = 1 := hlen
    subst hlen
    have hstop : (⟨.dropOne t, header, 1⟩ : Block τ).stop T = header + 8 + T.size t := by
      rw [stop, Nat.mul_one]
      rfl
    refine ⟨hstop.symm, fun p hp => T.drop_frame t _ m p ?_⟩
    rw [hstop] at hp
    exact hp
  | dropSeq t =>
    have hlen : decode (m.read (header + 8) 8) = len := hlen
    have hcall : (DropFunc.dropSeq t).call T (header + 8) m =
        (header + 8 + 8 + T.size t * len, DropFunc.dropSlice T t (header + 8 + 8) len m) := by
      rw [DropFunc.call, hlen]
    rw [hcall]
    exact ⟨rfl, fun p hp => DropFunc.dropSlice_frame t len m hp⟩

namespace Chunk

variable {c : Chunk} {n k p : Nat}

/-- The rounds for `k` words of zeros. -/
def nulls : Nat → Nat → List Event
  | _, 0 => []
  | p, k + 1 => .null p :: nulls (p + 8) k

/-- What the walk does for the blocks `bs`, when it is at `p`. -/
def trace (C : DropCode T) : Nat → List (Block τ) → List Event
  | _, [] => []
  | p, b :: bs => nulls p ((b.header - p) / 8) ++
    .call (C.addr b.func) (b.header + 8) :: trace C (b.stop T + padding 8 (b.stop T)) bs

theorem walk_zeros (hp : 8 ∣ p) (hle : p + 8 * k ≤ c.ptr)
    (hz : ∀ a, p ≤ a → a < p + 8 * k → m a = 0) :
    c.walk C (n + k) p m = (c.walk C n (p + 8 * k) m).map fun (es, m) => (nulls p k ++ es, m) := by
  induction k generalizing p with
  | zero =>
    rw [Nat.add_zero, Nat.mul_zero, Nat.add_zero]
    cases c.walk C n p m <;> rfl
  | succ k ih =>
    have hword : decode (m.read p 8) = 0 := by
      refine decode_zeros fun b hb => ?_
      obtain ⟨i, hi, rfl⟩ := List.mem_map.mp hb
      exact hz _ (by omega) (by have := List.mem_range.mp hi; omega)
    have hnext := ih (by omega : 8 ∣ p + 8) (by omega) fun a h1 h2 => hz a (by omega) (by omega)
    have hend : p + 8 + 8 * k = p + 8 * (k + 1) := by omega
    rw [← Nat.add_assoc, walk, if_neg (by omega), if_neg (by omega)]
    simp only [hword, if_true]
    rw [hnext, hend]
    cases c.walk C n (p + 8 * (k + 1)) m <;> rfl

/-- The walk over a layout calls the drop function of every block, in order, and ends at `ptr`. It
needs at most one round for each eight bytes. -/
theorem walk_layout (hne : bs ≠ []) (h : Layout C m s bs c.ptr) (hn : c.ptr ≤ s + padding 8 s + 8 * n) :
    ∃ m', c.walk C n (s + padding 8 s) m = .ok (trace C (s + padding 8 s) bs, m') ∧
      ∀ p, ¬ Owned T bs p → m' p = m p := by
  induction bs generalizing s n m with
  | nil => exact absurd rfl hne
  | cons b bs ih =>
    obtain ⟨hb, hbs⟩ := h
    have hdvd := dvd_add_padding (by decide : 0 < 8) s
    have hpad := padding_lt (by decide : 0 < 8) s
    have hal := hb.aligned
    have hle := hb.le
    have hdata := b.header_lt_data
    have hstop := b.data_le_stop (T := T)
    have hend := hbs.le
    generalize hp : s + padding 8 s = p at *
    -- the walk is at a multiple of 8 from the zeros; the header is `k` words away
    obtain ⟨k, hk⟩ : ∃ k, b.header = p + 8 * k := ⟨(b.header - p) / 8, by omega⟩
    obtain ⟨n', rfl⟩ : ∃ n', n = n' + 1 + k := ⟨n - (k + 1), by omega⟩
    have hz := walk_zeros (C := C) (n := n' + 1) hdvd (by omega : p + 8 * k ≤ c.ptr)
      fun a h1 h2 => hb.zero a (by omega) (by omega)
    obtain ⟨hret, hframe⟩ := hb.call
    have hk' : (b.header - p) / 8 = k := by omega
    have howned : ∀ a, ¬ Owned T (b :: bs) a →
        (b.func.call T (b.header + 8) m).2 a = m a := fun a ha => by
      by_cases hd : b.data ≤ a ∧ a < b.stop T
      · exact absurd ⟨b, List.mem_cons_self .., hd⟩ ha
      · exact hframe a (by omega)
    rw [hz, trace, hk', ← hk, walk, if_neg (by omega), if_neg (by omega)]
    simp only [hb.func, C.addr_ne, C.exec_addr, hret, if_false]
    cases bs with
    | nil =>
      have hptr : b.stop T = c.ptr := hbs
      rw [if_pos hptr]
      exact ⟨_, rfl, howned⟩
    | cons b' bs =>
      have hlt := (hbs.mem (List.mem_cons_self ..))
      have hlt' := b'.header_lt_data
      have hlt'' := b'.data_le_stop (T := T)
      rw [if_neg (by omega)]
      have hbs' : Layout C (b.func.call T (b.header + 8) m).2 (b.stop T) (b' :: bs) c.ptr :=
        hbs.congr fun a h1 _ _ => hframe a (Or.inr h1)
      obtain ⟨m', hwalk, hm'⟩ := ih (List.cons_ne_nil _ _) hbs' (n := n') (by omega)
      rw [hwalk]
      refine ⟨m', rfl, fun a ha => ?_⟩
      rw [hm' a fun ⟨b₁, h1, h2⟩ => ha ⟨b₁, List.mem_cons_of_mem _ h1, h2⟩]
      exact howned a ha

theorem called_nulls (p k : Nat) : (nulls p k).filterMap Event.called = [] := by
  induction k generalizing p with
  | zero => rfl
  | succ k ih => exact ih (p + 8)

theorem called_trace (C : DropCode T) (p : Nat) (bs : List (Block τ)) :
    (trace C p bs).filterMap Event.called = bs.map fun b => (C.addr b.func, b.header + 8) := by
  induction bs generalizing p with
  | nil => rfl
  | cons b bs ih =>
    rw [trace, List.filterMap_append, called_nulls, List.nil_append, List.map_cons, ← ih]
    rfl

theorem null_mem_nulls {q : Nat} (h : Event.null q ∈ nulls p k) : p ≤ q ∧ q + 8 ≤ p + 8 * k := by
  induction k generalizing p with
  | zero => cases h
  | succ k ih =>
    rcases List.mem_cons.mp h with h | h
    · cases h
      omega
    · have := ih h
      omega

/-- The walk takes a word for padding only if it is apart from every block. -/
theorem null_mem_trace {q : Nat} (h : Layout C m s bs e) (hp : s ≤ p)
    (hq : Event.null q ∈ trace C p bs) :
    s ≤ q ∧ q + 8 ≤ e ∧ ∀ b ∈ bs, q + 8 ≤ b.header ∨ b.stop T ≤ q := by
  induction bs generalizing s p with
  | nil => cases hq
  | cons b bs ih =>
    have hend := h.2.le
    have hle := h.1.le
    have hdata := b.header_lt_data
    have hstop := b.data_le_stop (T := T)
    rcases List.mem_append.mp hq with hq | hq
    · have hq := null_mem_nulls hq
      refine ⟨by omega, by omega, fun b' hb' => ?_⟩
      rcases List.mem_cons.mp hb' with rfl | hb'
      · omega
      · have := (h.2.mem hb').1
        omega
    · rcases List.mem_cons.mp hq with hq | hq
      · cases hq
      obtain ⟨h1, h2, h3⟩ := ih h.2 (Nat.le_add_right ..) hq
      exact ⟨by omega, h2, List.forall_mem_cons.mpr ⟨Or.inr h1, h3⟩⟩

end Chunk

/-! ## Allocation -/

theorem Types.align_pos (T : Types τ) (t : τ) : 0 < T.align t := by
  obtain ⟨k, hk⟩ := T.pow t
  rw [hk]
  exact Nat.two_pow_pos k

theorem Types.max_pos (T : Types τ) (t : τ) : 0 < max (T.align t) 8 :=
  Nat.lt_of_lt_of_le (T.align_pos t) (Nat.le_max_left ..)

/-- The alignment that `alloc` and `alloc_vec` ask for is enough for the value and the header. -/
theorem Types.dvd_max (T : Types τ) (t : τ) : T.align t ∣ max (T.align t) 8 ∧ 8 ∣ max (T.align t) 8 := by
  obtain ⟨k, hk⟩ := T.pow t
  have h8 : (8 : Nat) = 2 ^ 3 := rfl
  rw [hk, h8]
  rcases Nat.le_total k 3 with h | h
  · have hle := Nat.pow_le_pow_right (by decide : 0 < 2) h
    rw [Nat.max_eq_right hle]
    exact ⟨Nat.pow_dvd_pow 2 h, Nat.dvd_refl _⟩
  · have hle := Nat.pow_le_pow_right (by decide : 0 < 2) h
    rw [Nat.max_eq_left hle]
    exact ⟨Nat.dvd_refl _, Nat.pow_dvd_pow 2 h⟩

namespace Chunk

variable {c c' : Chunk} {r header size align : Nat}

/-- What `try_alloc` returns: the first address at which the data is aligned. The bytes before it are
zeros. -/
structure Fits (c : Chunk) (header size align : Nat) (m : Memory) (r : Nat) (c' : Chunk)
    (m' : Memory) : Prop where
  le : c.ptr ≤ r
  aligned : align ∣ r + header
  ptr : c'.ptr = r + (header + size)
  ptr_le : c'.ptr ≤ c'.allocEnd
  allocEnd : c'.allocEnd = c.allocEnd
  base : c'.base = c.base
  zero : ∀ p, c.ptr ≤ p → p < r → m' p = 0
  frame : ∀ p, p < c.ptr ∨ r ≤ p → m' p = m p

theorem fits_of_tryAlloc (hc : c.ptr ≤ c.allocEnd) (ha : 0 < align)
    (h : c.tryAlloc header size align m = some (r, c', m')) : c.Fits header size align m r c' m' := by
  unfold tryAlloc at h
  by_cases h1 : c.allocEnd - c.ptr < header
  · rw [if_pos h1] at h
    cases h
  by_cases h2 : c.allocEnd - c.ptr - header < size
  · rw [if_neg h1, if_pos h2] at h
    cases h
  by_cases h3 : c.allocEnd - c.ptr - header - size < padding align (c.ptr + header)
  · rw [if_neg h1, if_neg h2, if_pos h3] at h
    cases h
  rw [if_neg h1, if_neg h2, if_neg h3] at h
  cases h
  have hdvd := dvd_add_padding ha (c.ptr + header)
  generalize padding align (c.ptr + header) = offset at *
  refine ⟨Nat.le_add_right .., ?_, rfl, by simp only; omega, rfl, rfl, fun p hp hp' => ?_,
    fun p hp => ?_⟩
  · rwa [Nat.add_right_comm]
  · rw [Memory.write, if_pos hp, List.getElem?_replicate, if_pos (by omega), Option.getD_some]
  · rcases hp with hp | hp
    · exact Memory.write_of_lt _ _ hp
    · exact Memory.write_of_ge _ (by rwa [List.length_replicate])

/-- A chunk has room for an allocation if it has for the largest offset. -/
theorem tryAlloc_of_le (c : Chunk) (m : Memory) (ha : 0 < align) (hn : size + header + align ≤ c.allocEnd - c.ptr) :
    ∃ r c' m', c.tryAlloc header size align m = some (r, c', m') := by
  have hlt := padding_lt ha (c.ptr + header)
  unfold tryAlloc
  rw [if_neg (by omega), if_neg (by omega), if_neg (by omega)]
  exact ⟨_, _, _, rfl⟩

end Chunk

namespace Arena

/-- The chunks do not overlap. -/
def Apart (c c' : Chunk) : Prop := c.allocEnd ≤ c'.base ∨ c'.allocEnd ≤ c.base

/-- The chunk `x.1` of which the blocks `x.2` are the allocations. -/
structure Filled (C : DropCode T) (m : Memory) (x : Chunk × List (Block τ)) : Prop where
  base : 8 ∣ x.1.base
  ptr_le : x.1.ptr ≤ x.1.allocEnd
  layout : Layout C m x.1.base x.2 x.1.ptr

/-- The arena with the chunks and the blocks in `parts`. -/
structure Inv (C : DropCode T) (a : Arena) (parts : List (Chunk × List (Block τ))) : Prop where
  mem : a.mem = parts.map (·.1)
  filled : ∀ x ∈ parts, Filled C a.memory x
  apart : parts.Pairwise fun x y => Apart x.1 y.1
  ne : ∀ x ∈ parts, x.2 ≠ []

theorem inv_new (C : DropCode T) (m : Memory) : Inv C (new m) [] :=
  ⟨rfl, fun _ hx => absurd hx List.not_mem_nil, .nil, fun _ hx => absurd hx List.not_mem_nil⟩

theorem Filled.congr {x : Chunk × List (Block τ)} (h : Filled C m x)
    (hm : ∀ p, x.1.base ≤ p → p < x.1.ptr → ¬ Owned T x.2 p → m' p = m p) : Filled C m' x :=
  ⟨h.base, h.ptr_le, h.layout.congr hm⟩

/-- A value of a part is in its chunk. -/
theorem Filled.owned {x : Chunk × List (Block τ)} (h : Filled C m x) {p : Nat}
    (hp : Owned T x.2 p) : x.1.base ≤ p ∧ p < x.1.allocEnd := by
  obtain ⟨b, hb, h1, h2⟩ := hp
  have hmem := h.layout.mem hb
  have hlt := b.header_lt_data
  have hle := h.ptr_le
  exact ⟨by omega, by omega⟩

variable {a : Arena} {parts : List (Chunk × List (Block τ))}

theorem Inv.apart_of_ne (h : Inv C a parts) {x y : Chunk × List (Block τ)} (hx : x ∈ parts)
    (hy : y ∈ parts) (hne : x ≠ y) : Apart x.1 y.1 := by
  have : Std.Symm fun x y : Chunk × List (Block τ) => Apart x.1 y.1 := ⟨fun _ _ h => Or.symm h⟩
  exact h.apart.forall hx hy hne

theorem owned_flatMap {p : Nat} :
    Owned T (parts.flatMap (·.2)) p ↔ ∃ x ∈ parts, Owned T x.2 p := by
  simp only [Owned, List.mem_flatMap]
  constructor
  · rintro ⟨b, ⟨x, hx, hb⟩, hp⟩
    exact ⟨x, hx, b, hb, hp⟩
  · rintro ⟨x, hx, b, hb, hp⟩
    exact ⟨b, ⟨x, hx, hb⟩, hp⟩

/-- A change of values, in whatever chunk they are, keeps every layout. -/
theorem Inv.use (h : Inv C a parts)
    (hm : ∀ p, ¬ Owned T (parts.flatMap (·.2)) p → m' p = a.memory p) :
    Inv C { a with memory := m' } parts := by
  refine ⟨h.mem, fun x hx => (h.filled x hx).congr fun p h1 h2 hn => hm p ?_, h.apart, h.ne⟩
  rw [owned_flatMap]
  rintro ⟨y, hy, hp⟩
  have hy' := (h.filled y hy).owned hp
  have hle := (h.filled x hx).ptr_le
  have hne : x ≠ y := fun he => hn (he ▸ hp)
  rcases h.apart_of_ne hx hy hne with hd | hd <;> omega

/-- `alloc_bytes` made room at `r` in the last chunk `c`, after the blocks `bs`; `parts` are the other
chunks. -/
structure Room (C : DropCode T) (a a' : Arena) (header size align r : Nat)
    (parts : List (Chunk × List (Block τ))) (c : Chunk) (bs : List (Block τ)) : Prop where
  mem : a'.mem = parts.map (·.1) ++ [c]
  filled : ∀ x ∈ parts, Filled C a'.memory x
  apart : (parts ++ [(c, bs)]).Pairwise fun x y => Apart x.1 y.1
  ne : ∀ x ∈ parts, x.2 ≠ []
  base : 8 ∣ c.base
  ptr : c.ptr = r + (header + size)
  ptr_le : c.ptr ≤ c.allocEnd
  aligned : align ∣ r + header
  layout : ∃ s ≤ r, Layout C a'.memory c.base bs s ∧ ∀ p, s ≤ p → p < r → a'.memory p = 0

variable {a' : Arena} {c c' : Chunk} {r header size align : Nat}

/-- The room that a chunk makes which the arena has, or which is new. -/
theorem room_of_fits (hparts : ∀ x ∈ parts, Filled C m x) (hne : ∀ x ∈ parts, x.2 ≠ [])
    (hapart : (parts ++ [(c, bs)]).Pairwise fun x y => Apart x.1 y.1)
    (hc : Filled C m (c, bs)) (h : c.Fits header size align m r c' m') :
    Room C a ⟨parts.map (·.1) ++ [c'], m'⟩ header size align r parts c' bs := by
  obtain ⟨hpw, hlast⟩ : parts.Pairwise (fun x y => Apart x.1 y.1) ∧ ∀ x ∈ parts, Apart x.1 c := by
    simpa [List.pairwise_append] using hapart
  have hend := h.allocEnd
  have hptr := h.ptr
  have hle := h.ptr_le
  have hbase := hc.layout.le
  refine ⟨rfl, fun x hx => (hparts x hx).congr fun p h1 h2 _ => h.frame p ?_, ?_, hne, ?_, h.ptr, hle,
    h.aligned, c.ptr, h.le, ?_, h.zero⟩
  · have hx' := (hparts x hx).ptr_le
    rcases hlast x hx with hd | hd <;> simp only at * <;> omega
  · simp only [List.pairwise_append, List.pairwise_cons, List.mem_singleton, forall_eq]
    refine ⟨hpw, ⟨fun _ hx => absurd hx List.not_mem_nil, .nil⟩, fun x hx => ?_⟩
    rw [Apart, h.base, h.allocEnd]
    exact hlast x hx
  · rw [h.base]
    exact hc.base
  · rw [h.base]
    exact hc.layout.congr fun p h1 h2 _ => h.frame p (Or.inl h2)

theorem Inv.mem_append (h : Inv C a parts) (c : Chunk) (hc : ∀ d ∈ a.mem, Apart d c) :
    (parts ++ [(c, ([] : List (Block τ)))]).Pairwise fun x y => Apart x.1 y.1 := by
  simp only [List.pairwise_append, List.pairwise_cons, List.mem_singleton, forall_eq]
  refine ⟨h.apart, ⟨fun _ hx => absurd hx List.not_mem_nil, .nil⟩, fun x hx => hc _ ?_⟩
  rw [h.mem]
  exact List.mem_map_of_mem hx

theorem allocChunk_room (M : Malloc) (h : Inv C a parts) (header size : Nat) (ha : 0 < align) :
    ∃ r a' c, allocChunk M a header size align = some (r, a') ∧
      Room C a a' header size align r parts c [] := by
  generalize hn : max (size + header + align) (1024 <<< (a.mem.length / 2)) = n
  have hle : size + header + align ≤ n := by omega
  have hnew : Filled C a.memory (Chunk.new (M.base a.mem n) n, []) :=
    ⟨M.aligned a.mem n, Nat.le_add_right .., rfl⟩
  have hspace : size + header + align ≤
      (Chunk.new (M.base a.mem n) n).allocEnd - (Chunk.new (M.base a.mem n) n).ptr := by
    simp only [Chunk.new]
    omega
  obtain ⟨r, c', m', htry⟩ := Chunk.tryAlloc_of_le _ a.memory ha hspace
  have hfits := Chunk.fits_of_tryAlloc hnew.ptr_le ha htry
  have hroom := room_of_fits (a := a) h.filled h.ne
    (h.mem_append (Chunk.new (M.base a.mem n) n) fun d hd => M.disjoint a.mem n d hd) hnew hfits
  rw [← h.mem] at hroom
  refine ⟨r, _, c', ?_, hroom⟩
  rw [allocChunk, hn]
  simp only [htry]

/-- `alloc_bytes` succeeds: if the last chunk has no room, then a new one has. -/
theorem allocBytes_room (M : Malloc) (h : Inv C a parts) (header size : Nat) (ha : 0 < align) :
    ∃ r a' parts' c bs, allocBytes M a header size align = some (r, a') ∧
      Room C a a' header size align r parts' c bs ∧
      parts'.flatMap (·.2) ++ bs = parts.flatMap (·.2) := by
  obtain ⟨r, a', c, hnew, hroom⟩ := allocChunk_room M h header size ha
  rcases List.eq_nil_or_concat parts with rfl | ⟨parts', ⟨d, bs⟩, rfl⟩
  · refine ⟨r, a', [], c, [], ?_, hroom, rfl⟩
    rw [allocBytes, h.mem]
    exact hnew
  · have hlast : a.mem.getLast? = some d := by simp [h.mem]
    have hinit : a.mem.dropLast = parts'.map (·.1) := by simp [h.mem]
    have hd : Filled C a.memory (d, bs) := h.filled _ (by simp)
    rw [allocBytes, hlast]
    cases htry : d.tryAlloc header size align a.memory with
    | none =>
      simp only [htry]
      exact ⟨r, a', _, c, [], hnew, hroom, List.append_nil _⟩
    | some x =>
      obtain ⟨r', d', m'⟩ := x
      have hfits := Chunk.fits_of_tryAlloc hd.ptr_le ha htry
      simp only [htry, hinit]
      refine ⟨r', _, parts', d', bs, rfl, room_of_fits (fun x hx => h.filled x ?_)
        (fun x hx => h.ne x ?_) (by simpa using h.apart) hd hfits, by simp⟩
      all_goals simp [hx]

/-- A block in the room that `alloc_bytes` made. -/
theorem Room.place (h : Room C a a' header size align r parts c bs) (b : Block τ) (m' : Memory)
    (hheader : b.header = r) (hdata : b.data = r + header) (hstop : b.stop T = r + (header + size))
    (h8 : 8 ∣ r) (halign : T.align b.func.type ∣ align)
    (hm : ∀ p, p < r ∨ c.ptr ≤ p → m' p = a'.memory p)
    (hfunc : decode (m'.read r 8) = C.addr b.func) (hlen : b.HasLen m') :
    Inv C ⟨a'.mem, m'⟩ (parts ++ [(c, bs ++ [b])]) := by
  obtain ⟨s, hs, hlayout, hzero⟩ := h.layout
  have hptr := h.ptr
  have hplaced : b.Placed C m' s := by
    refine ⟨by omega, fun p h1 h2 => ?_, ?_, ?_, ?_, hlen⟩
    · rw [hm p (by omega)]
      exact hzero p h1 (by omega)
    · rw [hheader]
      exact h8
    · rw [hdata]
      exact Nat.dvd_trans halign h.aligned
    · rw [hheader]
      exact hfunc
  have hpw := h.apart
  simp only [List.pairwise_append, List.mem_singleton, forall_eq] at hpw
  refine ⟨by simp [h.mem], fun x hx => ?_, ?_, fun x hx => ?_⟩
  · rcases List.mem_append.mp hx with hx | hx
    · refine (h.filled x hx).congr fun p h1 h2 _ => hm p ?_
      have hx' := (h.filled x hx).ptr_le
      have hcle := h.ptr_le
      have hbase := hlayout.le
      rcases hpw.2.2 x hx with hd | hd <;> omega
    · obtain rfl := List.mem_singleton.mp hx
      refine ⟨h.base, h.ptr_le, (hlayout.congr fun p h1 h2 _ => hm p (by omega)).append
        ⟨hplaced, ?_⟩⟩
      show b.stop T = c.ptr
      rw [hstop, hptr]
  · simp only [List.pairwise_append, List.mem_singleton, forall_eq]
    exact ⟨hpw.1, List.pairwise_singleton .., hpw.2.2⟩
  · rcases List.mem_append.mp hx with hx | hx
    · exact h.ne x hx
    · obtain rfl := List.mem_singleton.mp hx
      simp

theorem alloc_inv (M : Malloc) (h : Inv C a parts) (t : τ) (val : Value T t) :
    ∃ r a' parts', a.alloc C M t val = some (r + 8, a') ∧ Inv C a' parts' ∧
      parts'.flatMap (·.2) = parts.flatMap (·.2) ++ [⟨.dropOne t, r, 1⟩] := by
  obtain ⟨r, a', parts', c, bs, heq, hroom, hflat⟩ :=
    allocBytes_room M h 8 (T.size t) (T.max_pos t)
  obtain ⟨hdvd, h8⟩ := T.dvd_max t
  have hr : 8 ∣ r := by
    have := Nat.dvd_trans h8 hroom.aligned
    omega
  have hptr := hroom.ptr
  have hval := val.2
  have hinv := hroom.place ⟨.dropOne t, r, 1⟩
    ((a'.memory.write r (encode 8 (C.addr (.dropOne t)))).write (r + 8) val) rfl rfl ?_ hr hdvd
    (fun p hp => ?_) ?_ rfl
  · refine ⟨r, _, _, ?_, hinv, ?_⟩
    · rw [alloc, heq]
      rfl
    · simp [← hflat]
  · simp only [Block.stop, Block.data, DropFunc.type]
    omega
  · rcases hp with hp | hp
    · rw [Memory.write_of_lt _ _ (by omega), Memory.write_of_lt _ _ hp]
    · rw [Memory.write_of_ge _ (by omega), Memory.write_of_ge _ (by rw [length_encode]; omega)]
  · rw [Memory.read_write_of_disjoint _ (.inl (Nat.le_refl _)), Memory.decode_read_write]
    exact C.addr_lt _

theorem length_values {t : τ} (vals : List (Value T t)) :
    (vals.flatMap (·.val)).length = T.size t * vals.length := by
  induction vals with
  | nil => rfl
  | cons v vals ih =>
    rw [List.flatMap_cons, List.length_append, ih, v.2, List.length_cons, Nat.mul_succ, Nat.add_comm]

theorem allocVec_inv (M : Malloc) (h : Inv C a parts) (t : τ) (vals : List (Value T t))
    (hlen : vals.length < 2 ^ 64) :
    ∃ r a' parts', a.allocVec C M t vals = some (r + 8, a') ∧ Inv C a' parts' ∧
      parts'.flatMap (·.2) = parts.flatMap (·.2) ++ [⟨.dropSeq t, r, vals.length⟩] := by
  obtain ⟨r, a', parts', c, bs, heq, hroom, hflat⟩ :=
    allocBytes_room M h (8 + 8) (T.size t * vals.length) (T.max_pos t)
  obtain ⟨hdvd, h8⟩ := T.dvd_max t
  have hr : 8 ∣ r := by
    have := Nat.dvd_trans h8 hroom.aligned
    omega
  have hptr := hroom.ptr
  have hval := length_values vals
  have hinv := hroom.place ⟨.dropSeq t, r, vals.length⟩
    (((a'.memory.write r (encode 8 (C.addr (.dropSeq t)))).write (r + 8)
      (encode 8 vals.length)).write (r + 8 + 8) (vals.flatMap (·.val)))
    rfl (Nat.add_assoc ..) ?_ hr hdvd (fun p hp => ?_) ?_ ?_
  · refine ⟨r, _, _, ?_, hinv, ?_⟩
    · rw [allocVec, heq]
      rfl
    · simp [← hflat]
  · simp only [Block.stop, Block.data, DropFunc.type]
    omega
  · rcases hp with hp | hp
    · rw [Memory.write_of_lt _ _ (by omega), Memory.write_of_lt _ _ (by omega),
        Memory.write_of_lt _ _ hp]
    · rw [Memory.write_of_ge _ (by omega), Memory.write_of_ge _ (by rw [length_encode]; omega),
        Memory.write_of_ge _ (by rw [length_encode]; omega)]
  · rw [Memory.read_write_of_disjoint _ (.inl (by omega)),
      Memory.read_write_of_disjoint _ (.inl (Nat.le_refl _)), Memory.decode_read_write]
    exact C.addr_lt _
  · show decode _ = vals.length
    rw [Memory.read_write_of_disjoint _ (.inl (Nat.le_refl _)), Memory.decode_read_write]
    exact hlen

/-- Every operation succeeds, keeps the invariant, and adds the block that it returns. -/
theorem step_inv (M : Malloc) (h : Inv C a parts) (op : Op T) :
    ∃ a' parts', step C M (a, parts.flatMap (·.2)) op = some (a', parts'.flatMap (·.2)) ∧
      Inv C a' parts' := by
  cases op with
  | alloc t val =>
    obtain ⟨r, a', parts', heq, hinv, hflat⟩ := alloc_inv M h t val
    refine ⟨a', parts', ?_, hinv⟩
    rw [step, heq, hflat]
    rfl
  | allocVec t vals =>
    obtain ⟨r, a', parts', heq, hinv, hflat⟩ := allocVec_inv M h t vals.val vals.2
    refine ⟨a', parts', ?_, hinv⟩
    rw [step, heq, hflat]
    rfl
  | use other => exact ⟨_, parts, rfl, h.use fun p hp => if_neg hp⟩

theorem run_inv (M : Malloc) (h : Inv C a parts) (ops : List (Op T)) :
    ∃ a' parts', ops.foldlM (step C M) (a, parts.flatMap (·.2)) = some (a', parts'.flatMap (·.2)) ∧
      Inv C a' parts' := by
  induction ops generalizing a parts with
  | nil => exact ⟨a, parts, rfl, h⟩
  | cons op ops ih =>
    obtain ⟨a₁, parts₁, h1, hinv⟩ := step_inv M h op
    obtain ⟨a', parts', h2, hinv'⟩ := ih hinv
    refine ⟨a', parts', ?_, hinv'⟩
    rw [List.foldlM_cons, h1]
    exact h2

/-- The drop of chunks that are apart from each other. -/
theorem drop_parts {n : Nat} (hf : ∀ x ∈ parts, Filled C m x) (hne : ∀ x ∈ parts, x.2 ≠ [])
    (hap : parts.Pairwise fun x y => Apart x.1 y.1) (hn : ∀ x ∈ parts, x.1.ptr ≤ x.1.base + 8 * n) :
    ∃ m', drop C n (parts.map (·.1)) m =
      .ok (parts.flatMap fun x => Chunk.trace C x.1.base x.2, m') := by
  induction parts generalizing m with
  | nil => exact ⟨m, rfl⟩
  | cons x parts ih =>
    rw [List.forall_mem_cons] at hf hne hn
    obtain ⟨hx, hap⟩ := List.pairwise_cons.mp hap
    have hbase : x.1.base + padding 8 x.1.base = x.1.base := by
      have := hf.1.base
      have := padding_lt (by decide : 0 < 8) x.1.base
      have := dvd_add_padding (by decide : 0 < 8) x.1.base
      omega
    obtain ⟨m₁, hwalk, hm₁⟩ := Chunk.walk_layout hne.1 hf.1.layout (by rw [hbase]; exact hn.1)
    rw [hbase] at hwalk
    have hrest : ∀ y ∈ parts, Filled C m₁ y := by
      refine fun y hy => (hf.2 y hy).congr fun p h1 h2 _ => hm₁ p fun hp => ?_
      have hp := hf.1.owned hp
      have hy' := (hf.2 y hy).ptr_le
      rcases hx y hy with hd | hd <;> omega
    obtain ⟨m', hdrop⟩ := ih hrest hne.2 hap hn.2
    refine ⟨m', ?_⟩
    rw [List.map_cons, drop, hwalk]
    simp only [bind, Except.bind, hdrop]
    rfl

/-- For every sequence of operations, with values of all sizes and alignments:

1. every operation succeeds;
2. the values are aligned, and they and their headers are inside of a chunk;
3. the allocations, with their headers, do not overlap;
4. the walks of `Chunk::drop` end at the `ptr` of their chunks after at most one round for each eight
   bytes, they call the drop function of each allocation once, in the order of the allocations, with the
   address after the header, and what they take for padding is apart from all allocations. -/
theorem drop_visits (C : DropCode T) (M : Malloc) (m : Memory) (ops : List (Op T)) :
    ∃ a live, ops.foldlM (step C M) (new m, []) = some (a, live) ∧
      (∀ b ∈ live, T.align b.func.type ∣ b.data ∧ 8 ∣ b.header ∧
        ∃ c ∈ a.mem, c.base ≤ b.header ∧ b.stop T ≤ c.ptr ∧ c.ptr ≤ c.allocEnd) ∧
      (live.Pairwise fun b b' => b.stop T ≤ b'.header ∨ b'.stop T ≤ b.header) ∧
      ∀ n, (∀ c ∈ a.mem, c.ptr ≤ c.base + 8 * n) →
        ∃ es m', drop C n a.mem a.memory = .ok (es, m') ∧
          es.filterMap Chunk.Event.called = live.map (fun b => (C.addr b.func, b.header + 8)) ∧
          ∀ p, Chunk.Event.null p ∈ es → (∃ c ∈ a.mem, c.base ≤ p ∧ p + 8 ≤ c.ptr) ∧
            ∀ b ∈ live, p + 8 ≤ b.header ∨ b.stop T ≤ p := by
  obtain ⟨a, parts, hrun, h⟩ := run_inv M (inv_new C m) ops
  have hchunk : ∀ x ∈ parts, x.1 ∈ a.mem := fun x hx => by
    rw [h.mem]
    exact List.mem_map_of_mem hx
  refine ⟨a, _, hrun, fun b hb => ?_, ?_, fun n hn => ?_⟩
  · obtain ⟨x, hx, hb⟩ := List.mem_flatMap.mp hb
    have hx' := h.filled x hx
    have hmem := hx'.layout.mem hb
    obtain ⟨s, hplaced⟩ := hx'.layout.placed hb
    exact ⟨hplaced.data_aligned, hplaced.aligned, x.1, hchunk x hx, hmem.1, hmem.2, hx'.ptr_le⟩
  · refine List.pairwise_flatMap.mpr ⟨fun x hx => (h.filled x hx).layout.pairwise.imp Or.inl, ?_⟩
    -- the blocks of two chunks are apart, because the chunks are
    refine h.apart.imp_of_mem fun hx hy hap b hb b' hb' => ?_
    have h1 := (h.filled _ hx).layout.mem hb
    have h2 := (h.filled _ hy).layout.mem hb'
    have h3 := (h.filled _ hx).ptr_le
    have h4 := (h.filled _ hy).ptr_le
    rcases hap with hd | hd <;> omega
  · obtain ⟨m', hdrop⟩ := drop_parts h.filled h.ne h.apart fun x hx => hn _ (hchunk x hx)
    rw [← h.mem] at hdrop
    refine ⟨_, m', hdrop, ?_, fun p hp => ?_⟩
    · simp only [List.filterMap_flatMap, List.map_flatMap, Chunk.called_trace]
    · obtain ⟨x, hx, hp⟩ := List.mem_flatMap.mp hp
      obtain ⟨h1, h2, h3⟩ := Chunk.null_mem_trace (h.filled x hx).layout (Nat.le_refl _) hp
      refine ⟨⟨x.1, hchunk x hx, h1, h2⟩, fun b hb => ?_⟩
      obtain ⟨y, hy, hb⟩ := List.mem_flatMap.mp hb
      by_cases hxy : x = y
      · exact h3 b (hxy ▸ hb)
      · have h4 := (h.filled y hy).layout.mem hb
        have h5 := (h.filled x hx).ptr_le
        have h6 := (h.filled y hy).ptr_le
        rcases h.apart_of_ne hx hy hxy with hd | hd <;> omega

/-- An address after all chunks. -/
def top : List Chunk → Nat
  | [] => 0
  | c :: mem => max c.allocEnd (top mem)

theorem allocEnd_le_top {mem : List Chunk} (hc : c ∈ mem) : c.allocEnd ≤ top mem := by
  induction mem with
  | nil => cases hc
  | cons d mem ih =>
    rcases List.mem_cons.mp hc with rfl | hc
    · exact Nat.le_max_left ..
    · exact Nat.le_trans (ih hc) (Nat.le_max_right ..)

/-- An allocator that goes up. -/
def bump : Malloc where
  base mem _ := top mem + padding 8 (top mem)
  aligned mem _ := dvd_add_padding (by decide) _
  disjoint _ _ _ hc := Or.inl (Nat.le_trans (allocEnd_le_top hc) (Nat.le_add_right ..))

/-- A type with three bytes, and one with 64 bytes that are aligned to 32. -/
def bytesTypes : Types Bool where
  size t := if t then 64 else 3
  align t := if t then 32 else 1
  pow t := by
    cases t
    · exact ⟨0, rfl⟩
    · exact ⟨5, rfl⟩
  drop _ _ m := m
  drop_frame _ _ _ _ _ := rfl

def bytesCode : DropCode bytesTypes where
  addr
    | .dropOne false => 100
    | .dropOne true => 200
    | .dropSeq false => 300
    | .dropSeq true => 400
  exec
    | 100 => some ((DropFunc.dropOne false).call bytesTypes)
    | 200 => some ((DropFunc.dropOne true).call bytesTypes)
    | 300 => some ((DropFunc.dropSeq false).call bytesTypes)
    | 400 => some ((DropFunc.dropSeq true).call bytesTypes)
    | _ => none
  addr_ne f := by rcases f with (_ | _) | (_ | _) <;> decide
  addr_lt f := by rcases f with (_ | _) | (_ | _) <;> decide
  exec_addr f := by rcases f with (_ | _) | (_ | _) <;> rfl

/-- Three bytes, a slice of two of them, and an aligned value after two words of padding. -/
def bytesOps : List (Op bytesTypes) :=
  [.alloc false ⟨[1, 2, 3], rfl⟩, .allocVec false ⟨[⟨[4, 5, 6], rfl⟩, ⟨[7, 8, 9], rfl⟩], by decide⟩,
    .alloc true ⟨List.replicate 64 1, rfl⟩]

theorem drop_visits_bytes : ∃ a live, bytesOps.foldlM (step bytesCode bump) (new fun _ => 7, []) =
      some (a, live) ∧
    ∃ es m', drop bytesCode 200 a.mem a.memory = .ok (es, m') ∧
      es.filterMap Chunk.Event.called = [(100, 8), (300, 24), (200, 64)] := by
  obtain ⟨a, live, hrun, -, -, h⟩ := drop_visits bytesCode bump (fun _ => 7) bytesOps
  have hrun' : bytesOps.foldlM (step bytesCode bump) (new fun _ => 7, []) = some (_, _) := rfl
  obtain ⟨rfl, rfl⟩ := Prod.mk.inj (Option.some.inj (hrun'.symm.trans hrun))
  obtain ⟨es, m', hdrop, hcalls, -⟩ := h 200 (by
    intro c hc
    cases List.mem_singleton.mp hc
    decide)
  exact ⟨_, _, hrun, es, m', hdrop, hcalls⟩

end Arena

end Qblaze

import Qblaze.Sfree.Compiler

/-!
# State vectors and how they are cut into chunks (`src/statevector.rs`, `src/buffer.rs`)

A state vector has two parts. Every operation cuts the parts into chunks, whose number depends on
the context, and works on the chunks by itself. `none` stands for a panic: a division by zero, a
chunk size of zero, a qubit that does not fit in the words.

* `forChunks_some`, `forMerge_some`: with positive sizes no division by zero is met, and a vector that
  is not empty is cut into chunks that are not empty.
* `forChunks_empty`: an empty vector gets the chunk size zero, for which `chunks` panics.
* `chunks_flatten`: the chunks make up the slice.

The spare buffer is left out: whether a reservation succeeds is an input. Only a reservation of
nothing always does.
-/

namespace Qblaze

/-- `Context`, without the pool and the performance data. -/
structure Context where
  numThreads : Nat
  initMaxQubit : Qubit
  chunkSize : Nat
  multithreadingThreshold : Nat
  workItemMinSize : Nat
  workItemMaxSize : Nat
  deriving DecidableEq

/-- `Config::default`, with one thread. -/
def Context.default : Context := ⟨1, Qubit.ZERO, 2 ^ 18, 2 ^ 16, 2 ^ 10, 2 ^ 24⟩

/-- No size is zero. The threshold may be. -/
structure Context.Positive (ctx : Context) : Prop where
  chunkSize : 0 < ctx.chunkSize
  workItemMinSize : 0 < ctx.workItemMinSize
  workItemMaxSize : 0 < ctx.workItemMaxSize

theorem Context.default_positive : Context.default.Positive := ⟨by decide, by decide, by decide⟩

/-- `StatevectorImpl<N>` -/
@[ext] structure Statevector (N : Nat) (F : Type) where
  partitionedBy : Option Qubit
  part0 : List (Element N F)
  part1 : List (Element N F)

/-! ## Chunks -/

/-- `usize::div_ceil` -/
def divCeil (a b : Nat) : Option Nat := if b = 0 then none else some ((a + b - 1) / b)

/-- `slice::chunks` -/
def chunks {α : Type} (c : Nat) (l : List α) : Option (List (List α)) :=
  (divCeil l.length c).map fun k => (List.range k).map fun i => (l.drop (i * c)).take c

/-- Write one list into each chunk of the reserved sizes. A list that does not fill its chunk would
leave memory uninitialised or write past its end. -/
def fillChunks {α : Type} (sizes : List Nat) (out : List (List α)) : Option (List α) :=
  if out.map List.length = sizes then some out.flatten else none

/-- `RawBuf::try_reserve`: nothing is allocated for no elements. -/
def tryReserve (alloc : Bool) (n : Nat) : Bool := n == 0 || alloc

section

variable {a b : Nat}

theorem divCeil_pos (hb : 0 < b) : ∃ k, divCeil a b = some k ∧ a ≤ k * b ∧ (0 < a → 0 < k) := by
  refine ⟨_, if_neg (by omega), ?_, fun ha => Nat.div_pos (by omega) hb⟩
  have := Nat.div_add_mod (a + b - 1) b
  have hm := Nat.mod_lt (a + b - 1) hb
  rw [Nat.mul_comm] at this
  omega

theorem divCeil_zero_left (h : divCeil 0 b = some a) : a = 0 := by
  unfold divCeil at h
  split at h
  · cases h
  · rw [Option.some.injEq] at h
    rw [← h]
    exact Nat.div_eq_of_lt (by omega)

variable {α β : Type} {c : Nat} {l : List α}

theorem take_flatten (l : List α) (c k : Nat) :
    ((List.range k).map fun i => (l.drop (i * c)).take c).flatten = l.take (k * c) := by
  induction k with
  | zero => simp
  | succ k ih =>
    rw [List.range_succ, List.map_append, List.flatten_append, ih, List.map_singleton,
      List.flatten_singleton, Nat.succ_mul, List.take_add]

/-- The chunks make up the slice. -/
theorem chunks_flatten (h : 0 < c) (l : List α) : ∃ cs, chunks c l = some cs ∧ cs.flatten = l := by
  obtain ⟨k, hk, hl, -⟩ := divCeil_pos (a := l.length) h
  refine ⟨_, by rw [chunks, hk]; rfl, ?_⟩
  rw [take_flatten, List.take_of_length_le hl]

theorem chunks_zero (l : List α) : chunks 0 l = none := rfl

/-- Filling the chunks with what was counted. -/
theorem fillChunks_eq {sizes : List Nat} {out : List (List α)} (h : out.map List.length = sizes) :
    fillChunks sizes out = some out.flatten := if_pos h

theorem flatten_map_map (f : α → β) (cs : List (List α)) :
    (cs.map (List.map f)).flatten = cs.flatten.map f := List.map_flatten.symm

theorem flatten_map_filter (p : α → Bool) (cs : List (List α)) :
    (cs.map (List.filter p)).flatten = cs.flatten.filter p := List.filter_flatten.symm

end

/-! ## Planning -/

namespace Statevector

variable {N : Nat} {F : Type}

/-- `mem::size_of::<sfree::Element<N>>()` -/
def elementSize (N : Nat) : Nat := 8 * N + 16

def len (s : Statevector N F) : Nat := s.part0.length + s.part1.length

def isEmpty (s : Statevector N F) : Bool := s.len == 0

/-- `StatevectorImpl::clear`: what is left when a reservation fails. -/
def clear (s : Statevector N F) : Statevector N F := { s with part0 := [], part1 := [] }

/-- `max_qubit`, of a vector of at least one word. -/
def maxQubit (_ : Statevector N F) : Nat := 64 * N - 1

/-- `for_common`: whether to use the pool, and the number of chunks. The buffer has room for `n`
bytes, so that only the other products can wrap. -/
def forCommon (s : Statevector N F) (ctx : Context) (maxChunkSize : Nat) : Option (Bool × Nat) :=
  let n := s.len * elementSize N
  let thr := ctx.numThreads
  if n < ctx.multithreadingThreshold then some (false, 1)
  else if thr ≤ 1 then (divCeil n maxChunkSize).map (false, ·)
  else if n ≤ ctx.workItemMinSize * thr % 2 ^ 64 then (divCeil n ctx.workItemMinSize).map (true, ·)
  else
    let stride := min (maxChunkSize * thr) (2 ^ 64 - 1)
    (divCeil n stride).map fun chunksPerThread =>
      if chunksPerThread ≤ 1 then (true, thr)
      else
        let chunksPerThread := if thr ≤ 1 then 1 else chunksPerThread
        (true, thr * chunksPerThread % 2 ^ 64)

/-- `for_merge` -/
def forMerge (s : Statevector N F) (ctx : Context) : Option (Bool × Nat) :=
  s.forCommon ctx ctx.workItemMaxSize

/-- The loop of `for_chunks`, down from `div`. -/
def chunkLoop (n0 n1 numChunks : Nat) : Nat → Option (Nat × Nat)
  | 0 => none
  | div + 1 => do
    let chunk ← divCeil (n0 + n1) (div + 1)
    let k0 ← divCeil n0 chunk
    let k1 ← divCeil n1 chunk
    if k0 + k1 ≤ numChunks then return (k0, k1) else chunkLoop n0 n1 numChunks div

/-- `for_chunks`: whether to use the pool, and the chunk sizes of the two parts. -/
def forChunks (s : Statevector N F) (ctx : Context) (maxChunkSize : Nat) :
    Option (Bool × Nat × Nat) := do
  let (usePool, numChunks) ← s.forCommon ctx maxChunkSize
  let n0 := s.part0.length
  let n1 := s.part1.length
  let n := n0 + n1
  if numChunks ≤ 2 then return (false, n, n)
  if n0 = 0 ∨ n1 = 0 then
    let c ← divCeil n numChunks
    return (usePool, c, c)
  let (k0, k1) ← chunkLoop n0 n1 numChunks numChunks
  let c0 ← divCeil n0 k0
  let c1 ← divCeil n1 k1
  return (usePool, c0, c1)

/-- `for_small_chunks` -/
def forSmallChunks (s : Statevector N F) (ctx : Context) : Option (Bool × Nat × Nat) :=
  s.forChunks ctx ctx.chunkSize

/-- `for_large_chunks` -/
def forLargeChunks (s : Statevector N F) (ctx : Context) : Option (Bool × Nat × Nat) :=
  s.forChunks ctx ctx.workItemMaxSize

/-- `for_sort` -/
def forSort (s : Statevector N F) (ctx : Context) : Bool :=
  decide (ctx.multithreadingThreshold < s.len * elementSize N)

/-- `Scope::is_single_threaded` for `maybe_borrow`: a pool of one thread has no state. -/
def singleThreaded (ctx : Context) (usePool : Bool) : Bool := !(usePool && decide (1 < ctx.numThreads))

variable {s : Statevector N F} {ctx : Context} {maxChunkSize : Nat}

theorem forCommon_some (hc : ctx.Positive) (hm : 0 < maxChunkSize) :
    ∃ b k, s.forCommon ctx maxChunkSize = some (b, k) := by
  unfold forCommon
  simp only
  split
  · exact ⟨_, _, rfl⟩
  split
  · obtain ⟨k, hk, -⟩ := divCeil_pos (a := s.len * elementSize N) hm
    exact ⟨_, _, by rw [hk]; rfl⟩
  split
  · obtain ⟨k, hk, -⟩ := divCeil_pos (a := s.len * elementSize N) hc.workItemMinSize
    exact ⟨_, _, by rw [hk]; rfl⟩
  · have hthr : 0 < ctx.numThreads := by omega
    have hs : 0 < min (maxChunkSize * ctx.numThreads) (2 ^ 64 - 1) :=
      Nat.lt_min.mpr ⟨Nat.mul_pos hm hthr, by decide⟩
    obtain ⟨k, hk, -⟩ := divCeil_pos (a := s.len * elementSize N) hs
    rw [hk, Option.map_some]
    split <;> exact ⟨_, _, rfl⟩

theorem forMerge_some (hc : ctx.Positive) : ∃ b k, s.forMerge ctx = some (b, k) :=
  forCommon_some hc hc.workItemMaxSize

/-- The loop of `for_chunks` ends: one chunk for each part is always few enough. -/
theorem chunkLoop_some {n0 n1 numChunks div : Nat} (h0 : 0 < n0) (h1 : 0 < n1) (hn : 2 ≤ numChunks)
    (hd : 0 < div) : ∃ k0 k1, chunkLoop n0 n1 numChunks div = some (k0, k1) ∧ 0 < k0 ∧ 0 < k1 := by
  induction div with
  | zero => omega
  | succ div ih =>
    obtain ⟨chunk, hchunk, hle, hpos⟩ := divCeil_pos (a := n0 + n1) (b := div + 1) (by omega)
    have hpos := hpos (by omega)
    obtain ⟨k0, hk0, hle0, hp0⟩ := divCeil_pos (a := n0) hpos
    obtain ⟨k1, hk1, hle1, hp1⟩ := divCeil_pos (a := n1) hpos
    rw [chunkLoop, hchunk]
    simp only [Option.bind_eq_bind, Option.bind_some, hk0, hk1]
    split
    · exact ⟨_, _, rfl, hp0 h0, hp1 h1⟩
    · rename_i hmany
      refine ih (Nat.pos_of_ne_zero ?_)
      rintro rfl
      -- the last chunk size is the whole length
      rw [Nat.zero_add, Nat.mul_one] at hle
      have hone : ∀ n, 0 < n → n ≤ chunk → divCeil n chunk = some 1 := fun n hn hc => by
        have hdiv : (n + chunk - 1) / chunk = 1 := Nat.div_eq_of_lt_le (by omega) (by omega)
        rw [divCeil, if_neg (by omega), hdiv]
      rw [hone n0 h0 (by omega), Option.some.injEq] at hk0
      rw [hone n1 h1 (by omega), Option.some.injEq] at hk1
      omega

/-- A vector that is not empty is cut into chunks that are not empty. -/
theorem forChunks_some (hc : ctx.Positive) (hm : 0 < maxChunkSize) (hs : s.isEmpty = false) :
    ∃ b c0 c1, s.forChunks ctx maxChunkSize = some (b, c0, c1) ∧ 0 < c0 ∧ 0 < c1 := by
  have hlen : 0 < s.part0.length + s.part1.length := by
    simp only [isEmpty, len, beq_eq_false_iff_ne] at hs
    omega
  obtain ⟨b, k, hk⟩ := @forCommon_some N F s ctx maxChunkSize hc hm
  unfold forChunks
  rw [hk]
  simp only [Option.bind_eq_bind, Option.bind_some]
  split
  · exact ⟨_, _, _, rfl, hlen, hlen⟩
  split
  · obtain ⟨c, hcc, -, hp⟩ := divCeil_pos (a := s.part0.length + s.part1.length) (b := k) (by omega)
    rw [hcc]
    exact ⟨_, _, _, rfl, hp hlen, hp hlen⟩
  · obtain ⟨k0, k1, hl, h0, h1⟩ := @chunkLoop_some s.part0.length s.part1.length k k (by omega)
      (by omega) (by omega) (by omega)
    obtain ⟨c0, hc0, -, hp0⟩ := divCeil_pos (a := s.part0.length) h0
    obtain ⟨c1, hc1, -, hp1⟩ := divCeil_pos (a := s.part1.length) h1
    rw [hl]
    simp only [Option.bind_some, hc0, hc1]
    exact ⟨_, _, _, rfl, hp0 (by omega), hp1 (by omega)⟩

/-- An empty vector is cut into chunks of the size zero. -/
theorem forChunks_empty (hs : s.isEmpty = true) {r : Bool × Nat × Nat}
    (h : s.forChunks ctx maxChunkSize = some r) : r = (false, 0, 0) := by
  have hlen : s.part0.length = 0 ∧ s.part1.length = 0 := by
    simp only [isEmpty, len, beq_iff_eq] at hs
    omega
  have hcommon : ∀ b k, s.forCommon ctx maxChunkSize = some (b, k) → k ≤ 2 := by
    intro b k hk
    unfold forCommon at hk
    simp only [len, hlen, Nat.add_zero, Nat.zero_mul, Nat.zero_le, if_true] at hk
    split at hk
    · cases hk
      decide
    split at hk <;>
    · obtain ⟨a, ha, hb⟩ := Option.map_eq_some_iff.mp hk
      cases hb
      rw [divCeil_zero_left ha]
      decide
  unfold forChunks at h
  cases hk : s.forCommon ctx maxChunkSize with
  | none => rw [hk] at h; cases h
  | some p =>
    rw [hk] at h
    simp only [Option.bind_eq_bind, Option.bind_some, hcommon p.1 p.2 hk, if_true, hlen,
      Nat.add_zero] at h
    cases h
    rfl

/-! ## Working on the chunks -/

/-- Work on the chunks of the two parts in place. -/
def eachChunk (s : Statevector N F) (csize : Nat × Nat)
    (f : List (Element N F) → List (Element N F)) : Option (Statevector N F) := do
  let chunks0 ← chunks csize.1 s.part0
  let chunks1 ← chunks csize.2 s.part1
  return { s with part0 := (chunks0.map f).flatten, part1 := (chunks1.map f).flatten }

/-- Reserve the chunks, write them, and let them replace the state. -/
def replace (s : Statevector N F) (alloc : Bool) (sizes : List (Nat × Nat))
    (out : List (List (Element N F) × List (Element N F))) : Option (Statevector N F) :=
  if tryReserve alloc ((sizes.map (·.1)).sum + (sizes.map (·.2)).sum) then do
    let part0 ← fillChunks (sizes.map (·.1)) (out.map (·.1))
    let part1 ← fillChunks (sizes.map (·.2)) (out.map (·.2))
    return { s with part0, part1 }
  else some s.clear

/-- The chunks make up the two parts. -/
theorem eachChunk_some {c0 c1 : Nat} (h0 : 0 < c0) (h1 : 0 < c1)
    (f : List (Element N F) → List (Element N F)) :
    ∃ cs0 cs1 : List (List (Element N F)), cs0.flatten = s.part0 ∧ cs1.flatten = s.part1 ∧
      s.eachChunk (c0, c1) f =
        some { s with part0 := (cs0.map f).flatten, part1 := (cs1.map f).flatten } := by
  obtain ⟨cs0, hcs0, hf0⟩ := chunks_flatten h0 s.part0
  obtain ⟨cs1, hcs1, hf1⟩ := chunks_flatten h1 s.part1
  refine ⟨cs0, cs1, hf0, hf1, ?_⟩
  unfold eachChunk
  simp only [hcs0, hcs1]
  rfl

/-- Chunks that hold what was counted are the new parts, unless the reservation fails. -/
theorem replace_eq {alloc : Bool} {out : List (List (Element N F) × List (Element N F))}
    (part0 part1 : List (Element N F)) (h0 : (out.map (·.1)).flatten = part0)
    (h1 : (out.map (·.2)).flatten = part1) :
    s.replace alloc (out.map fun p => (p.1.length, p.2.length)) out =
      some (if tryReserve alloc (part0.length + part1.length) then { s with part0, part1 }
        else s.clear) := by
  have hs0 : (out.map fun p => (p.1.length, p.2.length)).map (·.1) =
      (out.map (·.1)).map List.length := by
    simp [Function.comp_def]
  have hs1 : (out.map fun p => (p.1.length, p.2.length)).map (·.2) =
      (out.map (·.2)).map List.length := by
    simp [Function.comp_def]
  unfold replace
  rw [hs0, hs1, fillChunks_eq rfl, fillChunks_eq rfl, ← List.length_flatten, ← List.length_flatten,
    h0, h1]
  split <;> rfl

end Statevector

end Qblaze

import Qblaze.Statevector.Basic

/-!
# Writing a buffer in chunks (`src/buffer.rs`)

An operation that makes a new buffer counts first what each chunk will write, reserves the buffer and
then writes all chunks at once, without checking any bounds. The model follows the addresses: an
address is the index of a slot from the start of the buffer.

* `BufWriter.start_eq`: `reserve_chunks` and `start` hand out the chunks of each part one after the
  other, and the parts one after the other.
* `BufWriter.fills`: if every chunk is pushed as many values as were counted for it, every slot is
  written exactly once, and no other.
-/

namespace Qblaze

variable {α : Type}

/-- `WriteChunk`: the next slot, and the end of the chunk. -/
structure WriteChunk where
  ptr : Nat
  last : Nat
  deriving DecidableEq

/-- `WriteChunk::push_unchecked`: the slot that is written and its value. -/
def WriteChunk.pushUnchecked (c : WriteChunk) (val : α) : (Nat × α) × WriteChunk :=
  ((c.ptr, val), { c with ptr := c.ptr + 1 })

/-- What is written when the values are pushed one by one, and the chunk after that. -/
def WriteChunk.pushAll : WriteChunk → List α → List (Nat × α) × WriteChunk
  | c, [] => ([], c)
  | c, val :: vals =>
    let (w, c) := c.pushUnchecked val
    let (ws, c) := c.pushAll vals
    (w :: ws, c)

/-- `WriteBuf`: what is left of a part. -/
structure WriteBuf where
  ptr : Nat
  sizes : List Nat
  deriving DecidableEq

/-- `WriteBuf::next` -/
def WriteBuf.next (b : WriteBuf) : Option (WriteChunk × WriteBuf) :=
  match b.sizes with
  | [] => none
  | n :: rest => some (⟨b.ptr, b.ptr + n⟩, ⟨b.ptr + n, rest⟩)

/-- The chunks that the iterator yields for chunks of the given sizes. -/
def WriteBuf.collect (ptr : Nat) : List Nat → List WriteChunk
  | [] => []
  | n :: rest => ⟨ptr, ptr + n⟩ :: collect (ptr + n) rest

/-- The chunks of a part. -/
def WriteBuf.chunks (b : WriteBuf) : List WriteChunk := collect b.ptr b.sizes

/-- `BufWriter`: the sizes of the parts of the buffer, the sizes of the chunks of all parts, and where
the chunks of each part end. -/
structure BufWriter where
  partSizes : List Nat
  chunkSizes : List Nat
  ends : List Nat

namespace BufWriter

/-- The loop of `reserve_chunks` over the parts. -/
def reserveLoop : List (List Nat) → List Nat → BufWriter
  | [], chunkSizes => ⟨[], chunkSizes, []⟩
  | sizes :: rest, chunkSizes =>
    let base := chunkSizes.length
    let chunkSizes := chunkSizes ++ sizes
    let w := reserveLoop rest chunkSizes
    ⟨(chunkSizes.drop base).sum :: w.partSizes, w.chunkSizes, chunkSizes.length :: w.ends⟩

/-- `BufWriter::reserve_chunks` -/
def reserveChunks (alloc : Bool) (sizes : List (List Nat)) : Option BufWriter :=
  let w := reserveLoop sizes []
  if tryReserve alloc w.partSizes.sum then some w else none

/-- The loop of `start`, with the pointer and the end of the part before. -/
def startLoop (chunkSizes : List Nat) : List Nat → List Nat → Nat → Nat → List WriteBuf
  | size :: parts, off1 :: ends, ptr, off0 =>
    ⟨ptr, (chunkSizes.take off1).drop off0⟩ :: startLoop chunkSizes parts ends (ptr + size) off1
  | _, _, _, _ => []

/-- `BufWriter::start` -/
def start (w : BufWriter) : List WriteBuf := startLoop w.chunkSizes w.partSizes w.ends 0 0

/-! ## Layout -/

/-- The parts one after the other, from `ptr` on. -/
def layout (ptr : Nat) : List (List Nat) → List WriteBuf
  | [] => []
  | sizes :: rest => ⟨ptr, sizes⟩ :: layout (ptr + sizes.sum) rest

theorem reserveLoop_partSizes (sizes : List (List Nat)) (acc : List Nat) :
    (reserveLoop sizes acc).partSizes = sizes.map List.sum := by
  induction sizes generalizing acc with
  | nil => rfl
  | cons s rest ih =>
    rw [reserveLoop]
    simp only [ih, List.map_cons, List.drop_left]

theorem reserveLoop_chunkSizes (sizes : List (List Nat)) (acc : List Nat) :
    (reserveLoop sizes acc).chunkSizes = acc ++ sizes.flatten := by
  induction sizes generalizing acc with
  | nil => rw [reserveLoop, List.flatten_nil, List.append_nil]
  | cons s rest ih =>
    rw [reserveLoop]
    simp only [ih, List.flatten_cons, List.append_assoc]

theorem startLoop_reserveLoop (sizes : List (List Nat)) (acc tail : List Nat) (ptr : Nat) :
    startLoop (acc ++ sizes.flatten ++ tail) (reserveLoop sizes acc).partSizes
      (reserveLoop sizes acc).ends ptr acc.length = layout ptr sizes := by
  induction sizes generalizing acc ptr with
  | nil => rfl
  | cons s rest ih =>
    have hsplit : acc ++ (s :: rest).flatten ++ tail = acc ++ s ++ (rest.flatten ++ tail) := by
      simp only [List.flatten_cons, List.append_assoc]
    have htake : ((acc ++ s ++ (rest.flatten ++ tail)).take (acc ++ s).length).drop acc.length = s := by
      rw [List.take_left, List.drop_left]
    have hrest := ih (acc ++ s) (ptr + s.sum)
    rw [List.append_assoc] at hrest
    rw [reserveLoop, layout]
    simp only [List.drop_left]
    rw [startLoop, hsplit, htake, hrest]

/-- `reserve_chunks` and `start` lay out the parts and their chunks in order. -/
theorem start_eq {alloc : Bool} {sizes : List (List Nat)} {w : BufWriter}
    (h : reserveChunks alloc sizes = some w) :
    w.start = layout 0 sizes ∧ w.partSizes = sizes.map List.sum := by
  unfold reserveChunks at h
  simp only at h
  split at h
  · cases h
    refine ⟨?_, reserveLoop_partSizes sizes []⟩
    have hs := startLoop_reserveLoop sizes [] [] 0
    rw [List.append_nil, ← reserveLoop_chunkSizes] at hs
    exact hs
  · cases h

/-! ## Filling the chunks -/

theorem pushAll_eq (c : WriteChunk) (vals : List α) :
    (c.pushAll vals).1.map Prod.fst = List.range' c.ptr vals.length ∧
    (c.pushAll vals).1.map Prod.snd = vals ∧
    (c.pushAll vals).2 = ⟨c.ptr + vals.length, c.last⟩ := by
  induction vals generalizing c with
  | nil => exact ⟨rfl, rfl, rfl⟩
  | cons v vals ih =>
    obtain ⟨h1, h2, h3⟩ := ih ⟨c.ptr + 1, c.last⟩
    rw [WriteChunk.pushAll]
    refine ⟨?_, ?_, ?_⟩
    · show c.ptr :: _ = _
      rw [List.length_cons, List.range'_succ]
      exact congrArg _ h1
    · exact congrArg _ h2
    · refine h3.trans ?_
      rw [List.length_cons]
      exact congrArg (WriteChunk.mk · c.last) (by simp only; omega)

/-- What the chunks of a part write, for the values pushed to each chunk. -/
def writePart (b : WriteBuf) (outs : List (List α)) : List (Nat × α) :=
  (List.zipWith (fun c vals => (WriteChunk.pushAll c vals).1) b.chunks outs).flatten

/-- What all chunks write. They may do so in any order. -/
def writes (w : BufWriter) (outs : List (List (List α))) : List (Nat × α) :=
  (List.zipWith writePart w.start outs).flatten

/-- Every chunk has room for exactly the values that are pushed to it, the chunks come one after the
other, those of part `i` in part `i`, and together they write every slot of the buffer once and in
order. -/
structure Filled (w : BufWriter) (outs : List (List (List α))) : Prop where
  exact : w.start.map (fun b => b.chunks.map fun c => c.last - c.ptr) =
    outs.map fun o => o.map List.length
  done : ∀ b ∈ w.start.zip outs, ∀ p ∈ b.1.chunks.zip b.2,
    (p.1.pushAll p.2).2.ptr = (p.1.pushAll p.2).2.last
  disjoint : (w.start.flatMap WriteBuf.chunks).Pairwise fun c d => c.last ≤ d.ptr
  parts : List.zipWith (fun b o => (writePart b o).map Prod.fst) w.start outs =
    List.zipWith List.range' (w.start.map WriteBuf.ptr) w.partSizes
  slots : (w.writes outs).map Prod.fst = List.range w.partSizes.sum
  values : (w.writes outs).map Prod.snd = outs.flatten.flatten

theorem collect_sizes (ptr : Nat) (sizes : List Nat) :
    ((WriteBuf.collect ptr sizes).map fun c => c.last - c.ptr) = sizes := by
  induction sizes generalizing ptr with
  | nil => rfl
  | cons n rest ih =>
    rw [WriteBuf.collect, List.map_cons, ih, Nat.add_sub_cancel_left]

theorem mem_collect {ptr : Nat} {sizes : List Nat} {c : WriteChunk}
    (h : c ∈ WriteBuf.collect ptr sizes) : ptr ≤ c.ptr ∧ c.ptr ≤ c.last ∧ c.last ≤ ptr + sizes.sum := by
  induction sizes generalizing ptr with
  | nil => exact absurd h List.not_mem_nil
  | cons n rest ih =>
    rw [WriteBuf.collect, List.mem_cons] at h
    rw [List.sum_cons]
    rcases h with rfl | h
    · exact ⟨Nat.le_refl _, Nat.le_add_right .., by simp only; omega⟩
    · obtain ⟨h1, h2, h3⟩ := ih h
      exact ⟨by omega, h2, by omega⟩

theorem collect_disjoint (ptr : Nat) (sizes : List Nat) :
    (WriteBuf.collect ptr sizes).Pairwise fun c d => c.last ≤ d.ptr := by
  induction sizes generalizing ptr with
  | nil => exact List.Pairwise.nil
  | cons n rest ih => exact List.pairwise_cons.mpr ⟨fun d hd => (mem_collect hd).1, ih _⟩

/-- A part is written from its start on. -/
theorem writePart_eq (ptr : Nat) (outs : List (List α)) :
    (writePart ⟨ptr, outs.map List.length⟩ outs).map Prod.fst =
      List.range' ptr (outs.map List.length).sum ∧
    (writePart ⟨ptr, outs.map List.length⟩ outs).map Prod.snd = outs.flatten := by
  unfold writePart WriteBuf.chunks
  induction outs generalizing ptr with
  | nil => exact ⟨rfl, rfl⟩
  | cons vals outs ih =>
    obtain ⟨h1, h2⟩ := ih (ptr + vals.length)
    obtain ⟨hv1, hv2, -⟩ := pushAll_eq ⟨ptr, ptr + vals.length⟩ vals
    rw [List.map_cons, WriteBuf.collect, List.zipWith_cons_cons, List.flatten_cons, List.map_append,
      List.map_append, List.sum_cons, List.flatten_cons]
    refine ⟨?_, ?_⟩
    · rw [hv1, h1, List.range'_append_1]
    · rw [hv2, h2]

theorem done_collect {ptr : Nat} {outs : List (List α)} {p : WriteChunk × List α}
    (h : p ∈ (WriteBuf.collect ptr (outs.map List.length)).zip outs) :
    (p.1.pushAll p.2).2.ptr = (p.1.pushAll p.2).2.last := by
  induction outs generalizing ptr with
  | nil => exact absurd h List.not_mem_nil
  | cons vals outs ih =>
    rw [List.map_cons, WriteBuf.collect, List.zip_cons_cons, List.mem_cons] at h
    rcases h with rfl | h
    · rw [(pushAll_eq _ vals).2.2]
    · exact ih h

/-- The slots of all parts, from `ptr` on. -/
theorem layout_filled (ptr : Nat) (outs : List (List (List α))) :
    let l := layout ptr (outs.map fun o => o.map List.length)
    l.map (fun b => b.chunks.map fun c => c.last - c.ptr) = outs.map (fun o => o.map List.length) ∧
    (∀ b ∈ l.zip outs, ∀ p ∈ b.1.chunks.zip b.2,
      (p.1.pushAll p.2).2.ptr = (p.1.pushAll p.2).2.last) ∧
    ((l.flatMap WriteBuf.chunks).Pairwise fun c d => c.last ≤ d.ptr) ∧
    (∀ c ∈ l.flatMap WriteBuf.chunks, ptr ≤ c.ptr) ∧
    List.zipWith (fun b o => (writePart b o).map Prod.fst) l outs =
      List.zipWith List.range' (l.map WriteBuf.ptr) (outs.map fun o => (o.map List.length).sum) ∧
    (List.zipWith writePart l outs).flatten.map Prod.fst =
      List.range' ptr (outs.map fun o => (o.map List.length).sum).sum ∧
    (List.zipWith writePart l outs).flatten.map Prod.snd = outs.flatten.flatten := by
  induction outs generalizing ptr with
  | nil => simp [layout]
  | cons o outs ih =>
    obtain ⟨h1, h2, h3, h4, h5, h6, h7⟩ := ih (ptr + (o.map List.length).sum)
    obtain ⟨hw1, hw2⟩ := writePart_eq ptr o
    intro l
    refine ⟨?_, ?_, ?_, ?_, ?_, ?_, ?_⟩
    · show List.map _ (_ :: _) = _ :: _
      rw [List.map_cons, h1]
      exact congrArg (· :: _) (collect_sizes ptr _)
    · intro b hb p hp
      rcases List.mem_cons.mp hb with rfl | hb
      · exact done_collect hp
      · exact h2 b hb p hp
    · show List.Pairwise _ (List.flatMap _ (_ :: _))
      rw [List.flatMap_cons, List.pairwise_append]
      refine ⟨collect_disjoint ptr _, h3, fun c hc d hd => ?_⟩
      exact (mem_collect hc).2.2.trans (h4 d hd)
    · intro c hc
      have hc' : c ∈ WriteBuf.collect ptr (o.map List.length) ++
          (layout (ptr + (o.map List.length).sum) (outs.map fun o => o.map List.length)).flatMap
            WriteBuf.chunks := hc
      rcases List.mem_append.mp hc' with hc | hc
      · exact (mem_collect hc).1
      · exact (Nat.le_add_right ..).trans (h4 c hc)
    · show _ :: _ = _ :: _
      rw [h5]
      exact congrArg (· :: _) hw1
    · show List.map _ (List.flatten (_ :: _)) = _
      rw [List.flatten_cons, List.map_append, h6, List.map_cons, List.sum_cons, ← List.range'_append_1]
      exact congrArg (· ++ _) hw1
    · show List.map _ (List.flatten (_ :: _)) = _
      rw [List.flatten_cons, List.map_append, h7, List.flatten_cons, List.flatten_append]
      exact congrArg (· ++ _) hw2

/-- If every chunk is pushed as many values as were counted for it, the buffer is filled. -/
theorem fills {alloc : Bool} {sizes : List (List Nat)} {outs : List (List (List α))} {w : BufWriter}
    (hlen : outs.map (fun o => o.map List.length) = sizes)
    (h : reserveChunks alloc sizes = some w) : w.Filled outs := by
  subst hlen
  obtain ⟨hstart, hparts⟩ := start_eq h
  obtain ⟨h1, h2, h3, -, h5, h6, h7⟩ := layout_filled 0 outs
  rw [List.map_map] at hparts
  refine ⟨?_, ?_, ?_, ?_, ?_, ?_⟩
  · rw [hstart, h1]
  · rw [hstart]
    exact h2
  · rw [hstart]
    exact h3
  · rw [hstart, hparts, h5]
    rfl
  · rw [writes, hstart, h6, hparts, List.range_eq_range']
    rfl
  · rw [writes, hstart, h7]

end BufWriter

end Qblaze

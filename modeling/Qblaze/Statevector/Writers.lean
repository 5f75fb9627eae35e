import Qblaze.Buffer
import Qblaze.Statevector.Measure

/-!
# The two passes of the writers

`force_repartition`, `perform_u4`, the copying path of `measure` and `import_dense` count what each
chunk will write, and then write it without checking bounds. The two passes are separate functions.

* `writers_fill`: in all four of them, and for every way to divide the elements into chunks, each
  chunk writes as many elements as were counted, so that the buffer is filled exactly.
-/

namespace Qblaze

namespace Statevector

variable {N : Nat} {F : Type}

/-- The chunks of the loop of `force_repartition`. -/
def doRepartition (isFixup : Bool) (q : Qubit) (chunk0 chunk1 : List (Element N F)) :
    List (Element N F) × List (Element N F) :=
  if isFixup then doRepartitionFixup q chunk0 chunk1 else doRepartitionWrite q chunk0 chunk1

theorem doRepartition_count (isFixup : Bool) (q : Qubit) (chunk0 chunk1 : List (Element N F)) :
    doRepartitionCount q chunk0 chunk1 = ((doRepartition isFixup q chunk0 chunk1).1.length,
      (doRepartition isFixup q chunk0 chunk1).2.length) := by
  unfold doRepartition
  split
  · exact doRepartitionCount_eq (mergeDistinct_perm _ _)
  · exact doRepartitionCount_eq (mergeDistinct_perm _ _)

section

variable [Field F] [LinearOrder F] [Eps F]

/-- Sizes and outputs of chunks that agree pair by pair. -/
theorem filled_pair {α β : Type} {l : List β} {count : β → Nat × Nat}
    {out : β → List α × List α} (h : ∀ p, count p = ((out p).1.length, (out p).2.length))
    {alloc : Bool} {w : BufWriter}
    (hw : BufWriter.reserveChunks alloc [l.map fun p => (count p).1, l.map fun p => (count p).2] =
      some w) : w.Filled [l.map fun p => (out p).1, l.map fun p => (out p).2] := by
  refine BufWriter.fills ?_ hw
  simp [h, Function.comp_def]

/-- Every writer fills its buffer exactly, for every chunking. -/
theorem writers_fill (s : Statevector N F) (hs : s.Inv) (q : Qubit) (hq : q.val < 64 * N)
    (alloc : Bool) (w : BufWriter) :
    -- `force_repartition`
    (∀ count, ∃ subchunks, doSubchunks none count s.part0 s.part1 = some subchunks) ∧
    (∀ isFixup count subchunks,
      doSubchunks (if isFixup then some q else none) count s.part0 s.part1 = some subchunks →
      BufWriter.reserveChunks alloc [subchunks.map fun p => (doRepartitionCount q p.1 p.2).1,
        subchunks.map fun p => (doRepartitionCount q p.1 p.2).2] = some w →
      w.Filled [subchunks.map fun p => (doRepartition isFixup q p.1 p.2).1,
        subchunks.map fun p => (doRepartition isFixup q p.1 p.2).2]) ∧
    -- `perform_u4`
    (s.partitionedBy = some q →
      ∀ count, ∃ subchunks, doSubchunks (some q) count s.part0 s.part1 = some subchunks) ∧
    (∀ gate count subchunks, doSubchunks (some q) count s.part0 s.part1 = some subchunks →
      BufWriter.reserveChunks alloc [subchunks.map fun p => (doU4Count q gate p.1 p.2).1,
        subchunks.map fun p => (doU4Count q gate p.1 p.2).2] = some w →
      w.Filled [subchunks.map fun p => (doU4Write q gate p.1 p.2).1,
        subchunks.map fun p => (doU4Write q gate p.1 p.2).2]) ∧
    -- `measure`
    (∀ v scale c0 c1 chunks0 chunks1, chunks c0 s.part0 = some chunks0 →
      chunks c1 s.part1 = some chunks1 →
      BufWriter.reserveChunks alloc [chunks0.map (doMeasureCount q v),
        chunks1.map (doMeasureCount q v)] = some w →
      w.Filled [chunks0.map (doMeasureCopy q v scale), chunks1.map (doMeasureCopy q v scale)]) ∧
    -- `import_dense`
    (∀ data cs, chunks (2 ^ 12) data = some cs →
      BufWriter.reserveChunks alloc [cs.map fun chunk => chunk.countP (wantVal : Cplx F → Bool), []] =
        some w →
      w.Filled [cs.mapIdx fun i chunk => (denseChunk (i * 2 ^ 12) chunk : List (Element N F)), []]) := by
  refine ⟨fun count => ?_, fun isFixup count subchunks _ hw => ?_, fun hp count => ?_,
    fun gate count subchunks _ hw => ?_, fun v scale c0 c1 chunks0 chunks1 _ _ hw => ?_,
    fun data cs _ hw => ?_⟩
  · obtain ⟨ps, hps, -⟩ := mergeChunkPairs_spec hs.sorted0 hs.sorted1 count
    refine ⟨ps, ?_⟩
    unfold doSubchunks
    rw [and_mask_none]
    exact hps
  · exact filled_pair (fun p => doRepartition_count isFixup q p.1 p.2) hw
  · obtain ⟨-, h0, h1⟩ := hs.partitioned q hp
    obtain ⟨ps, hps, -⟩ := mergeChunkPairs_spec (increasing_without hq h0 hs.sorted0)
      (increasing_without hq h1 hs.sorted1) count
    exact ⟨ps, hps⟩
  · exact filled_pair (fun p => doU4Count_eq p.1 p.2) hw
  · refine BufWriter.fills ?_ hw
    have h : ∀ c : List (Element N F), (doMeasureCopy q v scale c).length = doMeasureCount q v c :=
      fun c => (doMeasureCount_eq c).symm
    simp [h, Function.comp_def]
  · refine BufWriter.fills ?_ hw
    rw [List.map_cons, denseChunks_lengths]
    rfl

end

/-- The gate that exchanges `0` and `1`, on two amplitudes. -/
theorem writers_fill_pairState : ∃ subchunks, ∃ w : BufWriter,
    doSubchunks (some 0) 1 (pairState ℚ).part0 (pairState ℚ).part1 = some subchunks ∧
    w.Filled [subchunks.map fun p => (doU4Write 0 flipGate p.1 p.2).1,
      subchunks.map fun p => (doU4Write 0 flipGate p.1 p.2).2] := by
  have h := writers_fill (pairState ℚ) pairState_inv 0 (by decide) true
  obtain ⟨subchunks, hsub⟩ := (h ⟨[], [], []⟩).2.2.1 rfl 1
  obtain ⟨w, hw⟩ : ∃ w, BufWriter.reserveChunks true
      [subchunks.map fun p => (doU4Count 0 flipGate p.1 p.2).1,
        subchunks.map fun p => (doU4Count 0 flipGate p.1 p.2).2] = some w := by
    refine ⟨_, if_pos ?_⟩
    simp [tryReserve]
  exact ⟨subchunks, w, hsub, (h w).2.2.2.1 flipGate 1 subchunks hsub hw⟩

end Statevector

end Qblaze

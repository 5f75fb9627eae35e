import Qblaze.Statevector.Basic
import Qblaze.Sfree.Queue
import Qblaze.Util

/-!
# The operations of a state vector (`src/statevector.rs`)

The loops over chunks run on a pool of threads. The chunks are disjoint and every chunk is worked on
once, so that the model takes them one after the other.

An operation that has to allocate is given the results of its reservations in order. `none` stands
for a panic.
-/

namespace Qblaze

variable {N : Nat} {F : Type}

/-- `BitIndex::from`: panics for a qubit that does not fit. -/
def bitIndex (N : Nat) (q : Qubit) : Option Qubit := if q.val < 64 * N then some q else none

/-- The words that `import` copies: the words past the end of `b` are zero. -/
def BitSet.resize {M : Nat} (b : BitSet M) (N : Nat) : BitSet N :=
  ⟨fun k => if h : k.val < M then b.words ⟨k.val, h⟩ else 0#64⟩

namespace Statevector

/-- `StatevectorImpl::new` -/
def new [Field F] (N : Nat) (alloc : Bool) : Option (Statevector N F) := do
  let q ← bitIndex N Qubit.ZERO
  return ⟨some q, if alloc then [⟨BitSet.empty, ⟨1, 0⟩⟩] else [], []⟩

/-- The elements, part `0` first. -/
def elements (s : Statevector N F) : List (Element N F) := s.part0 ++ s.part1

/-- `lookup_random` -/
def lookupRandom (s : Statevector N F) (i : Nat) : Option (Element N F) :=
  if s.len = 0 then none else s.elements[i % s.len]?

/-- `lookup`. A binary search in a sorted slice finds the element with the key. -/
def lookup (s : Statevector N F) (key : BitSet N) : Option (Cplx F) :=
  match s.part0.find? fun e => e.bits = key with
  | some e => some e.val
  | none => (s.part1.find? fun e => e.bits = key).map (·.val)

/-! ## Partitions -/

/-- The mask of the keys of a merge. -/
def mask (q : Option Qubit) : BitSet N :=
  match q with
  | none => BitSet.compl BitSet.empty
  | some q => BitSet.maskWithout q

/-- `do_subchunks` -/
def doSubchunks (q : Option Qubit) (count : Nat) (part0 part1 : List (Element N F)) :
    Option (List (List (Element N F) × List (Element N F))) :=
  mergeChunkPairs (fun e => e.bits.and (mask q)) part0 part1 count

/-- `do_repartition_count` -/
def doRepartitionCount (q : Qubit) (chunk0 chunk1 : List (Element N F)) : Nat × Nat :=
  let r := chunk0.countP (·.bits.get q) + chunk1.countP (·.bits.get q)
  (chunk0.length + chunk1.length - r, r)

/-- Push every element to the output of its bit `q`. -/
def route (q : Qubit) (l : List (Element N F)) : List (Element N F) × List (Element N F) :=
  (l.filter fun e => !e.bits.get q, l.filter fun e => e.bits.get q)

/-- `do_repartition_write` -/
def doRepartitionWrite (q : Qubit) (chunk0 chunk1 : List (Element N F)) :
    List (Element N F) × List (Element N F) :=
  route q (mergeDistinct (fun e => e.bits) chunk0 chunk1)

/-- `do_repartition_fixup` -/
def doRepartitionFixup (q : Qubit) (chunk0 chunk1 : List (Element N F)) :
    List (Element N F) × List (Element N F) :=
  route q (mergeDistinct (fun e => e.bits.and (mask (some q))) chunk0 chunk1)

/-- `force_repartition` -/
def forceRepartition (s : Statevector N F) (ctx : Context) (alloc : Bool) (q : Qubit)
    (isFixup : Bool) : Option (Statevector N F) := do
  let (_, count) ← s.forMerge ctx
  let subchunks ← doSubchunks (if isFixup then some q else none) count s.part0 s.part1
  s.replace alloc (subchunks.map fun p => doRepartitionCount q p.1 p.2)
    (subchunks.map fun p =>
      if isFixup then doRepartitionFixup q p.1 p.2 else doRepartitionWrite q p.1 p.2)

/-- `set_partition` -/
def setPartition (s : Statevector N F) (ctx : Context) (alloc : Bool) (q : Qubit) :
    Option (Statevector N F) :=
  if s.partitionedBy = some q then some s
  else { s with partitionedBy := some q }.forceRepartition ctx alloc q false

section

variable [Field F] [LinearOrder F] [Eps F]

/-! ## Gates -/

/-- What `do_u4_count` counts for one item of the merge. -/
def u4Count (gate : U4 F) : MergeEq (Element N F) → Nat × Nat
  | .lhs _ => (1, 1)
  | .rhs _ => (1, 1)
  | .both v0 v1 =>
    let (r0a, r1a) := gate.apply false v0.val
    let (r1b, r0b) := gate.apply true v1.val
    ((r0a.accumulate r0b).2.toNat, (r1a.accumulate r1b).2.toNat)

/-- `do_u4_count` -/
def doU4Count (q : Qubit) (gate : U4 F) (chunk0 chunk1 : List (Element N F)) : Nat × Nat :=
  let items := mergeEq (fun e => e.bits.and (mask (some q))) chunk0 chunk1
  ((items.map fun m => (u4Count gate m).1).sum, (items.map fun m => (u4Count gate m).2).sum)

/-- What `do_u4_write` writes for one item of the merge. -/
def u4Write (q : Qubit) (gate : U4 F) :
    MergeEq (Element N F) → List (Element N F) × List (Element N F)
  | .lhs v0 =>
    let (p0, p1) := gate.apply false v0.val
    ([⟨v0.bits, p0⟩], [⟨v0.bits.toggle q, p1⟩])
  | .rhs v1 =>
    let (p1, p0) := gate.apply true v1.val
    ([⟨v1.bits.toggle q, p0⟩], [⟨v1.bits, p1⟩])
  | .both v0 v1 =>
    let (r0a, r1a) := gate.apply false v0.val
    let (r1b, r0b) := gate.apply true v1.val
    let (r0, keep0) := r0a.accumulate r0b
    let (r1, keep1) := r1a.accumulate r1b
    (if keep0 then [⟨v0.bits, r0⟩] else [], if keep1 then [⟨v1.bits, r1⟩] else [])

/-- `do_u4_write` -/
def doU4Write (q : Qubit) (gate : U4 F) (chunk0 chunk1 : List (Element N F)) :
    List (Element N F) × List (Element N F) :=
  let items := mergeEq (fun e => e.bits.and (mask (some q))) chunk0 chunk1
  (items.flatMap fun m => (u4Write q gate m).1, items.flatMap fun m => (u4Write q gate m).2)

/-- `perform_u4` -/
def performU4 (s : Statevector N F) (ctx : Context) (alloc : Nat → Bool) (q : Qubit)
    (gate : U4 F) : Option (Statevector N F) := do
  let q ← bitIndex N q
  let s ← s.setPartition ctx (alloc 0) q
  let (_, count) ← s.forMerge ctx
  let subchunks ← doSubchunks (some q) count s.part0 s.part1
  s.replace (alloc 1) (subchunks.map fun p => doU4Count q gate p.1 p.2)
    (subchunks.map fun p => doU4Write q gate p.1 p.2)

/-- `collapse_delta` -/
def collapseDelta (s : Statevector N F) (q : Qubit) (gate : U4 F) (i : Nat) : Option Int :=
  match s.lookupRandom i with
  | none => some 0
  | some st => do
    let q ← bitIndex N q
    let b := st.bits.get q
    match s.lookup (st.bits.toggle q) with
    | none => some 2
    | some v =>
      let (ap00, ap01) := gate.apply b st.val
      let (ap11, ap10) := gate.apply (!b) v
      some ((if (ap00.accumulate ap10).2 then 0 else -1) +
        (if (ap01.accumulate ap11).2 then 0 else -1))

/-! ## Measurement -/

/-- `do_premeasure`. The chunks may be added in any order. -/
def doPremeasure (q : Qubit) (r : F × F) (chunk : List (Element N F)) : F × F :=
  (r.1 + ((chunk.filter fun e => !e.bits.get q).map (·.val.norm2)).sum,
    r.2 + ((chunk.filter fun e => e.bits.get q).map (·.val.norm2)).sum)

/-- `premeasure` -/
def premeasure (s : Statevector N F) (ctx : Context) (q : Qubit) : Option (F × F) := do
  let q ← bitIndex N q
  let (_, csize) ← s.forLargeChunks ctx
  let chunks0 ← chunks csize.1 s.part0
  let chunks1 ← chunks csize.2 s.part1
  return (chunks0 ++ chunks1).foldl (doPremeasure q) (0, 0)

/-- `do_measure_count` -/
def doMeasureCount (q : Qubit) (v : Bool) (chunk : List (Element N F)) : Nat :=
  let n := chunk.countP (·.bits.get q)
  if v then n else chunk.length - n

/-- The amplitude of an element divided by `scale`. -/
def rescale (scale : F) (e : Element N F) : Element N F := { e with val := e.val.divScale scale }

/-- `do_measure_copy` -/
def doMeasureCopy (q : Qubit) (v : Bool) (scale : F) (chunk : List (Element N F)) :
    List (Element N F) :=
  (chunk.filter fun e => e.bits.get q == v).map (rescale scale)

/-- `normalize` -/
def normalize (s : Statevector N F) (ctx : Context) (scale : F) : Option (Statevector N F) :=
  if |scale - 1| < Eps.eps then some s
  else do
    let (_, csize) ← s.forLargeChunks ctx
    s.eachChunk csize (List.map (rescale scale))

/-- `measure` -/
def measure (s : Statevector N F) (ctx : Context) (alloc : Bool) (q : Qubit) (v : Bool) (scale : F) :
    Option (Statevector N F) := do
  let q ← bitIndex N q
  if s.partitionedBy = some q then
    (if v then { s with part0 := [] } else { s with part1 := [] }).normalize ctx scale
  else do
    let (_, csize) ← s.forLargeChunks ctx
    let chunks0 ← chunks csize.1 s.part0
    let chunks1 ← chunks csize.2 s.part1
    let len0 := chunks0.map (doMeasureCount q v)
    let len1 := chunks1.map (doMeasureCount q v)
    if (len0 ++ len1).sum = s.len then s.normalize ctx scale
    else if tryReserve alloc (len0.sum + len1.sum) then do
      let part0 ← fillChunks len0 (chunks0.map (doMeasureCopy q v scale))
      let part1 ← fillChunks len1 (chunks1.map (doMeasureCopy q v scale))
      return { s with part0, part1 }
    else some s.clear

/-! ## Export and import -/

/-- `import`, of the `export` of `data`. -/
def importFrom {M : Nat} (s : Statevector N F) (alloc : Bool) (data : Statevector M F) :
    Option (Statevector N F) :=
  let copy (e : Element M F) : Element N F := ⟨e.bits.resize N, e.val⟩
  if tryReserve alloc data.len then do
    let partitionedBy ← match data.partitionedBy with
      | none => some none
      | some q => (bitIndex N q).map some
    return ⟨partitionedBy, data.part0.map copy, data.part1.map copy⟩
  else some s.clear

/-- The amplitudes that `import_dense` keeps. -/
def wantVal (v : Cplx F) : Bool := decide (Eps.eps ≤ v.normInf)

/-- One chunk of `import_dense`, from the index `start` on. -/
def denseChunk (start : Nat) (chunk : List (Cplx F)) : List (Element N F) :=
  (chunk.zipIdx.filter fun p => wantVal p.1).map fun p => ⟨BitSet.fromIndex (start + p.2), p.1⟩

/-- `import_dense` -/
def importDense (s : Statevector N F) (alloc : Bool) (data : List (Cplx F)) :
    Option (Statevector N F) := do
  let cs ← chunks (2 ^ 12) data
  let lens := cs.map fun chunk => chunk.countP wantVal
  if tryReserve alloc lens.sum then do
    let part0 ← fillChunks lens (cs.mapIdx fun i chunk => denseChunk (i * 2 ^ 12) chunk)
    return ⟨none, part0, []⟩
  else some s.clear

/-- `trim`: only the spare buffer is freed. -/
def trim (s : Statevector N F) : Statevector N F := s

/-! ## Superposition-free programs -/

variable [Scalar F]

/-- `do_sort` -/
def doSort (single : Bool) (part : List (Element N F)) : List (Element N F) :=
  parQuicksort (fun a b => decide (a.bits < b.bits)) single (elementSize N) part

/-- `do_sfree_apply` -/
def doSfreeApply (op : Compiled) (sortChunks : Bool) (chunk : List (Element N F)) :
    List (Element N F) :=
  let chunk := op.perform chunk
  if sortChunks then doSort true chunk else chunk

/-- `do_sfree_single`. The sort of the source may order equal keys in any way. -/
def doSfreeSingle (op : Compiled) (q : Qubit) (sortChunks : Bool) (chunk : List (Element N F)) :
    List (Element N F) :=
  let chunk := op.perform chunk
  if sortChunks then
    chunk.mergeSort fun a b => decide (a.bits.and (mask (some q)) ≤ b.bits.and (mask (some q)))
  else chunk

/-- `perform_sfree` after the queue is compiled. The qubits of the program are checked when its gates
are prepared for a chunk; here it is done for the whole program. -/
def applyProgram (s : Statevector N F) (ctx : Context) (alloc : Nat → Bool) (op : Compiled)
    (stat : Stat) : Option (Statevector N F) :=
  if ¬ op.inRange N then none
  else if stat.modified.len = 0 then do
    let (_, csize) ← s.forSmallChunks ctx
    s.eachChunk csize (doSfreeApply op stat.shuffle)
  else if stat.modified.len = 1 then do
    let q ← stat.modified.iter.head?
    let q ← bitIndex N q
    let s ← s.setPartition ctx (alloc 0) q
    let (_, csize) ← s.forSmallChunks ctx
    let s ← s.eachChunk csize (doSfreeSingle op q stat.shuffle)
    s.forceRepartition ctx (alloc 1) q true
  else do
    let (_, csize) ← s.forSmallChunks ctx
    let s ← s.eachChunk csize (doSfreeApply op false)
    let single := singleThreaded ctx (s.forSort ctx)
    let partitionedBy := match s.partitionedBy with
      | some q => if stat.modified.contains q then none else some q
      | none => none
    return ⟨partitionedBy, doSort single s.part0, doSort single s.part1⟩

/-- `perform_sfree`. The queue is cleared by `compile`. -/
def performSfree (s : Statevector N F) (ctx : Context) (alloc : Nat → Bool) (opq : Queue)
    (prec : Nat) : Option (Statevector N F) :=
  let (op, stat) := opq.compile N Stat.default prec
  match op with
  | none => some s
  | some op => s.applyProgram ctx alloc op stat

end

end Statevector

end Qblaze

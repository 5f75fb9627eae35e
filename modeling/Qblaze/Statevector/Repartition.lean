import Qblaze.Statevector.Ops

/-!
# The invariant of a state vector, and repartitioning

* `Statevector.Inv`: each part is strictly increasing, no bit pattern is stored twice, and a
  partition by `q` holds the elements with bit `q = i` in part `i`.
* `forceRepartition_write`, `forceRepartition_fixup`, `setPartition_eq`: what repartitioning yields
  does not depend on the context.
* `partitionOn_inv`, `partitionOn_perm`: it keeps the invariant and the elements.
-/

namespace Qblaze

variable {N : Nat} {F : Type} {q : Qubit}

namespace BitSet

theorem and_full (b : BitSet N) : b.and (compl empty) = b := by
  refine BitSet.ext (funext fun k => ?_)
  show b.words k &&& ~~~(0#64) = b.words k
  rw [BitVec.not_zero, BitVec.and_allOnes]

theorem without_le_without {a b : BitSet N} (hq : q.val < 64 * N) (h : a.get q = b.get q) :
    a.without q ≤ b.without q ↔ a ≤ b := by
  rw [← not_lt, ← not_lt, without_lt_without hq h.symm]

end BitSet

namespace Statevector

/-- The keys of the merges. -/
theorem and_mask_some (e : Element N F) : e.bits.and (mask (some q)) = e.bits.without q := rfl

theorem and_mask_none : (fun e : Element N F => e.bits.and (mask none)) = fun e => e.bits :=
  funext fun e => e.bits.and_full

/-- The representation invariant. -/
structure Inv (s : Statevector N F) : Prop where
  sorted0 : Increasing (fun e => e.bits) s.part0
  sorted1 : Increasing (fun e => e.bits) s.part1
  disjoint : ∀ a ∈ s.part0, ∀ b ∈ s.part1, a.bits ≠ b.bits
  partitioned : ∀ q, s.partitionedBy = some q → q.val < 64 * N ∧
    (∀ e ∈ s.part0, e.bits.get q = false) ∧ ∀ e ∈ s.part1, e.bits.get q = true

variable {s : Statevector N F} {ctx : Context} {alloc : Bool} {l l' : List (Element N F)}

/-- No bit pattern is stored twice. -/
def Distinct (l : List (Element N F)) : Prop := l.Pairwise fun a b => a.bits ≠ b.bits

theorem Distinct.perm (h : Distinct l) (hp : l'.Perm l) : Distinct l' :=
  (hp.pairwise_iff fun hab => Ne.symm hab).mpr h

theorem Inv.distinct (h : s.Inv) : Distinct s.elements :=
  List.pairwise_append.mpr ⟨h.sorted0.imp fun hab => hab.ne, h.sorted1.imp fun hab => hab.ne, h.disjoint⟩

theorem Distinct.disjoint {l0 l1 : List (Element N F)} (h : Distinct (l0 ++ l1)) :
    ∀ a ∈ l0, ∀ b ∈ l1, a.bits ≠ b.bits := (List.pairwise_append.mp h).2.2

/-- A cleared vector satisfies the invariant. -/
theorem clear_inv (h : ∀ q, s.partitionedBy = some q → q.val < 64 * N) : s.clear.Inv where
  sorted0 := List.Pairwise.nil
  sorted1 := List.Pairwise.nil
  disjoint _ ha := absurd ha List.not_mem_nil
  partitioned q hq := ⟨h q hq, fun _ he => absurd he List.not_mem_nil,
    fun _ he => absurd he List.not_mem_nil⟩

theorem Inv.clear (h : s.Inv) : s.clear.Inv := clear_inv fun q hq => (h.partitioned q hq).1

/-- `|0...0>`, as `StatevectorImpl::new` makes it. -/
def zeroState (F : Type) [Field F] : Statevector 1 F := ⟨some 0, [⟨BitSet.empty, ⟨1, 0⟩⟩], []⟩

theorem zeroState_inv [Field F] : (zeroState F).Inv where
  sorted0 := List.pairwise_singleton _ _
  sorted1 := List.Pairwise.nil
  disjoint _ _ _ hb := absurd hb List.not_mem_nil
  partitioned q hq := by
    cases hq
    refine ⟨by decide, fun e he => ?_, fun _ he => absurd he List.not_mem_nil⟩
    rw [List.mem_singleton.mp he]
    exact BitSet.get_empty

/-- `|0> + 2|1>` on the first qubit. -/
def pairState (F : Type) [Field F] : Statevector 1 F :=
  ⟨some 0, [⟨BitSet.empty, ⟨1, 0⟩⟩], [⟨BitSet.empty.toggle 0, ⟨2, 0⟩⟩]⟩

theorem get_toggle_zero : ((BitSet.empty : BitSet 1).toggle 0).get 0 = true := by decide

theorem pairState_inv [Field F] : (pairState F).Inv where
  sorted0 := List.pairwise_singleton _ _
  sorted1 := List.pairwise_singleton _ _
  disjoint a ha b hb hab := by
    rw [List.mem_singleton.mp ha, List.mem_singleton.mp hb] at hab
    have := congrArg (fun x : BitSet 1 => x.get 0) hab
    simp only [get_toggle_zero, BitSet.get_empty, Bool.false_eq_true] at this
  partitioned q hq := by
    cases hq
    refine ⟨by decide, fun e he => ?_, fun e he => ?_⟩
    · rw [List.mem_singleton.mp he]
      exact BitSet.get_empty
    · rw [List.mem_singleton.mp he]
      exact get_toggle_zero

theorem len_eq (s : Statevector N F) : s.len = s.elements.length := List.length_append.symm

theorem isEmpty_iff : s.isEmpty = true ↔ s.elements = [] := by
  rw [isEmpty, len_eq, beq_iff_eq, List.length_eq_zero_iff]

/-! ## Sorted slices -/

theorem increasing_without (hq : q.val < 64 * N) {v : Bool} (hv : ∀ e ∈ l, e.bits.get q = v)
    (h : Increasing (fun e => e.bits) l) : Increasing (fun e => e.bits.without q) l :=
  List.Pairwise.imp_of_mem (fun {a b} ha hb hab =>
    (BitSet.without_lt_without hq ((hv a ha).trans (hv b hb).symm)).mpr hab) h

/-- A list with increasing keys is the only sorted permutation of itself. -/
theorem eq_of_perm_increasing {K : Type} [LinearOrder K] {f : Element N F → K}
    (h : Increasing f l) (hs : l'.Pairwise fun a b => f a ≤ f b) (hp : l'.Perm l) : l' = l := by
  have hle : l.Pairwise fun a b => f a ≤ f b := h.imp fun hab => hab.le
  refine hp.eq_of_pairwise (fun a b ha hb hab hba => ?_) hs hle
  have hk : f a = f b := le_antisymm hab hba
  have hn : (l.map f).Nodup := List.pairwise_map.mpr (h.imp fun hab => hab.ne)
  exact List.inj_on_of_nodup_map hn (hp.mem_iff.mp ha) hb hk

/-! ## Routing -/

theorem mem_route0 {e : Element N F} : e ∈ (route q l).1 ↔ e ∈ l ∧ e.bits.get q = false := by
  simp [route]

theorem mem_route1 {e : Element N F} : e ∈ (route q l).2 ↔ e ∈ l ∧ e.bits.get q = true := by
  simp [route]

theorem route_perm (q : Qubit) (l : List (Element N F)) : ((route q l).1 ++ (route q l).2).Perm l :=
  List.perm_append_comm.trans (List.filter_append_perm (fun e : Element N F => e.bits.get q) l)

/-- `do_repartition_count` counts what the other loop writes. -/
theorem doRepartitionCount_eq {chunk0 chunk1 : List (Element N F)} (h : l.Perm (chunk0 ++ chunk1)) :
    doRepartitionCount q chunk0 chunk1 = ((route q l).1.length, (route q l).2.length) := by
  have h1 : (route q l).2.length = chunk0.countP (·.bits.get q) + chunk1.countP (·.bits.get q) := by
    rw [← List.countP_append, ← h.countP_eq, List.countP_eq_length_filter]
    rfl
  have hlen : (route q l).1.length + (route q l).2.length = chunk0.length + chunk1.length := by
    rw [← List.length_append, (route_perm q l).length_eq, h.length_eq, List.length_append]
  unfold doRepartitionCount
  rw [h1]
  exact Prod.ext (by simp only; omega) rfl

/-- The elements of both parts in the order of `f`, routed by bit `q`. -/
def repartition {K : Type} [LinearOrder K] (s : Statevector N F) (f : Element N F → K) (q : Qubit) :
    Statevector N F :=
  { s with
    part0 := (route q (mergeDistinct f s.part0 s.part1)).1
    part1 := (route q (mergeDistinct f s.part0 s.part1)).2 }

theorem repartition_perm {K : Type} [LinearOrder K] (f : Element N F → K) (q : Qubit) :
    (s.repartition f q).elements.Perm s.elements :=
  (route_perm q _).trans (mergeDistinct_perm _ _)

/-- Routing the pairs of chunks is routing the whole. -/
theorem replace_route {K : Type} [LinearOrder K] {f : Element N F → K}
    {ps : List (List (Element N F) × List (Element N F))} (h : Chunked f s.part0 s.part1 ps) :
    s.replace alloc (ps.map fun p => doRepartitionCount q p.1 p.2)
        (ps.map fun p => route q (mergeDistinct f p.1 p.2)) =
      some (if tryReserve alloc s.len then s.repartition f q else s.clear) := by
  have hcount : (ps.map fun p => doRepartitionCount q p.1 p.2) =
      (ps.map fun p => route q (mergeDistinct f p.1 p.2)).map fun p => (p.1.length, p.2.length) := by
    rw [List.map_map]
    exact List.map_congr_left fun p _ => doRepartitionCount_eq (mergeDistinct_perm p.1 p.2)
  have hparts : ∀ g : Element N F → Bool,
      (ps.map fun p => (mergeDistinct f p.1 p.2).filter g).flatten =
        (mergeDistinct f s.part0 s.part1).filter g := fun g => by
    rw [← mergeDistinct_pairs h, ← flatten_map_filter, List.map_map]
    rfl
  have hlen : (s.repartition f q).len = s.len := by
    rw [len_eq, len_eq, (repartition_perm f q).length_eq]
  rw [hcount, replace_eq (s.repartition f q).part0 (s.repartition f q).part1,
    ← len, hlen]
  · rfl
  · rw [List.map_map]
    exact hparts _
  · rw [List.map_map]
    exact hparts _

/-- `force_repartition` does not depend on the context. -/
theorem forceRepartition_write (hm : ∃ b count, s.forMerge ctx = some (b, count))
    (h0 : Increasing (fun e => e.bits) s.part0) (h1 : Increasing (fun e => e.bits) s.part1) :
    s.forceRepartition ctx alloc q false =
      some (if tryReserve alloc s.len then s.repartition (fun e => e.bits) q else s.clear) := by
  obtain ⟨b, count, hm⟩ := hm
  obtain ⟨ps, hps, hch, -⟩ := mergeChunkPairs_spec h0 h1 count
  unfold forceRepartition doSubchunks
  simp only [hm, Option.bind_eq_bind, Option.bind_some, Bool.false_eq_true, if_false, and_mask_none,
    hps]
  exact replace_route hch

theorem forceRepartition_fixup (hm : ∃ b count, s.forMerge ctx = some (b, count))
    (h0 : Increasing (fun e => e.bits.without q) s.part0)
    (h1 : Increasing (fun e => e.bits.without q) s.part1) :
    s.forceRepartition ctx alloc q true =
      some (if tryReserve alloc s.len then s.repartition (fun e => e.bits.without q) q
        else s.clear) := by
  obtain ⟨b, count, hm⟩ := hm
  obtain ⟨ps, hps, hch, -⟩ := mergeChunkPairs_spec h0 h1 count
  unfold forceRepartition doSubchunks
  simp only [hm, Option.bind_eq_bind, Option.bind_some, if_true, and_mask_some, hps]
  exact replace_route hch

/-- If `force_repartition` returns, the number of chunks was found. -/
theorem forMerge_of_forceRepartition {isFixup : Bool}
    (h : s.forceRepartition ctx alloc q isFixup = some t) :
    ∃ b count, s.forMerge ctx = some (b, count) := by
  unfold forceRepartition at h
  simp only [Option.bind_eq_bind, Option.bind_eq_some_iff] at h
  obtain ⟨r, hr, -⟩ := h
  exact ⟨r.1, r.2, hr⟩

/-- Routing sorted elements gives a partition by `q`. -/
theorem repartition_inv {K : Type} [LinearOrder K] {f : Element N F → K} (hq : q.val < 64 * N)
    (hs : s.partitionedBy = some q) (hd : Distinct s.elements)
    (h0 : Increasing f s.part0) (h1 : Increasing f s.part1)
    (hf : ∀ a b : Element N F, a.bits.get q = b.bits.get q → f a ≤ f b → a.bits ≤ b.bits) :
    (s.repartition f q).Inv := by
  have hsorted := mergeDistinct_sorted h0 h1
  have hdist : Distinct (mergeDistinct f s.part0 s.part1) := hd.perm (mergeDistinct_perm _ _)
  have hpart : ∀ (g : Element N F → Bool) (v : Bool),
      (∀ e ∈ (mergeDistinct f s.part0 s.part1).filter g, e.bits.get q = v) →
      Increasing (fun e => e.bits) ((mergeDistinct f s.part0 s.part1).filter g) := by
    intro g v hv
    refine List.Pairwise.imp_of_mem (fun {a b} ha hb hab => ?_) ((hdist.filter g).and
      (hsorted.filter g))
    exact lt_of_le_of_ne (hf a b ((hv a ha).trans (hv b hb).symm) hab.2) hab.1
  refine ⟨hpart _ false fun e he => (mem_route0.mp he).2, hpart _ true fun e he => (mem_route1.mp he).2,
    Distinct.disjoint (hd.perm (repartition_perm f q)), fun r hr => ?_⟩
  rw [repartition, hs, Option.some.injEq] at hr
  subst hr
  exact ⟨hq, fun e he => (mem_route0.mp he).2, fun e he => (mem_route1.mp he).2⟩

/-! ## `set_partition` -/

/-- What `set_partition` yields. -/
def partitionOn (s : Statevector N F) (alloc : Bool) (q : Qubit) : Statevector N F :=
  if s.partitionedBy = some q then s
  else if tryReserve alloc s.len then
    { s with partitionedBy := some q }.repartition (fun e => e.bits) q
  else { s with partitionedBy := some q }.clear

theorem setPartition_eq (hc : ctx.Positive) (hs : s.Inv) :
    s.setPartition ctx alloc q = some (s.partitionOn alloc q) := by
  unfold setPartition partitionOn
  split
  · rfl
  · exact forceRepartition_write (forMerge_some hc) hs.sorted0 hs.sorted1

/-- In any context, if `set_partition` returns. -/
theorem setPartition_of_some (hs : s.Inv) (h : s.setPartition ctx alloc q = some t) :
    t = s.partitionOn alloc q := by
  unfold setPartition at h
  unfold partitionOn
  split at h
  · rename_i hp
    cases h
    rw [if_pos hp]
  · rename_i hp
    rw [forceRepartition_write (forMerge_of_forceRepartition h) hs.sorted0 hs.sorted1] at h
    cases h
    rw [if_neg hp]
    rfl

theorem partitionOn_partitionedBy : (s.partitionOn alloc q).partitionedBy = some q := by
  unfold partitionOn
  split
  · assumption
  · split <;> rfl

theorem partitionOn_inv (hq : q.val < 64 * N) (hs : s.Inv) (alloc : Bool) :
    (s.partitionOn alloc q).Inv := by
  unfold partitionOn
  split
  · exact hs
  split
  · exact repartition_inv hq rfl hs.distinct hs.sorted0 hs.sorted1 fun _ _ _ h => h
  · refine clear_inv fun r hr => ?_
    cases hr
    exact hq

/-- The reservation is needed, and fails. -/
theorem partitionOn_failed (h : ¬ (s.partitionedBy = some q ∨ tryReserve alloc s.len = true)) :
    (s.partitionOn alloc q).part0 = [] ∧ (s.partitionOn alloc q).part1 = [] := by
  unfold partitionOn
  rw [if_neg fun hq => h (.inl hq), if_neg fun ht => h (.inr ht)]
  exact ⟨rfl, rfl⟩

theorem partitionOn_granted (h : s.partitionedBy = some q ∨ tryReserve alloc s.len = true) :
    s.partitionOn alloc q = s.partitionOn true q := by
  unfold partitionOn
  split
  · rfl
  · rename_i hne
    rw [if_pos (h.resolve_left hne), if_pos (by simp [tryReserve])]

/-- Repartitioning keeps the elements, unless its reservation fails. -/
theorem partitionOn_perm (h : s.partitionedBy = some q ∨ tryReserve alloc s.len = true) :
    (s.partitionOn alloc q).elements.Perm s.elements := by
  unfold partitionOn
  split
  · exact List.Perm.refl _
  · rename_i hne
    rw [if_pos (h.resolve_left hne)]
    exact repartition_perm _ q

end Statevector

end Qblaze

import Qblaze.Statevector.Repartition

/-!
# Applying a gate to a state vector

`perform_u4` repartitions by the qubit, merges the two parts by the bits without the qubit, and
writes what the gate makes of each pair.

* `performU4_eq`: what it yields does not depend on the context.
* `u4_inv`: it keeps the invariant.
* `Halves.pairOut_eq`: for every pair of basis states, the amplitudes that are stored afterwards.
-/

namespace Qblaze

variable {N : Nat} {F : Type} [Field F] [LinearOrder F] [Eps F] {q : Qubit}

namespace Cplx

omit [LinearOrder F] [Eps F]

theorem mul_ZERO (a : Cplx F) : a * ZERO = ZERO := by
  apply Cplx.ext
  · show a.re * 0 - a.im * 0 = 0
    rw [mul_zero, mul_zero, sub_zero]
  · show a.re * 0 + a.im * 0 = 0
    rw [mul_zero, mul_zero, add_zero]

theorem add_ZERO (a : Cplx F) : a + ZERO = a :=
  Cplx.ext (add_zero a.re) (add_zero a.im)

theorem ZERO_add (a : Cplx F) : ZERO + a = a :=
  Cplx.ext (zero_add a.re) (zero_add a.im)

end Cplx

/-- The two amplitudes of the gate applied to a pair of amplitudes. -/
def U4.out (gate : U4 F) (v : Bool) (a b : Cplx F) : Cplx F :=
  if v then gate.v01 * a + gate.v10 * b else gate.v00 * a + gate.v11 * b

/-- What `accumulate` returns for them. -/
def U4.keeps (gate : U4 F) (v : Bool) (a b : Cplx F) : Bool :=
  if v then ((gate.v01 * a).accumulate (gate.v10 * b)).2
  else ((gate.v00 * a).accumulate (gate.v11 * b)).2

namespace Statevector

variable {s : Statevector N F} {ctx : Context} {gate : U4 F}

/-- What `do_u4_write` goes through. -/
def u4Items (s : Statevector N F) (q : Qubit) : List (MergeEq (Element N F)) :=
  mergeEq (fun e => e.bits.without q) s.part0 s.part1

/-- What `do_u4_write` writes. -/
def u4Result (s : Statevector N F) (q : Qubit) (gate : U4 F) : Statevector N F :=
  { s with
    part0 := (s.u4Items q).flatMap fun m => (u4Write q gate m).1
    part1 := (s.u4Items q).flatMap fun m => (u4Write q gate m).2 }

/-- What `perform_u4` yields. -/
def u4 (s : Statevector N F) (alloc : Nat → Bool) (q : Qubit) (gate : U4 F) : Statevector N F :=
  let s := s.partitionOn (alloc 0) q
  if tryReserve (alloc 1) (s.u4Result q gate).len then s.u4Result q gate else s.clear

theorem u4Count_eq (m : MergeEq (Element N F)) :
    u4Count gate m = ((u4Write q gate m).1.length, (u4Write q gate m).2.length) := by
  cases m with
  | lhs a => rfl
  | rhs b => rfl
  | both a b =>
    unfold u4Count u4Write
    simp only
    refine Prod.ext ?_ ?_
    · cases ((gate.apply false a.val).1.accumulate (gate.apply true b.val).2).2 <;> rfl
    · cases ((gate.apply false a.val).2.accumulate (gate.apply true b.val).1).2 <;> rfl

/-- `do_u4_count` counts what `do_u4_write` writes. -/
theorem doU4Count_eq (chunk0 chunk1 : List (Element N F)) :
    doU4Count q gate chunk0 chunk1 =
      ((doU4Write q gate chunk0 chunk1).1.length, (doU4Write q gate chunk0 chunk1).2.length) := by
  unfold doU4Count doU4Write
  simp only [List.length_flatMap, u4Count_eq (q := q)]

/-- The chunks of `perform_u4`, for any number of them. -/
theorem u4Chunks_eq {t : Statevector N F} (hq : q.val < 64 * N) (hi : t.Inv)
    (hp : t.partitionedBy = some q) (ok : Bool) (count : Nat) :
    (do
      let subchunks ← doSubchunks (some q) count t.part0 t.part1
      t.replace ok (subchunks.map fun p => doU4Count q gate p.1 p.2)
        (subchunks.map fun p => doU4Write q gate p.1 p.2)) =
      some (if tryReserve ok (t.u4Result q gate).len then t.u4Result q gate else t.clear) := by
  obtain ⟨-, hp0, hp1⟩ := hi.partitioned q hp
  obtain ⟨ps, hps, hch, -⟩ := mergeChunkPairs_spec (increasing_without hq hp0 hi.sorted0)
    (increasing_without hq hp1 hi.sorted1) count
  have hparts : ∀ g : MergeEq (Element N F) → List (Element N F),
      (ps.map fun p => (mergeEq (fun e => e.bits.without q) p.1 p.2).flatMap g).flatten =
        (t.u4Items q).flatMap g := fun g =>
    hch.flatten_eq (g := fun a b => (mergeEq (fun e => e.bits.without q) a b).flatMap g)
      (by rw [mergeEq_nil_left]; rfl) fun h => by rw [mergeEq_append h, List.flatMap_append]
  have hcount : (ps.map fun p => doU4Count q gate p.1 p.2) =
      (ps.map fun p => doU4Write q gate p.1 p.2).map fun p => (p.1.length, p.2.length) := by
    rw [List.map_map]
    exact List.map_congr_left fun p _ => doU4Count_eq p.1 p.2
  unfold doSubchunks
  simp only [and_mask_some, hps, Option.bind_eq_bind, Option.bind_some]
  rw [hcount, replace_eq (t.u4Result q gate).part0 (t.u4Result q gate).part1]
  · rfl
  · rw [List.map_map]
    exact hparts _
  · rw [List.map_map]
    exact hparts _

/-- `perform_u4` does not depend on the context. -/
theorem performU4_eq (hc : ctx.Positive) (hs : s.Inv) (hq : q.val < 64 * N) (alloc : Nat → Bool) :
    s.performU4 ctx alloc q gate = some (s.u4 alloc q gate) := by
  unfold performU4 u4
  rw [bitIndex, if_pos hq, Option.bind_eq_bind, Option.bind_some, setPartition_eq hc hs]
  simp only [Option.bind_eq_bind, Option.bind_some]
  obtain ⟨b, count, hm⟩ := @forMerge_some N F (s.partitionOn (alloc 0) q) ctx hc
  simp only [hm, Option.bind_some]
  exact u4Chunks_eq hq (partitionOn_inv hq hs (alloc 0)) partitionOn_partitionedBy (alloc 1) count

/-- In any context, if `perform_u4` returns. -/
theorem performU4_of_some {t : Statevector N F} {alloc : Nat → Bool} (hs : s.Inv)
    (h : s.performU4 ctx alloc q gate = some t) : q.val < 64 * N ∧ t = s.u4 alloc q gate := by
  unfold performU4 bitIndex at h
  split at h
  · rename_i hq
    simp only [Option.bind_eq_bind, Option.bind_some] at h
    obtain ⟨s1, hs1, h⟩ := Option.bind_eq_some_iff.mp h
    obtain ⟨r, hr, h⟩ := Option.bind_eq_some_iff.mp h
    rw [setPartition_of_some hs hs1] at h
    have hchunks := @u4Chunks_eq N F _ _ _ q gate _ hq (partitionOn_inv hq hs (alloc 0))
      partitionOn_partitionedBy (alloc 1) r.2
    rw [Option.bind_eq_bind] at hchunks
    rw [hchunks] at h
    cases h
    exact ⟨hq, rfl⟩
  · cases h

/-! ## The invariant -/

/-- The parts are partitioned by `q`, and so the halves of a pair differ in bit `q` alone. -/
structure Halves (s : Statevector N F) (q : Qubit) : Prop where
  fits : q.val < 64 * N
  inv : s.Inv
  bit0 : ∀ e ∈ s.part0, e.bits.get q = false
  bit1 : ∀ e ∈ s.part1, e.bits.get q = true

omit [Field F] [LinearOrder F] [Eps F] in
theorem halves_partitionOn (hs : s.Inv) (hq : q.val < 64 * N) (alloc : Bool) :
    (s.partitionOn alloc q).Halves q := by
  have hi := partitionOn_inv hq hs alloc
  have hp := hi.partitioned q partitionOn_partitionedBy
  exact ⟨hq, hi, hp.2.1, hp.2.2⟩

variable {m : MergeEq (Element N F)} {e : Element N F}

omit [Field F] [LinearOrder F] [Eps F] in
theorem Halves.mem_items (h : s.Halves q) :
    m ∈ s.u4Items q ↔ m.From (fun e => e.bits.without q) s.part0 s.part1 :=
  mem_mergeEq (increasing_without h.fits h.bit0 h.inv.sorted0)
    (increasing_without h.fits h.bit1 h.inv.sorted1)

/-- What is written for an item has the key of the item, and the bit of its part. -/
theorem Halves.write_bits (h : s.Halves q) (hm : m ∈ s.u4Items q) :
    (∀ e ∈ (u4Write q gate m).1, e.bits.without q = m.key (fun e => e.bits.without q) ∧
      e.bits.get q = false) ∧
    ∀ e ∈ (u4Write q gate m).2, e.bits.without q = m.key (fun e => e.bits.without q) ∧
      e.bits.get q = true := by
  rw [h.mem_items] at hm
  cases m with
  | lhs a =>
    have ha := h.bit0 a hm.1
    constructor <;> intro e he <;> rw [List.mem_singleton.mp he]
    · exact ⟨rfl, ha⟩
    · refine ⟨BitSet.without_toggle h.fits, ?_⟩
      rw [BitSet.get_toggle h.fits, ha, decide_eq_true rfl]
      rfl
  | rhs b =>
    have hb := h.bit1 b hm.1
    constructor <;> intro e he <;> rw [List.mem_singleton.mp he]
    · refine ⟨BitSet.without_toggle h.fits, ?_⟩
      rw [BitSet.get_toggle h.fits, hb, decide_eq_true rfl]
      rfl
    · exact ⟨rfl, hb⟩
  | both a b =>
    obtain ⟨ha, hb, hab⟩ := hm
    constructor <;> intro e he <;> unfold u4Write at he <;> simp only at he <;> split at he
    · rw [List.mem_singleton.mp he]
      exact ⟨rfl, h.bit0 a ha⟩
    · cases he
    · rw [List.mem_singleton.mp he]
      exact ⟨hab.symm, h.bit1 b hb⟩
    · cases he

/-- At most one element is written to each part. -/
theorem write_subsingleton (R : Element N F → Element N F → Prop) (m : MergeEq (Element N F)) :
    (u4Write q gate m).1.Pairwise R ∧ (u4Write q gate m).2.Pairwise R := by
  cases m with
  | lhs a => exact ⟨List.pairwise_singleton _ _, List.pairwise_singleton _ _⟩
  | rhs b => exact ⟨List.pairwise_singleton _ _, List.pairwise_singleton _ _⟩
  | both a b =>
    unfold u4Write
    simp only
    constructor <;> split <;> first | exact List.pairwise_singleton _ _ | exact List.Pairwise.nil

omit [Field F] [LinearOrder F] [Eps F] in
/-- Lists written item by item, in the order of the keys of the items. -/
theorem Halves.increasing (h : s.Halves q) {g : MergeEq (Element N F) → List (Element N F)} {v : Bool}
    (hg : ∀ m ∈ s.u4Items q, ∀ e ∈ g m,
      e.bits.without q = m.key (fun e => e.bits.without q) ∧ e.bits.get q = v)
    (hone : ∀ m ∈ s.u4Items q, (g m).Pairwise fun a b => a.bits < b.bits) :
    Increasing (fun e => e.bits) ((s.u4Items q).flatMap g) := by
  refine List.pairwise_flatMap.mpr ⟨hone, ?_⟩
  have hsorted := mergeEq_sorted (increasing_without h.fits h.bit0 h.inv.sorted0)
    (increasing_without h.fits h.bit1 h.inv.sorted1)
  refine List.Pairwise.imp_of_mem (fun {m m'} hm hm' hlt x hx y hy => ?_) hsorted
  obtain ⟨hkx, hvx⟩ := hg m hm x hx
  obtain ⟨hky, hvy⟩ := hg m' hm' y hy
  rw [← hkx, ← hky] at hlt
  exact (BitSet.without_lt_without h.fits (hvx.trans hvy.symm)).mp hlt

theorem Halves.result_bit0 (h : s.Halves q) (he : e ∈ (s.u4Result q gate).part0) :
    e.bits.get q = false := by
  obtain ⟨m, hm, he⟩ := List.mem_flatMap.mp he
  exact ((h.write_bits hm).1 e he).2

theorem Halves.result_bit1 (h : s.Halves q) (he : e ∈ (s.u4Result q gate).part1) :
    e.bits.get q = true := by
  obtain ⟨m, hm, he⟩ := List.mem_flatMap.mp he
  exact ((h.write_bits hm).2 e he).2

theorem Halves.result_inv (h : s.Halves q) (hq : s.partitionedBy = some q) :
    (s.u4Result q gate).Inv where
  sorted0 := h.increasing (fun m hm e he => (h.write_bits hm).1 e he)
    fun m _ => (write_subsingleton _ m).1
  sorted1 := h.increasing (fun m hm e he => (h.write_bits hm).2 e he)
    fun m _ => (write_subsingleton _ m).2
  disjoint a ha b hb he := by
    have h0 := h.result_bit0 ha
    rw [he, h.result_bit1 hb] at h0
    cases h0
  partitioned r hr := by
    rw [u4Result, hq, Option.some.injEq] at hr
    subst hr
    exact ⟨h.fits, fun e he => h.result_bit0 he, fun e he => h.result_bit1 he⟩

/-- `perform_u4` keeps the invariant. -/
theorem u4_inv (hs : s.Inv) (hq : q.val < 64 * N) (alloc : Nat → Bool) :
    (s.u4 alloc q gate).Inv := by
  have h := halves_partitionOn hs hq (alloc 0)
  unfold u4
  simp only
  split
  · exact h.result_inv partitionOn_partitionedBy
  · exact h.inv.clear

theorem u4_partitionedBy (alloc : Nat → Bool) : (s.u4 alloc q gate).partitionedBy = some q := by
  unfold u4
  simp only
  split
  · exact partitionOn_partitionedBy
  · exact partitionOn_partitionedBy

/-! ## Amplitudes -/

omit [Field F] [LinearOrder F] [Eps F] in
/-- `lookup` finds what is stored. -/
theorem Inv.lookup_eq_some (hs : s.Inv) {b : BitSet N} {z : Cplx F} :
    s.lookup b = some z ↔ (⟨b, z⟩ : Element N F) ∈ s.elements := by
  have hfind : ∀ l : List (Element N F), Increasing (fun e => e.bits) l → ∀ e,
      (l.find? fun e => e.bits = b) = some e ↔ e ∈ l ∧ e.bits = b := by
    intro l hl e
    refine ⟨fun h => ⟨List.mem_of_find?_eq_some h, by simpa using List.find?_some h⟩, ?_⟩
    rintro ⟨he, hb⟩
    cases hf : l.find? fun e => e.bits = b with
    | none => exact absurd (by simpa using hb) (List.find?_eq_none.mp hf e he)
    | some e' =>
      have hb' : e'.bits = b := by simpa using List.find?_some hf
      have hn : (l.map fun e => e.bits).Nodup := List.pairwise_map.mpr (hl.imp fun hab => hab.ne)
      rw [List.inj_on_of_nodup_map hn (List.mem_of_find?_eq_some hf) he (hb'.trans hb.symm)]
  unfold lookup elements
  rw [List.mem_append]
  split
  · rename_i e he
    obtain ⟨he, hb⟩ := (hfind _ hs.sorted0 e).mp he
    rw [Option.some.injEq]
    constructor
    · rintro rfl
      exact .inl (by rwa [← hb])
    · rintro (hz | hz)
      · have := (hfind _ hs.sorted0 e).mpr ⟨he, hb⟩
        rw [(hfind _ hs.sorted0 ⟨b, z⟩).mpr ⟨hz, rfl⟩, Option.some.injEq] at this
        rw [← this]
      · exact absurd hb (hs.disjoint e he _ hz)
  · rename_i hnone
    rw [Option.map_eq_some_iff]
    constructor
    · rintro ⟨e, he, rfl⟩
      obtain ⟨he, hb⟩ := (hfind _ hs.sorted1 e).mp he
      exact .inr (by rwa [← hb])
    · rintro (hz | hz)
      · exact absurd (decide_eq_true rfl) (List.find?_eq_none.mp hnone _ hz)
      · exact ⟨_, (hfind _ hs.sorted1 _).mpr ⟨hz, rfl⟩, rfl⟩

omit [Field F] [LinearOrder F] [Eps F] in
/-- Vectors with the same elements have the same amplitudes. -/
theorem lookup_perm {t : Statevector N F} (hs : s.Inv) (ht : t.Inv) (h : s.elements.Perm t.elements)
    (b : BitSet N) : s.lookup b = t.lookup b := by
  refine Option.ext fun z => ?_
  rw [hs.lookup_eq_some, ht.lookup_eq_some, h.mem_iff]

/-- The item of the merge for the basis state `x` and the one with bit `q` set. -/
def itemAt (q : Qubit) (x : BitSet N) (a b : Option (Cplx F)) : Option (MergeEq (Element N F)) :=
  match a, b with
  | some a, some b => some (.both ⟨x, a⟩ ⟨x.toggle q, b⟩)
  | some a, none => some (.lhs ⟨x, a⟩)
  | none, some b => some (.rhs ⟨x.toggle q, b⟩)
  | none, none => none

variable {x : BitSet N}

omit [Field F] [LinearOrder F] [Eps F] in
theorem Halves.stored0 (h : s.Halves q) (hx : x.get q = false) {a : Cplx F} :
    s.lookup x = some a ↔ (⟨x, a⟩ : Element N F) ∈ s.part0 := by
  rw [h.inv.lookup_eq_some, elements, List.mem_append]
  refine ⟨fun hm => hm.resolve_right fun h1 => ?_, .inl⟩
  have := h.bit1 _ h1
  rw [hx] at this
  cases this

omit [Field F] [LinearOrder F] [Eps F] in
theorem Halves.stored1 (h : s.Halves q) {y : BitSet N} (hy : y.get q = true) {a : Cplx F} :
    s.lookup y = some a ↔ (⟨y, a⟩ : Element N F) ∈ s.part1 := by
  rw [h.inv.lookup_eq_some, elements, List.mem_append]
  refine ⟨fun hm => hm.resolve_left fun h0 => ?_, .inr⟩
  have := h.bit0 _ h0
  rw [hy] at this
  cases this

omit [Field F] [LinearOrder F] [Eps F] in
theorem Halves.get_toggle (h : s.Halves q) (hx : x.get q = false) : (x.toggle q).get q = true := by
  rw [BitSet.get_toggle h.fits, hx, decide_eq_true rfl]
  rfl

omit [Field F] [LinearOrder F] [Eps F] in
/-- An element of part `0` with the key of the pair is the amplitude of `x`. -/
theorem Halves.key0 (h : s.Halves q) (hx : x.get q = false) (he : e ∈ s.part0)
    (hk : e.bits.without q = x.without q) : e.bits = x ∧ s.lookup x = some e.val := by
  have hb : e.bits = x := BitSet.without_inj h.fits ((h.bit0 e he).trans hx.symm) hk
  exact ⟨hb, (h.stored0 hx).mpr (by rwa [← hb])⟩

omit [Field F] [LinearOrder F] [Eps F] in
theorem Halves.key1 (h : s.Halves q) (hx : x.get q = false) (he : e ∈ s.part1)
    (hk : e.bits.without q = x.without q) :
    e.bits = x.toggle q ∧ s.lookup (x.toggle q) = some e.val := by
  have hb : e.bits = x.toggle q := BitSet.without_inj h.fits
    ((h.bit1 e he).trans (h.get_toggle hx).symm) (hk.trans (BitSet.without_toggle h.fits).symm)
  exact ⟨hb, (h.stored1 (h.get_toggle hx)).mpr (by rwa [← hb])⟩

omit [Field F] [LinearOrder F] [Eps F] in
theorem Halves.absent0 (h : s.Halves q) (hx : x.get q = false) (hn : s.lookup x = none) :
    ∀ e ∈ s.part0, e.bits.without q ≠ x.without q := fun e he hk => by
  have := (h.key0 hx he hk).2
  rw [hn] at this
  cases this

omit [Field F] [LinearOrder F] [Eps F] in
theorem Halves.absent1 (h : s.Halves q) (hx : x.get q = false) (hn : s.lookup (x.toggle q) = none) :
    ∀ e ∈ s.part1, e.bits.without q ≠ x.without q := fun e he hk => by
  have := (h.key1 hx he hk).2
  rw [hn] at this
  cases this

omit [Field F] [LinearOrder F] [Eps F] in
/-- The merge has an item for a pair of basis states, if one of them is stored. -/
theorem Halves.mem_itemAt (h : s.Halves q) (hx : x.get q = false)
    (hm : itemAt q x (s.lookup x) (s.lookup (x.toggle q)) = some m) :
    m ∈ s.u4Items q ∧ m.key (fun e => e.bits.without q) = x.without q := by
  have hkey : (x.toggle q).without q = x.without q := BitSet.without_toggle h.fits
  rw [h.mem_items]
  cases ha : s.lookup x with
  | none =>
    cases hb : s.lookup (x.toggle q) with
    | none => rw [ha, hb] at hm; cases hm
    | some b =>
      rw [ha, hb] at hm
      cases hm
      exact ⟨⟨(h.stored1 (h.get_toggle hx)).mp hb, fun e he hk =>
        h.absent0 hx ha e he (hk.trans hkey)⟩, hkey⟩
  | some a =>
    cases hb : s.lookup (x.toggle q) with
    | none =>
      rw [ha, hb] at hm
      cases hm
      exact ⟨⟨(h.stored0 hx).mp ha, fun e he hk => h.absent1 hx hb e he hk.symm⟩, rfl⟩
    | some b =>
      rw [ha, hb] at hm
      cases hm
      exact ⟨⟨(h.stored0 hx).mp ha, (h.stored1 (h.get_toggle hx)).mp hb, hkey.symm⟩, rfl⟩

omit [Field F] [LinearOrder F] [Eps F] in
/-- It is the only item for the pair. -/
theorem Halves.itemAt_of_mem (h : s.Halves q) (hx : x.get q = false) (hm : m ∈ s.u4Items q)
    (hk : m.key (fun e => e.bits.without q) = x.without q) :
    itemAt q x (s.lookup x) (s.lookup (x.toggle q)) = some m := by
  rw [h.mem_items] at hm
  cases m with
  | lhs e =>
    obtain ⟨he, hne⟩ := hm
    obtain ⟨rfl, ha⟩ := h.key0 hx he hk
    cases hb : s.lookup (e.bits.toggle q) with
    | none => rw [ha, itemAt]
    | some b =>
      exact absurd (BitSet.without_toggle h.fits).symm
        (hne _ ((h.stored1 (h.get_toggle hx)).mp hb))
  | rhs e =>
    obtain ⟨he, hne⟩ := hm
    obtain ⟨hbits, hb⟩ := h.key1 hx he hk
    cases ha : s.lookup x with
    | none => rw [hb, itemAt, ← hbits]
    | some a => exact absurd hk.symm (hne _ ((h.stored0 hx).mp ha))
  | both e e' =>
    obtain ⟨he, he', hee⟩ := hm
    obtain ⟨rfl, ha⟩ := h.key0 hx he hk
    obtain ⟨hbits, hb⟩ := h.key1 hx he' hee.symm
    rw [ha, hb, itemAt, ← hbits]

theorem Halves.result (h : s.Halves q) (hq : s.partitionedBy = some q) :
    (s.u4Result q gate).Halves q :=
  ⟨h.fits, h.result_inv hq, fun _ he => h.result_bit0 he, fun _ he => h.result_bit1 he⟩

theorem Halves.lookup_result0 (h : s.Halves q) (hq : s.partitionedBy = some q)
    (hx : x.get q = false) {z : Cplx F} : (s.u4Result q gate).lookup x = some z ↔
      ∃ m, itemAt q x (s.lookup x) (s.lookup (x.toggle q)) = some m ∧
        (⟨x, z⟩ : Element N F) ∈ (u4Write q gate m).1 := by
  rw [(h.result hq).stored0 hx, u4Result, List.mem_flatMap]
  constructor
  · rintro ⟨m, hm, he⟩
    exact ⟨m, h.itemAt_of_mem hx hm ((h.write_bits hm).1 _ he).1.symm, he⟩
  · rintro ⟨m, hm, he⟩
    exact ⟨m, (h.mem_itemAt hx hm).1, he⟩

theorem Halves.lookup_result1 (h : s.Halves q) (hq : s.partitionedBy = some q)
    (hx : x.get q = false) {z : Cplx F} : (s.u4Result q gate).lookup (x.toggle q) = some z ↔
      ∃ m, itemAt q x (s.lookup x) (s.lookup (x.toggle q)) = some m ∧
        (⟨x.toggle q, z⟩ : Element N F) ∈ (u4Write q gate m).2 := by
  rw [(h.result hq).stored1 (h.get_toggle hx), u4Result, List.mem_flatMap]
  constructor
  · rintro ⟨m, hm, he⟩
    have hk := ((h.write_bits hm).2 _ he).1.symm.trans (BitSet.without_toggle h.fits)
    exact ⟨m, h.itemAt_of_mem hx hm hk, he⟩
  · rintro ⟨m, hm, he⟩
    exact ⟨m, (h.mem_itemAt hx hm).1, he⟩

/-- What is stored for one half of a pair, from the amplitudes `a` and `b` of the pair. -/
def pairOut (gate : U4 F) (v : Bool) (a b : Option (Cplx F)) : Option (Cplx F) :=
  if a = none ∧ b = none then none
  else if a.isSome ∧ b.isSome ∧ gate.keeps v (a.getD Cplx.ZERO) (b.getD Cplx.ZERO) = false then none
  else some (gate.out v (a.getD Cplx.ZERO) (b.getD Cplx.ZERO))

omit [Field F] [LinearOrder F] [Eps F] in
/-- Membership in what is written for a pair that is stored in full. -/
theorem mem_ite_singleton {c : Bool} {b : BitSet N} {r z : Cplx F} :
    (⟨b, z⟩ : Element N F) ∈ (if c = true then [⟨b, r⟩] else []) ↔
      (if c = false then none else some r) = some z := by
  cases c <;> simp [eq_comm]

theorem Halves.pairOut_eq (h : s.Halves q) (hq : s.partitionedBy = some q) (hx : x.get q = false) :
    (s.u4Result q gate).lookup x = pairOut gate false (s.lookup x) (s.lookup (x.toggle q)) ∧
    (s.u4Result q gate).lookup (x.toggle q) =
      pairOut gate true (s.lookup x) (s.lookup (x.toggle q)) := by
  constructor
  · refine Option.ext fun z => ?_
    rw [h.lookup_result0 hq hx]
    cases ha : s.lookup x <;> cases hb : s.lookup (x.toggle q) <;>
      simp only [itemAt, pairOut, Option.some.injEq, exists_eq_left', reduceCtorEq, false_and,
        exists_false, and_self, if_true, and_false, if_false, Option.isSome, Option.getD, U4.out,
        Bool.false_eq_true, true_and]
    · rw [Cplx.mul_ZERO, Cplx.ZERO_add]
      simp [u4Write, U4.apply, eq_comm, BitSet.toggle_toggle h.fits]
    · rw [Cplx.mul_ZERO, Cplx.add_ZERO]
      simp [u4Write, U4.apply, eq_comm]
    · exact mem_ite_singleton
  · refine Option.ext fun z => ?_
    rw [h.lookup_result1 hq hx]
    cases ha : s.lookup x <;> cases hb : s.lookup (x.toggle q) <;>
      simp only [itemAt, pairOut, Option.some.injEq, exists_eq_left', reduceCtorEq, false_and,
        exists_false, and_self, if_true, and_false, if_false, Option.isSome, Option.getD, U4.out,
        Bool.false_eq_true, true_and]
    · rw [Cplx.mul_ZERO, Cplx.ZERO_add]
      simp [u4Write, U4.apply, eq_comm]
    · rw [Cplx.mul_ZERO, Cplx.add_ZERO]
      simp [u4Write, U4.apply, eq_comm]
    · exact mem_ite_singleton

/-- The reservations of `perform_u4` that are made succeed. -/
def u4Granted (s : Statevector N F) (alloc : Nat → Bool) (q : Qubit) (gate : U4 F) : Bool :=
  (decide (s.partitionedBy = some q) || tryReserve (alloc 0) s.len) &&
    tryReserve (alloc 1) ((s.partitionOn true q).u4Result q gate).len

theorem u4_granted {alloc : Nat → Bool} (h : s.u4Granted alloc q gate = true) :
    s.u4 alloc q gate = (s.partitionOn true q).u4Result q gate := by
  rw [u4Granted, Bool.and_eq_true, Bool.or_eq_true, decide_eq_true_iff] at h
  unfold u4
  simp only [partitionOn_granted h.1, h.2, if_true]

/-- If a reservation fails, the vector is empty afterwards. -/
theorem u4_failed {alloc : Nat → Bool} (h : s.u4Granted alloc q gate = false) :
    (s.u4 alloc q gate).isEmpty = true := by
  unfold u4
  simp only
  split
  · rename_i hr
    by_cases hp : s.partitionedBy = some q ∨ tryReserve (alloc 0) s.len = true
    · rw [partitionOn_granted hp] at hr
      rw [u4Granted, hr, Bool.and_true, Bool.or_eq_false_iff, decide_eq_false_iff_not] at h
      rw [h.2] at hp
      exact absurd (hp.resolve_right (by decide)) h.1
    · obtain ⟨h0, h1⟩ := partitionOn_failed hp
      have hi : (s.partitionOn (alloc 0) q).u4Items q = [] := by
        rw [u4Items, h0, h1, mergeEq_nil_left]
        rfl
      rw [isEmpty, len, u4Result, hi]
      rfl
  · rfl

/-- `perform_u4` computes the gate, whatever the chunking. One vector is the result for every
context of positive sizes, unless a reservation fails, which empties the vector. For each pair of
basis states it stores the two amplitudes of the gate applied to the pair, except that nothing is
stored if neither state was, and that an output of two stored amplitudes is left out exactly when
`accumulate` returns false for it. -/
theorem performU4_computes (s : Statevector N F) (hs : s.Inv) (q : Qubit) (hq : q.val < 64 * N)
    (gate : U4 F) : ∃ r : Statevector N F,
      (∀ ctx alloc, ctx.Positive → ∃ t, s.performU4 ctx alloc q gate = some t ∧
        if s.u4Granted alloc q gate then t = r else t.isEmpty = true) ∧
      r.Inv ∧
      ∀ x : BitSet N, x.get q = false →
        r.lookup x = pairOut gate false (s.lookup x) (s.lookup (x.toggle q)) ∧
        r.lookup (x.toggle q) = pairOut gate true (s.lookup x) (s.lookup (x.toggle q)) := by
  have h := halves_partitionOn hs hq true
  refine ⟨(s.partitionOn true q).u4Result q gate, fun ctx alloc hc => ⟨_, performU4_eq hc hs hq alloc, ?_⟩,
    h.result_inv partitionOn_partitionedBy, fun x hx => ?_⟩
  · split
    · rename_i hg
      exact u4_granted hg
    · rename_i hg
      exact u4_failed (Bool.eq_false_iff.mpr hg)
  · have hl : ∀ b, (s.partitionOn true q).lookup b = s.lookup b :=
      lookup_perm h.inv hs (partitionOn_perm (.inr (by simp [tryReserve])))
    rw [← hl x, ← hl (x.toggle q)]
    exact h.pairOut_eq partitionOn_partitionedBy hx

/-- The matrix of an X. -/
def flipGate : U4 ℚ := ⟨Cplx.ZERO, Cplx.ONE, Cplx.ZERO, Cplx.ONE⟩

/-- Two amplitudes change places. -/
theorem performU4_computes_pairState :
    ∃ r : Statevector 1 ℚ,
      (pairState ℚ).performU4 Context.default (fun _ => true) 0 flipGate = some r ∧
      r.lookup BitSet.empty = some ⟨2, 0⟩ ∧ r.lookup (BitSet.empty.toggle 0) = some ⟨1, 0⟩ := by
  obtain ⟨r, hr, -, hx⟩ := performU4_computes (pairState ℚ) pairState_inv 0 (by decide) flipGate
  obtain ⟨t, ht, he⟩ := hr Context.default (fun _ => true) Context.default_positive
  rw [if_pos (by simp [u4Granted, tryReserve])] at he
  subst he
  have h0 : (pairState ℚ).lookup BitSet.empty = some ⟨1, 0⟩ := by decide
  have h1 : (pairState ℚ).lookup (BitSet.empty.toggle (0 : Qubit)) = some ⟨2, 0⟩ := by decide
  have h := hx BitSet.empty BitSet.get_empty
  rw [h0, h1] at h
  refine ⟨t, ht, h.1.trans ?_, h.2.trans ?_⟩ <;> decide +kernel

/-- If no memory is left, the amplitudes are lost. -/
theorem performU4_unallocated :
    ∃ t, (zeroState ℚ).performU4 Context.default (fun _ => false) 0 flipGate = some t ∧
      (zeroState ℚ).lookup BitSet.empty = some Cplx.ONE ∧
      (zeroState ℚ).lookup (BitSet.empty.toggle 0) = none ∧
      t.lookup (BitSet.empty.toggle 0) ≠ some (flipGate.out true Cplx.ONE Cplx.ZERO) := by
  have he : ((zeroState ℚ).u4 (fun _ => false) 0 flipGate).isEmpty = true := by
    refine u4_failed ?_
    have hi : ((zeroState ℚ).partitionOn true 0).u4Items 0 = [.lhs ⟨BitSet.empty, ⟨1, 0⟩⟩] :=
      mergeEq_nil_right _
    rw [u4Granted, u4Result, hi]
    rfl
  refine ⟨_, performU4_eq Context.default_positive zeroState_inv (by decide) _, by decide, by decide,
    fun h => ?_⟩
  rw [(u4_inv zeroState_inv (by decide) _).lookup_eq_some, isEmpty_iff.mp he] at h
  cases h

end Statevector

end Qblaze

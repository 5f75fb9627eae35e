import Qblaze.Statevector.Gate
import Qblaze.Statevector.Program

/-!
# Measurement, import and reachable state vectors

* `premeasure_eq`: the two sums, whatever the chunking.
* `measure_cases`: whatever path `measure` takes, it keeps the elements with the measured bit, divided
  by the scale, unless the reservation fails.
* `importFrom_inv`, `importDense_inv`: imported vectors satisfy the invariant.
* `reachable_inv`: so does every vector that is made by the operations, in any order.
-/

namespace Qblaze

variable {N M : Nat} {F : Type}

theorem flatten_of_chunks {α : Type} {c : Nat} {l : List α} {cs : List (List α)}
    (h : chunks c l = some cs) : cs.flatten = l := by
  cases c with
  | zero => cases h
  | succ c =>
    obtain ⟨cs', h', hf⟩ := chunks_flatten (Nat.succ_pos c) l
    rw [h] at h'
    cases h'
    exact hf

namespace Statevector

variable {s t : Statevector N F} {ctx : Context} {q : Qubit} {v alloc : Bool}

/-! ## Collapse -/

/-- The elements with bit `q = v`, changed by `g`. -/
def collapse (s : Statevector N F) (q : Qubit) (v : Bool) (g : Element N F → Element N F) :
    Statevector N F :=
  { s with
    part0 := (s.part0.filter fun e => e.bits.get q == v).map g
    part1 := (s.part1.filter fun e => e.bits.get q == v).map g }

theorem collapse_elements (g : Element N F → Element N F) :
    (s.collapse q v g).elements = (s.elements.filter fun e => e.bits.get q == v).map g := by
  rw [elements, elements, List.filter_append, List.map_append]
  rfl

theorem collapse_inv (hs : s.Inv) {g : Element N F → Element N F} (hg : ∀ e, (g e).bits = e.bits) :
    (s.collapse q v g).Inv := by
  have hsorted : ∀ l : List (Element N F), Increasing (fun e => e.bits) l →
      Increasing (fun e => e.bits) ((l.filter fun e => e.bits.get q == v).map g) := fun l hl =>
    increasing_map (hl.filter _) hg
  have hmem : ∀ (l : List (Element N F)) e, e ∈ (l.filter fun e => e.bits.get q == v).map g →
      ∃ a ∈ l, e.bits = a.bits := fun l e he => by
    obtain ⟨a, ha, rfl⟩ := List.mem_map.mp he
    exact ⟨a, (List.mem_filter.mp ha).1, hg a⟩
  refine ⟨hsorted _ hs.sorted0, hsorted _ hs.sorted1, fun a ha b hb => ?_, fun r hr => ?_⟩
  · obtain ⟨a', ha', hab⟩ := hmem _ a ha
    obtain ⟨b', hb', hbb⟩ := hmem _ b hb
    rw [hab, hbb]
    exact hs.disjoint a' ha' b' hb'
  · obtain ⟨hfit, h0, h1⟩ := hs.partitioned r hr
    refine ⟨hfit, fun e he => ?_, fun e he => ?_⟩
    · obtain ⟨a, ha, hab⟩ := hmem _ e he
      rw [hab]
      exact h0 a ha
    · obtain ⟨a, ha, hab⟩ := hmem _ e he
      rw [hab]
      exact h1 a ha

/-- A vector that is partitioned by the qubit, without the other part. -/
theorem collapse_partitioned (hs : s.Inv) (hq : s.partitionedBy = some q) :
    s.collapse q v id = if v then { s with part0 := [] } else { s with part1 := [] } := by
  obtain ⟨-, h0, h1⟩ := hs.partitioned q hq
  have hkeep : ∀ (l : List (Element N F)) (w : Bool), (∀ e ∈ l, e.bits.get q = w) →
      (l.filter fun e => e.bits.get q == v) = if w == v then l else [] := fun l w hl => by
    split
    · rename_i hw
      exact List.filter_eq_self.mpr fun e he => by rw [hl e he]; exact hw
    · rename_i hw
      exact List.filter_eq_nil_iff.mpr fun e he => by rw [hl e he]; exact hw
  rw [collapse, List.map_id, List.map_id, hkeep _ _ h0, hkeep _ _ h1]
  cases v <;> rfl

theorem collapse_all (h : ((s.elements.filter fun e => e.bits.get q == v)).length = s.len) :
    s.collapse q v id = s := by
  rw [len_eq] at h
  have hall := List.length_filter_eq_length_iff.mp h
  rw [collapse, List.map_id, List.map_id,
    List.filter_eq_self.mpr fun e he => hall e (List.mem_append_left _ he),
    List.filter_eq_self.mpr fun e he => hall e (List.mem_append_right _ he)]

theorem collapse_map (g : Element N F → Element N F) :
    (s.collapse q v id).mapElements g = s.collapse q v g := by
  simp [mapElements, collapse]

theorem collapse_isEmpty :
    (s.collapse q v id).isEmpty = false ↔ ∃ e ∈ s.elements, e.bits.get q = v := by
  rw [Bool.eq_false_iff, Ne, isEmpty_iff, collapse_elements, List.map_id, List.filter_eq_nil_iff]
  simp only [beq_iff_eq, not_forall, not_not, exists_prop]

variable [Field F] {scale : F}

/-! ## Probabilities -/

/-- The squared norm of the elements with bit `q = v`. -/
def weight (l : List (Element N F)) (q : Qubit) (v : Bool) : F :=
  ((l.filter fun e => e.bits.get q == v).map fun e => e.val.norm2).sum

theorem foldl_doPremeasure (q : Qubit) (cs : List (List (Element N F))) (r : F × F) :
    cs.foldl (doPremeasure q) r =
      (r.1 + weight cs.flatten q false, r.2 + weight cs.flatten q true) := by
  have happend : ∀ (l l' : List (Element N F)) (v : Bool),
      weight (l ++ l') q v = weight l q v + weight l' q v := fun l l' v => by
    rw [weight, List.filter_append, List.map_append, List.sum_append]
    rfl
  have hstep : ∀ (l : List (Element N F)) (r : F × F),
      doPremeasure q r l = (r.1 + weight l q false, r.2 + weight l q true) := fun l r => by
    unfold doPremeasure weight
    congr 4 <;> exact List.filter_congr fun e _ => by cases e.bits.get q <;> rfl
  induction cs generalizing r with
  | nil => simp [weight]
  | cons c cs ih =>
    rw [List.foldl_cons, ih, hstep, List.flatten_cons, happend, happend, add_assoc, add_assoc]

/-- `premeasure` does not depend on the context. -/
theorem premeasure_eq (hc : ctx.Positive) (hne : s.isEmpty = false) (hq : q.val < 64 * N) :
    s.premeasure ctx q = some (weight s.elements q false, weight s.elements q true) := by
  obtain ⟨b, c0, c1, hchunks, h0, h1⟩ := forChunks_some hc hc.workItemMaxSize hne
  obtain ⟨cs0, hcs0, hf0⟩ := chunks_flatten h0 s.part0
  obtain ⟨cs1, hcs1, hf1⟩ := chunks_flatten h1 s.part1
  unfold premeasure
  simp only [bitIndex, if_pos hq, Option.bind_eq_bind, Option.bind_some, forLargeChunks, hchunks,
    hcs0, hcs1]
  rw [foldl_doPremeasure, List.flatten_append, hf0, hf1, zero_add, zero_add]
  rfl

/-- In any context, if `premeasure` returns. -/
theorem premeasure_of_some {r : F × F} (h : s.premeasure ctx q = some r) :
    q.val < 64 * N ∧ r = (weight s.elements q false, weight s.elements q true) := by
  unfold premeasure bitIndex at h
  split at h
  · rename_i hq
    simp only [Option.bind_eq_bind, Option.bind_some, Option.bind_eq_some_iff] at h
    obtain ⟨csize, -, cs0, h0, cs1, h1, hr⟩ := h
    refine ⟨hq, ?_⟩
    rw [foldl_doPremeasure, List.flatten_append, flatten_of_chunks h0, flatten_of_chunks h1,
      zero_add, zero_add] at hr
    cases hr
    rfl
  · cases h

/-- An empty vector has no chunk size, and `premeasure` panics. -/
theorem premeasure_empty (he : s.isEmpty = true) : s.premeasure ctx q = none := by
  unfold premeasure bitIndex
  split
  · rw [Option.bind_eq_bind, Option.bind_some, forLargeChunks]
    cases hr : s.forChunks ctx ctx.workItemMaxSize with
    | none => rfl
    | some r =>
      rw [forChunks_empty he hr]
      rfl
  · rfl

theorem rescale_bits (scale : F) (e : Element N F) : (rescale scale e).bits = e.bits := rfl

/-- `do_measure_count` counts what `do_measure_copy` writes. -/
theorem doMeasureCount_eq (chunk : List (Element N F)) :
    doMeasureCount q v chunk = (doMeasureCopy q v scale chunk).length := by
  have hsplit := List.length_eq_countP_add_countP (l := chunk) (fun e => e.bits.get q)
  have hf : ∀ p : Element N F → Bool, (∀ e, p e = (e.bits.get q == v)) →
      (doMeasureCopy q v scale chunk).length = chunk.countP p := fun p hp => by
    rw [doMeasureCopy, List.length_map, ← List.countP_eq_length_filter]
    exact List.countP_congr fun e _ => by rw [hp e]
  unfold doMeasureCount
  cases v with
  | true => rw [hf (fun e => e.bits.get q) fun e => by cases e.bits.get q <;> rfl]; rfl
  | false =>
    rw [hf (fun e => decide ¬ e.bits.get q = true) fun e => by cases e.bits.get q <;> rfl]
    simp only [Bool.false_eq_true, if_false]
    omega

/-- The sizes of what is written, for the chunks of a part. -/
theorem measureCounts (q : Qubit) (v : Bool) (scale : F) {cs : List (List (Element N F))}
    {l : List (Element N F)} (h : cs.flatten = l) :
    (cs.map (doMeasureCopy q v scale)).map List.length = cs.map (doMeasureCount q v) ∧
    (cs.map (doMeasureCount q v)).sum = (l.filter fun e => e.bits.get q == v).length ∧
    (cs.map (doMeasureCopy q v scale)).flatten =
      (l.filter fun e => e.bits.get q == v).map (rescale scale) := by
  have h1 : (cs.map (doMeasureCopy q v scale)).map List.length = cs.map (doMeasureCount q v) := by
    rw [List.map_map]
    exact List.map_congr_left fun c _ => (doMeasureCount_eq c).symm
  have h2 : (cs.map (doMeasureCopy q v scale)).flatten =
      (l.filter fun e => e.bits.get q == v).map (rescale scale) := by
    rw [← h, ← flatten_map_filter, ← flatten_map_map, List.map_map]
    rfl
  refine ⟨h1, ?_, h2⟩
  rw [← h1, ← List.length_flatten, h2, List.length_map]

variable [LinearOrder F] [Eps F]

theorem normalize_cases (h : s.normalize ctx scale = some t) :
    (|scale - 1| < Eps.eps ∧ t = s) ∨ t = s.mapElements (rescale scale) := by
  unfold normalize at h
  split at h
  · rename_i hs
    cases h
    exact .inl ⟨hs, rfl⟩
  · simp only [Option.bind_eq_bind, Option.bind_eq_some_iff, eachChunk] at h
    obtain ⟨r, -, cs0, h0, cs1, h1, ht⟩ := h
    cases ht
    refine .inr ?_
    rw [flatten_map_map, flatten_map_map, flatten_of_chunks h0, flatten_of_chunks h1]
    rfl

/-- Whatever path `measure` takes, it keeps the elements with the measured bit. -/
theorem measure_cases (hs : s.Inv) (h : s.measure ctx alloc q v scale = some t) :
    (alloc = false ∧ t = s.clear) ∨ (|scale - 1| < Eps.eps ∧ t = s.collapse q v id) ∨
      t = s.collapse q v (rescale scale) := by
  unfold measure bitIndex at h
  split at h
  · rw [Option.bind_eq_bind, Option.bind_some] at h
    split at h
    · rename_i hpart
      rw [← collapse_partitioned hs hpart] at h
      refine .inr ((normalize_cases h).imp_right fun ht => ?_)
      rw [ht, collapse_map]
    · simp only [Option.bind_eq_bind, Option.bind_eq_some_iff] at h
      obtain ⟨r, -, cs0, h0, cs1, h1, h⟩ := h
      obtain ⟨hl0, hc0, hf0⟩ := measureCounts q v scale (flatten_of_chunks h0)
      obtain ⟨hl1, hc1, hf1⟩ := measureCounts q v scale (flatten_of_chunks h1)
      rw [List.sum_append, hc0, hc1] at h
      split at h
      · rename_i hall
        rw [← List.length_append, ← List.filter_append] at hall
        refine .inr ((normalize_cases h).imp (fun ht => ⟨ht.1, ?_⟩) fun ht => ?_)
        · rw [ht.2, collapse_all hall]
        · rw [ht, ← collapse_map, collapse_all hall]
      split at h
      · rw [fillChunks_eq hl0, fillChunks_eq hl1, hf0, hf1] at h
        cases h
        exact .inr (.inr rfl)
      · rename_i hr
        cases h
        refine .inl ⟨?_, rfl⟩
        rw [tryReserve, Bool.or_eq_true] at hr
        exact Bool.eq_false_iff.mpr fun ha => hr (.inr ha)
  · cases h

theorem measure_inv (hs : s.Inv) (h : s.measure ctx alloc q v scale = some t) : t.Inv := by
  rcases measure_cases hs h with ⟨-, rfl⟩ | ⟨-, rfl⟩ | rfl
  · exact hs.clear
  · exact collapse_inv hs fun _ => rfl
  · exact collapse_inv hs (rescale_bits scale)

theorem normalize_isSome (hc : ctx.Positive) (hne : s.isEmpty = false) :
    ∃ t, s.normalize ctx scale = some t := by
  unfold normalize
  split
  · exact ⟨_, rfl⟩
  · obtain ⟨b, c0, c1, hchunks, h0, h1⟩ := forChunks_some hc hc.workItemMaxSize hne
    obtain ⟨cs0, cs1, -, -, he⟩ := eachChunk_some (s := s) h0 h1 (List.map (rescale scale))
    rw [forLargeChunks, hchunks]
    exact ⟨_, he⟩

/-- `measure` returns if an element is left. -/
theorem measure_isSome (hc : ctx.Positive) (hs : s.Inv) (hq : q.val < 64 * N)
    (hne : (s.collapse q v id).isEmpty = false) : ∃ t, s.measure ctx alloc q v scale = some t := by
  have hne' : s.isEmpty = false := by
    rw [Bool.eq_false_iff, Ne, isEmpty_iff] at hne ⊢
    intro he
    rw [collapse_elements, he] at hne
    exact hne rfl
  obtain ⟨b, c0, c1, hchunks, h0, h1⟩ := forChunks_some hc hc.workItemMaxSize hne'
  obtain ⟨cs0, hcs0, hf0⟩ := chunks_flatten h0 s.part0
  obtain ⟨cs1, hcs1, hf1⟩ := chunks_flatten h1 s.part1
  unfold measure
  rw [bitIndex, if_pos hq, Option.bind_eq_bind, Option.bind_some]
  split
  · rename_i hpart
    rw [← collapse_partitioned hs hpart]
    exact normalize_isSome hc hne
  · simp only [forLargeChunks, hchunks, hcs0, hcs1, Option.bind_eq_bind, Option.bind_some]
    split
    · exact normalize_isSome hc hne'
    split
    · rw [fillChunks_eq (measureCounts q v scale hf0).1, fillChunks_eq (measureCounts q v scale hf1).1]
      exact ⟨_, rfl⟩
    · exact ⟨_, rfl⟩

theorem normalize_empty (he : s.isEmpty = true) (hs : ¬ |scale - 1| < Eps.eps) :
    s.normalize ctx scale = none := by
  unfold normalize
  rw [if_neg hs, forLargeChunks]
  cases hr : s.forChunks ctx ctx.workItemMaxSize with
  | none => rfl
  | some r =>
    rw [forChunks_empty he hr]
    rfl

/-- What `measure` does to the amplitudes. They stay as they are for a scale of about one, on the
paths that call `normalize`. -/
def measureScale (s : Statevector N F) (q : Qubit) (v : Bool) (scale : F) :
    Element N F → Element N F :=
  if |scale - 1| < Eps.eps ∧
      (s.partitionedBy = some q ∨ ∀ e ∈ s.elements, e.bits.get q = v) then id
  else rescale scale

theorem measureScale_bits (e : Element N F) : (s.measureScale q v scale e).bits = e.bits := by
  unfold measureScale
  split <;> rfl

/-- The elements for which `measure` finds a chunk size. -/
def Measurable (s : Statevector N F) (q : Qubit) (v : Bool) (scale : F) : Prop :=
  if s.partitionedBy = some q then
    |scale - 1| < Eps.eps ∨ ∃ e ∈ s.elements, e.bits.get q = v
  else s.elements ≠ []

/-- A nonempty vector is scaled, unless the scale is about one. -/
theorem normalize_eq (hc : ctx.Positive) (hne : s.isEmpty = false) :
    s.normalize ctx scale =
      some (s.mapElements (if |scale - 1| < Eps.eps then id else rescale scale)) := by
  obtain ⟨t, ht⟩ := @normalize_isSome _ _ _ ctx _ scale _ _ hc hne
  by_cases hs : |scale - 1| < Eps.eps
  · rw [if_pos hs, normalize, if_pos hs, mapElements, List.map_id, List.map_id]
  · rw [if_neg hs, ht]
    rcases normalize_cases ht with ⟨hs', -⟩ | rfl
    · exact absurd hs' hs
    · rfl

/-- Every path of `measure`. -/
theorem measure_eq (hc : ctx.Positive) (hs : s.Inv) (hq : q.val < 64 * N)
    (hm : s.Measurable q v scale) :
    s.measure ctx alloc q v scale = some (
      if s.partitionedBy = some q ∨ (∀ e ∈ s.elements, e.bits.get q = v) ∨
          tryReserve alloc (s.elements.filter fun e => e.bits.get q == v).length then
        s.collapse q v (s.measureScale q v scale)
      else s.clear) := by
  unfold Measurable at hm
  unfold measure measureScale
  rw [bitIndex, if_pos hq, Option.bind_eq_bind, Option.bind_some]
  by_cases hp : s.partitionedBy = some q
  · rw [if_pos hp] at hm
    rw [if_pos hp, ← collapse_partitioned hs hp, if_pos (.inl hp)]
    by_cases hsc : |scale - 1| < Eps.eps
    · rw [normalize, if_pos hsc, if_pos ⟨hsc, .inl hp⟩]
    · have hne := collapse_isEmpty.mpr (hm.resolve_left hsc)
      rw [normalize_eq hc hne, if_neg hsc, if_neg fun h => hsc h.1, collapse_map]
  · rw [if_neg hp] at hm
    have hne : s.isEmpty = false := by
      rw [Bool.eq_false_iff, Ne, isEmpty_iff]
      exact hm
    obtain ⟨b, c0, c1, hchunks, h0, h1⟩ := forChunks_some hc hc.workItemMaxSize hne
    obtain ⟨cs0, hcs0, hf0⟩ := chunks_flatten h0 s.part0
    obtain ⟨cs1, hcs1, hf1⟩ := chunks_flatten h1 s.part1
    obtain ⟨hl0, hc0, hw0⟩ := measureCounts q v scale hf0
    obtain ⟨hl1, hc1, hw1⟩ := measureCounts q v scale hf1
    have hsum : (s.part0.filter fun e => e.bits.get q == v).length +
        (s.part1.filter fun e => e.bits.get q == v).length =
          (s.elements.filter fun e => e.bits.get q == v).length := by
      rw [← List.length_append, ← List.filter_append]
      rfl
    rw [if_neg hp, forLargeChunks, hchunks]
    simp only [hcs0, hcs1, Option.bind_eq_bind, Option.bind_some, List.sum_append, hc0, hc1, hsum,
      fillChunks_eq hl0, fillChunks_eq hl1, hw0, hw1]
    by_cases hall : ∀ e ∈ s.elements, e.bits.get q = v
    · -- every element matches
      have hlen : (s.elements.filter fun e => e.bits.get q == v).length = s.len := by
        rw [len_eq]
        exact List.length_filter_eq_length_iff.mpr fun e he => beq_iff_eq.mpr (hall e he)
      rw [if_pos hlen, if_pos (.inr (.inl hall)), normalize_eq hc hne, ← collapse_map,
        collapse_all hlen, if_congr (and_iff_left (.inr hall)) rfl rfl]
    · have hlen : ¬ (s.elements.filter fun e => e.bits.get q == v).length = s.len := by
        rw [len_eq, List.length_filter_eq_length_iff]
        exact fun h => hall fun e he => beq_iff_eq.mp (h e he)
      rw [if_neg hlen, if_neg (c := _ ∧ _) fun h => h.2.elim hp hall]
      by_cases hr : tryReserve alloc (s.elements.filter fun e => e.bits.get q == v).length = true
      · rw [if_pos hr, if_pos (.inr (.inr hr))]
        rfl
      · rw [if_neg hr, if_neg fun h => h.elim hp fun h => h.elim hall hr]

/-- Without a chunk size, `measure` panics. -/
theorem measure_none (hs : s.Inv) (hm : ¬ s.Measurable q v scale) :
    s.measure ctx alloc q v scale = none := by
  unfold Measurable at hm
  unfold measure bitIndex
  split
  · rw [Option.bind_eq_bind, Option.bind_some]
    split
    · rename_i hp
      rw [if_pos hp, not_or] at hm
      rw [← collapse_partitioned hs hp]
      refine normalize_empty ?_ hm.1
      rw [← Bool.not_eq_false, collapse_isEmpty]
      exact hm.2
    · rename_i hp
      rw [if_neg hp, not_not, ← isEmpty_iff] at hm
      rw [forLargeChunks]
      cases hr : s.forChunks ctx ctx.workItemMaxSize with
      | none => rfl
      | some r =>
        rw [forChunks_empty hm hr]
        rfl
  · rfl

/-- All paths of `measure` collapse alike: the elements with bit `q = v` are left, in their order and
divided by the scale, and the partition stays. It panics exactly if it has no chunk size for the
elements that it is to scale or count, and a failed reservation clears the vector. -/
theorem measure_collapses (hc : ctx.Positive) (hs : s.Inv) (hq : q.val < 64 * N) :
    (s.measure ctx alloc q v scale = none ↔ ¬ s.Measurable q v scale) ∧
    ∀ t, s.measure ctx alloc q v scale = some t →
      (alloc = false ∧ s.partitionedBy ≠ some q ∧ (∃ e ∈ s.elements, e.bits.get q ≠ v) ∧
        t = s.clear) ∨
      (t.elements = (s.elements.filter fun e => e.bits.get q == v).map (s.measureScale q v scale) ∧
        t.partitionedBy = s.partitionedBy ∧ t.Inv) := by
  have heq := fun hm => @measure_eq _ _ _ ctx _ v alloc _ scale _ _ hc hs hq hm
  constructor
  · constructor
    · intro hnone hm
      rw [heq hm] at hnone
      cases hnone
    · exact measure_none hs
  · intro t ht
    have hm : s.Measurable q v scale := by
      by_contra hm
      rw [measure_none hs hm] at ht
      cases ht
    rw [heq hm] at ht
    split at ht
    · cases ht
      exact .inr ⟨collapse_elements _, rfl, collapse_inv hs measureScale_bits⟩
    · rename_i hcopy
      cases ht
      push Not at hcopy
      obtain ⟨hp, he, hr⟩ := hcopy
      refine .inl ⟨?_, hp, he, rfl⟩
      unfold tryReserve at hr
      cases alloc
      · rfl
      · simp at hr

/-- Each outcome leaves one of two amplitudes, divided by two. -/
theorem measure_collapses_pairState :
    (∃ t, (pairState ℚ).measure Context.default true 0 false 2 = some t ∧
      t.elements = [⟨BitSet.empty, ⟨1 / 2, 0⟩⟩] ∧ t.partitionedBy = some 0) ∧
    ∃ t, (pairState ℚ).measure Context.default true 0 true 2 = some t ∧
      t.elements = [⟨BitSet.empty.toggle 0, ⟨1, 0⟩⟩] ∧ t.partitionedBy = some 0 := by
  have hm : ∀ v, (pairState ℚ).Measurable 0 v 2 := by
    intro v
    unfold Measurable
    rw [if_pos (show (pairState ℚ).partitionedBy = some 0 from rfl)]
    cases v
    · exact .inr ⟨_, List.mem_cons_self, BitSet.get_empty⟩
    · exact .inr ⟨_, List.mem_cons_of_mem _ (List.mem_singleton.mpr rfl), get_toggle_zero⟩
  have hscale : ∀ v, (pairState ℚ).measureScale 0 v 2 = rescale 2 := by
    intro v
    unfold measureScale
    rw [if_neg]
    rintro ⟨h, -⟩
    norm_num [Eps.eps] at h
  have hleft : ∀ v, ∃ t, (pairState ℚ).measure Context.default true 0 v 2 = some t ∧
      t.elements = ([⟨BitSet.empty, ⟨1, 0⟩⟩, ⟨BitSet.empty.toggle 0, ⟨2, 0⟩⟩].filter
        fun e : Element 1 ℚ => e.bits.get 0 == v).map (rescale 2) ∧ t.partitionedBy = some 0 := by
    intro v
    have h := @measure_collapses 1 ℚ (pairState ℚ) Context.default 0 v true _ 2 _ _
      Context.default_positive pairState_inv (by decide)
    obtain ⟨t, ht⟩ := Option.ne_none_iff_exists'.mp fun hn => h.1.mp hn (hm v)
    obtain ⟨ha, -⟩ | ⟨he, hp, -⟩ := h.2 t ht
    · cases ha
    · exact ⟨t, ht, he.trans (by rw [hscale]; rfl), hp⟩
  refine ⟨?_, ?_⟩
  · simpa [BitSet.get_empty, get_toggle_zero, rescale, Cplx.divScale] using hleft false
  · simpa [BitSet.get_empty, get_toggle_zero, rescale, Cplx.divScale] using hleft true

/-- The state `|0>` has no element for the outcome `1`: the in-place path leaves nothing to divide
into chunks. -/
theorem measure_zeroState_one :
    (zeroState ℚ).Inv ∧ (zeroState ℚ).measure Context.default true 0 true 2 = none := by
  refine ⟨zeroState_inv, measure_none zeroState_inv ?_⟩
  unfold Measurable
  rw [if_pos (show (zeroState ℚ).partitionedBy = some 0 from rfl), not_or]
  refine ⟨by norm_num [Eps.eps], ?_⟩
  rintro ⟨e, he, hb⟩
  rw [List.mem_singleton.mp he, BitSet.get_empty] at hb
  cases hb

end Statevector

/-! ## Import -/

namespace BitSet

theorem get_resize (hM : M ≤ N) (b : BitSet M) (i : Nat) : (b.resize N).get i = b.get i := by
  by_cases hi : i / 64 < N
  · rw [get_eq _ hi]
    by_cases hM' : i / 64 < M
    · rw [get_eq _ hM']
      simp only [resize, dif_pos hM']
    · rw [get_of_ge b (by omega)]
      simp only [resize, dif_neg hM', BitVec.getLsbD_zero]
  · rw [get_of_ge _ (by omega), get_of_ge _ (by omega)]

/-- More words keep the order, since the words are compared from word `0` on. -/
theorem resize_lt (hM : M ≤ N) {a b : BitSet M} (h : a < b) : a.resize N < b.resize N := by
  obtain ⟨k, heq, hlt⟩ := lt_iff.mp h
  refine lt_iff.mpr ⟨⟨k.val, k.isLt.trans_le hM⟩, fun m hm => ?_, ?_⟩
  · have hmk : m.val < k.val := hm
    simp only [resize, dif_pos (hmk.trans k.isLt)]
    exact heq ⟨m.val, hmk.trans k.isLt⟩ hmk
  · simp only [resize, dif_pos k.isLt]
    exact hlt

theorem fromIndex_lt (hN : 0 < N) {i j : Nat} (hij : i < j) (hj : j < 2 ^ 64) :
    (fromIndex i : BitSet N) < fromIndex j := by
  refine lt_iff.mpr ⟨⟨0, hN⟩, fun m hm => absurd hm (Nat.not_lt_zero _), ?_⟩
  simp only [fromIndex, if_true, BitVec.lt_def, BitVec.toNat_ofNat]
  rwa [Nat.mod_eq_of_lt (hij.trans hj), Nat.mod_eq_of_lt hj]

end BitSet

namespace Statevector

section

variable {s t : Statevector N F} {alloc : Bool}

/-- An element with `N` words. -/
def resizeElement (N : Nat) (e : Element M F) : Element N F := ⟨e.bits.resize N, e.val⟩

theorem importFrom_cases {data : Statevector M F}
    (h : s.importFrom alloc data = some t) :
    (alloc = false ∧ t = s.clear) ∨ ((∀ q, data.partitionedBy = some q → q.val < 64 * N) ∧
      t = ⟨data.partitionedBy, data.part0.map (resizeElement N), data.part1.map (resizeElement N)⟩) := by
  unfold importFrom at h
  simp only at h
  split at h
  · refine .inr ?_
    cases hp : data.partitionedBy with
    | none =>
      rw [hp] at h
      cases h
      exact ⟨fun q hq => (by cases hq), rfl⟩
    | some q =>
      rw [hp] at h
      unfold bitIndex at h
      simp only at h
      split at h
      · rename_i hq
        cases h
        exact ⟨fun r hr => by cases hr; exact hq, rfl⟩
      · cases h
  · rename_i hr
    cases h
    refine .inl ⟨Bool.eq_false_iff.mpr fun ha => hr ?_, rfl⟩
    rw [tryReserve, ha, Bool.or_true]

/-- `import` with room for the elements. -/
theorem importFrom_granted {data : Statevector M F} (hr : tryReserve alloc data.len = true)
    (h : ∀ q, data.partitionedBy = some q → q.val < 64 * N) :
    s.importFrom alloc data = some
      ⟨data.partitionedBy, data.part0.map (resizeElement N), data.part1.map (resizeElement N)⟩ := by
  unfold importFrom
  rw [if_pos hr]
  cases hp : data.partitionedBy with
  | none => rfl
  | some q =>
    simp only [bitIndex, if_pos (h q hp)]
    rfl

/-- `import` returns if the partition fits. -/
theorem importFrom_isSome {data : Statevector M F}
    (h : ∀ q, data.partitionedBy = some q → q.val < 64 * N) :
    ∃ t, s.importFrom alloc data = some t := by
  by_cases hr : tryReserve alloc data.len = true
  · exact ⟨_, importFrom_granted hr h⟩
  · exact ⟨s.clear, if_neg hr⟩

/-- A vector with more words. -/
theorem resize_inv (hM : M ≤ N) {data : Statevector M F} (hd : data.Inv) :
    (⟨data.partitionedBy, data.part0.map (resizeElement N), data.part1.map (resizeElement N)⟩ :
      Statevector N F).Inv := by
  have hsorted : ∀ l : List (Element M F), Increasing (fun e => e.bits) l →
      Increasing (fun e => e.bits) (l.map (resizeElement N)) := fun l hl =>
    List.pairwise_map.mpr (hl.imp fun hab => BitSet.resize_lt hM hab)
  refine ⟨hsorted _ hd.sorted0, hsorted _ hd.sorted1, fun a ha b hb he => ?_, fun q hq => ?_⟩
  · obtain ⟨a, ha', rfl⟩ := List.mem_map.mp ha
    obtain ⟨b, hb', rfl⟩ := List.mem_map.mp hb
    rcases lt_or_gt_of_ne (hd.disjoint a ha' b hb') with hab | hab
    · exact (BitSet.resize_lt hM hab).ne he
    · exact (BitSet.resize_lt hM hab).ne' he
  · obtain ⟨hfit, h0, h1⟩ := hd.partitioned q hq
    refine ⟨by omega, fun e he => ?_, fun e he => ?_⟩
    · obtain ⟨a, ha, rfl⟩ := List.mem_map.mp he
      rw [resizeElement, BitSet.get_resize hM, h0 a ha]
    · obtain ⟨a, ha, rfl⟩ := List.mem_map.mp he
      rw [resizeElement, BitSet.get_resize hM, h1 a ha]

theorem importFrom_inv (hM : M ≤ N) {data : Statevector M F} (hd : data.Inv) (hs : s.Inv)
    (h : s.importFrom alloc data = some t) : t.Inv := by
  rcases importFrom_cases h with ⟨-, rfl⟩ | ⟨-, rfl⟩
  · exact hs.clear
  · exact resize_inv hM hd

variable [Field F] [LinearOrder F] [Eps F]

theorem denseChunk_append (start : Nat) (l l' : List (Cplx F)) :
    (denseChunk start (l ++ l') : List (Element N F)) =
      denseChunk start l ++ denseChunk (start + l.length) l' := by
  unfold denseChunk
  rw [List.zipIdx_append, List.filter_append, List.map_append, Nat.zero_add]
  congr 1
  rw [List.zipIdx_eq_map_add, List.filter_map, List.map_map]
  refine List.map_congr_left fun p _ => ?_
  simp only [Function.comp]
  rw [Nat.add_assoc]

/-- The chunks of `import_dense` make up one chunk. -/
theorem denseChunks_flatten {data : List (Cplx F)} {cs : List (List (Cplx F))}
    (h : chunks (2 ^ 12) data = some cs) :
    ((cs.mapIdx fun i chunk => denseChunk (i * 2 ^ 12) chunk).flatten : List (Element N F)) =
      denseChunk 0 data := by
  have hprefix : ∀ (c k : Nat), ((List.range k).map fun i =>
      (denseChunk (i * c) ((data.drop (i * c)).take c) : List (Element N F))).flatten =
        denseChunk 0 (data.take (k * c)) := by
    intro c k
    induction k with
    | zero => simp [denseChunk]
    | succ k ih =>
      rw [List.range_succ, List.map_append, List.flatten_append, ih, List.map_singleton,
        List.flatten_singleton, Nat.succ_mul, List.take_add, denseChunk_append, Nat.zero_add]
      by_cases hk : k * c ≤ data.length
      · rw [List.length_take, Nat.min_eq_left hk]
      · rw [List.drop_eq_nil_of_le (Nat.le_of_not_le hk), List.take_nil]
        rfl
  obtain ⟨k, hk, hl, -⟩ := divCeil_pos (a := data.length) (b := 2 ^ 12) (by decide)
  rw [chunks, hk] at h
  cases h
  rw [← List.take_of_length_le hl, ← hprefix, List.take_of_length_le hl]
  congr 1
  refine List.ext_getElem (by simp) fun i h1 h2 => ?_
  simp

theorem denseChunk_count (start : Nat) (chunk : List (Cplx F)) :
    (denseChunk start chunk : List (Element N F)).length = chunk.countP wantVal := by
  unfold denseChunk
  have hfst : (chunk.zipIdx.map Prod.fst).countP wantVal = chunk.countP wantVal := by
    rw [List.zipIdx_map_fst]
  rw [List.length_map, ← hfst, List.countP_map, List.countP_eq_length_filter]
  rfl

/-- The chunks of `import_dense` have the lengths that were counted. -/
theorem denseChunks_lengths (cs : List (List (Cplx F))) :
    (cs.mapIdx fun i chunk => (denseChunk (i * 2 ^ 12) chunk : List (Element N F))).map List.length =
      cs.map fun chunk => chunk.countP wantVal := by
  refine List.ext_getElem (by simp) fun i h1 h2 => ?_
  rw [List.getElem_map, List.getElem_map, List.getElem_mapIdx, denseChunk_count]

theorem importDense_granted (s : Statevector N F) (data : List (Cplx F)) :
    s.importDense true data = some ⟨none, denseChunk 0 data, []⟩ := by
  obtain ⟨cs, hcs, -⟩ := chunks_flatten (Nat.two_pow_pos 12) data
  unfold importDense
  rw [hcs, Option.bind_eq_bind, Option.bind_some]
  simp only
  rw [if_pos (show tryReserve true _ = true from Bool.or_true _),
    fillChunks_eq (denseChunks_lengths cs), denseChunks_flatten hcs]
  rfl

theorem importDense_cases {data : List (Cplx F)} (h : s.importDense alloc data = some t) :
    (alloc = false ∧ t = s.clear) ∨ t = ⟨none, denseChunk 0 data, []⟩ := by
  unfold importDense at h
  simp only [Option.bind_eq_bind, Option.bind_eq_some_iff] at h
  obtain ⟨cs, hcs, h⟩ := h
  split at h
  · simp only [Option.bind_eq_some_iff] at h
    obtain ⟨part0, hp, ht⟩ := h
    unfold fillChunks at hp
    split at hp
    · rw [denseChunks_flatten hcs] at hp
      cases hp
      cases ht
      exact .inr rfl
    · cases hp
  · rename_i hr
    cases h
    refine .inl ⟨Bool.eq_false_iff.mpr fun ha => hr ?_, rfl⟩
    rw [tryReserve, ha, Bool.or_true]

theorem importDense_inv (hN : 0 < N) {data : List (Cplx F)} (hl : data.length < 2 ^ 64) (hs : s.Inv)
    (h : s.importDense alloc data = some t) : t.Inv := by
  rcases importDense_cases h with ⟨-, rfl⟩ | rfl
  · exact hs.clear
  · refine ⟨?_, List.Pairwise.nil, fun _ _ _ hb => absurd hb List.not_mem_nil, fun q hq => by cases hq⟩
    have hidx : data.zipIdx.Pairwise fun p p' => p.2 < p'.2 ∧ p'.2 < 2 ^ 64 := by
      refine List.pairwise_iff_getElem.mpr fun i j hi hj hij => ?_
      simp only [List.getElem_zipIdx, Nat.zero_add]
      rw [List.length_zipIdx] at hj
      exact ⟨hij, hj.trans hl⟩
    refine List.pairwise_map.mpr ((hidx.filter _).imp fun hp => ?_)
    simp only [Nat.zero_add]
    exact BitSet.fromIndex_lt hN hp.1 hp.2

end

/-! ## Reachable vectors -/

variable [Field F] [LinearOrder F] [Eps F] [Scalar F]

/-- The vectors that the operations make of a new one. A vector may be imported from one with at most
as many words. -/
inductive Reachable : {N : Nat} → Statevector N F → Prop
  | new {N : Nat} {alloc : Bool} {t : Statevector N F} (h : Statevector.new N alloc = some t) :
    Reachable t
  | performU4 {N : Nat} {s t : Statevector N F} {ctx : Context} {alloc : Nat → Bool} {q : Qubit}
    {gate : U4 F} (hs : Reachable s) (hc : ctx.Positive) (hq : q.val < 64 * N)
    (h : s.performU4 ctx alloc q gate = some t) : Reachable t
  | performSfree {N : Nat} {s t : Statevector N F} {ctx : Context} {alloc : Nat → Bool} {opq : Queue}
    {prec : Nat} (hs : Reachable s) (hc : ctx.Positive) (hp : Allowed N opq.ops)
    (h : s.performSfree ctx alloc opq prec = some t) : Reachable t
  | measure {N : Nat} {s t : Statevector N F} {ctx : Context} {alloc : Bool} {q : Qubit} {v : Bool}
    {scale : F} (hs : Reachable s) (hc : ctx.Positive) (hq : q.val < 64 * N)
    (h : s.measure ctx alloc q v scale = some t) : Reachable t
  | importFrom {N M : Nat} {s t : Statevector N F} {data : Statevector M F} {alloc : Bool}
    (hs : Reachable s) (hd : Reachable data) (hM : M ≤ N)
    (h : s.importFrom alloc data = some t) : Reachable t
  | importDense {N : Nat} {s t : Statevector N F} {data : List (Cplx F)} {alloc : Bool}
    (hs : Reachable s) (hl : data.length < 2 ^ 64)
    (h : s.importDense alloc data = some t) : Reachable t
  | trim {N : Nat} {s : Statevector N F} (hs : Reachable s) : Reachable s.trim

omit [LinearOrder F] [Eps F] [Scalar F] in
theorem new_inv {N : Nat} {alloc : Bool} {t : Statevector N F} (h : new N alloc = some t) :
    0 < N ∧ t.Inv := by
  unfold new bitIndex at h
  split at h
  · rename_i hN
    have hN' : 0 < 64 * N := hN
    rw [Option.bind_eq_bind, Option.bind_some] at h
    cases h
    refine ⟨by omega, ?_, List.Pairwise.nil, fun _ _ _ hb => absurd hb List.not_mem_nil, fun q hq => ?_⟩
    · cases alloc
      · exact List.Pairwise.nil
      · exact List.pairwise_singleton _ _
    · cases hq
      refine ⟨hN, fun e he => ?_, fun _ he => absurd he List.not_mem_nil⟩
      cases alloc
      · exact absurd he List.not_mem_nil
      · rw [List.mem_singleton.mp he]
        exact BitSet.get_empty
  · cases h

/-- The representation invariant: in every reachable vector each of the two parts is strictly
increasing in its bits, no bit pattern occurs in both parts, and in a vector that is partitioned by
`q` every element of part `i` has bit `q` equal to `i`. -/
theorem reachable_inv {N : Nat} {s : Statevector N F} (h : Reachable s) :
    s.part0.Pairwise (fun a b => a.bits < b.bits) ∧ s.part1.Pairwise (fun a b => a.bits < b.bits) ∧
    (∀ a ∈ s.part0, ∀ b ∈ s.part1, a.bits ≠ b.bits) ∧
    ∀ q, s.partitionedBy = some q →
      (∀ e ∈ s.part0, e.bits.get q = false) ∧ ∀ e ∈ s.part1, e.bits.get q = true := by
  have hinv : 0 < N ∧ s.Inv := by
    induction h with
    | new h => exact new_inv h
    | performU4 _ hc hq h ih =>
      rw [performU4_eq hc ih.2 hq] at h
      cases h
      exact ⟨ih.1, u4_inv ih.2 hq _⟩
    | performSfree _ hc hp h ih => exact ⟨ih.1, performSfree_inv hc ih.2 hp h⟩
    | measure _ _ _ h ih => exact ⟨ih.1, measure_inv ih.2 h⟩
    | importFrom _ _ hM h ih ihd => exact ⟨ih.1, importFrom_inv hM ihd.2 ih.2 h⟩
    | importDense _ hl h ih => exact ⟨ih.1, importDense_inv ih.1 hl ih.2 h⟩
    | trim _ ih => exact ih
  exact ⟨hinv.2.sorted0, hinv.2.sorted1, hinv.2.disjoint, fun q hq => (hinv.2.partitioned q hq).2⟩

/-- After a Hadamard gate on the state `|0...0>`. -/
theorem reachable_inv_hadamard :
    ((zeroState ℝ).u4 (fun _ => true) 0 (U4.ofU3 U3.H)).part0.Pairwise (fun a b => a.bits < b.bits) ∧
    ∀ e ∈ ((zeroState ℝ).u4 (fun _ => true) 0 (U4.ofU3 U3.H)).part1, e.bits.get 0 = true := by
  have hnew : Reachable (zeroState ℝ) := @Reachable.new ℝ _ _ _ _ 1 true _ rfl
  have hq : (0 : Qubit).val < 64 * 1 := by decide
  have hrun := @performU4_eq 1 ℝ _ _ _ 0 _ Context.default (U4.ofU3 U3.H)
    Context.default_positive zeroState_inv hq fun _ => true
  have h := reachable_inv (hnew.performU4 Context.default_positive hq hrun)
  exact ⟨h.1, (h.2.2.2 0 (u4_partitionedBy _)).2⟩

end Statevector

end Qblaze

import Qblaze.CApi
import Qblaze.Statevector.Export
import Qblaze.Simulator.Range

/-!
# Growing, cloning, dense import and export (`src/simulator.rs`, `src/capi.rs`)

A vector moves to another number of words when a gate needs a qubit that does not fit (`ensure_qubit`),
and to a clone. Amplitudes come in as a dense slice and go out through the iterator.

* `grow_preserves`: a vector with more words has the same elements, with zeros after their words. If
  there is no memory for it, it is cleared.
* `dense_roundtrip`: the iterator gives back what `import_dense` was given, except for the amplitudes
  that it drops.
-/

namespace Qblaze

open Lib Lib.Run

variable {F : Type}

/-! ## Growing -/

namespace Statevector

variable {N M : Nat}

/-- The amplitude that is stored for a basis state. -/
noncomputable def amplitude (s : Statevector N F) (x : Qubit → Bool) : Option (Cplx F) :=
  (s.elements.find? fun e => @decide (e.bits.toState = x) (Classical.propDecidable _)).map (·.val)

/-- `t` is `s` with `N` words: the elements are the same, in the same order and in the same parts. -/
structure Grown (s : Statevector M F) (t : Statevector N F) : Prop where
  elements : t.elements = s.elements.map (resizeElement N)
  boundary : t.part0.length = s.part0.length
  partitionedBy : t.partitionedBy = s.partitionedBy
  inv : t.Inv

/-- The bits of an element do not change, and those of the new words are zero. -/
theorem toState_resizeElement (hM : M ≤ N) (e : Element M F) :
    (resizeElement N e).bits.toState = e.bits.toState := by
  funext q
  exact BitSet.get_resize hM e.bits q.val

theorem Grown.amplitude (hM : M ≤ N) {s : Statevector M F} {t : Statevector N F} (h : Grown s t) :
    t.amplitude = s.amplitude := by
  funext x
  rw [Statevector.amplitude, Statevector.amplitude, h.elements, List.find?_map, Option.map_map]
  congr 1
  congr 1
  funext e
  exact decide_eq_decide.mpr (by rw [toState_resizeElement hM e])

/-- `import` of the export of a vector that satisfies the invariant. -/
theorem importFrom_grown (hM : M ≤ N) {s : Statevector M F} (hs : s.Inv) (t : Statevector N F)
    (alloc : Bool) : ∃ r, t.importFrom alloc s = some r ∧
      if tryReserve alloc s.len then Grown s r else r = t.clear := by
  have hfit : ∀ q, s.partitionedBy = some q → q.val < 64 * N := fun q hq => by
    have := (hs.partitioned q hq).1
    omega
  by_cases hr : tryReserve alloc s.len = true
  · refine ⟨_, importFrom_granted hr hfit, ?_⟩
    rw [if_pos hr]
    exact ⟨List.map_append.symm, List.length_map .., rfl, resize_inv hM hs⟩
  · exact ⟨t.clear, if_neg hr, (if_neg hr).mpr rfl⟩

end Statevector

namespace AnyVector

variable {v : AnyVector F}

/-- `import` into a vector with at least as many words. -/
theorem importFrom_grown {w : AnyVector F} (hw : v.words ≤ w.words) (hv : v.vec.Inv) (alloc : Bool) :
    ∃ t : Statevector w.words F, w.importFrom alloc v = .ok ⟨w.words, t⟩ ∧
      if tryReserve alloc v.len then v.vec.Grown t else t = w.vec.clear := by
  obtain ⟨t, ht, hg⟩ := Statevector.importFrom_grown hw hv w.vec alloc
  refine ⟨t, ?_, hg⟩
  unfold AnyVector.importFrom
  rw [ht]
  rfl

variable [Field F]

theorem le_maxQubit_new (alloc : Bool) (q : Qubit) :
    ∃ v : AnyVector F, AnyVector.new alloc q = .ok v ∧ q.val ≤ v.maxQubit := by
  obtain ⟨t, -, hnew⟩ := @new_ok F _ alloc q
  refine ⟨_, hnew, ?_⟩
  exact Nat.le_sub_one_of_lt (fits_numWords q)

/-- `dyn_clone` -/
theorem dynClone_grown (hw : 0 < v.words) (hv : v.vec.Inv) (alloc : Nat → Bool) :
    ∃ t : Statevector v.words F, v.dynClone alloc = .ok ⟨v.words, t⟩ ∧
      if tryReserve (alloc 1) v.len then v.vec.Grown t else t.isEmpty = true := by
  obtain ⟨u, hu⟩ := @new_vec F (alloc 0) _ v.words hw
  obtain ⟨t, ht, hg⟩ := @importFrom_grown F v ⟨v.words, u⟩ (Nat.le_refl _) hv (alloc 1)
  refine ⟨t, ?_, ?_⟩
  · unfold AnyVector.dynClone
    rw [hu]
    exact ht
  · by_cases hr : tryReserve (alloc 1) v.len = true
    · rw [if_pos hr] at hg ⊢
      exact hg
    · rw [if_neg hr] at hg ⊢
      rw [hg]
      rfl

end AnyVector

namespace Simulator

variable {sim : Simulator F}

/-- A pass over no entries. -/
theorem retain_none (hp : ∀ q, sim.qubits q = none)
    (visit : Qubit → QubitState → Sim F (Option QubitState)) (l : List Qubit) :
    (retain visit l).result sim = .ok ((), sim) := by
  induction l with
  | nil => rfl
  | cons q l ih =>
    unfold retain
    rw [result_bind_read, hp q]
    exact ih

variable [Field F] {q : Qubit} {env : Env}

/-- `ensure_qubit` leaves the vector, or replaces it by one that is large enough and has the same
amplitudes. The queue and the pending gates are as before. -/
theorem ensureQubit_grown (hw : 0 < sim.state.words) (hv : sim.state.vec.Inv) (env : Env) (q : Qubit) :
    ∃ v : AnyVector F, (ensureQubit env q).result sim = .ok ((), sim.withState v) ∧
      v.fits q = true ∧ q.val ≤ v.maxQubit ∧ v.vec.Inv ∧
      if q.val ≤ sim.state.maxQubit then v = sim.state
      else if tryReserve (env.alloc .grow q 1) sim.state.len then
        sim.state.words ≤ v.words ∧ sim.state.vec.Grown v.vec
      else v.isEmpty = true := by
  by_cases hq : q.val ≤ sim.state.maxQubit
  · refine ⟨sim.state, ?_, ?_, hq, hv, if_pos hq ▸ rfl⟩
    · unfold ensureQubit
      rw [Run.result_bind_read, if_pos hq]
      rfl
    · unfold AnyVector.maxQubit Statevector.maxQubit at hq
      exact decide_eq_true (by omega)
  · obtain ⟨u, hu, hnew⟩ := @AnyVector.new_ok F _ (env.alloc .grow q 0) q
    have hfit := AnyVector.fits_numWords q
    have hgrow : sim.state.words ≤ numWords q := by
      unfold AnyVector.maxQubit Statevector.maxQubit at hq
      omega
    obtain ⟨t, ht, hg⟩ := @AnyVector.importFrom_grown F sim.state ⟨numWords q, u⟩ hgrow hv
      (env.alloc .grow q 1)
    have hrun : (ensureQubit env q).result sim = .ok ((), sim.withState ⟨numWords q, t⟩) := by
      unfold ensureQubit
      rw [Run.result_bind_read, if_neg hq, Run.result_bind (Run.result_ofExcept hnew sim),
        Run.result_bind (Run.result_ofExcept ht sim)]
      rfl
    by_cases hr : tryReserve (env.alloc .grow q 1) sim.state.len = true
    · rw [if_pos hr] at hg
      refine ⟨⟨numWords q, t⟩, hrun, decide_eq_true hfit, Nat.le_sub_one_of_lt hfit, hg.inv, ?_⟩
      rw [if_neg hq, if_pos hr]
      exact ⟨hgrow, hg⟩
    · rw [if_neg hr] at hg
      refine ⟨⟨numWords q, t⟩, hrun, decide_eq_true hfit, Nat.le_sub_one_of_lt hfit, ?_, ?_⟩
      · rw [hg]
        exact (Statevector.new_inv hu).2.clear
      · rw [if_neg hq, if_neg hr, hg]
        rfl

/-- Growing and cloning keep the state. `import` of the export of a vector, into a vector with at least as
many words, leaves the same elements with zeros after their words, in memory and as a value, for every
order of its chunks; so does `dyn_clone`. A new vector has the qubit that it is made for, and
`ensure_qubit` keeps every amplitude and makes the qubit fit. Without memory for the copy, the vector is
cleared. -/
theorem grow_preserves [DecidableEq F] {M N : Nat} (hM : M ≤ N) {s : Statevector M F} (hs : s.Inv)
    (t : Statevector N F) {m : Heap F} {ptr dst k : Nat} (hst : Stored m ptr s.elements)
    (hd : ptr + s.len * Statevector.elementSize M ≤ dst ∨
      dst + s.len * Statevector.elementSize N ≤ ptr)
    (hk : divCeil s.len (2 ^ 12) = some k) {order : List Nat} (ho : order.Perm (List.range k))
    (alloc : Bool) (hw : 0 < sim.state.words) (hv : sim.state.vec.Inv) (allocs : Nat → Bool)
    (env : Env) (q : Qubit) :
    (∃ m' r, t.importBytes alloc dst order m (s.export ptr) = some (m', r) ∧
      if tryReserve alloc s.len then
        s.Grown r ∧ r.amplitude = s.amplitude ∧ Stored m' dst r.elements
      else r = t.clear) ∧
    (∃ r : Statevector sim.state.words F,
      sim.state.dynClone allocs = .ok ⟨sim.state.words, r⟩ ∧
      if tryReserve (allocs 1) sim.state.len then
        sim.state.vec.Grown r ∧ r.amplitude = sim.state.vec.amplitude
      else r.isEmpty = true) ∧
    (∀ alloc, ∃ v : AnyVector F, AnyVector.new alloc q = .ok v ∧ q.val ≤ v.maxQubit) ∧
    ∃ v : AnyVector F, (ensureQubit env q).result sim = .ok ((), sim.withState v) ∧
      v.fits q = true ∧ q.val ≤ v.maxQubit ∧ v.vec.Inv ∧
      if q.val ≤ sim.state.maxQubit ∨ tryReserve (env.alloc .grow q 1) sim.state.len then
        v.vec.amplitude = sim.state.vec.amplitude
      else v.isEmpty = true := by
  refine ⟨?_, ?_, fun alloc => AnyVector.le_maxQubit_new alloc q, ?_⟩
  · obtain ⟨k', hk', hle, -⟩ := divCeil_pos (a := s.len) (b := 2 ^ 12) (by decide)
    cases hk.symm.trans hk'
    obtain ⟨r, hr, hg⟩ := Statevector.importFrom_grown hM hs t alloc
    obtain ⟨m', hm', -, hstored⟩ := @importBytes_export N M F m ptr dst _ t s alloc k order hM hst hd hle ho
    refine ⟨m', r, by rw [hm', hr]; rfl, ?_⟩
    by_cases hroom : tryReserve alloc s.len = true
    · rw [if_pos hroom] at hg ⊢
      exact ⟨hg, hg.amplitude hM, hstored hroom r hr⟩
    · rwa [if_neg hroom] at hg ⊢
  · obtain ⟨r, hr, hg⟩ := AnyVector.dynClone_grown hw hv allocs
    refine ⟨r, hr, ?_⟩
    by_cases hroom : tryReserve (allocs 1) sim.state.len = true
    · rw [if_pos hroom] at hg ⊢
      exact ⟨hg, hg.amplitude (Nat.le_refl _)⟩
    · rwa [if_neg hroom] at hg ⊢
  · obtain ⟨v, hrun, hfit, hle, hinv, hg⟩ := ensureQubit_grown hw hv env q
    refine ⟨v, hrun, hfit, hle, hinv, ?_⟩
    by_cases hq : q.val ≤ sim.state.maxQubit
    · rw [if_pos hq] at hg
      rw [if_pos (.inl hq), hg]
    · rw [if_neg hq] at hg
      by_cases hroom : tryReserve (env.alloc .grow q 1) sim.state.len = true
      · rw [if_pos hroom] at hg
        rw [if_pos (.inr hroom)]
        exact hg.2.amplitude hg.1
      · rw [if_neg hroom] at hg
        rwa [if_neg (not_or.mpr ⟨hq, hroom⟩)]

/-- The simulator of two amplitudes. -/
def pairSim : Simulator ℚ := newWithState Context.default ⟨1, Statevector.pairState ℚ⟩

/-- Two amplitudes, in memory and after `ensure_qubit`. -/
theorem grow_preserves_pairSim :
    (∃ (m m' : Heap ℚ) (r : Statevector 2 ℚ),
      (⟨none, [], []⟩ : Statevector 2 ℚ).importBytes true 48 [0] m
        ((Statevector.pairState ℚ).export 0) = some (m', r) ∧
      r.amplitude = (Statevector.pairState ℚ).amplitude ∧ Stored m' 48 r.elements) ∧
    ∃ v : AnyVector ℚ, (ensureQubit Env.default 64).result pairSim = .ok ((), pairSim.withState v) ∧
      v.fits 64 = true ∧ v.vec.amplitude = (Statevector.pairState ℚ).amplitude := by
  obtain ⟨m, hst⟩ := exists_stored (Statevector.pairState ℚ).elements 0
  have hd : 0 + (Statevector.pairState ℚ).len * Statevector.elementSize 1 ≤ 48 ∨
      48 + (Statevector.pairState ℚ).len * Statevector.elementSize 2 ≤ 0 := .inl (by decide)
  have hk : divCeil (Statevector.pairState ℚ).len (2 ^ 12) = some 1 := by decide
  obtain ⟨⟨m', r, hr, hgrown⟩, -, -, v, hv, hfit, -, -, hamp⟩ := grow_preserves (show 1 ≤ 2 by decide)
    Statevector.pairState_inv ⟨none, [], []⟩ hst hd hk (List.Perm.refl [0]) true
    (show 0 < pairSim.state.words by decide) Statevector.pairState_inv (fun _ => true) Env.default 64
  have hgrown := (if_pos rfl).mp hgrown
  exact ⟨⟨m, m', r, hr, hgrown.2⟩, v, hv, hfit, (if_pos (Or.inr rfl)).mp hamp⟩

/-- Without memory for the copy, the state is lost. -/
theorem grow_loses : (Statevector.zeroState ℚ).Inv ∧
    ∃ t : Statevector 2 ℚ, (⟨none, [], []⟩ : Statevector 2 ℚ).importFrom false
      (Statevector.zeroState ℚ) = some t ∧
    t.elements ≠ (Statevector.zeroState ℚ).elements.map (Statevector.resizeElement 2) :=
  ⟨Statevector.zeroState_inv, _, rfl, by
    simp [Statevector.elements, Statevector.clear, Statevector.zeroState]⟩

end Simulator

/-! ## Dense vectors -/

/-- One turn of the loop of `qblaze_copy_amplitudes`. The iterator has checked that there is a word. -/
def copyAmplitude (buffer : List (Cplx F)) : List (BitVec 64) × Cplx F → List (Cplx F)
  | ([], _) => buffer
  | (w :: ws, v) =>
    if ws.any (fun m => decide (m ≠ 0#64)) || decide (buffer.length ≤ w.toNat) then buffer
    else buffer.set w.toNat v

section Copy

variable {buffer : List (Cplx F)} {l : List (Cplx F × Nat)} {v : Cplx F} {i k : Nat}

theorem copyAmplitude_zeros (hi : i < 2 ^ 64) :
    copyAmplitude buffer (BitVec.ofNat 64 i :: List.replicate k 0#64, v) = buffer.set i v := by
  have hw : (BitVec.ofNat 64 i).toNat = i := Nat.mod_eq_of_lt hi
  have hz : (List.replicate k 0#64).any (fun m => decide (m ≠ 0#64)) = false := by simp
  rw [copyAmplitude, hw, hz, Bool.false_or]
  by_cases hb : buffer.length ≤ i
  · rw [if_pos (decide_eq_true hb), List.set_eq_of_length_le hb]
  · rw [if_neg (by simpa using hb)]

/-- Items with different indices are copied to their indices, and nothing else changes. -/
theorem copyItems_spec (hl : l.Pairwise fun p p' => p.2 < p'.2) (hlt : ∀ p ∈ l, p.2 < 2 ^ 64)
    (buffer : List (Cplx F)) :
    ∃ out, (l.map fun p => (BitVec.ofNat 64 p.2 :: List.replicate k 0#64, p.1)).foldl copyAmplitude
        buffer = out ∧ out.length = buffer.length ∧
      (∀ p ∈ l, p.2 < buffer.length → out[p.2]? = some p.1) ∧
      ∀ i, (∀ p ∈ l, p.2 ≠ i) → out[i]? = buffer[i]? := by
  induction l generalizing buffer with
  | nil => exact ⟨buffer, rfl, rfl, fun p hp => absurd hp List.not_mem_nil, fun _ _ => rfl⟩
  | cons p l ih =>
    rw [List.pairwise_cons] at hl
    rw [List.map_cons, List.foldl_cons, copyAmplitude_zeros (hlt p List.mem_cons_self)]
    obtain ⟨out, hout, hlen, hin, hother⟩ := ih hl.2
      (fun p' hp' => hlt p' (List.mem_cons_of_mem _ hp')) (buffer.set p.2 p.1)
    rw [List.length_set] at hlen hin
    refine ⟨out, hout, hlen, fun p' hp' hi => ?_, fun i hi => ?_⟩
    · rcases List.mem_cons.mp hp' with rfl | hp'
      · rw [hother _ fun r hr => (hl.1 r hr).ne', List.getElem?_set_self hi]
      · exact hin p' hp' hi
    · rw [hother i fun r hr => hi r (List.mem_cons_of_mem _ hr),
        List.getElem?_set_ne (hi p List.mem_cons_self)]

end Copy

variable [Field F] [LinearOrder F] [Eps F]

/-- The amplitudes that `import_dense` keeps, as items of the iterator: the index is the first word, the
other words are zero. -/
def denseItems (words : Nat) (data : List (Cplx F)) : List (List (BitVec 64) × Cplx F) :=
  (data.zipIdx.filter fun p => Statevector.wantVal p.1).map fun p =>
    (BitVec.ofNat 64 p.2 :: List.replicate (words - 1) 0#64, p.1)

theorem wordList_fromIndex {N : Nat} (hN : 0 < N) (i : Nat) :
    (BitSet.fromIndex i : BitSet N).wordList = BitVec.ofNat 64 i :: List.replicate (N - 1) 0#64 := by
  refine List.ext_getElem (by simp; omega) fun k h1 h2 => ?_
  cases k with
  | zero => simp [BitSet.wordList, BitSet.fromIndex]
  | succ k => simp [BitSet.wordList, BitSet.fromIndex]

/-- The iterator over a dense vector. -/
theorem denseChunk_items {N : Nat} (hN : 0 < N) (data : List (Cplx F)) :
    (Statevector.denseChunk 0 data : List (Element N F)).map Element.item = denseItems N data := by
  unfold Statevector.denseChunk denseItems
  rw [List.map_map]
  refine List.map_congr_left fun p _ => ?_
  show ((BitSet.fromIndex (0 + p.2) : BitSet N).wordList, p.1) = _
  rw [Nat.zero_add, wordList_fromIndex hN]

/-- The amplitudes that `import_dense` keeps, in a buffer of `L` amplitudes. -/
def denseBuffer (L : Nat) (data : List (Cplx F)) : List (Cplx F) :=
  (List.range L).map fun i => (data[i]?.filter Statevector.wantVal).getD Cplx.ZERO

theorem copy_denseItems {data : List (Cplx F)} (hd : data.length < 2 ^ 64) (words L : Nat) :
    (denseItems words data).foldl copyAmplitude (List.replicate L Cplx.ZERO) = denseBuffer L data := by
  have hidx : data.zipIdx.Pairwise fun p p' => p.2 < p'.2 := by
    refine List.pairwise_iff_getElem.mpr fun i j hi hj hij => ?_
    simpa using hij
  have hmem : ∀ p : Cplx F × Nat, p ∈ data.zipIdx.filter (fun p => Statevector.wantVal p.1) ↔
      data[p.2]? = some p.1 ∧ Statevector.wantVal p.1 = true := fun p => by
    rw [List.mem_filter, List.mem_zipIdx_iff_getElem?]
  obtain ⟨out, hout, hlen, hin, hother⟩ := @copyItems_spec F _ (words - 1)
    (hidx.filter fun p => Statevector.wantVal p.1)
    (fun p hp => (List.getElem?_eq_some_iff.mp ((hmem p).mp hp).1).1.trans hd)
    (List.replicate L Cplx.ZERO)
  rw [denseItems, hout]
  rw [List.length_replicate] at hlen hin
  refine List.ext_getElem? fun i => ?_
  by_cases hi : i < L
  · rw [denseBuffer, List.getElem?_map, List.getElem?_range hi, Option.map_some]
    cases hf : data[i]?.filter Statevector.wantVal with
    | some v =>
      obtain ⟨hv, hw⟩ := Option.filter_eq_some_iff.mp hf
      exact hin (v, i) ((hmem (v, i)).mpr ⟨hv, hw⟩) hi
    | none =>
      rw [hother i, List.getElem?_replicate_of_lt hi]
      · rfl
      · rintro ⟨v, j⟩ hp rfl
        have hv := Option.filter_eq_some_iff.mpr ((hmem (v, j)).mp hp)
        exact nomatch hf.symm.trans hv
  · rw [List.getElem?_eq_none (by omega), List.getElem?_eq_none]
    simp [denseBuffer]
    omega

namespace Simulator

variable {data : List (Cplx F)}

/-- The vector that `import_dense` makes. -/
def denseVector (ctx : Context) (data : List (Cplx F)) : AnyVector F :=
  let q := max ctx.initMaxQubit (if data.length < 2 then Qubit.ZERO
    else (Qubit.tryFromIndex (Nat.log2 (data.length - 1))).getD Qubit.ZERO)
  ⟨numWords q, none, Statevector.denseChunk 0 data, []⟩

theorem importDense_result (hd : data.length < 2 ^ 64) {env : Env} (he : env.Granted)
    (sim : Simulator F) :
    (importDense env data).result sim = .ok ((), { sim with
      state := denseVector sim.ctx data
      sfreeQueue := sim.sfreeQueue.clear
      qubits := fun _ => none }) := by
  have hq : ∃ q, (if data.length < 2 then some Qubit.ZERO
      else Qubit.tryFromIndex (Nat.log2 (data.length - 1))) = some q := by
    by_cases hl : data.length < 2
    · exact ⟨_, if_pos hl⟩
    · have hlog : Nat.log2 (data.length - 1) < 64 := (Nat.log2_lt (by omega)).mpr (by omega)
      exact ⟨_, (if_neg hl).trans (dif_pos (by omega))⟩
  obtain ⟨q, hq⟩ := hq
  have hvec : denseVector sim.ctx data =
      ⟨numWords (max sim.ctx.initMaxQubit q), none, Statevector.denseChunk 0 data, []⟩ := by
    unfold denseVector
    by_cases hl : data.length < 2
    · rw [if_pos hl] at hq ⊢
      cases hq
      rfl
    · rw [if_neg hl] at hq ⊢
      rw [hq]
      rfl
  obtain ⟨u, -, hnew⟩ := @AnyVector.new_ok F _ (env.alloc .grow (max sim.ctx.initMaxQubit q) 0)
    (max sim.ctx.initMaxQubit q)
  have himport : AnyVector.importDense ⟨numWords (max sim.ctx.initMaxQubit q), u⟩
      (env.alloc .grow (max sim.ctx.initMaxQubit q) 1) data = .ok (denseVector sim.ctx data) := by
    unfold AnyVector.importDense
    rw [he, Statevector.importDense_granted, hvec]
    rfl
  unfold importDense
  rw [result_bind_read, hq, result_bind (show (orPanic (some q)).result sim = .ok (q, sim) from rfl)]
  simp only
  rw [result_bind (result_ofExcept hnew sim), result_bind rfl,
    result_bind (result_ofExcept himport _)]
  rfl

end Simulator

/-! ## The simulator and the C interface -/

variable [Scalar F]

/-- `qblaze_copy_amplitudes`: the result and the buffer. The flushed vector is at `ptr`. -/
def qblazeCopyAmplitudes [DecidableEq F] (env : Env) (m : Heap F) (ptr : Nat)
    (buffer : List (Cplx F)) : Sim F (Int × List (Cplx F)) := do
  Simulator.flush env
  let sim ← read
  if sim.isError then return (QBLAZE_ERR_MEMORY, buffer)
  else do
    Simulator.trim
    let sim ← read
    let items ← Simulator.orPanic ((sim.state.vec.export ptr).iter m)
    return (0, items.foldl copyAmplitude buffer)

/-- `qblaze_import_amplitudes` -/
def qblazeImportAmplitudes (env : Env) (buffer : List (Cplx F)) : Sim F Int :=
  if buffer.length = 0 then return QBLAZE_ERR_MEMORY
  else do
    Simulator.importDense env buffer
    let sim ← read
    return if sim.isError then QBLAZE_ERR_MEMORY else 0

namespace Simulator

section Dense

variable {sim : Simulator F}

/-- There is nothing to flush. -/
theorem innerFlush_nothing (hq : sim.sfreeQueue.isEmpty = true) (hp : ∀ q, sim.qubits q = none)
    (env : Env) (alsoSfree : Bool) : (innerFlush env alsoSfree).result sim = .ok ((), sim) := by
  have hentries : sim.entries = [] := List.filterMap_eq_nil_iff.mpr fun q _ => by rw [hp q]; rfl
  have hgrow : (ensureQubit env Qubit.ZERO).result sim = .ok ((), sim) := by
    unfold ensureQubit
    rw [result_bind_read, if_pos (show Qubit.ZERO.val ≤ _ from Nat.zero_le _)]
    rfl
  unfold innerFlush
  rw [result_bind_read]
  simp only [needsSfree, hq, if_true]
  rw [result_bind (retain_none hp _ _), result_bind_read]
  simp only [flushMax, hentries, List.foldl_nil, Bool.false_eq_true, if_false]
  rw [result_bind hgrow, result_bind rfl]
  exact retain_none hp _ _

theorem flush_nothing (hq : sim.sfreeQueue.isEmpty = true) (hp : ∀ q, sim.qubits q = none)
    (env : Env) : (flush env).result sim = .ok ((), sim) := by
  have hkeys : (env.keys .keys).filter (fun q => (sim.qubits q).isSome) = [] :=
    List.filter_eq_nil_iff.mpr fun q _ => by rw [hp q]; exact Bool.false_ne_true
  unfold flush
  rw [result_bind_read, hkeys, result_bind rfl]
  exact innerFlush_nothing hq hp env true

theorem copyAmplitudes_result [DecidableEq F] {m : Heap F} {ptr : Nat}
    {items : List (List (BitVec 64) × Cplx F)} (hq : sim.sfreeQueue.isEmpty = true)
    (hp : ∀ q, sim.qubits q = none) (hi : (sim.state.vec.export ptr).iter m = some items)
    (hlen : items.length = sim.state.vec.elements.length) (env : Env) (buffer : List (Cplx F)) :
    (qblazeCopyAmplitudes env m ptr buffer).result sim =
      .ok ((if sim.isError then QBLAZE_ERR_MEMORY else 0, items.foldl copyAmplitude buffer), sim) := by
  unfold qblazeCopyAmplitudes
  rw [result_bind (flush_nothing hq hp env), result_bind_read]
  by_cases herr : sim.isError = true
  · have hlen0 : sim.state.vec.len = 0 := eq_of_beq herr
    have hnone : items = [] := by
      refine List.length_eq_zero_iff.mp (hlen.trans ?_)
      rwa [Statevector.elements, List.length_append]
    rw [if_pos herr, if_pos herr, hnone]
    rfl
  · rw [if_neg herr, if_neg herr, result_bind rfl, result_bind_read]
    show (orPanic ((sim.state.vec.export ptr).iter m) >>= _).result sim = _
    rw [hi]
    rfl

end Dense

/-- Dense import and export are inverse. After `import_dense` the iterator yields the amplitudes that are
kept, with their indices, in order, and `qblaze_copy_amplitudes` writes them into a buffer of any length.
The vector depends on the context and the amplitudes alone, and nothing is queued or pending. -/
theorem dense_roundtrip [DecidableEq F] (ctx : Context) {data : List (Cplx F)} (hne : data ≠ [])
    (hsize : 16 * data.length < 2 ^ 63) :
    ∃ v : AnyVector F, ∀ (env : Env) (sim : Simulator F), env.Granted → sim.ctx = ctx →
      ∃ sim' : Simulator F, (importDense env data).result sim = .ok ((), sim') ∧
        (qblazeImportAmplitudes env data).result sim =
          .ok (if sim'.isError then QBLAZE_ERR_MEMORY else 0, sim') ∧
        sim'.ctx = ctx ∧ sim'.state = v ∧ sim'.sfreeQueue.isEmpty = true ∧
        (∀ q, sim'.sfreeQueue.reads q = false ∧ sim'.sfreeQueue.writes q = false ∧
          sim'.qubits q = none) ∧
        ∀ (m : Heap F) (ptr : Nat), ptr % 8 = 0 → Stored m ptr v.vec.elements →
          (v.vec.export ptr).iter m = some (denseItems v.words data) ∧
          ∀ (env' : Env) (L : Nat),
            (qblazeCopyAmplitudes env' m ptr (List.replicate L Cplx.ZERO)).result sim' =
              .ok ((if sim'.isError then QBLAZE_ERR_MEMORY else 0, denseBuffer L data), sim') := by
  refine ⟨denseVector ctx data, fun env sim he hctx => ?_⟩
  subst hctx
  have hrun := importDense_result (show data.length < 2 ^ 64 by omega) he sim
  refine ⟨_, hrun, ?_, rfl, rfl, rfl, fun q => ⟨QubitSet.contains_clear, QubitSet.contains_clear, rfl⟩,
    fun m ptr hp hst => ?_⟩
  · unfold qblazeImportAmplitudes
    rw [if_neg (mt List.length_eq_zero_iff.mp hne), result_bind hrun]
    rfl
  · have hwords : 0 < (denseVector sim.ctx data).words := AnyVector.numWords_pos _
    have hiter := items_export hwords hp hst
    have hitems : (denseVector sim.ctx data).vec.elements.map Element.item =
        denseItems (denseVector sim.ctx data).words data := by
      rw [← denseChunk_items hwords data]
      exact congrArg _ (List.append_nil _)
    rw [hitems] at hiter
    refine ⟨hiter, fun env' L => ?_⟩
    rw [← copy_denseItems (show data.length < 2 ^ 64 by omega) (denseVector sim.ctx data).words L]
    exact copyAmplitudes_result rfl (fun _ => rfl) hiter (by rw [← hitems, List.length_map]) env' _

/-- Two amplitudes, and a buffer with room for a third. -/
theorem dense_roundtrip_pair : ∃ (sim : Simulator ℝ) (m : Heap ℝ),
    (qblazeImportAmplitudes Env.default [Cplx.ONE, ⟨2, 0⟩]).result
      (newWithState Context.default ⟨1, Statevector.zeroState ℝ⟩) = .ok (0, sim) ∧
    (qblazeCopyAmplitudes Env.default m 0 (List.replicate 3 Cplx.ZERO)).result sim =
      .ok ((0, [Cplx.ONE, ⟨2, 0⟩, Cplx.ZERO]), sim) := by
  have h1 : Statevector.wantVal (Cplx.ONE : Cplx ℝ) = true :=
    decide_eq_true (le_max_of_le_left (abs_nonneg _))
  have h2 : Statevector.wantVal (⟨2, 0⟩ : Cplx ℝ) = true :=
    decide_eq_true (le_max_of_le_left (abs_nonneg _))
  have hchunk : (Statevector.denseChunk 0 [Cplx.ONE, ⟨2, 0⟩] : List (Element 1 ℝ)) =
      [⟨BitSet.fromIndex 0, Cplx.ONE⟩, ⟨BitSet.fromIndex 1, ⟨2, 0⟩⟩] := by
    simp [Statevector.denseChunk, h1, h2]
  obtain ⟨v, hv⟩ := @dense_roundtrip ℝ _ _ _ _ _ Context.default [Cplx.ONE, ⟨2, 0⟩]
    (List.cons_ne_nil _ _) (by decide)
  obtain ⟨sim, hrun, himp, -, hstate, -, -, hcopy⟩ := hv Env.default
    (newWithState Context.default ⟨1, Statevector.zeroState ℝ⟩) (fun _ _ _ => rfl) rfl
  have hval : v = ⟨1, none, [⟨BitSet.fromIndex 0, Cplx.ONE⟩, ⟨BitSet.fromIndex 1, ⟨2, 0⟩⟩], []⟩ := by
    rw [importDense_result (by decide) (fun _ _ _ => rfl)] at hrun
    cases hrun
    rw [← hstate]
    exact congrArg (fun l => (⟨1, none, l, []⟩ : AnyVector ℝ)) hchunk
  subst hval
  have herr : sim.isError = false := by
    rw [isError, hstate]
    rfl
  obtain ⟨m, hm⟩ := exists_stored (F := ℝ) (N := 1)
    [⟨BitSet.fromIndex 0, Cplx.ONE⟩, ⟨BitSet.fromIndex 1, ⟨2, 0⟩⟩] 0
  obtain ⟨-, hc⟩ := hcopy m 0 rfl hm
  have hout : denseBuffer 3 [(Cplx.ONE : Cplx ℝ), ⟨2, 0⟩] = [Cplx.ONE, ⟨2, 0⟩, Cplx.ZERO] := by
    simp [denseBuffer, List.range_succ, Option.filter, h1, h2]
  have hcode := hc Env.default 3
  rw [herr] at himp hcode
  rw [hout] at hcode
  exact ⟨sim, m, himp, hcode⟩

end Simulator

end Qblaze

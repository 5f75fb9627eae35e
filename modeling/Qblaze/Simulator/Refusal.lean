import Qblaze.Lib.Refusal
import Qblaze.Simulator.Register

/-!
# When memory is refused

A call that is refused memory is compared with the same call where no reservation fails. Either nothing comes
of it, or the vector is empty at the end of the call, which `is_error` tells.

* `performU4_granted`, `performSfree_granted` and the like: an operation of a vector yields what it yields
  without a refusal, or an empty vector.
* `keepsUp_innerFlush`: so does `_flush`.
* `keepsUp_eval`: so does every call.
* `refusal_detected`: calls that report nothing were not refused anything that mattered.
-/

namespace Qblaze

open Lib.Run

/-! ## Vectors -/

namespace Statevector

variable {N M : Nat} {F : Type} {s t : Statevector N F} {ctx : Context} {q : Qubit} {ok : Bool}

theorem replace_granted {sizes : List (Nat × Nat)} {out : List (List (Element N F) × List (Element N F))}
    (h : s.replace ok sizes out = some t) : s.replace true sizes out = some t ∨ t.isEmpty = true := by
  unfold replace at h ⊢
  split at h
  · exact .inl ((if_pos (by simp [tryReserve])).trans h)
  · cases h
    exact .inr rfl

theorem forceRepartition_granted {isFixup : Bool} (h : s.forceRepartition ctx ok q isFixup = some t) :
    s.forceRepartition ctx true q isFixup = some t ∨ t.isEmpty = true := by
  unfold forceRepartition at h ⊢
  obtain ⟨r, hr, h⟩ := Option.bind_eq_some_iff.mp h
  obtain ⟨subchunks, hs, h⟩ := Option.bind_eq_some_iff.mp h
  refine (replace_granted h).imp_left fun hg => ?_
  simp only [hr, hs, Option.bind_eq_bind, Option.bind_some]
  exact hg

theorem setPartition_granted (h : s.setPartition ctx ok q = some t) :
    s.setPartition ctx true q = some t ∨ t.isEmpty = true := by
  unfold setPartition at h ⊢
  split at h
  · rename_i hp
    exact .inl ((if_pos hp).trans h)
  · rename_i hp
    rw [if_neg hp]
    exact forceRepartition_granted h

theorem importFrom_refused {data : Statevector M F} (h : s.importFrom ok data = some t)
    (s' : Statevector N F) : s'.importFrom true data = some t ∨ t.isEmpty = true := by
  rcases importFrom_cases h with ⟨-, rfl⟩ | ⟨hfit, rfl⟩
  · exact .inr rfl
  · exact .inl (importFrom_granted (by simp [tryReserve]) hfit)

theorem new_granted [Field F] (h : Statevector.new N ok = some t) :
    Statevector.new N true = some t ∨ t.isEmpty = true := by
  cases ok with
  | true => exact .inl h
  | false =>
    unfold new at h
    obtain ⟨q, -, ht⟩ := Option.bind_eq_some_iff.mp h
    cases ht
    exact .inr rfl

variable [Field F]

section

variable [LinearOrder F] [Eps F] {gate : U4 F} {alloc : Nat → Bool}

/-- Nothing comes of a vector that is empty after it was partitioned. -/
theorem u4_isEmpty_of_partition (h : (s.partitionOn (alloc 0) q).isEmpty = true) :
    (s.u4 alloc q gate).isEmpty = true := by
  obtain ⟨h0, h1⟩ := List.append_eq_nil_iff.mp (isEmpty_iff.mp h)
  have hi : (s.partitionOn (alloc 0) q).u4Items q = [] := by
    rw [u4Items, h0, h1, mergeEq_nil_left]
    rfl
  unfold u4
  simp only
  split
  · rw [isEmpty, len, u4Result, hi]
    rfl
  · rfl

theorem performU4_granted (hs : s.Inv) (h : s.performU4 ctx alloc q gate = some t) :
    s.performU4 ctx (fun _ => true) q gate = some t ∨ t.isEmpty = true := by
  obtain ⟨-, ht⟩ := performU4_of_some hs h
  unfold performU4 at h ⊢
  obtain ⟨r, hr, h⟩ := Option.bind_eq_some_iff.mp h
  obtain ⟨s1, hs1, h⟩ := Option.bind_eq_some_iff.mp h
  obtain ⟨count, hc, h⟩ := Option.bind_eq_some_iff.mp h
  obtain ⟨subchunks, hsub, h⟩ := Option.bind_eq_some_iff.mp h
  rcases setPartition_granted hs1 with hg | he
  · refine (replace_granted h).imp_left fun hrep => ?_
    simp only [hr, hg, hc, hsub, Option.bind_eq_bind, Option.bind_some]
    exact hrep
  · rw [setPartition_of_some hs hs1, (bitIndex_some hr).1] at he
    rw [ht]
    exact .inr (u4_isEmpty_of_partition he)

theorem performU4_stays (hs : s.Inv) (he : s.isEmpty = true) (h : s.performU4 ctx alloc q gate = some t) :
    t.isEmpty = true := by
  obtain ⟨-, rfl⟩ := performU4_of_some hs h
  exact u4_isEmpty he alloc

theorem measure_granted {v : Bool} {scale : F} (h : s.measure ctx ok q v scale = some t) :
    s.measure ctx true q v scale = some t ∨ t.isEmpty = true := by
  unfold measure at h ⊢
  obtain ⟨r, hr, h⟩ := Option.bind_eq_some_iff.mp h
  simp only [hr, Option.bind_eq_bind, Option.bind_some]
  split at h
  · rename_i hp
    exact .inl ((if_pos hp).trans h)
  · rename_i hp
    obtain ⟨csize, hcs, h⟩ := Option.bind_eq_some_iff.mp h
    obtain ⟨cs0, h0, h⟩ := Option.bind_eq_some_iff.mp h
    obtain ⟨cs1, h1, h⟩ := Option.bind_eq_some_iff.mp h
    simp only [if_neg hp, hcs, h0, h1, Option.bind_some] at h ⊢
    split at h
    · rename_i hall
      exact .inl ((if_pos hall).trans h)
    · rename_i hall
      rw [if_neg hall]
      split at h
      · exact .inl ((if_pos (by simp [tryReserve])).trans h)
      · cases h
        exact .inr rfl

theorem measure_stays {v : Bool} {scale : F} (hs : s.Inv) (he : s.isEmpty = true)
    (h : s.measure ctx ok q v scale = some t) : t.isEmpty = true := by
  have hcollapse : ∀ f, (s.collapse q v f).isEmpty = true := fun f => by
    obtain ⟨h0, h1⟩ := List.append_eq_nil_iff.mp (isEmpty_iff.mp he)
    rw [isEmpty_iff, elements, collapse, h0, h1]
    rfl
  rcases measure_cases hs h with ⟨-, rfl⟩ | ⟨-, rfl⟩ | rfl
  · rfl
  · exact hcollapse _
  · exact hcollapse _

theorem importDense_refused {values : List (Cplx F)} (h : s.importDense ok values = some t)
    (s' : Statevector N F) : s'.importDense true values = some t ∨ t.isEmpty = true := by
  rcases importDense_cases h with ⟨-, rfl⟩ | rfl
  · exact .inr rfl
  · exact .inl (importDense_granted s' values)

end

variable [Scalar F] {op : Compiled} {stat : Stat} {alloc : Nat → Bool}

theorem applyProgram_granted (h : s.applyProgram ctx alloc op stat = some t) :
    s.applyProgram ctx (fun _ => true) op stat = some t ∨ t.isEmpty = true := by
  unfold applyProgram at h ⊢
  split at h
  · cases h
  rename_i hin
  rw [if_neg hin]
  split at h
  · rename_i h0
    exact .inl ((if_pos h0).trans h)
  rename_i h0
  rw [if_neg h0]
  split at h
  · rename_i h1
    rw [if_pos h1]
    obtain ⟨r, hr, h⟩ := Option.bind_eq_some_iff.mp h
    obtain ⟨r', hr', h⟩ := Option.bind_eq_some_iff.mp h
    obtain ⟨s1, hs1, h⟩ := Option.bind_eq_some_iff.mp h
    rcases setPartition_granted hs1 with hg | he
    · obtain ⟨csize, hcs, h⟩ := Option.bind_eq_some_iff.mp h
      obtain ⟨s2, hs2, h⟩ := Option.bind_eq_some_iff.mp h
      refine (forceRepartition_granted h).imp_left fun hrep => ?_
      simp only [hr, hr', hg, hcs, Option.bind_eq_bind, Option.bind_some]
      exact (congrArg (Option.bind · _) hs2).trans hrep
    · -- an empty vector is cut into chunks
      have hnone := bind_eachChunk_empty ctx he ctx.chunkSize (doSfreeSingle op r' stat.shuffle)
        fun s => s.forceRepartition ctx (alloc 1) r' true
      exact nomatch h.symm.trans hnone
  · rename_i h1
    exact .inl ((if_neg h1).trans h)

variable {opq : Queue} {prec : Nat}

theorem performSfree_granted (h : s.performSfree ctx alloc opq prec = some t) :
    s.performSfree ctx (fun _ => true) opq prec = some t ∨ t.isEmpty = true := by
  unfold performSfree at h ⊢
  cases hop : opq.compile N Stat.default prec with
  | mk op stat =>
    rw [hop] at h
    cases op with
    | none => exact .inl h
    | some op => exact applyProgram_granted h

/-- The queue maps the elements one by one, or the vector is empty. -/
theorem performSfree_perm (hs : s.Inv) (hp : Allowed N opq.ops)
    (h : s.performSfree ctx alloc opq prec = some t) :
    t.isEmpty = true ∨ t.Inv ∧ ∃ f : Element N F → Element N F, t.elements.Perm (s.elements.map f) := by
  rcases performSfree_granted h with hg | he
  · rcases performSfree_of_some (fun _ => rfl) hs hp hg with rfl | ⟨op, stat, -, -, ha⟩
    · exact .inr ⟨hs, id, by rw [List.map_id]⟩
    · exact .inr ⟨ha.inv, _, ha.perm⟩
  · exact .inl he

theorem performSfree_stays (hs : s.Inv) (hp : Allowed N opq.ops) (he : s.isEmpty = true)
    (h : s.performSfree ctx alloc opq prec = some t) : t.isEmpty = true := by
  rcases performSfree_perm hs hp h with ht | ⟨-, f, hf⟩
  · exact ht
  · rw [isEmpty_iff.mp he] at hf
    exact isEmpty_iff.mpr hf.eq_nil

end Statevector

/-! ## Flushing -/

/-- The same, and no reservation fails. -/
def Env.grant (env : Env) : Env := { env with alloc := fun _ _ _ => true }

@[simp] theorem Env.grant_alloc {env : Env} {site : Site} {q : Qubit} {i : Nat} :
    env.grant.alloc site q i = true := rfl

theorem Env.grant_granted (env : Env) : env.grant.Granted := fun _ _ _ => rfl

namespace Simulator

/-- The vector satisfies its invariant. It may be empty. -/
structure Sane {F : Type} (s : Simulator F) : Prop where
  range : InRange s
  inv : s.state.vec.Inv

/-- The vector is empty. -/
def Lost {F : Type} (s : Simulator F) : Prop := s.isError = true

section

variable {F : Type} {s : Simulator F} {q : Qubit} {α : Type}

theorem Sane.entry (h : Sane s) {e : Option QubitState} : Sane (s.withEntry q e) := ⟨h.range.entry, h.inv⟩

theorem Sane.withQueue (h : Sane s) {k : Queue} (hk : k.Good) : Sane (s.withQueue k) :=
  ⟨h.range.withQueue hk, h.inv⟩

/-- The vector is replaced by one that asks for memory. -/
theorem keepsUp_setState {r r' : Except Panic (AnyVector F)} {f f' : Unit → Sim F α}
    (hv : ∀ v, r = .ok v → (Lost s → Lost (s.withState v)) ∧ (r' = .ok v ∨ Lost (s.withState v)))
    (hf : ∀ v, r = .ok v → KeepsUp Lost (f ()) (f' ()) (s.withState v)) :
    KeepsUp Lost (ofExcept r >>= fun v => setState v >>= f) (ofExcept r' >>= fun v => setState v >>= f') s := by
  have hend : ∀ v, r = .ok v → Lost (s.withState v) →
      ∀ b u, (setState v >>= f).result s = .ok (b, u) → Lost u :=
    fun v hr hl b u hu => (hf v hr).stays hl b u hu
  refine .bind_ofExcept (fun v hr hs => hend v hr ((hv v hr).1 hs)) fun v hr => ?_
  rcases (hv v hr).2 with hr' | hl
  · exact .inl ⟨hr', .bind_change (hv v hr).1 (hf v hr)⟩
  · exact .inr (hend v hr hl)

theorem keepsUp_setState_last {r r' : Except Panic (AnyVector F)}
    (hv : ∀ v, r = .ok v → (Lost s → Lost (s.withState v)) ∧ (r' = .ok v ∨ Lost (s.withState v))) :
    KeepsUp Lost (ofExcept r >>= fun v => setState v) (ofExcept r' >>= fun v => setState v) s := by
  show KeepsUp Lost (ofExcept r >>= fun v => setState v >>= pure)
    (ofExcept r' >>= fun v => setState v >>= pure) s
  exact keepsUp_setState hv fun _ _ => .pure

/-- The qubits of the queue fit after the vector has grown. -/
theorem fits_of_flushMax {t u : Simulator F} {b : Bool} (hn : b = true)
    (hmax : (t.flushMax b).val < 64 * u.state.words) (hk : u.sfreeQueue = t.sfreeQueue) :
    u.sfreeQueue.maxQubit.val < 64 * u.state.words := by
  rw [hk]
  exact lt_of_le_of_lt ((@le_flushMax F t 0 _).2 hn) hmax

end

variable {F : Type} [Field F] {s : Simulator F} {q : Qubit} {env : Env}

/-- A new vector. -/
theorem sane_new (hk : s.sfreeQueue.Good) {ok : Bool} {v : AnyVector F} (h : AnyVector.new ok q = .ok v) :
    Sane (s.withState v) ∧ (AnyVector.new true q = .ok v ∨ Lost (s.withState v)) := by
  have hr := inRange_new hk h
  obtain ⟨t, ht, hnew⟩ := @AnyVector.new_ok F _ ok q
  rw [hnew] at h
  cases h
  refine ⟨⟨hr, (Statevector.new_inv ht).2⟩, (Statevector.new_granted ht).imp_left fun hg => ?_⟩
  unfold AnyVector.new
  rw [hg]
  rfl

theorem wp_ensureQubit_sane (hs : Sane s) :
    Wp Sane (fun _ => True) (ensureQubit env q) s fun _ t =>
      Sane t ∧ q.val < 64 * t.state.words ∧ t.sfreeQueue = s.sfreeQueue := by
  have hvec : Wp (fun t : Simulator F => t.state.vec.Inv) (fun _ => True) (ensureQubit env q) s
      fun _ t => t.state.vec.Inv := by
    refine wp_ensureQubit hs.range.words hs.range.part (fun _ _ => hs.inv) ?_
    intro hgrow _ v t hv ht
    have hi := Statevector.importFrom_inv hgrow hs.inv (Statevector.new_inv hv).2 ht
    exact ⟨hi, hi⟩
  refine ((@wp_ensureQubit_range _ _ _ _ env (fun _ => True) hs.range).and hvec).imp
    (fun _ ht => ⟨ht.1, ht.2⟩) (fun _ _ => trivial) ?_
  rintro _ t ⟨⟨hr, hq, -, -, hk⟩, hi⟩
  exact ⟨⟨hr, hi⟩, hq, hk⟩

theorem keepsUp_ensureQubit : KeepsUp Lost (ensureQubit env q) (ensureQubit env.grant q) s := by
  refine .bind_read ?_
  split
  · exact .pure
  obtain ⟨v, -, hnew⟩ := @AnyVector.new_ok F _ (env.alloc .grow q 0) q
  obtain ⟨v', -, hnew'⟩ := @AnyVector.new_ok F _ true q
  rw [hnew, show AnyVector.new (env.grant.alloc .grow q 0) q = _ from hnew']
  show KeepsUp Lost
    (ofExcept (AnyVector.importFrom ⟨_, v⟩ (env.alloc .grow q 1) s.state) >>= fun w => setState w)
    (ofExcept (AnyVector.importFrom ⟨_, v'⟩ true s.state) >>= fun w => setState w) s
  refine keepsUp_setState_last fun w hw => ?_
  obtain ⟨t, ht, rfl⟩ := map_ok hw
  have ht := checked_ok ht
  refine ⟨fun hl => Statevector.importFrom_isEmpty hl ht, ?_⟩
  rcases Statevector.importFrom_refused ht v' with hg | he
  · refine .inl ?_
    unfold AnyVector.importFrom
    rw [hg]
    rfl
  · exact .inr he

/-- The queue is applied. -/
theorem Sane.performSfree [Scalar F] (h : Sane s) (hq : s.sfreeQueue.maxQubit.val < 64 * s.state.words)
    {alloc : Nat → Bool} {v : AnyVector F} (hv : s.state.performSfree s.ctx alloc s.sfreeQueue = .ok v) :
    Sane (s.withState v) ∧ (Lost s → Lost (s.withState v)) ∧
      (s.state.performSfree s.ctx (fun _ => true) s.sfreeQueue = .ok v ∨ Lost (s.withState v)) := by
  obtain ⟨t, ht, rfl⟩ := AnyVector.performSfree_ok hv
  have hp := h.range.queue.allowed hq
  have hpart := Statevector.performSfree_partFits h.range.part ht
  refine ⟨⟨⟨h.range.words, hpart, h.range.queue⟩, ?_⟩,
    fun hl => Statevector.performSfree_stays h.inv hp hl ht, ?_⟩
  · rcases Statevector.performSfree_perm h.inv hp ht with he | ⟨hi, -⟩
    · exact Statevector.inv_of_isEmpty he hpart
    · exact hi
  · refine (Statevector.performSfree_granted ht).imp_left fun hg => ?_
    unfold AnyVector.performSfree
    rw [hg]
    cases hfit : s.state.fitsQueue s.sfreeQueue <;> rfl

variable [LinearOrder F] [Eps F] {gate : U3} {site : Site}

theorem Sane.performU4 (h : Sane s) {alloc : Nat → Bool} {gate : U4 F} {v : AnyVector F}
    (hv : s.state.performU4 s.ctx alloc q gate = .ok v) :
    Sane (s.withState v) ∧ (Lost s → Lost (s.withState v)) ∧
      (s.state.performU4 s.ctx (fun _ => true) q gate = .ok v ∨ Lost (s.withState v)) := by
  have hr := (h.range.performU4 hv).1
  obtain ⟨t, ht, rfl⟩ := AnyVector.performU4_ok hv
  obtain ⟨hq, he⟩ := Statevector.performU4_of_some h.inv ht
  refine ⟨⟨hr, he ▸ Statevector.u4_inv h.inv hq alloc⟩, fun hl => Statevector.performU4_stays h.inv hl ht, ?_⟩
  refine (Statevector.performU4_granted h.inv ht).imp_left fun hg => ?_
  unfold AnyVector.performU4
  rw [hg]
  rfl

variable [Scalar F] {st : QubitState} {R : Type} {p : Preflush R} {l : List Qubit}

theorem stable_sane (env : Env) : Stable env (Sane (F := F)) fun _ => True where
  entry h := h.entry
  eager h _ hv := (h.performU4 hv).1
  error _ _ _ _ := trivial

theorem keepsUp_maybeEagerFlush (hs : Sane s) :
    KeepsUp Lost (maybeEagerFlush env site q gate) (maybeEagerFlush env.grant site q gate) s := by
  refine .bind_read ?_
  split
  · exact .pure
  split
  · exact .pure
  split
  · exact .pure
  · refine .bind_known fun delta _ => ?_
    split
    · exact .pure
    · exact keepsUp_setState (fun v hv => (hs.performU4 hv).2) fun _ _ => .pure

theorem keepsUp_visitEager (hs : Sane s) :
    KeepsUp Lost (visitEager env site q st) (visitEager env.grant site q st) s :=
  .bind (keepsUp_maybeEagerFlush hs) ((stable_sane env).maybeEagerFlush hs) fun _ _ _ => .pure

theorem keepsUp_visitFirst (hs : Sane s) :
    KeepsUp Lost (visitFirst env q st) (visitFirst env.grant q st) s := by
  refine .bind_read ?_
  split
  · exact .pure
  split
  · exact .pure
  split
  · exact .pure
  · exact keepsUp_visitEager hs

theorem keepsUp_visitSecond (hs : Sane s) :
    KeepsUp Lost (visitSecond env q st) (visitSecond env.grant q st) s := by
  unfold visitSecond
  split
  · exact .pure
  · exact keepsUp_visitEager hs

theorem keepsUp_visitThird (hs : Sane s) :
    KeepsUp Lost (visitThird env q st) (visitThird env.grant q st) s := by
  unfold visitThird
  split
  · exact .pure
  split
  · exact .fail
  · exact .bind_read (keepsUp_setState (fun v hv => (hs.performU4 hv).2) fun _ _ => .pure)

omit [Field F] [LinearOrder F] [Eps F] [Scalar F] in
theorem keepsUp_retain {visit visit' : Qubit → QubitState → Sim F (Option QubitState)}
    (hw : ∀ q st s, Sane s → Wp Sane (fun _ => True) (visit q st) s fun _ t => Sane t)
    (hv : ∀ q st s, Sane s → KeepsUp Lost (visit q st) (visit' q st) s) (hs : Sane s) :
    KeepsUp Lost (retain visit l) (retain visit' l) s := by
  induction l generalizing s with
  | nil => exact .pure
  | cons q l ih =>
    refine .bind_read ?_
    cases s.qubits q with
    | none => exact ih hs
    | some st =>
      exact .bind (hv q st s hs) (hw q st s hs) fun e t ht => .bind_change (fun hl => hl) (ih ht.entry)

theorem wp_visitThird_sane (hs : Sane s) :
    Wp Sane (fun _ => True) (visitThird env q st) s fun _ t => Sane t := by
  unfold visitThird
  split
  · exact .pure hs
  split
  · exact .fail trivial
  · refine .bind_read (.bind_ofExcept (fun _ _ => trivial) fun w hw => ?_)
    have hw := (hs.performU4 hw).1
    exact wp_setState hw (.pure hw)

theorem wp_flushSfree_sane (hs : Sane s) (hq : s.sfreeQueue.maxQubit.val < 64 * s.state.words) :
    Wp Sane (fun _ => True) (flushSfree env) s fun _ t => Sane t := by
  refine .bind_read (.bind_ofExcept (fun _ _ => trivial) fun w hw => ?_)
  have hw := (hs.performSfree hq hw).1
  have hclear := hw.withQueue hw.range.queue.clear
  exact wp_setState hw (wp_setQueue hclear ((stable_sane env).second hclear))

theorem keepsUp_flushSfree (hs : Sane s) (hq : s.sfreeQueue.maxQubit.val < 64 * s.state.words) :
    KeepsUp Lost (flushSfree env) (flushSfree env.grant) s := by
  refine .bind_read (keepsUp_setState (fun v hv => (hs.performSfree hq hv).2) fun v hv => ?_)
  have hw := (hs.performSfree hq hv).1
  refine .bind_change (fun hl => hl) (keepsUp_retain (fun _ _ _ ht => (stable_sane env).visitSecond ht)
    (fun _ _ _ ht => keepsUp_visitSecond ht) (hw.withQueue hw.range.queue.clear))

theorem wp_innerFlush_sane (hs : Sane s) {alsoSfree : Bool} :
    Wp Sane (fun _ => True) (innerFlush env alsoSfree) s fun _ t => Sane t := by
  refine .bind_read (.bind ((stable_sane env).first hs) fun _ t ht => .bind_read ?_)
  refine .bind (wp_ensureQubit_sane ht) fun _ u ⟨hu, hmax, hk⟩ => ?_
  refine .bind (Q := fun _ v => Sane v) (.when (fun hn => wp_flushSfree_sane hu (fits_of_flushMax hn hmax hk))
    fun _ => hu) fun _ v hv => ?_
  exact wp_retain_stable (fun _ _ _ h => h.entry) (fun _ _ _ ht => wp_visitThird_sane ht) hv

/-- `_flush` does what it does without a refusal, or the vector is empty afterwards. -/
theorem keepsUp_innerFlush (hs : Sane s) {alsoSfree : Bool} :
    KeepsUp Lost (innerFlush env alsoSfree) (innerFlush env.grant alsoSfree) s := by
  refine .bind_read (.bind (keepsUp_retain (fun _ _ _ ht => (stable_sane env).visitFirst ht)
    (fun _ _ _ ht => keepsUp_visitFirst ht) hs) ((stable_sane env).first hs) fun _ t ht => .bind_read ?_)
  refine .bind keepsUp_ensureQubit (wp_ensureQubit_sane ht) fun _ u ⟨hu, hmax, hk⟩ => ?_
  have hfits := fun hn => fits_of_flushMax hn hmax hk
  refine .bind (.when fun hn => keepsUp_flushSfree hu (hfits hn))
    (Q := fun _ v => Sane v) (I := Sane) (E := fun _ => True)
    (.when (fun hn => wp_flushSfree_sane hu (hfits hn)) fun _ => hu) fun _ v hv => ?_
  exact keepsUp_retain (fun _ _ _ ht => wp_visitThird_sane ht) (fun _ _ _ ht => keepsUp_visitThird ht) hv

theorem kept_sane (env : Env) : Kept env (Sane (F := F)) fun _ => True where
  toStable := stable_sane env
  assertion := trivial
  debugAssertion := trivial
  push hs hg := hs.withQueue (hg _ hs.range.queue)
  flush hs := wp_innerFlush_sane hs

/-! ## Gates -/

theorem keepsUp_preflush (hs : Sane s) : KeepsUp Lost (preflush p env q) (preflush p env.grant q) s := by
  have hmatch : ∀ {u : Simulator F} {st : QubitState},
      KeepsUp Lost (preflushMatch p q st : Sim F R) (preflushMatch p q st) u := fun {u st} =>
    .of_wp fun hl => wp_preflushMatch_stable (E := fun _ => True) (fun h => h) (fun h => h) trivial hl
  refine .bind_read ?_
  split
  · exact .pure
  split
  · unfold preflushSfree
    split
    · exact .pure
    · refine .bind (.when fun _ => .change fun hl => hl) .any fun _ u _ => ?_
      split
      · split
        · exact .pure
        · exact .bind_change (fun hl => hl) (.bind_change (fun hl => hl) .pure)
      · exact .bind_change (fun hl => hl) .pure
  · split
    · exact .fail
    split
    · refine .bind (keepsUp_maybeEagerFlush hs) .any fun flushed t _ => ?_
      split
      · exact .bind_change (fun hl => hl) .pure
      · exact .bind_change (fun hl => hl) hmatch
    · exact hmatch

variable {items : List ControlItem} {ctl : Control}

theorem keepsUp_preflushItems (hs : Sane s) :
    KeepsUp Lost (preflushItems env items) (preflushItems env.grant items) s := by
  induction items generalizing s with
  | nil => exact .pure
  | cons c items ih =>
    refine .bind (keepsUp_preflush hs) ((kept_sane env).toQueued.preflush hs) fun _ t ht => ?_
    exact .bind (ih ht) .any fun _ _ _ => .pure

theorem keepsUp_preflushItemsH (hs : Sane s) :
    KeepsUp Lost (preflushItemsH env items) (preflushItemsH env.grant items) s := by
  have hk := (kept_sane (F := F) env).toQueued
  induction items generalizing s with
  | nil => exact .pure
  | cons c items ih =>
    unfold preflushItemsH
    split
    · refine .bind (keepsUp_preflush hs) (hk.preflush hs) fun _ t ht => ?_
      exact .bind (ih ht) .any fun _ _ _ => .pure
    · refine .bind (keepsUp_preflush hs) (hk.preflush hs) fun m t ht => ?_
      cases m with
      | normal => exact .bind (ih ht) .any fun _ _ _ => .pure
      | invert => exact .bind (ih ht) .any fun _ _ _ => .pure
      | hadamard => exact .bind (keepsUp_preflushItems ht) .any fun _ _ _ => .pure

omit [Field F] [LinearOrder F] [Eps F] [Scalar F] in
theorem keepsUp_orPanic {α : Type} {r : Option α} : KeepsUp Lost (orPanic r : Sim F α) (orPanic r) s := by
  cases r with
  | some a => exact .pure
  | none => exact .fail

theorem keepsUp_preflushCtl (hs : Sane s) :
    KeepsUp Lost (preflushCtl env ctl) (preflushCtl env.grant ctl) s :=
  .bind (keepsUp_preflushItems hs) .any fun _ _ _ => keepsUp_orPanic

theorem keepsUp_preflushCtlH (hs : Sane s) :
    KeepsUp Lost (preflushCtlH env ctl) (preflushCtlH env.grant ctl) s :=
  .bind (keepsUp_preflushItemsH hs) .any fun _ _ _ => .bind keepsUp_orPanic .any fun _ _ _ => .pure

/-- `_flush` and a new operation. -/
theorem keepsUp_flush_push (hs : Sane s) {g : Queue → Queue} :
    KeepsUp Lost (do innerFlush env false; setQueue g) (do innerFlush env.grant false; setQueue g) s :=
  .bind (keepsUp_innerFlush hs) .any fun _ _ _ => .change fun hl => hl

omit [Eps F] in
theorem keepsUp_u3 {gate : U3} : KeepsUp Lost (u3 q gate : Sim F Unit) (u3 q gate) s := by
  refine .bind_read ?_
  split
  · exact .change fun hl => hl
  · exact .change fun hl => hl

theorem keepsUp_ctlX (hs : Sane s) : KeepsUp Lost (ctlX env ctl q) (ctlX env.grant ctl q) s := by
  have hk := (kept_sane (F := F) env).toQueued
  unfold ctlX
  split
  · exact keepsUp_u3
  split
  · exact .fail
  · refine .bind (keepsUp_preflush hs) (hk.preflush hs) fun isH t ht => ?_
    split
    · refine .bind (keepsUp_preflushCtlH ht) (hk.preflushCtlH ht) fun r u ⟨hu, _⟩ => ?_
      refine .bind keepsUp_orPanic (wp_orPanic (I := Sane) (E := fun _ => True) (Q := fun _ v => Sane v)
        (fun _ => trivial) fun _ _ => hu) fun ctl' v hv => ?_
      split
      · exact keepsUp_flush_push hv
      · exact keepsUp_flush_push hv
    · exact .bind (keepsUp_preflushCtl ht) (hk.preflushCtl ht) fun _ u hu => keepsUp_flush_push hu.1

theorem keepsUp_ctlSwap (hs : Sane s) {q1 q2 : Qubit} :
    KeepsUp Lost (ctlSwap env ctl q1 q2) (ctlSwap env.grant ctl q1 q2) s := by
  have hk := (kept_sane (F := F) env).toQueued
  unfold ctlSwap
  split
  · exact .fail
  · refine .bind (keepsUp_preflushCtl hs) (hk.preflushCtl hs) fun _ t ⟨ht, _⟩ => ?_
    refine .bind (keepsUp_preflush ht) (hk.preflush ht) fun _ u hu => ?_
    exact .bind (keepsUp_preflush hu) (hk.preflush hu) fun _ v hv => keepsUp_flush_push hv

theorem keepsUp_ctlPhase (hs : Sane s) {a : Angle} :
    KeepsUp Lost (ctlPhase env ctl a) (ctlPhase env.grant ctl a) s := by
  have hk := (kept_sane (F := F) env).toQueued
  unfold ctlPhase
  split
  · exact .pure
  · exact keepsUp_u3
  · split
    · refine .bind (keepsUp_preflushCtlH hs) (hk.preflushCtlH hs) fun r t ⟨ht, _⟩ => ?_
      split
      · exact keepsUp_flush_push ht
      · exact keepsUp_flush_push ht
    · exact .bind (keepsUp_preflushCtl hs) (hk.preflushCtl hs) fun _ t ht => keepsUp_flush_push ht.1

theorem keepsUp_flush (hs : Sane s) : KeepsUp Lost (flush env) (flush env.grant) s := by
  have hk := (kept_sane (F := F) env).toQueued
  refine .bind_read (.bind (.each (fun _ _ ht => hk.preflush ht) (fun _ _ ht => keepsUp_preflush ht) hs)
    (Wp.each (fun _ t => Sane t) (fun _ _ _ ht => hk.preflush ht) hs) fun _ t ht => keepsUp_innerFlush ht)

/-! ## Measurement -/

theorem wp_premeasure_sane (hs : Sane s) :
    Wp Sane (fun _ => True) (premeasure env q) s fun _ t => Sane t :=
  ((kept_sane env).premeasure hs fun _ _ _ _ _ => trivial).mono fun _ _ ht => ht.1

theorem keepsUp_premeasure (hs : Sane s) : KeepsUp Lost (premeasure env q) (premeasure env.grant q) s := by
  have hk := (kept_sane (F := F) env).toQueued
  refine .bind (keepsUp_preflush hs) (hk.preflush hs) fun _ t ht => .bind_read ?_
  refine .bind (keepsUp_innerFlush ht) (wp_innerFlush_sane ht) fun _ u hu => .bind_read ?_
  split
  · exact .pure
  · exact .bind_known fun _ _ => .pure

omit [Scalar F] in
/-- The vector is collapsed. -/
theorem Sane.measure (h : Sane s) {ok v : Bool} {scale : F} {w : AnyVector F}
    (hv : s.state.measure s.ctx ok q v scale = .ok w) :
    Sane (s.withState w) ∧ (Lost s → Lost (s.withState w)) ∧
      (s.state.measure s.ctx true q v scale = .ok w ∨ Lost (s.withState w)) := by
  obtain ⟨t, ht, rfl⟩ := AnyVector.measure_ok hv
  have hi := Statevector.measure_inv h.inv ht
  refine ⟨⟨⟨h.range.words, fun p hp => (hi.partitioned p hp).1, h.range.queue⟩, hi⟩,
    fun hl => Statevector.measure_stays h.inv hl ht, ?_⟩
  refine (Statevector.measure_granted ht).imp_left fun hg => ?_
  unfold AnyVector.measure
  rw [hg]
  rfl

theorem wp_collapse_sane (hs : Sane s) {v : Bool} {r0 r1 : F} :
    Wp Sane (fun _ => True) (collapse env q v r0 r1) s fun _ t => Sane t :=
  wp_collapse (fun _ => hs) (fun _ _ hw => ⟨(hs.measure hw).1, (hs.measure hw).1⟩) fun _ _ _ => trivial

theorem keepsUp_collapse (hs : Sane s) {v : Bool} {r0 r1 : F} :
    KeepsUp Lost (collapse env q v r0 r1) (collapse env.grant q v r0 r1) s := by
  unfold collapse
  by_cases h : (if v then r0 else r1) ≠ 0
  · rw [if_pos h, if_pos h]
    exact .bind_read (keepsUp_setState_last fun w hw => (hs.measure hw).2)
  · rw [if_neg h, if_neg h]
    exact .pure

theorem keepsUp_measure (hs : Sane s) {bias : BitVec 64} :
    KeepsUp Lost (measure env q bias) (measure env.grant q bias) s := by
  refine .bind (keepsUp_premeasure hs) (wp_premeasure_sane hs) fun r t ht => ?_
  split
  · exact .pure
  · exact .bind (keepsUp_collapse ht) (wp_collapse_sane ht) fun _ _ _ => .pure

theorem keepsUp_qubitProbs (hs : Sane s) : KeepsUp Lost (qubitProbs env q) (qubitProbs env.grant q) s := by
  refine .bind (keepsUp_premeasure hs) (wp_premeasure_sane hs) fun r t ht => ?_
  simp only
  split
  · exact .pure
  · exact .pure

/-! ## Calls -/

omit [LinearOrder F] [Eps F] [Scalar F] in
/-- `reset_state` yields a new simulator, or an empty vector. -/
theorem wp_resetState_refused (hs : Sane s) :
    Wp (fun _ => True) (fun _ => True) (resetState env) s fun _ t =>
      Sane t ∧ ((resetState env.grant).result s = .ok ((), t) ∨ Lost t) := by
  refine .bind_read (.bind_ofExcept (fun _ _ => trivial) fun v hv => ?_)
  obtain ⟨hv, hg⟩ := sane_new hs.range.queue hv
  have hk := hv.range.queue.clear
  refine wp_setState trivial (wp_setQueue trivial (.change trivial
    ⟨⟨⟨hv.range.words, hv.range.part, hk⟩, hv.inv⟩, hg.imp_left fun hg => ?_⟩))
  unfold resetState
  rw [result_bind_read]
  simp only [Env.grant_alloc]
  rw [result_bind (result_ofExcept hg s)]
  rfl

omit [Scalar F] in
/-- `import_dense` imports the amplitudes, or leaves an empty vector. -/
theorem wp_importDense_refused (hs : Sane s) {values : List (Cplx F)} (hl : values.length < 2 ^ 64) :
    Wp (fun _ => True) (fun _ => True) (importDense env values) s fun _ t =>
      Sane t ∧ ((importDense env.grant values).result s = .ok ((), t) ∨ Lost t) := by
  refine .bind_read (wp_orPanic_bind (fun _ => trivial) fun q hq =>
    .bind_ofExcept (fun _ _ => trivial) fun v hv => ?_)
  have hsv := (sane_new hs.range.queue hv).1
  refine wp_setState trivial (.bind_ofExcept (fun _ _ => trivial) fun w hw => ?_)
  obtain ⟨t, ht, rfl⟩ := AnyVector.importDense_ok hw
  have hi := Statevector.importDense_inv hsv.range.words hl hsv.inv ht
  refine wp_setState trivial (wp_setQueue trivial (.change trivial
    ⟨⟨⟨hsv.range.words, fun p hp => (hi.partitioned p hp).1, hs.range.queue.clear⟩, hi⟩, ?_⟩))
  obtain ⟨u, -, hnew⟩ := @AnyVector.new_ok F _ (env.alloc .grow (max s.ctx.initMaxQubit q) 0)
    (max s.ctx.initMaxQubit q)
  rw [hnew] at hv
  cases hv
  obtain ⟨u', -, hnew'⟩ := @AnyVector.new_ok F _ true (max s.ctx.initMaxQubit q)
  refine (Statevector.importDense_refused ht u').imp_left fun hg => ?_
  have himport : AnyVector.importDense ⟨numWords (max s.ctx.initMaxQubit q), u'⟩ true values =
      .ok ⟨numWords (max s.ctx.initMaxQubit q), t⟩ := by
    unfold AnyVector.importDense
    rw [hg]
    rfl
  unfold importDense
  rw [result_bind_read, hq, result_bind (show (orPanic (some q)).result s = .ok (q, s) from rfl)]
  simp only [Env.grant_alloc]
  rw [result_bind (result_ofExcept hnew' s), result_bind rfl, result_bind (result_ofExcept himport _)]
  rfl

end Simulator

namespace Call

open Simulator

variable {F : Type} [Field F] [LinearOrder F] [Eps F] [Scalar F] {s t : Simulator F} {env : Env} {call : Call F}

omit [Field F] [LinearOrder F] [Eps F] [Scalar F] in
theorem indexed_of_not_restarts (h : ¬ call.Restarts) : call.Indexed := by
  cases call with
  | importDense values => exact absurd trivial h
  | _ => trivial

theorem keepsUp_eval (hs : Sane s) (hr : ¬ call.Restarts) :
    KeepsUp Lost (call.eval env) (call.eval env.grant) s := by
  cases call with
  | u3 q gate => exact .bind keepsUp_u3 .any fun _ _ _ => .pure
  | ctlX ctl q => exact .bind (keepsUp_ctlX hs) .any fun _ _ _ => .pure
  | ctlSwap ctl q1 q2 => exact .bind (keepsUp_ctlSwap hs) .any fun _ _ _ => .pure
  | ctlPhase ctl a => exact .bind (keepsUp_ctlPhase hs) .any fun _ _ _ => .pure
  | measure q bias => exact .bind (keepsUp_measure hs) .any fun _ _ _ => .pure
  | qubitProbs q => exact .bind (keepsUp_qubitProbs hs) .any fun _ _ _ => .pure
  | flush => exact .bind (keepsUp_flush hs) .any fun _ _ _ => .pure
  | trim => exact .bind (.change fun hl => hl) .any fun _ _ _ => .pure
  | resetState => exact absurd trivial hr
  | importDense values => exact absurd trivial hr

/-- A call keeps the invariant of the vector. -/
theorem wp_eval_sane (hs : Sane s) (hi : call.Indexed) :
    Wp (fun _ => True) (fun _ => True) (call.eval env) s fun _ t => Sane t := by
  have hk := kept_sane (F := F) env
  have hunit : ∀ {m : Sim F Unit}, Wp Sane (fun _ => True) m s (fun _ t => Sane t) →
      Wp (fun _ => True) (fun _ => True) (m >>= fun _ => return (Answer.unit : Answer F)) s fun _ t => Sane t :=
    fun h => .bind (h.imp (fun _ _ => trivial) (fun _ _ => trivial) fun _ _ h => h) fun _ _ ht => .pure ht
  have hpre := fun q => (@wp_premeasure_sane F _ s q env _ _ _ hs).imp (fun _ _ => trivial) (fun _ _ => trivial)
    fun _ _ ht => ht
  cases call with
  | u3 q gate => exact hunit (hk.toQueued.u3 hs)
  | ctlX ctl q => exact hunit (hk.ctlX hs)
  | ctlSwap ctl q1 q2 => exact hunit (hk.ctlSwap hs)
  | ctlPhase ctl a => exact hunit (hk.ctlPhase hs)
  | measure q bias =>
    refine .bind (Q := fun _ t => Sane t) (.bind (hpre q) fun r t ht => ?_) fun _ _ ht => .pure ht
    split
    · exact .pure ht
    · exact .bind ((wp_collapse_sane ht).imp (fun _ _ => trivial) (fun _ _ => trivial) fun _ _ hu => hu)
        fun _ _ hu => .pure hu
  | qubitProbs q => exact .bind (wp_qubitProbs (hpre q)) fun _ _ ht => .pure ht
  | flush =>
    exact .bind ((hk.flushAll hs).imp (fun _ _ => trivial) (fun _ _ => trivial) fun _ _ ht => ht)
      fun _ _ ht => .pure ht
  | trim =>
    have htrim : Sane ({ s with state := s.state.trim } : Simulator F) :=
      ⟨⟨hs.range.words, hs.range.part, hs.range.queue⟩, hs.inv⟩
    exact .bind (Q := fun _ t => Sane t) (.change trivial htrim) fun _ _ ht => .pure ht
  | resetState => exact .bind (wp_resetState_refused hs) fun _ _ ht => .pure ht.1
  | importDense values => exact .bind (wp_importDense_refused hs hi) fun _ _ ht => .pure ht.1

/-- A call does what it does without a refusal, or leaves an empty vector. Only `reset_state` and `import_dense`
make something of an empty one. -/
theorem eval_refused (hs : Sane s) (hi : call.Indexed) {a : Answer F}
    (h : (call.eval env).result s = .ok (a, t)) :
    Sane t ∧ ((call.eval env.grant).result s = .ok (a, t) ∨ Lost t) ∧ (¬ call.Restarts → Lost s → Lost t) := by
  refine ⟨(wp_eval_sane hs hi).ends a t h, ?_, fun hr hl => (keepsUp_eval hs hr).stays hl a t h⟩
  have hrestart : ∀ {m m' : Sim F Unit}, (∀ u v, m.result s = .ok (u, v) → m'.result s = .ok (u, v) ∨ Lost v) →
      (m >>= fun _ => return (Answer.unit : Answer F)).result s = .ok (a, t) →
      (m' >>= fun _ => return (Answer.unit : Answer F)).result s = .ok (a, t) ∨ Lost t := by
    intro m m' hm hr
    obtain ⟨u, v, hu, hv⟩ := result_bind_ok hr
    cases hv
    exact (hm u _ hu).imp_left fun hm' => result_bind hm'
  by_cases hr : call.Restarts
  · cases call with
    | resetState => exact hrestart (fun u v hv => ((wp_resetState_refused hs).ends u v hv).2) h
    | importDense values => exact hrestart (fun u v hv => ((wp_importDense_refused hs hi).ends u v hv).2) h
    | _ => exact hr.elim
  · exact (keepsUp_eval hs hr).same a t h

end Call

/-! ## Runs -/

namespace Simulator

variable {F : Type} [Field F] [LinearOrder F] [Eps F] [Scalar F] {s t : Simulator F}
  {calls l : List (Env × Call F)}

/-- Calls one after the other, and what they return. -/
def evalCalls : List (Env × Call F) → Sim F (List (Answer F))
  | [] => return []
  | p :: calls => do
    let a ← p.2.eval p.1
    let as ← evalCalls calls
    return a :: as

/-- The same calls, and no reservation fails. -/
def grantCalls (calls : List (Env × Call F)) : List (Env × Call F) := calls.map fun p => (p.1.grant, p.2)

theorem wp_evalCalls_sane (hs : Sane s) (hc : ∀ p ∈ calls, p.2.Indexed) :
    Wp (fun _ => True) (fun _ => True) (evalCalls calls) s fun _ t => Sane t := by
  induction calls generalizing s with
  | nil => exact .pure hs
  | cons p calls ih =>
    refine .bind (Call.wp_eval_sane hs (hc p (List.mem_cons_self ..))) fun a t ht => ?_
    exact .bind (ih ht fun r hr => hc r (List.mem_cons_of_mem _ hr)) fun _ _ hu => .pure hu

theorem keepsUp_evalCalls (hs : Sane s) (hc : ∀ p ∈ calls, ¬ p.2.Restarts) :
    KeepsUp Lost (evalCalls calls) (evalCalls (grantCalls calls)) s := by
  induction calls generalizing s with
  | nil => exact .pure
  | cons p calls ih =>
    have hp := hc p (List.mem_cons_self ..)
    refine .bind (Call.keepsUp_eval hs hp) (Call.wp_eval_sane hs (Call.indexed_of_not_restarts hp))
      fun a t ht => ?_
    exact .bind (ih ht fun r hr => hc r (List.mem_cons_of_mem _ hr)) .any fun _ _ _ => .pure

omit [LinearOrder F] [Eps F] [Scalar F] in
/-- A new simulator, whether or not its reservation succeeds. -/
theorem sane_of_new {ctx : Context} {ok : Bool} (h : new ctx ok = .ok s) : Sane s := by
  obtain ⟨v, hv, rfl, -⟩ := new_cases h
  have hi := (Statevector.new_inv hv).2
  exact ⟨⟨AnyVector.numWords_pos _, fun p hp => (hi.partitioned p hp).1, Queue.good_new⟩, hi⟩

/-- No refusal goes unnoticed. From any state that is reached with refusals, if `is_error` is false after calls
that neither reset nor import, then nothing was refused that matters: where no reservation fails, the calls
return the same and leave the same simulator. -/
theorem refusal_detected {ctx : Context} {ok : Bool} {s₀ : Simulator F} (hnew : new ctx ok = .ok s₀)
    (hb : ∀ p ∈ l, p.2.Indexed) {as₀ as : List (Answer F)}
    (hs : (evalCalls l).result s₀ = .ok (as₀, s)) (hc : ∀ p ∈ calls, ¬ p.2.Restarts)
    (h : (evalCalls calls).result s = .ok (as, t)) (ht : t.isError = false) :
    s.isError = false ∧ (evalCalls (grantCalls calls)).result s = .ok (as, t) := by
  have hsane := (wp_evalCalls_sane (sane_of_new hnew) hb).ends as₀ s hs
  have hk := keepsUp_evalCalls hsane hc
  have hlive : ¬ Lost t := fun hl => by rw [Lost, ht] at hl; cases hl
  exact ⟨Bool.eq_false_iff.mpr fun hl => hlive (hk.stays hl as t h), (hk.same as t h).resolve_right hlive⟩

/-- The copy of `measure` is granted, and nothing else. -/
def measureOnly : Env := ⟨fun _ => Equiv.refl _, fun _ _ i => i, fun site _ _ => decide (site = .measure)⟩

/-- With nothing queued or pending, `measure` makes no other reservation. -/
theorem measure_measureOnly {s t : Simulator ℝ} (hk : s.sfreeQueue.isEmpty = true)
    (hp : ∀ q, s.qubits q = none) {q : Qubit} {bias : BitVec 64} {a : Bool × Option (ℝ × ℝ)}
    (h : (measure Env.default q bias).result s = .ok (a, t)) :
    (measure measureOnly q bias).result s = .ok (a, t) := by
  have hcol : (collapse measureOnly : Qubit → Bool → ℝ → ℝ → Sim ℝ Unit) = collapse Env.default := by
    funext q v r0 r1
    rfl
  obtain ⟨r, u, hr, ht⟩ := result_bind_ok h
  have hpre : (premeasure measureOnly q).result s = (premeasure Env.default q).result s :=
    (premeasure_nothing hk hp).trans (premeasure_nothing hk hp).symm
  have hr' : (premeasure measureOnly q).result s = .ok (r, u) := hpre.trans hr
  unfold measure
  rw [hcol, result_bind hr']
  exact ht

theorem denseKet_ones : denseKet [Cplx.ONE, Cplx.ONE] ≠ 0 := by
  intro h
  have h0 := congrFun h fun q => (0 : Nat).testBit q.val
  simp only [denseKet, List.zipIdx_cons, List.zipIdx_nil, List.map_cons, List.map_nil, List.sum_cons,
    List.sum_nil, Pi.add_apply, Pi.smul_apply, ket_apply, if_true, smul_eq_mul] at h0
  split at h0 <;> norm_num [Cplx.ONE, Cplx.toC, Complex.ext_iff] at h0

/-- A measurement that removes one of two amplitudes, where only its own copy is granted. -/
theorem refusal_detected_measure : ∃ (s₀ s t : Simulator ℝ) (a : Answer ℝ),
    new Context.default true = .ok s₀ ∧
    (evalCalls [(Env.default, .importDense [Cplx.ONE, Cplx.ONE])]).result s₀ = .ok ([.unit], s) ∧
    (evalCalls [(measureOnly, .measure 0 0)]).result s = .ok ([a], t) ∧ s.isError = false ∧
    (evalCalls (grantCalls [(measureOnly, .measure 0 0)])).result s = .ok ([a], t) := by
  obtain ⟨s₀, hnew⟩ : ∃ s₀ : Simulator ℝ, new Context.default true = .ok s₀ := ⟨_, rfl⟩
  have hpos : s₀.ctx.Positive := by
    obtain ⟨v, -, rfl, -⟩ := new_cases hnew
    exact Context.default_positive
  have henv : Env.default.Granted := fun _ _ _ => rfl
  have hl : [Cplx.ONE, (Cplx.ONE : Cplx ℝ)].length < 2 ^ 64 := by decide
  have hrun := result_bind (f := fun _ => (return .unit : Sim ℝ (Answer ℝ))) (importDense_result hl henv s₀)
  have himport := result_bind (f := fun a => (return [a] : Sim ℝ (List (Answer ℝ)))) hrun
  obtain ⟨φ, hid, hs, hP⟩ := (wp_eval_importDense (ψ := 0) henv (holds_new hnew).range hl).ends _ _ hrun
  obtain rfl : denseKet [Cplx.ONE, Cplx.ONE] = φ := (Prod.mk.inj hid).2
  -- where nothing is refused, the measurement returns and leaves an amplitude
  have hw := @wp_measure_returns _ _ _ 0 _ henv (hs.stands denseKet_ones) hs.clean 0
  obtain ⟨a, t, ht⟩ := returns_of_wp hw (fun _ h => h) (hP hpos)
  obtain ⟨e, he, -⟩ := ((hw.ends a t ht).1.live (hP hpos)).2
  have herr : t.isError = false := by
    refine Bool.eq_false_iff.mpr fun hl => ?_
    rw [Statevector.isEmpty_iff.mp hl] at he
    exact absurd he List.not_mem_nil
  have hm := result_bind (f := fun r => (return .outcome r.1 r.2 : Sim ℝ (Answer ℝ)))
    (measure_measureOnly rfl (fun _ => rfl) ht)
  have hmeasure := result_bind (f := fun a => (return [a] : Sim ℝ (List (Answer ℝ)))) hm
  have hindexed : ∀ p ∈ [(Env.default, Call.importDense [Cplx.ONE, (Cplx.ONE : Cplx ℝ)])], p.2.Indexed :=
    fun p hp => by rw [List.mem_singleton.mp hp]; exact hl
  have hrestarts : ∀ p ∈ [(measureOnly, (.measure 0 0 : Call ℝ))], ¬ p.2.Restarts :=
    fun p hp => by rw [List.mem_singleton.mp hp]; exact id
  exact ⟨s₀, _, t, _, hnew, himport, hmeasure,
    refusal_detected hnew hindexed himport hrestarts hmeasure herr⟩

end Simulator

end Qblaze

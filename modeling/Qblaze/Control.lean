import Qblaze.Qubit

/-!
# The storage of controls (`src/qubit.rs`)

`Control` of `Qblaze.Qubit` is the list of the items of a control. The source stores up to two
items in place and more of them in a box, and every operation has its own code for the short forms.
`ControlArray` has these forms, and its operations are the source's.

- **Forms** (`get_injective`): the items determine the form, so two controls are equal if their
  items are.
- **Refinement** (`fromIter_eq`, `withQubit_get`, `withoutQubit_get`, `toggleIf_get`): on ordered items
  each operation is the operation of `Control`.
- **Canonical** (`control_canonical`): a control is a finite map from qubits to values.
-/

namespace Qblaze

/-- `Control` as it is stored; the constructor is the field `count`. -/
inductive ControlArray where
  | empty
  | one (a : ControlItem)
  | two (a b : ControlItem)
  | multi (items : List ControlItem) (h : 2 < items.length)

namespace ControlArray

variable {c c' : ControlArray} {q : Qubit} {v : Bool} {l : List ControlItem}

/-- `Control::get` -/
def get : ControlArray → List ControlItem
  | empty => []
  | one a => [a]
  | two a b => [a, b]
  | multi items _ => items

/-- `Control::two` -/
def ofTwo (a b : ControlItem) : ControlArray := if b.code < a.code then two b a else two a b

/-- `Control::uses` -/
def uses (c : ControlArray) (q : Qubit) : Bool := c.get.any (·.qubit == q)

/-- `items.binary_search_by(|c| c.qubit().cmp(&q))`: the index of the item on `q`, or else where
one would be inserted. -/
def search (items : List ControlItem) (q : Qubit) : Except Nat Nat :=
  let i := items.findIdx fun a => q ≤ a.qubit
  if items[i]?.any (·.qubit == q) then .ok i else .error i

/-- `Control::from_iter` (`collect`); `none` is the panic. -/
def fromIter : List ControlItem → Option ControlArray
  | [] => some empty
  | [first] => some (one first)
  | [first, second] =>
    if first.qubit ≠ second.qubit then some (ofTwo first second) else none
  | first :: second :: third :: rest =>
    let v := Control.sortItems (first :: second :: third :: rest)
    if Control.hasAlias v then none
    else some (multi v (by simp [v, Control.sortItems]))

/-- `Control::try_from_iter` -/
def tryFromIter {ε : Type} : List (Except ε ControlItem) → Except ε (Option ControlArray)
  | [] => .ok (some empty)
  | [first] => do
    let first ← first
    return some (one first)
  | [first, second] => do
    let first ← first
    let second ← second
    return if first.qubit = second.qubit then none else some (ofTwo first second)
  | first :: second :: third :: rest => do
    let first ← first
    let second ← second
    let third ← third
    let rest ← rest.mapM id
    let v := Control.sortItems (first :: second :: third :: rest)
    return if Control.hasAlias v then none
      else some (multi v (by simp [v, Control.sortItems]))

/-- The last case of `Control::with_qubit`; `none` is the panic. -/
def withSearch (items : List ControlItem) (h : 1 < items.length) (q : Qubit) (v : Bool) :
    Option ControlArray :=
  match search items q with
  | .ok _ => none
  | .error i => some (multi (items.take i ++ ⟨q, v⟩ :: items.drop i) (by simp; omega))

/-- `Control::with_qubit`; `none` is the panic. -/
def withQubit (c : ControlArray) (q : Qubit) (v : Bool) : Option ControlArray :=
  match c with
  | empty => some (one ⟨q, v⟩)
  | one c0 => if c0.qubit ≠ q then some (ofTwo c0 ⟨q, v⟩) else none
  | two a b => withSearch [a, b] (by simp) q v
  | multi items h => withSearch items (by omega) q v

/-- `Control::inplace_toggle_if` -/
def toggleIf (c : ControlArray) (f : Qubit → Bool) : ControlArray :=
  let toggle (a : ControlItem) := if f a.qubit then a.invert else a
  match c with
  | empty => empty
  | one a => one (toggle a)
  | two a b => two (toggle a) (toggle b)
  | multi items h => multi (items.map toggle) (by simpa using h)

/-- The last case of `Control::without_qubit`; the outer `none` is the panic of `collect`. -/
def withoutSearch (items : List ControlItem) (q : Qubit) : Option (Option (Bool × ControlArray)) :=
  match search items q with
  | .error _ => some none
  | .ok i => do
    let r ← fromIter (items.take i ++ items.drop (i + 1))
    let a ← items[i]?
    return some (a.value, r)

/-- `Control::without_qubit`; the outer `none` is a panic. -/
def withoutQubit (c : ControlArray) (q : Qubit) : Option (Option (Bool × ControlArray)) :=
  match c with
  | empty => some none
  | one c0 => some (if c0.qubit = q then some (c0.value, empty) else none)
  | two a b => withoutSearch [a, b] q
  | multi items _ => withoutSearch items q

/-! ## Forms -/

/-- The items determine the form. -/
theorem get_injective (h : c.get = c'.get) : c = c' := by
  have hlen := congrArg List.length h
  cases c <;> cases c' <;> simp only [get, List.length_nil, List.length_cons] at h hlen
  case multi.multi => simp [h]
  all_goals first | omega | simp_all

theorem uses_iff : c.uses q = true ↔ ∃ a ∈ c.get, a.qubit = q := by
  simp [uses]

theorem not_uses_iff : c.uses q = false ↔ ∀ a ∈ c.get, a.qubit ≠ q := by
  simp [uses]

theorem get_ofTwo_of_lt {a b : ControlItem} (h : a.qubit < b.qubit) :
    (ofTwo a b).get = [a, b] ∧ (ofTwo b a).get = [a, b] := by
  have h1 := Fin.lt_def.mp h
  have h2 := a.value.toNat_le
  have hc : a.code < b.code := by
    unfold ControlItem.code
    omega
  unfold ofTwo
  rw [if_neg (Nat.lt_asymm hc), if_pos hc]
  exact ⟨rfl, rfl⟩

/-- Two ordered lists of the same items are equal. -/
theorem ordered_unique {l l' : List ControlItem} (h : Ordered l) (h' : Ordered l')
    (hp : l.Perm l') : l = l' :=
  hp.eq_of_pairwise (fun _ _ _ _ h1 h2 => absurd h1 (lt_asymm h2)) h h'

/-! ## Collecting -/

/-- `from_iter` collects what `Control.fromIter` collects. -/
theorem fromIter_eq (l : List ControlItem) :
    (fromIter l).map get = (Control.fromIter l).map (·.items) := by
  match l with
  | [] => rfl
  | [a] => rfl
  | [a, b] =>
    show Option.map get (if a.qubit ≠ b.qubit then some (ofTwo a b) else none) =
      Option.map _ (if h : a.qubit ≠ b.qubit then some (Control.two a b h) else none)
    by_cases h : a.qubit ≠ b.qubit
    · rw [if_pos h, dif_pos h]
      unfold ofTwo Control.two
      split <;> rfl
    · rw [if_neg h, dif_neg h]
      rfl
  | a :: b :: d :: l =>
    show Option.map get (if _ then none else _) = Option.map _ (Control.ofSorted _)
    unfold Control.ofSorted
    by_cases h : Control.hasAlias (Control.sortItems (a :: b :: d :: l)) = false
    · rw [dif_pos h, if_neg (by rw [h]; decide)]
      rfl
    · rw [dif_neg h, if_pos (Bool.eq_true_of_not_eq_false h)]
      rfl

/-- The control that is collected has the given items, in order. -/
theorem fromIter_spec (h : fromIter l = some c) : Ordered c.get ∧ c.get.Perm l := by
  have he := fromIter_eq l
  rw [h] at he
  obtain ⟨d, hd, hg⟩ := Option.map_eq_some_iff.mp he.symm
  rw [← hg]
  exact ⟨d.ordered, Control.fromIter_perm hd⟩

theorem fromIter_of_ordered (h : Ordered l) : ∃ c, fromIter l = some c ∧ c.get = l := by
  have he := fromIter_eq l
  rw [Control.fromIter_of_ordered h] at he
  exact Option.map_eq_some_iff.mp he

theorem nodup_of_ordered (h : Ordered l) : (l.map (·.qubit)).Nodup :=
  List.pairwise_map.mpr (h.imp fun h => h.ne)

/-- Collecting panics exactly if two items are on one qubit. -/
theorem fromIter_eq_none : fromIter l = none ↔ ¬ (l.map (·.qubit)).Nodup := by
  constructor
  · intro h hn
    obtain ⟨d, hd⟩ := Control.fromIter_isSome hn
    have he := fromIter_eq l
    rw [h, hd] at he
    cases he
  · intro h
    cases hf : fromIter l with
    | none => rfl
    | some c =>
      obtain ⟨ho, hp⟩ := fromIter_spec hf
      exact absurd ((hp.map _).nodup_iff.mp (nodup_of_ordered ho)) h

/-- The order of the items does not matter. -/
theorem fromIter_congr {l' : List ControlItem} (h : l.Perm l') : fromIter l = fromIter l' := by
  cases hf : fromIter l with
  | none =>
    have hn := fromIter_eq_none.mp hf
    rw [(h.map _).nodup_iff] at hn
    exact (fromIter_eq_none.mpr hn).symm
  | some c =>
    cases hf' : fromIter l' with
    | none =>
      have hn := fromIter_eq_none.mp hf'
      rw [← (h.map _).nodup_iff, ← fromIter_eq_none, hf] at hn
      cases hn
    | some c' =>
      obtain ⟨ho, hp⟩ := fromIter_spec hf
      obtain ⟨ho', hp'⟩ := fromIter_spec hf'
      exact congrArg some (get_injective (ordered_unique ho ho' (hp.trans (h.trans hp'.symm))))

/-- `try_from_iter` takes the items up to the first error, and collects them if there is none. -/
theorem tryFromIter_eq {ε : Type} (l : List (Except ε ControlItem)) :
    tryFromIter l = (do
      let items ← l.mapM id
      return fromIter items) := by
  match l with
  | [] => rfl
  | [a] => cases a <;> rfl
  | [.error _, _] => rfl
  | [.ok _, .error _] => rfl
  | [.ok a, .ok b] =>
    show Except.ok (if a.qubit = b.qubit then none else some (ofTwo a b)) =
      Except.ok (if a.qubit ≠ b.qubit then some (ofTwo a b) else none)
    rw [ite_not]
  | .error _ :: _ :: _ :: _ => rfl
  | .ok _ :: .error _ :: _ :: _ => rfl
  | .ok _ :: .ok _ :: .error _ :: _ => rfl
  | .ok a :: .ok b :: .ok d :: l =>
    unfold tryFromIter
    simp only [List.mapM_cons, id]
    cases l.mapM id <;> rfl

theorem mapM_ok {ε : Type} (l : List ControlItem) :
    (l.map (Except.ok : ControlItem → Except ε ControlItem)).mapM id = .ok l := by
  induction l with
  | nil => rfl
  | cons a l ih =>
    rw [List.map_cons, List.mapM_cons, ih]
    rfl

theorem mapM_error {ε : Type} (l : List ControlItem) (e : ε) (l' : List (Except ε ControlItem)) :
    (l.map Except.ok ++ Except.error e :: l').mapM id = .error e := by
  induction l with
  | nil => rfl
  | cons a l ih =>
    rw [List.map_cons, List.cons_append, List.mapM_cons, ih]
    rfl

/-! ## One item more and one item less -/

/-- What the search finds among ordered items. -/
theorem search_cases (h : Ordered l) (q : Qubit) :
    (∃ lo a hi, l = lo ++ a :: hi ∧ a.qubit = q ∧ search l q = .ok lo.length) ∨
    (∃ lo hi, l = lo ++ hi ∧ (∀ a ∈ lo, a.qubit < q) ∧ (∀ a ∈ hi, q < a.qubit) ∧
      search l q = .error lo.length) := by
  obtain ⟨lo, hi, rfl, hlo, hhi⟩ : ∃ lo hi, l = lo ++ hi ∧ (∀ a ∈ lo, a.qubit < q) ∧
      ∀ a ∈ hi, q ≤ a.qubit :=
    ⟨_, _, List.takeWhile_append_dropWhile.symm, fun _ h => Control.lt_of_mem_takeWhile h,
      fun _ hm => Control.le_of_mem_dropWhile h hm⟩
  have hidx : (lo ++ hi).findIdx (fun a => decide (q ≤ a.qubit)) = lo.length := by
    have hlen : lo.findIdx (fun a => decide (q ≤ a.qubit)) = lo.length :=
      List.findIdx_eq_length_of_false fun a ha => by simpa using hlo a ha
    rw [List.findIdx_append, hlen, if_neg (Nat.lt_irrefl _)]
    cases hi with
    | nil => exact Nat.zero_add _
    | cons b hi =>
      rw [List.findIdx_cons, decide_eq_true (hhi b (List.mem_cons_self ..))]
      exact Nat.zero_add _
  have hs : search (lo ++ hi) q = if hi.head?.any (·.qubit == q) then .ok lo.length
      else .error lo.length := by
    unfold search
    simp only [hidx, List.getElem?_append_right (Nat.le_refl lo.length), Nat.sub_self,
      List.head?_eq_getElem?]
  rw [hs]
  cases hi with
  | nil => exact .inr ⟨lo, [], rfl, hlo, fun _ h => absurd h (List.not_mem_nil), rfl⟩
  | cons b hi =>
    by_cases hb : b.qubit = q
    · refine .inl ⟨lo, b, hi, rfl, hb, if_pos ?_⟩
      simpa using hb
    · refine .inr ⟨lo, b :: hi, rfl, hlo, fun a ha => ?_, if_neg (by simpa using hb)⟩
      have hbq : q < b.qubit := lt_of_le_of_ne (hhi b (List.mem_cons_self ..)) (Ne.symm hb)
      rcases List.mem_cons.mp ha with rfl | ha
      · exact hbq
      · exact hbq.trans (List.rel_of_pairwise_cons (List.pairwise_append.mp h).2.1 ha)

theorem ordered_between {lo hi : List ControlItem} (h : Ordered (lo ++ hi))
    (hlo : ∀ a ∈ lo, a.qubit < q) (hhi : ∀ a ∈ hi, q < a.qubit) :
    Ordered (lo ++ ⟨q, v⟩ :: hi) := by
  obtain ⟨h1, h2, h3⟩ := List.pairwise_append.mp h
  refine List.pairwise_append.mpr ⟨h1, List.pairwise_cons.mpr ⟨hhi, h2⟩, fun a ha b hb => ?_⟩
  rcases List.mem_cons.mp hb with rfl | hb
  · exact hlo a ha
  · exact h3 a ha b hb

/-- The last case of `with_qubit`, on ordered items. -/
theorem withSearch_spec (ho : Ordered l) (hl : 1 < l.length) (q : Qubit) (v : Bool) :
    (∃ c' lo hi, withSearch l hl q v = some c' ∧ l = lo ++ hi ∧ c'.get = lo ++ ⟨q, v⟩ :: hi ∧
      Ordered c'.get ∧ ∀ a ∈ l, a.qubit ≠ q) ∨
    (withSearch l hl q v = none ∧ ∃ a ∈ l, a.qubit = q) := by
  rcases search_cases ho q with ⟨lo, a, hi, rfl, ha, hs⟩ | ⟨lo, hi, rfl, h1, h2, hs⟩
  · exact .inr ⟨by simp [withSearch, hs], a, by simp, ha⟩
  · refine .inl ⟨multi (lo ++ ⟨q, v⟩ :: hi) ?_, lo, hi, by simp [withSearch, hs], rfl, rfl,
      ordered_between ho h1 h2, fun a ha => ?_⟩
    · rw [List.length_append] at hl
      rw [List.length_append, List.length_cons]
      omega
    · rcases List.mem_append.mp ha with ha | ha
      · exact (h1 a ha).ne
      · exact (h2 a ha).ne'

/-- `with_qubit` puts the item where its qubit belongs, and panics if the qubit is used. -/
theorem withQubit_spec (ho : Ordered c.get) (q : Qubit) (v : Bool) :
    (∃ c' lo hi, c.withQubit q v = some c' ∧ c.get = lo ++ hi ∧ c'.get = lo ++ ⟨q, v⟩ :: hi ∧
      Ordered c'.get ∧ ∀ a ∈ c.get, a.qubit ≠ q) ∨
    (c.withQubit q v = none ∧ ∃ a ∈ c.get, a.qubit = q) := by
  cases c with
  | empty =>
    exact .inl ⟨_, [], [], rfl, rfl, rfl, List.pairwise_singleton _ _,
      fun _ h => absurd h List.not_mem_nil⟩
  | one c0 =>
    have hall (hne : c0.qubit ≠ q) : ∀ a ∈ (one c0).get, a.qubit ≠ q := fun a ha => by
      rw [List.mem_singleton.mp ha]
      exact hne
    rcases lt_trichotomy c0.qubit q with h | h | h
    · have hg := (@get_ofTwo_of_lt c0 ⟨q, v⟩ h).1
      exact .inl ⟨_, [c0], [], if_pos h.ne, rfl, hg, hg ▸ List.pairwise_pair.mpr h, hall h.ne⟩
    · exact .inr ⟨if_neg (not_not.mpr h), c0, List.mem_singleton.mpr rfl, h⟩
    · have hg := (@get_ofTwo_of_lt ⟨q, v⟩ c0 h).2
      exact .inl ⟨_, [], [c0], if_pos h.ne', rfl, hg, hg ▸ List.pairwise_pair.mpr h, hall h.ne'⟩
  | two a b => exact withSearch_spec ho (by simp [get]) q v
  | multi items h => exact withSearch_spec ho (Nat.lt_of_succ_lt h) q v

/-- The last case of `without_qubit`, on ordered items. -/
theorem withoutSearch_spec (ho : Ordered l) (q : Qubit) :
    (∃ lo v hi c', l = lo ++ ⟨q, v⟩ :: hi ∧ withoutSearch l q = some (some (v, c')) ∧
      c'.get = lo ++ hi) ∨
    ((∀ a ∈ l, a.qubit ≠ q) ∧ withoutSearch l q = some none) := by
  rcases search_cases ho q with ⟨lo, a, hi, rfl, rfl, hs⟩ | ⟨lo, hi, rfl, h1, h2, hs⟩
  · have ho' : Ordered (lo ++ hi) := ho.sublist ((List.sublist_cons_self a hi).append_left lo)
    obtain ⟨c', hf, hg⟩ := fromIter_of_ordered ho'
    refine .inl ⟨lo, a.value, hi, c', rfl, ?_, hg⟩
    have hdrop : (lo ++ a :: hi).drop (lo.length + 1) = hi := by
      rw [← List.drop_drop, List.drop_left, List.drop_one, List.tail_cons]
    simp [withoutSearch, hs, hdrop, hf]
  · refine .inr ⟨fun a ha => ?_, by simp [withoutSearch, hs]⟩
    rcases List.mem_append.mp ha with ha | ha
    · exact (h1 a ha).ne
    · exact (h2 a ha).ne'

/-- `without_qubit` does not panic; it takes the item on `q` out, if there is one. -/
theorem withoutQubit_spec (ho : Ordered c.get) (q : Qubit) :
    (∃ lo v hi c', c.get = lo ++ ⟨q, v⟩ :: hi ∧ c.withoutQubit q = some (some (v, c')) ∧
      c'.get = lo ++ hi) ∨
    ((∀ a ∈ c.get, a.qubit ≠ q) ∧ c.withoutQubit q = some none) := by
  cases c with
  | empty => exact .inr ⟨fun a ha => absurd ha (List.not_mem_nil), rfl⟩
  | one c0 =>
    by_cases h : c0.qubit = q
    · subst h
      exact .inl ⟨[], c0.value, [], empty, rfl, congrArg some (if_pos rfl), rfl⟩
    · refine .inr ⟨fun a ha => ?_, congrArg some (if_neg h)⟩
      rw [List.mem_singleton.mp ha]
      exact h
  | two a b => exact withoutSearch_spec ho q
  | multi items h => exact withoutSearch_spec ho q

/-- There is one way to take the item on `q` out. -/
theorem middle_unique {lo hi lo' hi' : List ControlItem} {v' : Bool}
    (ho : Ordered (lo ++ ⟨q, v⟩ :: hi)) (h : lo ++ ⟨q, v⟩ :: hi = lo' ++ ⟨q, v'⟩ :: hi') :
    v = v' ∧ lo ++ hi = lo' ++ hi' := by
  have ho' : Ordered (lo' ++ ⟨q, v'⟩ :: hi') := h ▸ ho
  have hm : (⟨q, v'⟩ : ControlItem) ∈ lo ++ ⟨q, v⟩ :: hi := by rw [h]; simp
  have he : (⟨q, v⟩ : ControlItem) = ⟨q, v'⟩ :=
    Control.eq_of_qubit_eq (c := ⟨_, ho⟩) (by simp) hm rfl
  cases he
  refine ⟨rfl, ordered_unique ?_ ?_ ?_⟩
  · exact ho.sublist ((List.sublist_cons_self _ hi).append_left lo)
  · exact ho'.sublist ((List.sublist_cons_self _ hi').append_left lo')
  · have hp : (lo ++ ⟨q, v⟩ :: hi).Perm (lo' ++ ⟨q, v⟩ :: hi') := h ▸ List.Perm.refl _
    exact (List.perm_cons _).mp (List.perm_middle.symm.trans (hp.trans List.perm_middle))

theorem withoutQubit_middle {lo hi : List ControlItem} (ho : Ordered c.get)
    (h : c.get = lo ++ ⟨q, v⟩ :: hi) :
    ∃ c', c.withoutQubit q = some (some (v, c')) ∧ c'.get = lo ++ hi := by
  rcases withoutQubit_spec ho q with ⟨lo', v', hi', c', hg, hw, hg'⟩ | ⟨hne, -⟩
  · obtain ⟨rfl, he⟩ := middle_unique (h ▸ ho) (h.symm.trans hg)
    exact ⟨c', hw, hg'.trans he.symm⟩
  · exact absurd rfl (hne ⟨q, v⟩ (by rw [h]; simp))

/-! ## The operations of `Control` -/

/-- A stored control as the list of its items. -/
def toControl (c : ControlArray) (ho : Ordered c.get) : Control := ⟨c.get, ho⟩

/-- `with_qubit` is `Control.withQubit`. -/
theorem withQubit_get (ho : Ordered c.get) (q : Qubit) (v : Bool) :
    (c.withQubit q v).map get = ((c.toControl ho).withQubit q v).map (·.items) := by
  rcases withQubit_spec ho q v with ⟨c', lo, hi, hw, hg, hg', ho', hne⟩ | ⟨hw, a, ha, hq⟩
  · obtain ⟨d, hd⟩ := @Control.withQubit_isSome (c.toControl ho) q v (Control.not_uses_iff.mpr hne)
    rw [hw, hd, Option.map_some, Option.map_some]
    refine congrArg some (ordered_unique ho' d.ordered ?_)
    refine (List.perm_ext_iff_of_nodup ?_ ?_).mpr fun a => ?_
    · exact ho'.imp fun h e => absurd (congrArg _ e) h.ne
    · exact d.ordered.imp fun h e => absurd (congrArg _ e) h.ne
    · rw [Control.mem_withQubit hd, hg', show (c.toControl ho).items = c.get from rfl, hg]
      simp only [List.mem_append, List.mem_cons]
      tauto
  · have hu : (c.toControl ho).uses q = true := Control.uses_iff.mpr ⟨a, ha, hq⟩
    rw [hw, Control.withQubit, dif_neg (by rw [hu]; decide)]
    rfl

/-- `without_qubit` is `Control.withoutQubit`. -/
theorem withoutQubit_get (ho : Ordered c.get) (q : Qubit) :
    ∃ r, c.withoutQubit q = some r ∧ r.map (Prod.map id get) =
      ((c.toControl ho).withoutQubit q).map (Prod.map id (·.items)) := by
  cases hd : (c.toControl ho).withoutQubit q with
  | none =>
    have hne := Control.not_uses_iff.mp (Control.withoutQubit_eq_none.mp hd)
    rcases withoutQubit_spec ho q with ⟨lo, v, hi, -, hg, -, -⟩ | ⟨-, hw⟩
    · have hm : ⟨q, v⟩ ∈ c.get := by rw [hg]; simp
      exact absurd rfl (hne ⟨q, v⟩ hm)
    · exact ⟨_, hw, rfl⟩
  | some r =>
    obtain ⟨v, d⟩ := r
    obtain ⟨lo, hi, h1, h2⟩ := Control.items_withoutQubit hd
    obtain ⟨c', hw, hg⟩ := withoutQubit_middle ho h1
    exact ⟨_, hw, by simp [hg, h2]⟩

/-- `inplace_toggle_if` is `Control.toggleIf`. -/
theorem toggleIf_get (ho : Ordered c.get) (f : Qubit → Bool) :
    (c.toggleIf f).get = ((c.toControl ho).toggleIf f).items := by
  cases c <;> rfl

/-! ## Canonical form -/

/-- A control is a canonical finite map from qubits to values. -/
theorem control_canonical :
    (∀ l : List ControlItem,
      (fromIter l = none ↔ ¬ (l.map (·.qubit)).Nodup) ∧
      (∀ c, fromIter l = some c → Ordered c.get ∧ c.get.Perm l) ∧
      (∀ l', l.Perm l' → fromIter l = fromIter l') ∧
      ∀ ε : Type, tryFromIter (l.map (Except.ok : _ → Except ε ControlItem)) = .ok (fromIter l)) ∧
    (∀ (ε : Type) (l : List ControlItem) (e : ε) (l' : List (Except ε ControlItem)),
      tryFromIter (l.map Except.ok ++ Except.error e :: l') = .error e) ∧
    ∀ c : ControlArray, Ordered c.get → ∀ q : Qubit,
      (∀ v, c.uses q = false → ∃ c', c.withQubit q v = some c' ∧ Ordered c'.get ∧
        c'.get.Perm (⟨q, v⟩ :: c.get) ∧ c'.withoutQubit q = some (some (v, c))) ∧
      (∃ r, c.withoutQubit q = some r ∧ (r = none ↔ c.uses q = false) ∧
        ∀ v c', r = some (v, c') → Ordered c'.get ∧ c.get.Perm (⟨q, v⟩ :: c'.get)) ∧
      ∀ f, Ordered (c.toggleIf f).get ∧
        (c.toggleIf f).get = c.get.map fun a => if f a.qubit then a.invert else a := by
  refine ⟨fun l => ⟨fromIter_eq_none, fun c h => fromIter_spec h, fun l' h => fromIter_congr h,
    fun ε => ?_⟩, fun ε l e l' => ?_, fun c ho q => ⟨fun v hq => ?_, ?_, fun f => ?_⟩⟩
  · rw [tryFromIter_eq, mapM_ok]
    rfl
  · rw [tryFromIter_eq, mapM_error]
    rfl
  · rcases withQubit_spec ho q v with ⟨c', lo, hi, hw, hg, hg', ho', -⟩ | ⟨-, a, ha, haq⟩
    · obtain ⟨c'', hw', hg''⟩ := withoutQubit_middle ho' hg'
      rw [get_injective (hg''.trans hg.symm)] at hw'
      refine ⟨c', hw, ho', ?_, hw'⟩
      rw [hg, hg']
      exact List.perm_middle
    · exact absurd haq (not_uses_iff.mp hq a ha)
  · rcases withoutQubit_spec ho q with ⟨lo, v, hi, c', hg, hw, hg'⟩ | ⟨hne, hw⟩
    · have hu : c.uses q = true := uses_iff.mpr ⟨⟨q, v⟩, by rw [hg]; simp, rfl⟩
      refine ⟨_, hw, by simp [hu], ?_⟩
      intro v' d hd
      cases hd
      rw [hg, hg']
      rw [hg] at ho
      exact ⟨ho.sublist ((List.sublist_cons_self _ hi).append_left lo), List.perm_middle⟩
    · refine ⟨_, hw, by simp [not_uses_iff.mpr hne], ?_⟩
      intro v d hd
      cases hd
  · rw [toggleIf_get ho f]
    exact ⟨((c.toControl ho).toggleIf f).ordered, rfl⟩

/-- An item on qubit 0 before one on qubit 1. -/
theorem control_canonical_pair : Ordered (one ⟨1, true⟩).get ∧
    ∃ c', (one ⟨1, true⟩).withQubit 0 false = some c' ∧ Ordered c'.get ∧
      c'.withoutQubit 0 = some (some (false, one ⟨1, true⟩)) := by
  have ho : Ordered (one ⟨1, true⟩).get := List.pairwise_singleton _ _
  obtain ⟨c', hw, ho', -, hr⟩ := (control_canonical.2.2 (one ⟨1, true⟩) ho 0).1 false (by decide)
  exact ⟨ho, c', hw, ho', hr⟩

end ControlArray

end Qblaze

import Mathlib.Algebra.GroupWithZero.Nat
import Mathlib.Data.Fin.Basic
import Mathlib.Data.List.Sort
import Mathlib.Order.Fin.Basic

/-!
# Qubits and controls (`src/qubit.rs`)

A `Control` is a list of (qubit, value) pairs, one for each qubit it depends on, in the order of
the qubits. The order is a field of the structure, so no operation has to check for two items on
one qubit again. The packed representation of short controls is left out.

`Control.holds` is what a control means: every item's qubit has the item's value.
-/

namespace Qblaze

/-- A qubit index, at most `Qubit::MAX = 62 * 64 - 1`. -/
abbrev Qubit := Fin (62 * 64)

namespace Qubit

instance neZero : NeZero (62 * 64) := ⟨by decide⟩

def ZERO : Qubit := 0

/-- `Qubit::try_from_index` -/
def tryFromIndex (i : Nat) : Option Qubit := if h : i < 62 * 64 then some ⟨i, h⟩ else none

end Qubit

/-- One item of a control. -/
structure ControlItem where
  qubit : Qubit
  value : Bool
  deriving DecidableEq

namespace ControlItem

/-- The packed form `(qubit << 1) | value`, by which items are ordered. -/
def code (c : ControlItem) : Nat := 2 * c.qubit.val + c.value.toNat

def invert (c : ControlItem) : ControlItem := { c with value := !c.value }

/-- The item holds in a basis state. -/
def holds (c : ControlItem) (x : Qubit → Bool) : Bool := x c.qubit == c.value

end ControlItem

/-- Items in the order of their qubits, each qubit once. -/
def Ordered (items : List ControlItem) : Prop := items.Pairwise fun a b => a.qubit < b.qubit

/-- A control: zero or more items on different qubits. -/
structure Control where
  items : List ControlItem
  ordered : Ordered items

namespace Control

instance : DecidableEq Control := fun a b =>
  decidable_of_iff (a.items = b.items) ⟨fun h => by cases a; cases b; cases h; rfl, fun h => h ▸ rfl⟩

@[ext] theorem ext {a b : Control} (h : a.items = b.items) : a = b := by
  cases a; cases b; cases h; rfl

/-- The control that is always true. -/
def always : Control := ⟨[], List.Pairwise.nil⟩

/-- `Control::single` -/
def single (q : Qubit) (v : Bool) : Control := ⟨[⟨q, v⟩], List.pairwise_singleton _ _⟩

def isAlways (c : Control) : Bool := c.items.isEmpty

/-- The control depends on `q`. -/
def uses (c : Control) (q : Qubit) : Bool := c.items.any (·.qubit == q)

/-- The qubits of the control, in order. -/
def qubits (c : Control) : List Qubit := c.items.map (·.qubit)

/-- Every item holds in the basis state `x`. -/
def holds (c : Control) (x : Qubit → Bool) : Bool := c.items.all (·.holds x)

/-! ## Operations -/

variable {c c' : Control} {q r : Qubit} {v : Bool} {x : Qubit → Bool}

theorem lt_of_mem_takeWhile {l : List ControlItem} {a : ControlItem}
    (h : a ∈ l.takeWhile fun c => c.qubit < q) : a.qubit < q := by
  have := List.all_eq_true.mp (List.all_takeWhile (p := fun c : ControlItem => c.qubit < q)) a h
  simpa using this

theorem le_of_mem_dropWhile {l : List ControlItem} (hl : Ordered l) {a : ControlItem}
    (h : a ∈ l.dropWhile fun c => c.qubit < q) : q ≤ a.qubit := by
  induction l with
  | nil => cases h
  | cons b l ih =>
    rw [List.dropWhile_cons] at h
    split at h
    · exact ih hl.of_cons h
    · rename_i hb
      have hb : q ≤ b.qubit := by simpa using hb
      rcases List.mem_cons.mp h with rfl | h
      · exact hb
      · exact hb.trans (le_of_lt (List.rel_of_pairwise_cons hl h))

theorem ordered_insert {l : List ControlItem} (hl : Ordered l)
    (hq : ∀ a ∈ l, a.qubit ≠ q) :
    Ordered (l.takeWhile (fun c => c.qubit < q) ++ ⟨q, v⟩ :: l.dropWhile fun c => c.qubit < q) := by
  refine List.pairwise_append.mpr ⟨hl.sublist (List.takeWhile_sublist _),
    List.pairwise_cons.mpr ⟨fun a ha => ?_, hl.sublist (List.dropWhile_sublist _)⟩, ?_⟩
  · exact lt_of_le_of_ne (le_of_mem_dropWhile hl ha) (hq a (List.dropWhile_subset _ ha)).symm
  · intro a ha b hb
    rcases List.mem_cons.mp hb with rfl | hb
    · exact lt_of_mem_takeWhile ha
    · exact lt_of_lt_of_le (lt_of_mem_takeWhile ha) (le_of_mem_dropWhile hl hb)

theorem uses_iff : c.uses q = true ↔ ∃ a ∈ c.items, a.qubit = q := by
  simp [uses]

theorem not_uses_iff : c.uses q = false ↔ ∀ a ∈ c.items, a.qubit ≠ q := by
  simp [uses]

/-- `Control::with_qubit`: one more item; panics if `q` is used. -/
def withQubit (c : Control) (q : Qubit) (v : Bool) : Option Control :=
  if h : c.uses q = false then
    some ⟨_, ordered_insert (v := v) c.ordered (not_uses_iff.mp h)⟩
  else none

/-- `Control::inplace_toggle_if` -/
def toggleIf (c : Control) (f : Qubit → Bool) : Control where
  items := c.items.map fun a => if f a.qubit then a.invert else a
  ordered := by
    refine List.pairwise_map.mpr (c.ordered.imp fun {a b} h => ?_)
    have hq : ∀ a : ControlItem, (if f a.qubit then a.invert else a).qubit = a.qubit := fun a => by
      split <;> rfl
    rw [hq, hq]
    exact h

/-- `Control::without_qubit`: the value that the control asks of `q`, and the other items. -/
def withoutQubit (c : Control) (q : Qubit) : Option (Bool × Control) :=
  match h : c.items.dropWhile fun a => a.qubit < q with
  | [] => none
  | a :: rest =>
    if a.qubit = q then
      some (a.value, ⟨c.items.takeWhile (fun a => a.qubit < q) ++ rest, by
        have hs : c.items = c.items.takeWhile (fun a => a.qubit < q) ++ a :: rest := by
          rw [← h, List.takeWhile_append_dropWhile]
        have ho := c.ordered
        rw [hs] at ho
        exact ho.sublist ((List.sublist_cons_self a rest).append_left _)⟩)
    else none

/-- Two neighbours on one qubit, in a list of items. -/
def hasAlias : List ControlItem → Bool
  | a :: b :: l => a.qubit == b.qubit || hasAlias (b :: l)
  | _ => false

theorem code_le_imp {a b : ControlItem} (h : a.qubit ≠ b.qubit) (hc : a.code ≤ b.code) :
    a.qubit < b.qubit := by
  have h2 : a.qubit.val ≠ b.qubit.val := fun e => h (Fin.ext e)
  have h3 := a.value.toNat_le
  have h4 := b.value.toNat_le
  unfold ControlItem.code at hc
  exact Fin.lt_def.mpr (by omega)

theorem ordered_of_sorted {l : List ControlItem} (hs : l.Pairwise fun a b => a.code ≤ b.code)
    (ha : hasAlias l = false) : Ordered l := by
  induction l with
  | nil => exact List.Pairwise.nil
  | cons a l ih =>
    cases l with
    | nil => exact List.pairwise_singleton _ _
    | cons b l =>
      simp only [hasAlias, Bool.or_eq_false_iff, beq_eq_false_iff_ne] at ha
      have ho := ih hs.of_cons ha.2
      have hab : a.qubit < b.qubit :=
        code_le_imp ha.1 (List.rel_of_pairwise_cons hs (List.mem_cons_self ..))
      refine List.pairwise_cons.mpr ⟨fun d hd => ?_, ho⟩
      rcases List.mem_cons.mp hd with rfl | hd
      · exact hab
      · exact hab.trans (List.rel_of_pairwise_cons ho hd)

/-- `v.sort()`, in the order of the packed form. -/
def sortItems (l : List ControlItem) : List ControlItem :=
  l.mergeSort fun a b => a.code ≤ b.code

theorem sortItems_sorted (l : List ControlItem) :
    (sortItems l).Pairwise fun a b => a.code ≤ b.code := by
  have h := @List.pairwise_mergeSort _ (fun a b : ControlItem => decide (a.code ≤ b.code))
    (fun a b c h1 h2 => by simp at *; omega) (fun a b => by simp; omega) l
  exact h.imp fun h => of_decide_eq_true h

/-- `Control::from_box` of a sorted vector, if no two items are on one qubit. -/
def ofSorted (l : List ControlItem) : Option Control :=
  if h : hasAlias (sortItems l) = false then
    some ⟨sortItems l, ordered_of_sorted (sortItems_sorted l) h⟩
  else none

/-- `Control::two` -/
def two (a b : ControlItem) (h : a.qubit ≠ b.qubit) : Control :=
  if hc : b.code < a.code then
    ⟨[b, a], List.pairwise_pair.mpr (code_le_imp h.symm hc.le)⟩
  else
    ⟨[a, b], List.pairwise_pair.mpr (code_le_imp h (Nat.le_of_not_lt hc))⟩

/-- `Control::from_iter` (`collect`): panics if two items are on one qubit. -/
def fromIter : List ControlItem → Option Control
  | [] => some always
  | [a] => some (single a.qubit a.value)
  | [a, b] => if h : a.qubit ≠ b.qubit then some (two a b h) else none
  | l => ofSorted l

/-- `Control::try_from_iter` -/
def tryFromIter {ε : Type} : List (Except ε ControlItem) → Except ε (Option Control)
  | [] => .ok (some always)
  | [a] => do
    let a ← a
    return some (single a.qubit a.value)
  | [a, b] => do
    let a ← a
    let b ← b
    return if h : a.qubit ≠ b.qubit then some (two a b h) else none
  | l => do
    let items ← l.mapM id
    return ofSorted items

/-! ## What they mean -/

@[simp] theorem holds_always : always.holds x = true := rfl

@[simp] theorem uses_always : always.uses q = false := rfl

@[simp] theorem holds_single : (single q v).holds x = (x q == v) := by
  simp [holds, single, ControlItem.holds]

@[simp] theorem uses_single : (single q v).uses r = (q == r) := by
  simp [uses, single]

theorem isAlways_iff : c.isAlways = true ↔ c = always := by
  constructor
  · intro h
    exact Control.ext (List.isEmpty_iff.mp h)
  · rintro rfl; rfl

/-- A control has one item for each qubit. -/
theorem eq_of_qubit_eq {a b : ControlItem} (ha : a ∈ c.items) (hb : b ∈ c.items)
    (h : a.qubit = b.qubit) : a = b := by
  obtain ⟨i, hi, rfl⟩ := List.mem_iff_getElem.mp ha
  obtain ⟨j, hj, rfl⟩ := List.mem_iff_getElem.mp hb
  have ho := List.pairwise_iff_getElem.mp c.ordered
  rcases Nat.lt_trichotomy i j with hij | hij | hij
  · exact absurd h (ho i j hi hj hij).ne
  · subst hij; rfl
  · exact absurd h (ho j i hj hi hij).ne'

/-- Only the used qubits matter. -/
theorem holds_congr {y : Qubit → Bool} (h : ∀ q, c.uses q = true → x q = y q) :
    c.holds x = c.holds y := by
  have hitem : ∀ a ∈ c.items, a.holds x = a.holds y := fun a ha => by
    unfold ControlItem.holds
    rw [h a.qubit (uses_iff.mpr ⟨a, ha, rfl⟩)]
  unfold holds
  rw [Bool.eq_iff_iff, List.all_eq_true, List.all_eq_true]
  exact ⟨fun hx a ha => hitem a ha ▸ hx a ha, fun hy a ha => (hitem a ha).symm ▸ hy a ha⟩

theorem mem_withQubit (h : c.withQubit q v = some c') (a : ControlItem) :
    a ∈ c'.items ↔ a = ⟨q, v⟩ ∨ a ∈ c.items := by
  unfold withQubit at h
  split at h
  · cases h
    have hs : a ∈ c.items ↔ a ∈ c.items.takeWhile (fun c => c.qubit < q) ++
        c.items.dropWhile fun c => c.qubit < q := by
      rw [List.takeWhile_append_dropWhile]
    rw [hs]
    simp only [List.mem_append, List.mem_cons]
    tauto
  · cases h

theorem holds_withQubit (h : c.withQubit q v = some c') :
    c'.holds x = ((x q == v) && c.holds x) := by
  unfold holds
  rw [Bool.eq_iff_iff, Bool.and_eq_true, List.all_eq_true, List.all_eq_true]
  simp only [mem_withQubit h]
  constructor
  · intro hx
    exact ⟨hx _ (.inl rfl), fun a ha => hx a (.inr ha)⟩
  · rintro ⟨h1, h2⟩ a (rfl | ha)
    · exact h1
    · exact h2 a ha

theorem uses_withQubit (h : c.withQubit q v = some c') :
    c'.uses r = (decide (q = r) || c.uses r) := by
  rw [Bool.eq_iff_iff, Bool.or_eq_true, uses_iff, uses_iff, decide_eq_true_iff]
  simp only [mem_withQubit h]
  constructor
  · rintro ⟨a, rfl | ha, rfl⟩
    · exact .inl rfl
    · exact .inr ⟨a, ha, rfl⟩
  · rintro (rfl | ⟨a, ha, rfl⟩)
    · exact ⟨_, .inl rfl, rfl⟩
    · exact ⟨a, .inr ha, rfl⟩

theorem withQubit_isSome (h : c.uses q = false) : ∃ c', c.withQubit q v = some c' := by
  unfold withQubit
  rw [dif_pos h]
  exact ⟨_, rfl⟩

@[simp] theorem uses_toggleIf (f : Qubit → Bool) : (c.toggleIf f).uses q = c.uses q := by
  unfold uses toggleIf
  rw [List.any_map]
  congr 1
  funext a
  simp only [Function.comp]
  split <;> rfl

theorem holds_toggleIf (f : Qubit → Bool) :
    (c.toggleIf f).holds x = c.holds fun q => x q ^^ f q := by
  unfold holds toggleIf
  rw [List.all_map]
  congr 1
  funext a
  simp only [Function.comp, ControlItem.holds]
  cases hf : f a.qubit <;> cases hx : x a.qubit <;> cases hv : a.value <;>
    simp [ControlItem.invert, hx, hv]

theorem items_withoutQubit (h : c.withoutQubit q = some (v, c')) :
    ∃ lo hi, c.items = lo ++ ⟨q, v⟩ :: hi ∧ c'.items = lo ++ hi := by
  unfold withoutQubit at h
  split at h
  · cases h
  · rename_i a rest hd
    split at h
    · rename_i hq
      cases h
      refine ⟨_, rest, ?_, rfl⟩
      have hs := List.takeWhile_append_dropWhile (p := fun c : ControlItem => c.qubit < q)
        (l := c.items)
      rw [hd] at hs
      rw [show (⟨q, a.value⟩ : ControlItem) = a by rw [← hq]]
      exact hs.symm
    · cases h

theorem length_withoutQubit (h : c.withoutQubit q = some (v, c')) :
    c.items.length = c'.items.length + 1 := by
  obtain ⟨lo, hi, h1, h2⟩ := items_withoutQubit h
  rw [h1, h2, List.length_append, List.length_append, List.length_cons]
  omega

theorem holds_withoutQubit (h : c.withoutQubit q = some (v, c')) :
    c.holds x = ((x q == v) && c'.holds x) := by
  obtain ⟨lo, hi, h1, h2⟩ := items_withoutQubit h
  unfold holds
  rw [h1, h2, List.all_append, List.all_append, List.all_cons]
  show (_ && ((x q == v) && _)) = _
  cases x q == v <;> simp

theorem uses_withoutQubit (h : c.withoutQubit q = some (v, c')) (hr : c'.uses r = true) :
    c.uses r = true ∧ r ≠ q := by
  obtain ⟨lo, hi, h1, h2⟩ := items_withoutQubit h
  obtain ⟨a, ha, rfl⟩ := uses_iff.mp hr
  rw [h2, List.mem_append] at ha
  refine ⟨uses_iff.mpr ⟨a, ?_, rfl⟩, ?_⟩
  · rw [h1, List.mem_append, List.mem_cons]; tauto
  · have ho := c.ordered
    rw [h1] at ho
    obtain ⟨-, h3, h4⟩ := List.pairwise_append.mp ho
    rcases ha with ha | ha
    · exact (h4 a ha _ (List.mem_cons_self ..)).ne
    · exact (List.rel_of_pairwise_cons h3 ha).ne'

theorem withoutQubit_eq_none : c.withoutQubit q = none ↔ c.uses q = false := by
  constructor
  · intro h
    rw [not_uses_iff]
    intro a ha hq
    unfold withoutQubit at h
    have hmem : a ∈ c.items.dropWhile fun c => c.qubit < q := by
      have hs := List.takeWhile_append_dropWhile (p := fun c : ControlItem => c.qubit < q)
        (l := c.items)
      rw [← hs, List.mem_append] at ha
      rcases ha with ha | ha
      · exact absurd hq (lt_of_mem_takeWhile ha).ne
      · exact ha
    split at h
    · rename_i hd; rw [hd] at hmem; cases hmem
    · rename_i b rest hd
      split at h
      · cases h
      · rename_i hb
        -- the first item from `q` on is `a`
        have ho : Ordered (b :: rest) := hd ▸ c.ordered.sublist (List.dropWhile_sublist _)
        have hbq : q ≤ b.qubit := le_of_mem_dropWhile c.ordered (hd ▸ List.mem_cons_self ..)
        rw [hd] at hmem
        rcases List.mem_cons.mp hmem with rfl | hm
        · exact hb hq
        · exact absurd (List.rel_of_pairwise_cons ho hm) (not_lt.mpr (hq ▸ hbq))
  · intro h
    cases hw : c.withoutQubit q with
    | none => rfl
    | some r =>
      obtain ⟨v, c'⟩ := r
      obtain ⟨lo, hi, h1, -⟩ := items_withoutQubit hw
      exact absurd rfl (not_uses_iff.mp h ⟨q, v⟩ (by rw [h1]; simp))

/-- Items that are in order already are collected as they are. -/
theorem fromIter_of_ordered {l : List ControlItem} (h : Ordered l) : fromIter l = some ⟨l, h⟩ := by
  have hsort : sortItems l = l := by
    unfold sortItems
    refine List.mergeSort_of_pairwise (h.imp fun {a b} hab => decide_eq_true ?_)
    have h1 := Fin.lt_def.mp hab
    have h2 := a.value.toNat_le
    unfold ControlItem.code
    omega
  have halias : ∀ l : List ControlItem, Ordered l → hasAlias l = false := by
    intro l
    induction l with
    | nil => exact fun _ => rfl
    | cons a l ih =>
      intro ho
      cases l with
      | nil => rfl
      | cons b l =>
        rw [hasAlias, ih ho.of_cons, Bool.or_false, beq_eq_false_iff_ne]
        exact (List.rel_of_pairwise_cons ho (List.mem_cons_self ..)).ne
  match l, h, hsort with
  | [], _, _ => rfl
  | [a], _, _ => rfl
  | [a, b], h, _ =>
    have hab : a.qubit < b.qubit := List.rel_of_pairwise_cons h (List.mem_cons_self ..)
    have hc : ¬ b.code < a.code := by
      have h1 := Fin.lt_def.mp hab
      have h2 := a.value.toNat_le
      unfold ControlItem.code
      omega
    have htwo : two a b hab.ne = ⟨[a, b], h⟩ := by
      unfold two
      rw [dif_neg hc]
    show (if h : a.qubit ≠ b.qubit then some (two a b h) else none) = _
    rw [dif_pos hab.ne, htwo]
  | a :: b :: d :: l, h, hsort =>
    show ofSorted _ = _
    unfold ofSorted
    rw [dif_pos (by rw [hsort]; exact halias _ h)]
    exact congrArg some (Control.ext hsort)

/-- The items of a collected control. -/
theorem fromIter_perm {l : List ControlItem} (h : fromIter l = some c) : c.items.Perm l := by
  match l, h with
  | [], h =>
    cases h
    exact List.Perm.refl _
  | [a], h =>
    cases h
    exact List.Perm.refl _
  | [a, b], h =>
    have h : (if h : a.qubit ≠ b.qubit then some (two a b h) else none) = some c := h
    split at h
    · cases h
      unfold two
      split
      · exact List.Perm.swap a b []
      · exact List.Perm.refl _
    · cases h
  | a :: b :: d :: l, h =>
    have h : ofSorted (a :: b :: d :: l) = some c := h
    unfold ofSorted at h
    split at h
    · cases h
      exact List.mergeSort_perm _ _
    · cases h

/-- Items on different qubits are collected. -/
theorem fromIter_isSome {l : List ControlItem} (h : (l.map (·.qubit)).Nodup) :
    ∃ c, fromIter l = some c := by
  have halias : ∀ l : List ControlItem, (l.map (·.qubit)).Nodup → hasAlias l = false := by
    intro l
    induction l with
    | nil => exact fun _ => rfl
    | cons a l ih =>
      intro hl
      cases l with
      | nil => rfl
      | cons b l =>
        rw [hasAlias, ih hl.of_cons, Bool.or_false, beq_eq_false_iff_ne]
        intro hab
        exact (List.nodup_cons.mp hl).1 (List.mem_map.mpr ⟨b, List.mem_cons_self .., hab.symm⟩)
  match l, h with
  | [], _ => exact ⟨_, rfl⟩
  | [a], _ => exact ⟨_, rfl⟩
  | [a, b], h =>
    have hab : a.qubit ≠ b.qubit := by simpa using h
    exact ⟨_, dif_pos hab⟩
  | a :: b :: d :: l, h =>
    have hsorted : hasAlias (sortItems (a :: b :: d :: l)) = false :=
      halias _ (((List.mergeSort_perm _ _).map _).nodup_iff.mpr h)
    exact ⟨_, dif_pos hsorted⟩

/-- `try_from_iter` returns the first error, and else collects the items. -/
theorem tryFromIter_eq {ε : Type} (l : List (Except ε ControlItem)) :
    tryFromIter l = (do
      let items ← l.mapM id
      return fromIter items) := by
  match l with
  | [] => rfl
  | [a] => cases a <;> rfl
  | [a, b] => cases a <;> cases b <;> rfl
  | a :: b :: d :: l =>
    cases a with
    | error e => rfl
    | ok a =>
      cases b with
      | error e => rfl
      | ok b =>
        cases d with
        | error e => rfl
        | ok d =>
          unfold tryFromIter
          simp only [List.mapM_cons, id]
          cases l.mapM id <;> rfl

end Control

end Qblaze

import Mathlib.Logic.Function.Basic
import Qblaze.Lib.Session
import Qblaze.RawBuf

/-!
# Programs with buffers (`src/buffer.rs`)

A program reserves buffers, hands them on, reads and writes them and drops them, in any order, while the
rest of the process uses the address space too.

* `Buffers.Stands`: the buffers hold arrays of bytes, each in a mapping of its own.
* `Stands.change`: one buffer changes, and the others do not see it.
* `Buffers.buffers_refine`: the program gets the replies that arrays give. No access is a fault, and nothing
  stays mapped that no buffer has.
-/

namespace Qblaze

open Lib Function

/-- A buffer for each name, and the address space of the process. -/
structure Buffers (ι : Type) where
  bufs : ι → RawBuf
  space : Space Byte

namespace Buffers

variable {ι : Type}

/-- What a program does with its buffers. -/
inductive Request (ι : Type)
  | reserve (i : ι) (size : Nat)
  | drop (i : ι)
  /-- The buffer of `j` goes to `i`, which drops the one it had. -/
  | take (i j : ι)
  | load (i : ι) (k : Nat)
  | store (i : ι) (k : Nat) (v : Byte)
  /-- The rest of the process maps, unmaps and writes its own memory, which is `rest` then. -/
  | others (rest : Space Byte)

inductive Reply
  | ok
  | memoryError
  | byte (v : Byte)
  | fault
  deriving DecidableEq

/-- Is the address in a buffer? -/
def Owned (g : Buffers ι) (a : Nat) : Prop := ∃ i, (g.bufs i).Covers a

def set [DecidableEq ι] (g : Buffers ι) (i : ι) (b : RawBuf) (s : Space Byte) : Buffers ι := ⟨update g.bufs i b, s⟩

/-- One request. The bytes that are read and written are in the capacity of the buffer. -/
inductive Step [DecidableEq ι] (K : Kernel Byte) (T : ι → ElementType) :
    Buffers ι → Request ι → Reply → Buffers ι → Prop
  | reserve {g : Buffers ι} {i : ι} {size : Nat} {ok : Bool} {b : RawBuf} {s : Space Byte}
    (h : (g.bufs i).tryReserve K (T i) size g.space = some (ok, b, s)) :
    Step K T g (.reserve i size) (if ok then .ok else .memoryError) (g.set i b s)
  | drop {g : Buffers ι} {i : ι} :
    Step K T g (.drop i) .ok (g.set i (.empty (T i)) ((g.bufs i).drop K g.space))
  | take {g : Buffers ι} {i j : ι} (hij : i ≠ j) (ha : (T i).align ≤ (T j).align) :
    Step K T g (.take i j) .ok
      ((g.set i (g.bufs j) g.space).set j (.empty (T j)) ((g.bufs i).drop K g.space))
  | load {g : Buffers ι} {i : ι} {k : Nat} (hk : k < (g.bufs i).capacityBytes) :
    Step K T g (.load i k) (((g.space.load ((g.bufs i).ptr + k)).map .byte).getD .fault) g
  | store {g : Buffers ι} {i : ι} {k : Nat} {v : Byte} {s : Space Byte} (hk : k < (g.bufs i).capacityBytes)
    (hs : g.space.store ((g.bufs i).ptr + k) v = some s) : Step K T g (.store i k v) .ok { g with space := s }
  | storeFault {g : Buffers ι} {i : ι} {k : Nat} {v : Byte} (hk : k < (g.bufs i).capacityBytes)
    (hs : g.space.store ((g.bufs i).ptr + k) v = none) : Step K T g (.store i k v) .fault g
  | others {g : Buffers ι} {rest s : Space Byte} (hown : ∀ a, g.Owned a → s a = g.space a ∧ rest a = none)
    (hrest : ∀ a, ¬ g.Owned a → s a = rest a) : Step K T g (.others rest) .ok { g with space := s }

/-- What the buffers are for: an array of bytes for each name, apart from the rest of the process. -/
structure Arrays (ι : Type) where
  bytes : ι → List Byte
  rest : Space Byte

def Arrays.set [DecidableEq ι] (x : Arrays ι) (i : ι) (bs : List Byte) : Arrays ι :=
  { x with bytes := update x.bytes i bs }

/-- What the requests mean for the arrays. -/
inductive Spec [DecidableEq ι] (T : ι → ElementType) : Arrays ι → Request ι → Reply → Arrays ι → Prop
  | reserve {x : Arrays ι} {i : ι} {size n : Nat} (hn : size * (T i).size ≤ (x.bytes i).length + n) :
    Spec T x (.reserve i size) .ok (x.set i (x.bytes i ++ List.replicate n 0))
  | refused {x : Arrays ι} {i : ι} {size : Nat} (hn : (x.bytes i).length < size * (T i).size) :
    Spec T x (.reserve i size) .memoryError x
  | drop {x : Arrays ι} {i : ι} : Spec T x (.drop i) .ok (x.set i [])
  | take {x : Arrays ι} {i j : ι} : Spec T x (.take i j) .ok ((x.set i (x.bytes j)).set j [])
  | load {x : Arrays ι} {i : ι} {k : Nat} {v : Byte} (hv : (x.bytes i)[k]? = some v) :
    Spec T x (.load i k) (.byte v) x
  | store {x : Arrays ι} {i : ι} {k : Nat} {v : Byte} (hk : k < (x.bytes i).length) :
    Spec T x (.store i k v) .ok (x.set i ((x.bytes i).set k v))
  | others {x : Arrays ι} {rest : Space Byte} : Spec T x (.others rest) .ok { x with rest := rest }

/-- The buffers hold the arrays. No two have an address in common, and what is mapped outside of them is
what the rest of the process has. -/
structure Stands (T : ι → ElementType) (x : Arrays ι) (g : Buffers ι) : Prop where
  owns : ∀ i, (g.bufs i).Owns (T i) g.space (x.bytes i)
  apart : ∀ i j a, i ≠ j → (g.bufs i).Covers a → ¬ (g.bufs j).Covers a
  inside : ∀ a, g.Owned a → x.rest a = none
  outside : ∀ a, ¬ g.Owned a → g.space a = x.rest a

variable {K : Kernel Byte} {T : ι → ElementType} {x : Arrays ι} {g g' : Buffers ι} {i j : ι} {b : RawBuf}
  {s : Space Byte} {bs : List Byte} {a : Nat}

theorem stands_empty (T : ι → ElementType) (s : Space Byte) :
    Stands T ⟨fun _ => [], s⟩ (⟨fun i => .empty (T i), s⟩ : Buffers ι) where
  owns i := RawBuf.owns_empty (T i) s
  apart _ _ a _ h := absurd h (RawBuf.not_covers rfl a)
  inside a := fun ⟨_, h⟩ => absurd h (RawBuf.not_covers rfl a)
  outside _ _ := rfl

/-- An address that the changed buffer has is in no other buffer. -/
theorem Stands.new_apart (h : Stands T x g) (hc : (g.bufs i).Change b g.space s) (hij : i ≠ j)
    (ha : b.Covers a) : ¬ (g.bufs j).Covers a := by
  intro hj
  rcases hc.new a ha with hn | hi
  · exact (h.owns j).ne_none hj hn
  · exact h.apart i j a hij hi hj

/-- The rest of the process changes its own memory. -/
theorem Stands.others {rest : Space Byte} (h : Stands T x g)
    (hown : ∀ a, g.Owned a → s a = g.space a ∧ rest a = none) (hrest : ∀ a, ¬ g.Owned a → s a = rest a) :
    Stands T { x with rest } { g with space := s } where
  owns i := (h.owns i).congr fun a ha => (hown a ⟨i, ha⟩).1
  apart := h.apart
  inside a ha := (hown a ha).2
  outside := hrest

variable [DecidableEq ι]

@[simp] theorem set_self : (g.set i b s).bufs i = b := update_self ..
@[simp] theorem set_space : (g.set i b s).space = s := rfl
@[simp] theorem Arrays.set_self : (x.set i bs).bytes i = bs := update_self ..
@[simp] theorem Arrays.set_rest : (x.set i bs).rest = x.rest := rfl

theorem set_eq {g : Buffers ι} {i : ι} : g.set i (g.bufs i) s = { g with space := s } :=
  congrArg (Buffers.mk · s) (update_eq_self ..)

theorem set_set {c : RawBuf} {s' : Space Byte} : (g.set i b s).set i c s' = g.set i c s' :=
  congrArg (Buffers.mk · s') (update_idem ..)

theorem Arrays.set_set {cs : List Byte} : (x.set i bs).set i cs = x.set i cs :=
  congrArg (Arrays.mk · x.rest) (update_idem ..)

theorem set_of_ne (h : i ≠ j) : (g.set i b s).bufs j = g.bufs j := update_of_ne h.symm ..
theorem Arrays.set_of_ne (h : i ≠ j) : (x.set i bs).bytes j = x.bytes j := update_of_ne h.symm ..

theorem owned_set : (g.set i b s).Owned a ↔ b.Covers a ∨ ∃ j, i ≠ j ∧ (g.bufs j).Covers a := by
  constructor
  · rintro ⟨j, hj⟩
    by_cases hij : i = j
    · subst hij
      rw [set_self] at hj
      exact .inl hj
    · rw [set_of_ne hij] at hj
      exact .inr ⟨j, hij, hj⟩
  · rintro (hb | ⟨j, hij, hj⟩)
    · exact ⟨i, by rwa [set_self]⟩
    · exact ⟨j, by rwa [set_of_ne hij]⟩

/-- A change of one buffer. -/
theorem Stands.change (h : Stands T x g) (hown : b.Owns (T i) s bs)
    (hc : (g.bufs i).Change b g.space s) : Stands T (x.set i bs) (g.set i b s) := by
  constructor
  · intro j
    by_cases hij : i = j
    · subst hij
      rw [set_self, Arrays.set_self]
      exact hown
    · rw [set_of_ne hij, Arrays.set_of_ne hij]
      refine (h.owns j).congr fun a hj => hc.rest a (fun ha => ?_) fun ha => h.apart i j a hij ha hj
      exact h.new_apart hc hij ha hj
  · intro j k a hjk hj hk
    by_cases hij : i = j
    · subst hij
      rw [set_self] at hj
      rw [set_of_ne hjk] at hk
      exact h.new_apart hc hjk hj hk
    · rw [set_of_ne hij] at hj
      by_cases hik : i = k
      · subst hik
        rw [set_self] at hk
        exact h.new_apart hc hij hk hj
      · rw [set_of_ne hik] at hk
        exact h.apart j k a hjk hj hk
  · intro a ha
    rcases owned_set.mp ha with hb | ⟨j, -, hj⟩
    · rcases hc.new a hb with hn | hi
      · refine (h.outside a ?_).symm.trans hn
        rintro ⟨j, hj⟩
        exact (h.owns j).ne_none hj hn
      · exact h.inside a ⟨i, hi⟩
    · exact h.inside a ⟨j, hj⟩
  · intro a ha
    rw [owned_set, not_or] at ha
    by_cases hi : (g.bufs i).Covers a
    · exact (hc.old a ha.1 hi).trans (h.inside a ⟨i, hi⟩).symm
    · refine (hc.rest a ha.1 hi).trans (h.outside a ?_)
      rintro ⟨j, hj⟩
      by_cases hij : i = j
      · exact hi (hij ▸ hj)
      · exact ha.2 ⟨j, hij, hj⟩

/-- A buffer with another name. The name had an empty one. -/
theorem Stands.take (h : Stands T x g) (hij : i ≠ j) (ha : (T i).align ≤ (T j).align)
    (hi : (g.bufs i).capacityBytes = 0) :
    Stands T ((x.set i (x.bytes j)).set j []) ((g.set i (g.bufs j) g.space).set j (.empty (T j)) g.space) := by
  have hnone := RawBuf.not_covers hi
  have hempty : ∀ a, ¬ (RawBuf.empty (T j)).Covers a := RawBuf.not_covers rfl
  -- the addresses of each buffer, before and after
  have hcovers : ∀ k a, (((g.set i (g.bufs j) g.space).set j (.empty (T j)) g.space).bufs k).Covers a →
      k = i ∧ (g.bufs j).Covers a ∨ k ≠ i ∧ k ≠ j ∧ (g.bufs k).Covers a := by
    intro k a hk
    by_cases hjk : j = k
    · subst hjk
      rw [set_self] at hk
      exact absurd hk (hempty a)
    · rw [set_of_ne hjk] at hk
      by_cases hik : i = k
      · subst hik
        rw [set_self] at hk
        exact .inl ⟨rfl, hk⟩
      · rw [set_of_ne hik] at hk
        exact .inr ⟨Ne.symm hik, Ne.symm hjk, hk⟩
  have howned : ∀ a, g.Owned a → Owned ((g.set i (g.bufs j) g.space).set j (.empty (T j)) g.space) a := by
    rintro a ⟨k, hk⟩
    by_cases hjk : j = k
    · exact ⟨i, by rwa [set_of_ne hij.symm, set_self, hjk]⟩
    · by_cases hik : i = k
      · exact absurd (hik ▸ hk) (hnone a)
      · exact ⟨k, by rwa [set_of_ne hjk, set_of_ne hik]⟩
  constructor
  · intro k
    by_cases hjk : j = k
    · subst hjk
      rw [set_self, Arrays.set_self]
      exact RawBuf.owns_empty _ _
    · rw [set_of_ne hjk, Arrays.set_of_ne hjk]
      by_cases hik : i = k
      · subst hik
        rw [set_self, Arrays.set_self]
        exact (h.owns j).cast ha
      · rw [set_of_ne hik, Arrays.set_of_ne hik]
        exact h.owns k
  · intro k l a hkl hk hl
    rcases hcovers k a hk with ⟨rfl, hk'⟩ | ⟨-, hkj, hk'⟩
    · rcases hcovers l a hl with ⟨rfl, -⟩ | ⟨-, hlj, hl'⟩
      · exact hkl rfl
      · exact h.apart j l a hlj.symm hk' hl'
    · rcases hcovers l a hl with ⟨rfl, hl'⟩ | ⟨-, -, hl'⟩
      · exact h.apart k j a hkj hk' hl'
      · exact h.apart k l a hkl hk' hl'
  · rintro a ⟨k, hk⟩
    rcases hcovers k a hk with ⟨-, hk⟩ | ⟨-, -, hk⟩
    · exact h.inside a ⟨j, hk⟩
    · exact h.inside a ⟨k, hk⟩
  · intro a hn
    exact h.outside a fun ho => hn (howned a ho)

/-! ## Sessions -/

/-- The sums that round the sizes do not wrap. -/
def Request.Fits (T : ι → ElementType) : Request ι → Prop
  | .reserve i size => RawBuf.Fits (T i) size
  | _ => True

theorem step_spec (hpage : K.pageSize ∣ HUGE_PAGE_SIZE) (hunmap : ∀ s p n, K.unmaps s p n = true) :
    Simulates (Step K T) (Spec T) (Stands T) (Request.Fits T) fun _ => True := by
  intro x g c a g' h hfit _ hstep
  cases hstep with
  | @reserve i size ok b s hr =>
    obtain ⟨hno, hyes⟩ := RawBuf.tryReserve_spec hpage hunmap (h.owns i) hfit hr
    cases ok with
    | false =>
      obtain ⟨hlt, rfl, rfl⟩ := hno rfl
      refine ⟨x, .refused (by rwa [(h.owns i).length]), ?_⟩
      rwa [set_eq]
    | true =>
      obtain ⟨hroom, hle, hown, hc⟩ := hyes rfl
      refine ⟨_, .reserve ?_, h.change hown hc⟩
      rw [(h.owns i).length]
      omega
  | @drop i =>
    exact ⟨_, .drop, h.change (RawBuf.owns_empty _ _) (RawBuf.drop_spec hpage hunmap (h.owns i))⟩
  | @take i j hij ha =>
    -- first the buffer of `i` is dropped
    have hdrop := h.change (RawBuf.owns_empty (T i) _) (RawBuf.drop_spec hpage hunmap (h.owns i))
    have htake := hdrop.take hij ha (by rw [set_self]; rfl)
    rw [set_of_ne hij, Arrays.set_of_ne hij, set_set, Arrays.set_set] at htake
    exact ⟨_, .take, htake⟩
  | @load i k hk =>
    rw [← (h.owns i).length] at hk
    have hv := List.getElem?_eq_getElem hk
    rw [(h.owns i).has.load hv]
    exact ⟨x, .load hv, h⟩
  | @store i k v s hk hs =>
    rw [← (h.owns i).length] at hk
    obtain ⟨s', hs', hhas, hout⟩ := (h.owns i).has.store hk v
    obtain rfl := Option.some.inj (hs.symm.trans hs')
    have hlen := (h.owns i).length
    rw [← set_eq]
    refine ⟨_, .store hk, h.change { h.owns i with length := ?_, has := hhas } ⟨fun _ => .inr, ?_, ?_⟩⟩
    · rw [List.length_set, hlen]
    · exact fun a hn ha => absurd ha hn
    · intro a hn _
      refine hout a ?_
      rintro rfl
      exact hn ⟨by omega, by omega⟩
  | @storeFault i k v hk hs =>
    rw [← (h.owns i).length] at hk
    obtain ⟨s, hs', -⟩ := (h.owns i).has.store hk v
    rw [hs] at hs'
    cases hs'
  | others hown hrest => exact ⟨_, .others, h.others hown hrest⟩

/-- Buffers are arrays: whatever a program does with its buffers, it gets the replies that arrays give, and
no access is a fault. The buffers hold the arrays, each in a mapping of its own; what else is mapped in the
end is what the rest of the process has, so no mapping is lost. -/
theorem buffers_refine (hpage : K.pageSize ∣ HUGE_PAGE_SIZE) (hunmap : ∀ s p n, K.unmaps s p n = true)
    {cs : List (Request ι)} {as : List Reply}
    (hruns : Runs (Step K T) ⟨fun i => .empty (T i), s⟩ cs as g') (hfit : ∀ c ∈ cs, c.Fits T) :
    ∃ y, Runs (Spec T) ⟨fun _ => [], s⟩ cs as y ∧ Stands T y g' ∧
      ((∀ i, (g'.bufs i).capacityBytes = 0) → g'.space = y.rest) := by
  obtain ⟨y, hy, hst⟩ := hruns.simulates (step_spec hpage hunmap) hfit (fun _ _ => trivial) (stands_empty T s)
  refine ⟨y, hy, hst, fun hzero => funext fun a => hst.outside a ?_⟩
  rintro ⟨i, hi⟩
  exact RawBuf.not_covers (hzero i) a hi

/-- A byte is written to a new buffer and read back. -/
theorem buffers_refine_byte : ∃ as g' y,
    as = [.ok, .ok, .byte 7, .ok] ∧
    Runs (Step onePlace fun _ : Unit => byteType) ⟨fun _ => .empty byteType, fun _ => none⟩
      [.reserve () 3, .store () 2 7, .load () 2, .drop ()] as g' ∧
    Runs (Spec fun _ : Unit => byteType) ⟨fun _ => [], fun _ => none⟩
      [.reserve () 3, .store () 2 7, .load () 2, .drop ()] as y ∧
    Stands (fun _ => byteType) y g' ∧ ((∀ i, (g'.bufs i).capacityBytes = 0) → g'.space = y.rest) := by
  have hreserve : Step onePlace (fun _ : Unit => byteType) ⟨fun _ => .empty byteType, fun _ => none⟩
      (.reserve () 3) (if true then .ok else .memoryError) _ := .reserve onePlace_reserve
  rw [if_pos rfl] at hreserve
  generalize hg : Buffers.set (ι := Unit) _ _ _ _ = g at hreserve
  have hb : g.bufs () = ⟨0x400000, 0x200000⟩ := by rw [← hg, set_self]
  have hk : 2 < (g.bufs ()).capacityBytes := by
    rw [hb]
    decide
  have hhas : g.space.Has (g.bufs ()).ptr (List.replicate 0x200000 0) := by
    rw [hb, ← hg, set_space]
    exact Space.has_fill _ _ _
  have hlen : 2 < (List.replicate 0x200000 (0 : Byte)).length := by
    rw [List.length_replicate]
    decide
  obtain ⟨s, hstore, hhas', -⟩ := hhas.store hlen 7
  have hload : s.load ((g.bufs ()).ptr + 2) = some 7 := hhas'.load (List.getElem?_set_self hlen)
  have hreply : Step onePlace (fun _ : Unit => byteType) ⟨g.bufs, s⟩ (.load () 2) _ ⟨g.bufs, s⟩ := .load hk
  rw [hload] at hreply
  have hruns := Runs.cons hreserve (.cons (.store hk hstore) (.cons hreply (.cons (.drop (i := ())) (.nil _))))
  have hfit : ∀ c ∈ [Request.reserve () 3, .store () 2 7, .load () 2, .drop ()],
      c.Fits fun _ => byteType := by
    intro c hc
    simp only [List.mem_cons, List.not_mem_nil, or_false] at hc
    rcases hc with rfl | rfl | rfl | rfl
    · exact .inl (by decide)
    · trivial
    · trivial
    · trivial
  obtain ⟨y, hy⟩ := buffers_refine (by decide) (fun _ _ _ => rfl) hruns hfit
  exact ⟨_, _, y, rfl, hruns, hy⟩

end Buffers

end Qblaze

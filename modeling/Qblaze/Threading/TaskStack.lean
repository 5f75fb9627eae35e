import Qblaze.Lib.Memory

/-!
# The stack of tasks (`src/threading.rs`)

The tasks of the pool are values of different types on one stack of bytes. A task is its value, then
the address of its `run` function; the value of an over-aligned type starts at a multiple of its
alignment, and the number of bytes to go back is stored between the value and the function.

- **Layout** (`Live`, `Live.Ok`): where a task is, as offsets from `begin`. They do not change when the
  stack moves, because every base is a multiple of `ALLOC_ALIGN`.
- **Invariant** (`Inv`): the live tasks are in memory one after the other, up to `top`.
- **Runs** (`tasks_faithful`): after every run of pushes and pops the live tasks are aligned, inside the
  allocation and apart from each other, and the stack returns them last in, first out.

Addresses are natural numbers: the test whether a task fits compares them, where the source looks at
the sign of the difference.
-/

namespace Qblaze

open Lib

/-- A type that implements `Task`. -/
structure TaskType where
  size : Nat
  align : Nat
  /-- The address of `runner::<T>`. -/
  run : Nat
  pow : ∃ k, align = 2 ^ k
  dvd : align ∣ size
  size_lt : size < 2 ^ 63
  run_lt : run < 2 ^ 64

/-- `TaskStack`, with the memory; `last` is `end`. -/
structure TaskStack where
  top : Nat
  begin : Nat
  last : Nat
  mem : Memory

namespace TaskStack

def MIN_ALIGN : Nat := 8
def ALLOC_ALIGN : Nat := if MIN_ALIGN ≤ 16 then 64 else 4 * MIN_ALIGN
def HEADER_SIZE : Nat := 8
def EXT_HEADER_SIZE : Nat := 8 + HEADER_SIZE

/-- `TaskStack::new`, in a memory. -/
def new (mem : Memory) : TaskStack := ⟨0, 0, 0, mem⟩

/-- `TaskStack::realloc`. The allocator returns `newBegin`, and `other` is what the memory has outside
of the bytes that are copied. -/
def realloc (s : TaskStack) (wantEnd newBegin : Nat) (other : Memory) : Nat × TaskStack :=
  let wantSize := wantEnd - s.begin
  let curSize := s.last - s.begin
  let allocSize := max (curSize + curSize / 2) wantSize
  let allocSize := allocSize + padding ALLOC_ALIGN allocSize
  (newBegin + wantSize,
    { s with
      begin := newBegin
      last := newBegin + allocSize
      mem := s.mem.move s.begin newBegin curSize other })

def isEmpty (s : TaskStack) : Bool := s.top == s.begin

/-- `TaskStack::top_func` -/
def topFunc (s : TaskStack) : Option Nat :=
  if s.top = s.begin then none else some (decode (s.mem.read (s.top - HEADER_SIZE) 8))

def isOveraligned (T : TaskType) : Bool := MIN_ALIGN < T.align

def fullSize (T : TaskType) : Nat :=
  if isOveraligned T then T.size + EXT_HEADER_SIZE
  else (T.size + (MIN_ALIGN - 1)) / MIN_ALIGN * MIN_ALIGN + HEADER_SIZE

/-- `TaskStack::top_val` -/
def topVal (s : TaskStack) (T : TaskType) : Nat := s.top - fullSize T

/-- `TaskStack::pop` -/
def pop (s : TaskStack) (T : TaskType) : TaskStack :=
  let bumpSize :=
    if isOveraligned T then decode (s.mem.read (s.top - EXT_HEADER_SIZE) 8) else fullSize T
  { s with top := s.top - bumpSize }

/-- What `push` writes: the task at `ptr`, and its header before `newTop`. -/
def writeTask (m : Memory) (ptr newTop : Nat) (T : TaskType) (task : List Byte) (bumpSize : Nat) :
    Memory :=
  let mem := m.write ptr task
  let mem := mem.write (newTop - HEADER_SIZE) (encode 8 T.run)
  if isOveraligned T then mem.write (newTop - EXT_HEADER_SIZE) (encode 8 bumpSize) else mem

/-- The end of `push`, with the address that the task is written to. -/
def finish (s : TaskStack) (ptr newTop : Nat) (T : TaskType) (task : List Byte) (bumpSize : Nat) :
    Nat × TaskStack :=
  (ptr, { s with top := newTop, mem := writeTask s.mem ptr newTop T task bumpSize })

/-- `TaskStack::push`, with the address that the task is written to; `none` is the failed
assertion. -/
def push (s : TaskStack) (T : TaskType) (task : List Byte) (newBegin : Nat) (other : Memory) :
    Option (Nat × TaskStack) :=
  if isOveraligned T ∧ ¬ T.align ≤ ALLOC_ALIGN then none
  else
    let delta := if isOveraligned T then padding T.align s.top else 0
    let bumpSize := fullSize T + delta
    let ptr := s.top + delta
    let newTop := ptr + fullSize T
    if s.last < newTop then
      let (newTop, s) := s.realloc newTop newBegin other
      some (s.finish (newTop - fullSize T) newTop T task bumpSize)
    else some (s.finish ptr newTop T task bumpSize)

/-! ## Layout -/

/-- A task on the stack: its type and value, and the offsets from `begin` of the top before it was
pushed and of its value. -/
structure Live where
  ty : TaskType
  val : List Byte
  prev : Nat
  start : Nat

namespace Live

/-- The offset of the top after the task. -/
def next (t : Live) : Nat := t.start + fullSize t.ty

/-- The size of what is stored after the value. -/
def header (t : Live) : Nat := if isOveraligned t.ty then EXT_HEADER_SIZE else HEADER_SIZE

/-- What `push` computes for a task. -/
structure Ok (t : Live) : Prop where
  prev_dvd : 8 ∣ t.prev
  start_eq : t.start = t.prev + if isOveraligned t.ty then padding t.ty.align t.prev else 0
  align_le : t.ty.align ≤ 64
  val_length : t.val.length = t.ty.size

variable {t : Live}

theorem align_pos (T : TaskType) : 0 < T.align := by
  obtain ⟨k, hk⟩ := T.pow
  rw [hk]
  exact Nat.two_pow_pos k

/-- A power of two divides every larger one. -/
theorem align_dvd {T : TaskType} {k : Nat} (h : T.align ≤ 2 ^ k) : T.align ∣ 2 ^ k := by
  obtain ⟨j, hj⟩ := T.pow
  rw [hj] at h ⊢
  exact Nat.pow_dvd_pow 2 ((Nat.pow_le_pow_iff_right (by decide)).mp h)

theorem dvd_align {T : TaskType} {k : Nat} (h : 2 ^ k ≤ T.align) : 2 ^ k ∣ T.align := by
  obtain ⟨j, hj⟩ := T.pow
  rw [hj] at h ⊢
  exact Nat.pow_dvd_pow 2 ((Nat.pow_le_pow_iff_right (by decide)).mp h)

theorem isOveraligned_iff {T : TaskType} : isOveraligned T = true ↔ 8 < T.align := by
  exact decide_eq_true_iff

/-- The value is aligned at every base that is a multiple of `ALLOC_ALIGN`. -/
theorem Ok.aligned (h : t.Ok) {b : Nat} (hb : 64 ∣ b) : t.ty.align ∣ b + t.start := by
  have h64 : t.ty.align ∣ 64 := align_dvd (k := 6) h.align_le
  refine Nat.dvd_add (Nat.dvd_trans h64 hb) ?_
  rw [h.start_eq]
  by_cases ho : isOveraligned t.ty = true
  · rw [if_pos ho]
    exact dvd_add_padding (align_pos _) _
  · rw [if_neg ho, Nat.add_zero]
    rw [isOveraligned_iff] at ho
    exact Nat.dvd_trans (align_dvd (k := 3) (by omega)) h.prev_dvd

theorem Ok.prev_le (h : t.Ok) : t.prev ≤ t.start := by
  rw [h.start_eq]
  exact Nat.le_add_right _ _

/-- The value ends before the header. -/
theorem Ok.val_le (_h : t.Ok) : t.start + t.ty.size + t.header ≤ t.next := by
  unfold next header fullSize
  by_cases ho : isOveraligned t.ty = true
  · simp only [ho, if_true]
    omega
  · simp only [ho, MIN_ALIGN, HEADER_SIZE]
    simp only [Bool.false_eq_true, if_false]
    omega

theorem Ok.next_dvd (h : t.Ok) : 8 ∣ t.next := by
  have hprev := h.prev_dvd
  unfold next fullSize
  rw [h.start_eq]
  by_cases ho : isOveraligned t.ty = true
  · have ha : 8 ∣ t.ty.align := dvd_align (k := 3) (Nat.le_of_lt (isOveraligned_iff.mp ho))
    have h1 := dvd_padding (align_pos t.ty) ha hprev
    have h2 := Nat.dvd_trans ha t.ty.dvd
    simp only [ho, if_true, EXT_HEADER_SIZE, HEADER_SIZE]
    omega
  · simp only [ho, MIN_ALIGN, HEADER_SIZE]
    simp only [Bool.false_eq_true, if_false]
    omega

end Live

/-! ## The invariant -/

variable {s : TaskStack} {m m' : Memory} {b b' o : Nat} {t : Live} {live : List Live}

/-- The memory at `b` has the value of the task, its function and how far to go back. -/
structure Stored (m : Memory) (b : Nat) (t : Live) : Prop where
  val : m.read (b + t.start) t.ty.size = t.val
  func : decode (m.read (b + (t.next - HEADER_SIZE)) 8) = t.ty.run
  bump : isOveraligned t.ty = true →
    decode (m.read (b + (t.next - EXT_HEADER_SIZE)) 8) = t.next - t.prev

/-- The tasks are in memory one after the other, the first of them up to the offset `o`. -/
def Chain (m : Memory) (b : Nat) : List Live → Nat → Prop
  | [], o => o = 0
  | t :: live, o => t.Ok ∧ Stored m b t ∧ o = t.next ∧ Chain m b live t.prev

/-- The invariant of the stack. -/
structure Inv (s : TaskStack) (live : List Live) : Prop where
  base : 64 ∣ s.begin
  begin_le : s.begin ≤ s.top
  top_le : s.top ≤ s.last
  chain : Chain s.mem s.begin live (s.top - s.begin)

theorem header_le_next (t : Live) : HEADER_SIZE ≤ t.next ∧
    (isOveraligned t.ty = true → EXT_HEADER_SIZE ≤ t.next) := by
  unfold Live.next fullSize
  split <;> simp_all [HEADER_SIZE, EXT_HEADER_SIZE] <;> omega

/-- A task is still there if its bytes are, wherever they were moved to. -/
theorem Stored.same (h : Stored m b t) (hs : m.Same b m' b' t.next) (ht : t.Ok) :
    Stored m' b' t where
  val := by
    rw [hs.read (by have := ht.val_le; omega)]
    exact h.val
  func := by
    have := (header_le_next t).1
    rw [hs.read (by unfold HEADER_SIZE at *; omega)]
    exact h.func
  bump ho := by
    have := (header_le_next t).2 ho
    rw [hs.read (by unfold EXT_HEADER_SIZE HEADER_SIZE at *; omega)]
    exact h.bump ho

theorem Chain.same (h : Chain m b live o) (hs : m.Same b m' b' o) : Chain m' b' live o := by
  induction live generalizing o with
  | nil => exact h
  | cons t live ih =>
    obtain ⟨ht, hst, rfl, hc⟩ := h
    have hle : t.prev ≤ t.next := Nat.le_trans ht.prev_le (Nat.le_add_right _ _)
    exact ⟨ht, hst.same hs ht, rfl, ih hc (hs.mono hle)⟩

theorem Chain.dvd (h : Chain m b live o) : 8 ∣ o := by
  cases live with
  | nil =>
    rw [show o = 0 from h]
    exact Nat.dvd_zero 8
  | cons t live =>
    obtain ⟨ht, -, rfl, -⟩ := h
    exact ht.next_dvd

/-- Every live task ends at or before the top. -/
theorem Chain.next_le (h : Chain m b live o) : ∀ t ∈ live, t.next ≤ o := by
  induction live generalizing o with
  | nil => exact fun t ht => absurd ht List.not_mem_nil
  | cons t live ih =>
    obtain ⟨ht, -, rfl, hc⟩ := h
    intro t' ht'
    rcases List.mem_cons.mp ht' with rfl | ht'
    · exact Nat.le_refl _
    · have := ih hc t' ht'
      have := ht.prev_le
      unfold Live.next at *
      omega

theorem Chain.ok (h : Chain m b live o) : ∀ t ∈ live, t.Ok ∧ Stored m b t := by
  induction live generalizing o with
  | nil => exact fun t ht => absurd ht List.not_mem_nil
  | cons t live ih =>
    obtain ⟨ht, hst, -, hc⟩ := h
    intro t' ht'
    rcases List.mem_cons.mp ht' with rfl | ht'
    · exact ⟨ht, hst⟩
    · exact ih hc t' ht'

/-- A task starts at or after the end of every task below it. -/
theorem Chain.pairwise (h : Chain m b live o) : live.Pairwise fun t t' => t'.next ≤ t.start := by
  induction live generalizing o with
  | nil => exact List.Pairwise.nil
  | cons t live ih =>
    obtain ⟨ht, -, -, hc⟩ := h
    exact List.pairwise_cons.mpr ⟨fun t' ht' => Nat.le_trans (hc.next_le t' ht') ht.prev_le, ih hc⟩

/-! ## Push and pop -/

theorem inv_new (m : Memory) : Inv (new m) [] := ⟨Nat.dvd_zero 64, Nat.le_refl _, Nat.le_refl _, rfl⟩

/-- The room for a task: `push` has it already, or moves the stack to where it has. -/
theorem realloc_spec (h : Inv s live) (wantEnd newBegin : Nat) (other : Memory) :
    (s.realloc wantEnd newBegin other).1 = newBegin + (wantEnd - s.begin) ∧
      (s.realloc wantEnd newBegin other).2.begin = newBegin ∧
      newBegin + (wantEnd - s.begin) ≤ (s.realloc wantEnd newBegin other).2.last ∧
      Chain (s.realloc wantEnd newBegin other).2.mem newBegin live (s.top - s.begin) := by
  refine ⟨rfl, rfl, ?_, ?_⟩
  · unfold realloc
    simp only
    omega
  · have hle : s.top - s.begin ≤ s.last - s.begin := Nat.sub_le_sub_right h.top_le _
    exact h.chain.same (Memory.Same.mono (Memory.same_move _ _ _ _ _) hle)

/-- The writes of `push` do not overlap each other, so all of them can be read back. -/
theorem stored_writeTask (m : Memory) (b : Nat) (ht : t.Ok) :
    Stored (writeTask m (b + t.start) (b + t.next) t.ty t.val (t.next - t.prev)) b t := by
  have hval := ht.val_le
  have hlen := ht.val_length
  have hrun : t.ty.run < 256 ^ 8 := t.ty.run_lt
  unfold Live.header at hval
  by_cases ho : isOveraligned t.ty = true
  · have hbump : t.next - t.prev < 256 ^ 8 := by
      have h1 := ht.start_eq
      have h2 := padding_lt (Live.align_pos t.ty) t.prev
      have h3 := ht.align_le
      have h4 := t.ty.size_lt
      rw [if_pos ho] at h1
      rw [Live.next, fullSize, if_pos ho, EXT_HEADER_SIZE, HEADER_SIZE]
      omega
    simp only [ho, if_true, EXT_HEADER_SIZE, HEADER_SIZE] at hval
    constructor
    all_goals simp only [writeTask, ho, if_true, EXT_HEADER_SIZE, HEADER_SIZE]
    · rw [Memory.read_write_of_disjoint _ (.inl (by omega)),
        Memory.read_write_of_disjoint _ (.inl (by omega)), ← hlen, Memory.read_write_self]
    · rw [Nat.add_sub_assoc (by omega), Memory.read_write_of_disjoint _ (.inr (by simp; omega)),
        Memory.decode_read_write _ _ hrun]
    · intro _
      rw [Nat.add_sub_assoc (by omega : 8 + 8 ≤ t.next), Memory.decode_read_write _ _ hbump]
  · simp only [ho, Bool.false_eq_true, if_false, HEADER_SIZE] at hval
    constructor
    all_goals simp only [writeTask, ho, Bool.false_eq_true, if_false, HEADER_SIZE]
    · rw [Memory.read_write_of_disjoint _ (.inl (by omega)), ← hlen, Memory.read_write_self]
    · rw [Nat.add_sub_assoc (by omega), Memory.decode_read_write _ _ hrun]
    · exact fun h => absurd h (by decide)

/-- The writes of `push` keep what is below the task. -/
theorem same_writeTask (m : Memory) (b : Nat) (ht : t.Ok) (bumpSize : Nat) :
    m.Same b (writeTask m (b + t.start) (b + t.next) t.ty t.val bumpSize) b t.prev := by
  have hval := ht.val_le
  have hprev := ht.prev_le
  unfold Live.header at hval
  unfold writeTask
  have h0 : m.Same b (m.write (b + t.start) t.val) b t.prev :=
    Memory.Same.write (Memory.same_refl m b t.prev) (by omega) _
  by_cases hov : isOveraligned t.ty = true
  · simp only [hov, if_true, EXT_HEADER_SIZE, HEADER_SIZE] at hval ⊢
    exact Memory.Same.write (Memory.Same.write h0 (by omega) _) (by omega) _
  · simp only [hov, Bool.false_eq_true, if_false, HEADER_SIZE] at hval ⊢
    exact Memory.Same.write h0 (by omega) _

/-- The end of `push` puts the task on top of the tasks below. -/
theorem finish_inv (hb : 64 ∣ s.begin) (hc : Chain s.mem s.begin live t.prev) (ht : t.Ok)
    (hle : s.begin + t.next ≤ s.last) :
    Inv (s.finish (s.begin + t.start) (s.begin + t.next) t.ty t.val (t.next - t.prev)).2
      (t :: live) where
  base := hb
  begin_le := Nat.le_add_right _ _
  top_le := hle
  chain := by
    show Chain _ s.begin (t :: live) (s.begin + t.next - s.begin)
    rw [Nat.add_sub_cancel_left]
    exact ⟨ht, stored_writeTask s.mem s.begin ht, rfl, hc.same (same_writeTask s.mem s.begin ht _)⟩

/-- `push` puts the task on top, and everything else stays where it was, relative to `begin`. -/
theorem push_spec (h : Inv s live) {T : TaskType} (hl : T.align ≤ ALLOC_ALIGN) {task : List Byte}
    (hv : task.length = T.size) {newBegin : Nat} (hb : ALLOC_ALIGN ∣ newBegin) (other : Memory) :
    ∃ t s', t.ty = T ∧ t.val = task ∧ t.prev = s.top - s.begin ∧
      s.push T task newBegin other = some (s'.begin + t.start, s') ∧ Inv s' (t :: live) := by
  have hbegin := h.begin_le
  have hc := h.chain
  obtain ⟨delta, hd⟩ : ∃ delta, (if isOveraligned T then padding T.align s.top else 0) = delta :=
    ⟨_, rfl⟩
  obtain ⟨t, rfl, rfl, hprev, hstart⟩ : ∃ t : Live, t.ty = T ∧ t.val = task ∧
      t.prev = s.top - s.begin ∧ t.start = t.prev + delta :=
    ⟨⟨T, task, s.top - s.begin, s.top - s.begin + delta⟩, rfl, rfl, rfl, rfl⟩
  rw [← hprev] at hc
  have htop : s.top = s.begin + t.prev := by omega
  have hok : t.Ok := by
    refine ⟨hc.dvd, ?_, hl, hv⟩
    -- the padding does not depend on the base
    rw [hstart, ← hd, htop, padding_add (Nat.dvd_trans (Live.align_dvd (k := 6) hl) h.base)]
  have hnext : t.next = t.start + fullSize t.ty := rfl
  have hptr : s.top + delta = s.begin + t.start := by omega
  have hnew : s.begin + t.start + fullSize t.ty = s.begin + t.next := by omega
  have hbump : fullSize t.ty + delta = t.next - t.prev := by omega
  have hassert : ¬ (isOveraligned t.ty = true ∧ ¬ t.ty.align ≤ ALLOC_ALIGN) := fun h => h.2 hl
  unfold push
  rw [if_neg hassert]
  simp only [hd, hbump, hptr, hnew]
  by_cases hfit : s.last < s.begin + t.next
  · obtain ⟨hr1, hr2, hr3, hr4⟩ := realloc_spec h (s.begin + t.next) newBegin other
    rw [Nat.add_sub_cancel_left] at hr1 hr3
    rw [← hprev] at hr4
    obtain ⟨r, hr⟩ : ∃ r, s.realloc (s.begin + t.next) newBegin other = r := ⟨_, rfl⟩
    rw [hr] at hr1 hr2 hr3 hr4 ⊢
    have hsub : r.1 - fullSize t.ty = r.2.begin + t.start := by omega
    rw [if_pos hfit, hsub, hr1, ← hr2]
    rw [← hr2] at hb hr3 hr4
    exact ⟨t, _, rfl, rfl, hprev, rfl, finish_inv hb hr4 hok hr3⟩
  · rw [if_neg hfit]
    exact ⟨t, _, rfl, rfl, hprev, rfl, finish_inv h.base hc hok (Nat.le_of_not_lt hfit)⟩

/-- `pop` goes back to where the top was before the task was pushed. -/
theorem pop_spec (h : Inv s (t :: live)) :
    Inv (s.pop t.ty) live ∧ (s.pop t.ty).begin = s.begin ∧
      (s.pop t.ty).top = s.begin + t.prev := by
  obtain ⟨ht, hst, ho, hc⟩ := h.chain
  have hbegin := h.begin_le
  have hle := h.top_le
  have hprev := ht.prev_le
  have hnext : t.next = t.start + fullSize t.ty := rfl
  have htop : (s.pop t.ty).top = s.begin + t.prev := by
    show s.top - (if isOveraligned t.ty then _ else _) = _
    by_cases hov : isOveraligned t.ty = true
    · have hh := (header_le_next t).2 hov
      have hpos : s.top - EXT_HEADER_SIZE = s.begin + (t.next - EXT_HEADER_SIZE) := by omega
      rw [if_pos hov, hpos, hst.bump hov]
      omega
    · have hstart := ht.start_eq
      rw [if_neg hov] at hstart
      rw [if_neg hov]
      omega
  refine ⟨⟨h.base, ?_, ?_, ?_⟩, rfl, htop⟩
  · rw [htop]
    exact Nat.le_add_right _ _
  · rw [htop]
    show _ ≤ s.last
    omega
  · rw [htop]
    show Chain s.mem s.begin live (s.begin + t.prev - s.begin)
    rwa [Nat.add_sub_cancel_left]

/-- `top_func` and `top_val` give the task that was pushed last. -/
theorem top_spec (h : Inv s (t :: live)) :
    s.topFunc = some t.ty.run ∧ s.topVal t.ty = s.begin + t.start := by
  obtain ⟨ht, hst, ho, -⟩ := h.chain
  have hh := (header_le_next t).1
  have hbegin := h.begin_le
  have hnext : t.next = t.start + fullSize t.ty := rfl
  have hpos : s.top - HEADER_SIZE = s.begin + (t.next - HEADER_SIZE) := by omega
  constructor
  · have hne : ¬ s.top = s.begin := by
      unfold HEADER_SIZE at hh
      omega
    rw [topFunc, if_neg hne, hpos, hst.func]
  · show s.top - fullSize t.ty = _
    omega

theorem topFunc_nil (h : Inv s []) : s.topFunc = none := by
  have hc : s.top - s.begin = 0 := h.chain
  have hb := h.begin_le
  exact if_pos (by omega)

/-! ## Runs -/

/-- A use of the stack. For `push`, `newBegin` and `other` are what the allocator does if it is
called. -/
inductive Use where
  | push (T : TaskType) (task : List Byte) (newBegin : Nat) (other : Memory)
  | pop

/-- The types are those that `push` accepts, a value has the size of its type, and the allocator
returns aligned blocks. -/
def Use.Ok : Use → Prop
  | push T task newBegin _ =>
    T.align ≤ ALLOC_ALIGN ∧ task.length = T.size ∧ ALLOC_ALIGN ∣ newBegin
  | pop => True

/-- One use of the stack. The list has the live tasks, the last one first, each with the offsets of
the top before its `push` and of the address that it was written to. A task is popped as the type that
it was pushed as. -/
def step : TaskStack × List Live → Use → Option (TaskStack × List Live)
  | (s, live), .push T task newBegin other => do
    let (ptr, s') ← s.push T task newBegin other
    return (s', ⟨T, task, s.top - s.begin, ptr - s'.begin⟩ :: live)
  | (_, []), .pop => none
  | (s, t :: live), .pop => some (s.pop t.ty, live)

/-- One use keeps the invariant. -/
theorem step_inv (h : Inv s live) {u : Use} (hu : u.Ok) {s' : TaskStack} {live' : List Live}
    (hs : step (s, live) u = some (s', live')) : Inv s' live' := by
  cases u with
  | push T task newBegin other =>
    obtain ⟨hl, hv, hb⟩ := hu
    obtain ⟨t, s₁, rfl, rfl, hprev, hpush, hinv⟩ := push_spec h hl hv hb other
    simp only [step, hpush, Option.bind_eq_bind, Option.bind_some] at hs
    cases hs
    rw [← hprev, Nat.add_sub_cancel_left]
    exact hinv
  | pop =>
    cases live with
    | nil => cases hs
    | cons t live =>
      cases hs
      exact (pop_spec h).1

theorem run_inv (h : Inv s live) {us : List Use} (hu : ∀ u ∈ us, u.Ok) {s' : TaskStack}
    {live' : List Live} (hs : us.foldlM step (s, live) = some (s', live')) : Inv s' live' := by
  induction us generalizing s live with
  | nil =>
    cases hs
    exact h
  | cons u us ih =>
    rw [List.foldlM_cons] at hs
    obtain ⟨⟨s₁, live₁⟩, h1, h2⟩ := Option.bind_eq_some_iff.mp hs
    exact ih (step_inv h (hu u (List.mem_cons_self ..)) h1)
      (fun u' hu' => hu u' (List.mem_cons_of_mem _ hu')) h2

/-- After every run from the empty stack, the tasks are a faithful stack of aligned values:

1. `push` accepts every further task;
2. each live task is aligned, is inside the allocation, ends before its header, and has its value;
3. the tasks do not overlap each other;
4. `top_func` and `top_val` give the task that was pushed last;
5. `pop` goes back to the offset of the top before that task was pushed. -/
theorem tasks_faithful (m : Memory) {us : List Use} (hu : ∀ u ∈ us, u.Ok) {s : TaskStack}
    {live : List Live} (hs : us.foldlM step (new m, []) = some (s, live)) :
    (∀ T task newBegin other, (Use.push T task newBegin other).Ok →
      (s.push T task newBegin other).isSome) ∧
    (∀ t ∈ live, t.ty.align ∣ s.begin + t.start ∧ s.begin + t.next ≤ s.last ∧
      t.start + t.ty.size ≤ t.next - t.header ∧ t.header ≤ t.next ∧
      s.mem.read (s.begin + t.start) t.ty.size = t.val) ∧
    (live.Pairwise fun t t' => t'.next ≤ t.start) ∧
    (s.topFunc = live.head?.map fun t => t.ty.run) ∧
    ∀ t ∈ live.head?, s.topVal t.ty = s.begin + t.start ∧
      (s.pop t.ty).begin = s.begin ∧ (s.pop t.ty).top - (s.pop t.ty).begin = t.prev := by
  have h := run_inv (inv_new m) hu hs
  refine ⟨fun T task newBegin other hok => ?_, fun t ht => ?_, h.chain.pairwise, ?_, ?_⟩
  · obtain ⟨t, s', -, -, -, hp, -⟩ := push_spec h hok.1 hok.2.1 hok.2.2 other
    rw [hp]
    rfl
  · obtain ⟨hok, hst⟩ := h.chain.ok t ht
    have hval := hok.val_le
    have hnext := h.chain.next_le t ht
    have htop := h.top_le
    have hbegin := h.begin_le
    exact ⟨hok.aligned h.base, by omega, by omega, by omega, hst.val⟩
  · cases live with
    | nil => exact topFunc_nil h
    | cons t live => exact (top_spec h).1
  · intro t ht
    cases live with
    | nil => cases ht
    | cons t' live =>
      cases ht
      obtain ⟨-, hb, ht⟩ := pop_spec h
      exact ⟨(top_spec h).2, hb, by rw [hb, ht, Nat.add_sub_cancel_left]⟩

/-- A task of three bytes, then one that is aligned to 32 bytes and for which the stack moves. -/
def movedUses : List Use :=
  [.push ⟨3, 1, 100, ⟨0, rfl⟩, by decide, by decide, by decide⟩ [1, 2, 3] 64 fun _ => 0,
    .push ⟨64, 32, 200, ⟨5, rfl⟩, by decide, by decide, by decide⟩ (List.replicate 64 5) 1024
      fun _ => 7]

theorem tasks_faithful_moved : ∃ s live, movedUses.foldlM step (new fun _ => 0, []) = some (s, live) ∧
    live.map (·.start) = [32, 0] ∧ s.begin = 1024 ∧ s.topFunc = some 200 := by
  have hok : ∀ u ∈ movedUses, u.Ok := by
    intro u hu
    simp only [movedUses, List.mem_cons, List.not_mem_nil, or_false] at hu
    rcases hu with rfl | rfl
    · exact ⟨by decide, rfl, by decide⟩
    · exact ⟨by decide, rfl, by decide⟩
  exact ⟨_, _, rfl, rfl, rfl, (tasks_faithful (fun _ => 0) hok rfl).2.2.2.1⟩

end TaskStack

end Qblaze

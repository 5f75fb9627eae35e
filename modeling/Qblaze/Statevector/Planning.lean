import Qblaze.Statevector.Basic

/-!
# Planning with checked arithmetic (`src/statevector.rs`)

`forCommon` and `forChunks` of `Qblaze.Statevector.Basic` wrap as a release build does. Here the same
functions check every operation, and say what went wrong: a division by zero or an overflow.

* `forCommon_of_plan`, `forChunks_of_plan`: where nothing goes wrong, both compute the same.
* `plan_covers`: with positive sizes, and products that do not overflow, the search for the chunk
  sizes ends and the chunks are few enough.
* `plan_ok_iff`: for which configurations and lengths nothing goes wrong.
-/

namespace Qblaze

/-- What arithmetic on `usize` can run into. -/
inductive Fault where
  | divByZero
  | overflow
  deriving DecidableEq

/-- `Config`, without the option for performance data. -/
structure Config where
  maxQubit : Qubit
  threads : Nat
  chunkSize : Nat
  multithreadingThreshold : Nat
  workItemMinSize : Nat
  workItemMaxSize : Nat

def MAX_THREADS : Nat := 2 ^ 12

/-- `Context::new`, with the number of threads that `Pool::new` starts. -/
def Config.context (cfg : Config) : Context where
  numThreads := min cfg.threads MAX_THREADS
  initMaxQubit := cfg.maxQubit
  chunkSize := cfg.chunkSize
  multithreadingThreshold := cfg.multithreadingThreshold
  workItemMinSize := cfg.workItemMinSize
  workItemMaxSize := cfg.workItemMaxSize

/-- What `Simulator::new` asserts. -/
structure Config.Accepted (cfg : Config) : Prop where
  threads : 0 < cfg.threads
  chunkSize : 0 < cfg.chunkSize

namespace Plan

def mul (a b : Nat) : Except Fault Nat :=
  if a * b < 2 ^ 64 then .ok (a * b) else .error .overflow

def add (a b : Nat) : Except Fault Nat :=
  if a + b < 2 ^ 64 then .ok (a + b) else .error .overflow

/-- `usize::div_ceil` -/
def div (a b : Nat) : Except Fault Nat :=
  match divCeil a b with
  | none => .error .divByZero
  | some k => .ok k

variable (ctx : Context) (elementSize : Nat)

/-- `for_common`, of a vector of `len` elements. -/
def common (len maxChunkSize : Nat) : Except Fault (Bool × Nat) := do
  let n ← mul len elementSize
  if n < ctx.multithreadingThreshold then return (false, 1)
  else
    let thr := ctx.numThreads
    if thr ≤ 1 then return (false, ← div n maxChunkSize)
    else
      let least ← mul ctx.workItemMinSize thr
      if n ≤ least then return (true, ← div n ctx.workItemMinSize)
      else
        let stride := min (maxChunkSize * thr) (2 ^ 64 - 1)
        let chunksPerThread ← div n stride
        if chunksPerThread ≤ 1 then return (true, thr)
        else
          let chunksPerThread := if thr ≤ 1 then 1 else chunksPerThread
          return (true, ← mul thr chunksPerThread)

/-- `for_merge` -/
def merge (len : Nat) : Except Fault (Bool × Nat) := common ctx elementSize len ctx.workItemMaxSize

/-- The loop of `for_chunks` from `div` on: the last value of `div`, and the numbers of chunks. -/
def loop (n0 n1 numChunks : Nat) : Nat → Except Fault (Nat × Nat × Nat)
  | 0 => .error .divByZero
  | d + 1 => do
    let chunk ← div (n0 + n1) (d + 1)
    let k0 ← div n0 chunk
    let k1 ← div n1 chunk
    let k ← add k0 k1
    if k ≤ numChunks then return (d + 1, k0, k1) else loop n0 n1 numChunks d

/-- `for_chunks`, of a vector with parts of `n0` and `n1` elements. -/
def chunks (n0 n1 maxChunkSize : Nat) : Except Fault (Bool × Nat × Nat) := do
  let n ← add n0 n1
  let (usePool, numChunks) ← common ctx elementSize n maxChunkSize
  if numChunks ≤ 2 then return (false, n, n)
  else if n0 = 0 ∨ n1 = 0 then
    let c ← div n numChunks
    return (usePool, c, c)
  else
    let (_, k0, k1) ← loop n0 n1 numChunks numChunks
    let c0 ← div n0 k0
    let c1 ← div n1 k1
    return (usePool, c0, c1)

/-- `for_small_chunks` -/
def smallChunks (n0 n1 : Nat) : Except Fault (Bool × Nat × Nat) :=
  chunks ctx elementSize n0 n1 ctx.chunkSize

/-- `for_large_chunks` -/
def largeChunks (n0 n1 : Nat) : Except Fault (Bool × Nat × Nat) :=
  chunks ctx elementSize n0 n1 ctx.workItemMaxSize

variable {ctx elementSize} {a b k : Nat}

/-! ## Rounding up -/

/-- The quotient, rounded up. -/
def ceil (a b : Nat) : Nat := (a + b - 1) / b

theorem div_eq (hb : 0 < b) : div a b = .ok (ceil a b) := by
  unfold div divCeil
  rw [if_neg (by omega)]
  rfl

theorem div_zero (a : Nat) : div a 0 = .error .divByZero := rfl

theorem mul_eq (h : a * b < 2 ^ 64) : mul a b = .ok (a * b) := if_pos h

theorem add_eq (h : a + b < 2 ^ 64) : add a b = .ok (a + b) := if_pos h

theorem ceil_le_iff (hb : 0 < b) : ceil a b ≤ k ↔ a ≤ k * b := by
  unfold ceil
  rw [← Nat.lt_succ_iff, Nat.div_lt_iff_lt_mul hb, Nat.succ_mul]
  omega

theorem le_ceil_mul (a : Nat) (hb : 0 < b) : a ≤ ceil a b * b :=
  (ceil_le_iff hb).mp (Nat.le_refl _)

theorem ceil_pos (ha : 0 < a) (hb : 0 < b) : 0 < ceil a b := Nat.div_pos (by omega) hb

/-- Chunks of the size that makes `k` chunks are at most `k`. -/
theorem ceil_ceil_le (a : Nat) (hk : 0 < k) : ceil a (ceil a k) ≤ k := by
  rcases Nat.eq_zero_or_pos a with rfl | ha
  · have h0 : ceil 0 k = 0 := Nat.div_eq_of_lt (by omega)
    rw [h0]
    exact Nat.zero_le k
  · rw [ceil_le_iff (ceil_pos ha hk), Nat.mul_comm]
    exact le_ceil_mul a hk

theorem ceil_le_one (hb : 0 < b) : ceil a b ≤ 1 ↔ a ≤ b := by
  rw [ceil_le_iff hb, Nat.one_mul]

theorem ceil_le_self (a : Nat) (hb : 0 < b) : ceil a b ≤ a :=
  (ceil_le_iff hb).mpr (Nat.le_mul_of_pos_right a hb)

/-! ## The functions -/

/-- Nothing goes wrong in `for_common` for `n` bytes. -/
def Usable (ctx : Context) (n maxChunkSize : Nat) : Prop :=
  n < ctx.multithreadingThreshold ∨
    if ctx.numThreads ≤ 1 then 0 < maxChunkSize
    else ctx.workItemMinSize * ctx.numThreads < 2 ^ 64 ∧
      if n ≤ ctx.workItemMinSize * ctx.numThreads then 0 < ctx.workItemMinSize else 0 < maxChunkSize

instance (n maxChunkSize : Nat) : Decidable (Usable ctx n maxChunkSize) :=
  inferInstanceAs (Decidable (_ ∨ _))

/-- The last product of `for_common`, for `n` bytes, does not overflow. -/
def Bounded (ctx : Context) (n maxChunkSize : Nat) : Prop :=
  ctx.numThreads * ceil n (min (maxChunkSize * ctx.numThreads) (2 ^ 64 - 1)) < 2 ^ 64

theorem stride_pos {thr maxChunkSize : Nat} (hm : 0 < maxChunkSize) (ht : 0 < thr) :
    0 < min (maxChunkSize * thr) (2 ^ 64 - 1) :=
  Nat.lt_min.mpr ⟨Nat.mul_pos hm ht, by decide⟩

/-- An allocation has less than `2 ^ 63` bytes, and there are at most `MAX_THREADS` threads. -/
theorem bounded_of_lt {n maxChunkSize : Nat} (hn : n < 2 ^ 63) (ht : 0 < ctx.numThreads)
    (hmax : ctx.numThreads ≤ MAX_THREADS) (hm : 0 < maxChunkSize) : Bounded ctx n maxChunkSize := by
  unfold Bounded
  unfold MAX_THREADS at hmax
  have hstride := stride_pos hm ht
  have hle : ctx.numThreads ≤ min (maxChunkSize * ctx.numThreads) (2 ^ 64 - 1) :=
    Nat.le_min.mpr ⟨Nat.le_mul_of_pos_left _ hm, by omega⟩
  -- one round of rounding up adds less than one item for each thread
  have hc : ceil n (min (maxChunkSize * ctx.numThreads) (2 ^ 64 - 1)) ≤ n / ctx.numThreads + 1 := by
    rw [ceil_le_iff hstride]
    have h := Nat.lt_succ_iff.mp (Nat.lt_succ_of_lt (Nat.lt_mul_div_succ n ht))
    rw [Nat.mul_comm] at h
    exact Nat.le_trans h (Nat.mul_le_mul_left _ hle)
  have h1 := Nat.mul_le_mul_left ctx.numThreads hc
  have h2 := Nat.mul_div_le n ctx.numThreads
  rw [Nat.mul_add] at h1
  omega

theorem ok_bind {α β : Type} (x : α) (f : α → Except Fault β) : (Except.ok x >>= f) = f x := rfl

/-- `for_common` where nothing goes wrong: there is at least one chunk. -/
theorem common_ok {len maxChunkSize : Nat} (hn : len * elementSize < 2 ^ 64)
    (ht : 0 < ctx.numThreads) (hu : Usable ctx (len * elementSize) maxChunkSize)
    (hb : 0 < maxChunkSize → Bounded ctx (len * elementSize) maxChunkSize) :
    ∃ b k, common ctx elementSize len maxChunkSize = .ok (b, k) ∧
      (0 < len * elementSize → 0 < k) := by
  unfold common
  rw [mul_eq hn, ok_bind]
  obtain ⟨n, hn'⟩ : ∃ n, len * elementSize = n := ⟨_, rfl⟩
  rw [hn'] at hu hb ⊢
  by_cases hthres : n < ctx.multithreadingThreshold
  · rw [if_pos hthres]
    exact ⟨false, 1, rfl, fun _ => Nat.one_pos⟩
  have hu := hu.resolve_left hthres
  rw [if_neg hthres]
  by_cases hthr : ctx.numThreads ≤ 1
  · rw [if_pos hthr] at hu ⊢
    rw [div_eq hu, ok_bind]
    exact ⟨_, _, rfl, fun h => ceil_pos h hu⟩
  rw [if_neg hthr] at hu ⊢
  obtain ⟨hmul, hu⟩ := hu
  rw [mul_eq hmul, ok_bind]
  by_cases hle : n ≤ ctx.workItemMinSize * ctx.numThreads
  · rw [if_pos hle] at hu ⊢
    rw [div_eq hu, ok_bind]
    exact ⟨_, _, rfl, fun h => ceil_pos h hu⟩
  rw [if_neg hle] at hu ⊢
  simp only [div_eq (stride_pos hu ht), ok_bind]
  by_cases hone : ceil n (min (maxChunkSize * ctx.numThreads) (2 ^ 64 - 1)) ≤ 1
  · rw [if_pos hone]
    exact ⟨true, _, rfl, fun _ => ht⟩
  · rw [if_neg hone, if_neg hthr, mul_eq (hb hu), ok_bind]
    exact ⟨true, _, rfl, fun _ => Nat.mul_pos ht (by omega)⟩

/-- `for_common` where something goes wrong. -/
theorem common_error {len maxChunkSize : Nat} (hn : len * elementSize < 2 ^ 64)
    (hu : ¬ Usable ctx (len * elementSize) maxChunkSize) :
    ∃ fault, common ctx elementSize len maxChunkSize = .error fault := by
  unfold common
  rw [mul_eq hn, ok_bind]
  obtain ⟨n, hn'⟩ : ∃ n, len * elementSize = n := ⟨_, rfl⟩
  rw [hn'] at hu ⊢
  obtain ⟨hthres, hu⟩ := not_or.mp hu
  rw [if_neg hthres]
  by_cases hthr : ctx.numThreads ≤ 1
  · rw [if_pos hthr] at hu ⊢
    rw [Nat.eq_zero_of_not_pos hu, div_zero]
    exact ⟨_, rfl⟩
  rw [if_neg hthr] at hu ⊢
  by_cases hmul : ctx.workItemMinSize * ctx.numThreads < 2 ^ 64
  · rw [mul_eq hmul, ok_bind]
    by_cases hle : n ≤ ctx.workItemMinSize * ctx.numThreads
    · rw [if_pos hle]
      rw [if_pos hle] at hu
      have h0 : ctx.workItemMinSize = 0 := Nat.eq_zero_of_not_pos fun h => hu ⟨hmul, h⟩
      rw [h0, div_zero]
      exact ⟨_, rfl⟩
    · rw [if_neg hle] at hu ⊢
      have h0 : maxChunkSize = 0 := Nat.eq_zero_of_not_pos fun h => hu ⟨hmul, h⟩
      rw [h0, Nat.zero_mul]
      exact ⟨_, rfl⟩
  · rw [mul, if_neg hmul]
    exact ⟨_, rfl⟩

/-- The search for the numbers of chunks ends: one chunk for each part is always few enough. -/
theorem loop_ok {n0 n1 numChunks d : Nat} (h0 : 0 < n0) (h1 : 0 < n1) (hn : n0 + n1 < 2 ^ 64)
    (hk : 2 ≤ numChunks) (hd : 0 < d) : ∃ d' k0 k1, loop n0 n1 numChunks d = .ok (d', k0, k1) ∧
      1 ≤ d' ∧ 0 < k0 ∧ 0 < k1 ∧ k0 + k1 ≤ numChunks := by
  induction d with
  | zero => omega
  | succ d ih =>
    have hchunk : 0 < ceil (n0 + n1) (d + 1) := ceil_pos (by omega) (by omega)
    have hsum : ceil n0 (ceil (n0 + n1) (d + 1)) + ceil n1 (ceil (n0 + n1) (d + 1)) < 2 ^ 64 := by
      have := ceil_le_self n0 hchunk
      have := ceil_le_self n1 hchunk
      omega
    rw [loop, div_eq (by omega : 0 < d + 1), ok_bind, div_eq hchunk, ok_bind, div_eq hchunk, ok_bind,
      add_eq hsum, ok_bind]
    by_cases hle : ceil n0 (ceil (n0 + n1) (d + 1)) + ceil n1 (ceil (n0 + n1) (d + 1)) ≤ numChunks
    · rw [if_pos hle]
      exact ⟨_, _, _, rfl, by omega, ceil_pos h0 hchunk, ceil_pos h1 hchunk, hle⟩
    · rw [if_neg hle]
      refine ih (Nat.pos_of_ne_zero fun h => hle ?_)
      -- at `div = 1` a chunk is as long as both parts
      have hone : ceil (n0 + n1) (d + 1) = n0 + n1 := by
        rw [h, ceil, Nat.zero_add, Nat.div_one, Nat.add_sub_cancel]
      rw [hone]
      have := (ceil_le_one (by omega : 0 < n0 + n1)).mpr (by omega : n0 ≤ n0 + n1)
      have := (ceil_le_one (by omega : 0 < n0 + n1)).mpr (by omega : n1 ≤ n0 + n1)
      omega

/-- `for_chunks` where nothing goes wrong in `for_common`: the chunks are few enough. -/
theorem chunks_ok {n0 n1 maxChunkSize : Nat} {b : Bool} (hn : n0 + n1 < 2 ^ 64)
    (hc : common ctx elementSize (n0 + n1) maxChunkSize = .ok (b, k)) :
    ∃ b' c0 c1, chunks ctx elementSize n0 n1 maxChunkSize = .ok (b', c0, c1) ∧
      (1 ≤ n0 + n1 → 1 ≤ c0 ∧ 1 ≤ c1 ∧ ceil n0 c0 + ceil n1 c1 ≤ max 2 k) := by
  unfold chunks
  rw [add_eq hn, ok_bind, hc, ok_bind]
  simp only
  by_cases hk : k ≤ 2
  · rw [if_pos hk]
    refine ⟨_, _, _, rfl, fun h => ⟨h, h, ?_⟩⟩
    have := (ceil_le_one h).mpr (by omega : n0 ≤ n0 + n1)
    have := (ceil_le_one h).mpr (by omega : n1 ≤ n0 + n1)
    omega
  rw [if_neg hk]
  by_cases h0 : n0 = 0 ∨ n1 = 0
  · rw [if_pos h0, div_eq (by omega : 0 < k), ok_bind]
    refine ⟨_, _, _, rfl, fun h => ?_⟩
    have hpos := ceil_pos h (by omega : 0 < k)
    have hzero : ceil 0 (ceil (n0 + n1) k) = 0 := Nat.div_eq_of_lt (by omega)
    have hle := ceil_ceil_le (n0 + n1) (by omega : 0 < k)
    refine ⟨hpos, hpos, ?_⟩
    rcases h0 with rfl | rfl
    · rw [hzero]
      simp only [Nat.zero_add] at hle ⊢
      omega
    · rw [hzero]
      simp only [Nat.add_zero] at hle ⊢
      omega
  · rw [if_neg h0]
    obtain ⟨d', k0, k1, hl, -, hk0, hk1, hle⟩ :=
      @loop_ok n0 n1 k k (by omega) (by omega) hn (by omega) (by omega)
    rw [hl, ok_bind]
    simp only [div_eq hk0, div_eq hk1, ok_bind]
    refine ⟨_, _, _, rfl, fun _ => ⟨ceil_pos (by omega) hk0, ceil_pos (by omega) hk1, ?_⟩⟩
    have := ceil_ceil_le n0 hk0
    have := ceil_ceil_le n1 hk1
    omega

/-! ## Planning ends and covers -/

/-- With positive sizes, and products that do not overflow, there is at least one chunk, the search for
the chunk sizes ends before `div` is zero, the chunks are not empty, and they are few enough. -/
theorem plan_covers {n0 n1 maxChunkSize : Nat} (hlen : 1 ≤ n0 + n1) (hes : 0 < elementSize)
    (ht : 1 ≤ ctx.numThreads) (hc : 0 < maxChunkSize) (hmin : 0 < ctx.workItemMinSize)
    (hn : (n0 + n1) * elementSize < 2 ^ 64)
    (hmul : ctx.workItemMinSize * ctx.numThreads < 2 ^ 64)
    (hb : Bounded ctx ((n0 + n1) * elementSize) maxChunkSize) :
    ∃ b k, common ctx elementSize (n0 + n1) maxChunkSize = .ok (b, k) ∧ 1 ≤ k ∧
      (0 < n0 → 0 < n1 → 2 < k → ∃ d k0 k1, loop n0 n1 k k = .ok (d, k0, k1) ∧ 1 ≤ d) ∧
      ∃ b' c0 c1, chunks ctx elementSize n0 n1 maxChunkSize = .ok (b', c0, c1) ∧ 1 ≤ c0 ∧ 1 ≤ c1 ∧
        ceil n0 c0 + ceil n1 c1 ≤ max 2 k := by
  have hu : Usable ctx ((n0 + n1) * elementSize) maxChunkSize := by
    refine .inr ?_
    split
    · exact hc
    · refine ⟨hmul, ?_⟩
      split
      · exact hmin
      · exact hc
  have hn' : n0 + n1 < 2 ^ 64 := Nat.lt_of_le_of_lt (Nat.le_mul_of_pos_right _ hes) hn
  obtain ⟨b, k, hk, hpos⟩ := common_ok hn ht hu fun _ => hb
  obtain ⟨b', c0, c1, hch, h⟩ := chunks_ok hn' hk
  refine ⟨b, k, hk, hpos (Nat.mul_pos hlen hes), fun h0 h1 hk2 => ?_, b', c0, c1, hch, h hlen⟩
  obtain ⟨d, k0, k1, hl, hd, -⟩ := @loop_ok n0 n1 k k h0 h1 hn' (by omega) (by omega)
  exact ⟨d, k0, k1, hl, hd⟩

/-- Ten elements of 24 bytes in parts of three and seven, by two threads in chunks of 24 bytes. -/
theorem plan_covers_ten : ∃ b k,
    common ⟨2, Qubit.ZERO, 24, 1, 24, 24⟩ 24 (3 + 7) 24 = .ok (b, k) ∧ 1 ≤ k ∧
    (0 < 3 → 0 < 7 → 2 < k → ∃ d k0 k1, loop 3 7 k k = .ok (d, k0, k1) ∧ 1 ≤ d) ∧
    ∃ b' c0 c1, chunks ⟨2, Qubit.ZERO, 24, 1, 24, 24⟩ 24 3 7 24 = .ok (b', c0, c1) ∧ 1 ≤ c0 ∧ 1 ≤ c1 ∧
      ceil 3 c0 + ceil 7 c1 ≤ max 2 k :=
  plan_covers (by decide) (by decide) (by decide) (by decide) (by decide) (by decide) (by decide)
    (by unfold Bounded; decide)

/-! ## Configurations -/

theorem context_threads {cfg : Config} (h : cfg.Accepted) :
    0 < cfg.context.numThreads ∧ cfg.context.numThreads ≤ MAX_THREADS :=
  ⟨Nat.lt_min.mpr ⟨h.threads, by decide⟩, Nat.min_le_right _ _⟩

/-- Nothing goes wrong in the planning of a simulator, for a vector with parts of `n0` and `n1`
elements. -/
def Safe (ctx : Context) (elementSize n0 n1 : Nat) : Prop :=
  (∃ r, common ctx elementSize (n0 + n1) ctx.chunkSize = .ok r) ∧
  (∃ r, common ctx elementSize (n0 + n1) ctx.workItemMaxSize = .ok r) ∧
  (∃ r, merge ctx elementSize (n0 + n1) = .ok r) ∧
  (∃ r, smallChunks ctx elementSize n0 n1 = .ok r) ∧
  ∃ r, largeChunks ctx elementSize n0 n1 = .ok r

/-- For which accepted configurations and lengths of the vector nothing goes wrong. The vector is in
memory, so that it has less than `2 ^ 63` bytes. -/
theorem plan_ok_iff {cfg : Config} (h : cfg.Accepted) {n0 n1 : Nat} (hes : 0 < elementSize)
    (hn : (n0 + n1) * elementSize < 2 ^ 63) :
    Safe cfg.context elementSize n0 n1 ↔
      Usable cfg.context ((n0 + n1) * elementSize) cfg.workItemMaxSize := by
  obtain ⟨ht, hmax⟩ := context_threads h
  have hn64 : (n0 + n1) * elementSize < 2 ^ 64 := Nat.lt_trans hn (by decide)
  have hlen : n0 + n1 < 2 ^ 64 := Nat.lt_of_le_of_lt (Nat.le_mul_of_pos_right _ hes) hn64
  constructor
  · rintro ⟨-, ⟨r, hr⟩, -⟩
    by_contra hu
    obtain ⟨fault, hf⟩ := common_error hn64 hu
    rw [show cfg.context.workItemMaxSize = cfg.workItemMaxSize from rfl, hf] at hr
    cases hr
  · intro hu
    -- `chunk_size` is positive, so that it is no worse than the maximum size
    have hu' : Usable cfg.context ((n0 + n1) * elementSize) cfg.chunkSize := by
      rcases hu with hu | hu
      · exact .inl hu
      · refine .inr ?_
        split at hu
        · rename_i hthr
          rw [if_pos hthr]
          exact h.chunkSize
        · rename_i hthr
          rw [if_neg hthr]
          refine ⟨hu.1, ?_⟩
          split
          · rename_i hle
            exact (if_pos hle ▸ hu.2 :)
          · exact h.chunkSize
    obtain ⟨b, k, hk, -⟩ := common_ok hn64 ht hu fun hm => bounded_of_lt hn ht hmax hm
    obtain ⟨b', k', hk', -⟩ := common_ok hn64 ht hu' fun hm => bounded_of_lt hn ht hmax hm
    obtain ⟨b₁, c0, c1, hc, -⟩ := chunks_ok hlen hk
    obtain ⟨b₂, d0, d1, hd, -⟩ := chunks_ok hlen hk'
    exact ⟨⟨_, hk'⟩, ⟨_, hk⟩, ⟨_, hk⟩, ⟨_, hd⟩, _, hc⟩

/-- A maximum size of zero divides by zero, and a large minimum size overflows for two threads. -/
theorem plan_not_safe :
    ((⟨Qubit.ZERO, 1, 1, 0, 1024, 0⟩ : Config).Accepted ∧
      merge (⟨Qubit.ZERO, 1, 1, 0, 1024, 0⟩ : Config).context 24 1 = .error .divByZero ∧
      ¬ Safe (⟨Qubit.ZERO, 1, 1, 0, 1024, 0⟩ : Config).context 24 1 0) ∧
    (⟨Qubit.ZERO, 2, 1, 0, 2 ^ 64 - 1, 2 ^ 24⟩ : Config).Accepted ∧
      merge (⟨Qubit.ZERO, 2, 1, 0, 2 ^ 64 - 1, 2 ^ 24⟩ : Config).context 24 1 = .error .overflow ∧
      ¬ Safe (⟨Qubit.ZERO, 2, 1, 0, 2 ^ 64 - 1, 2 ^ 24⟩ : Config).context 24 1 0 := by
  refine ⟨⟨⟨by decide, by decide⟩, rfl, ?_⟩, ⟨by decide, by decide⟩, rfl, ?_⟩
  · rintro ⟨-, -, ⟨r, hr⟩, -⟩
    cases hr
  · rintro ⟨-, -, ⟨r, hr⟩, -⟩
    cases hr

/-- The default sizes, with two threads. -/
theorem plan_ok_default : Safe (⟨Qubit.ZERO, 2, 2 ^ 18, 2 ^ 16, 2 ^ 10, 2 ^ 24⟩ : Config).context 24 3 7 :=
  (plan_ok_iff ⟨by decide, by decide⟩ (by decide) (by decide)).mpr (by decide)

/-! ## Release builds -/

theorem bind_ok {α β : Type} {x : Except Fault α} {f : α → Except Fault β} {r : β}
    (h : (x >>= f) = .ok r) : ∃ y, x = .ok y ∧ f y = .ok r := by
  cases x with
  | error e => cases h
  | ok y => exact ⟨y, rfl, h⟩

theorem mul_ok (h : mul a b = .ok k) : a * b < 2 ^ 64 ∧ a * b = k := by
  unfold mul at h
  split at h
  · rename_i hlt
    cases h
    exact ⟨hlt, rfl⟩
  · cases h

theorem add_ok (h : add a b = .ok k) : a + b = k := by
  unfold add at h
  split at h
  · cases h
    rfl
  · cases h

theorem div_ok (h : div a b = .ok k) : divCeil a b = some k := by
  unfold div at h
  split at h
  · cases h
  · rename_i hd
    cases h
    exact hd

variable {N : Nat} {F : Type} {s : Statevector N F}

/-- Where nothing overflows, a release build computes the same. -/
theorem forCommon_of_plan {maxChunkSize : Nat} {r : Bool × Nat}
    (h : common ctx (Statevector.elementSize N) s.len maxChunkSize = .ok r) :
    s.forCommon ctx maxChunkSize = some r := by
  unfold common at h
  unfold Statevector.forCommon
  obtain ⟨n, hn, h⟩ := bind_ok h
  obtain ⟨-, rfl⟩ := mul_ok hn
  simp only at h ⊢
  split at h
  · rename_i hthres
    rw [if_pos hthres]
    cases h
    rfl
  rename_i hthres
  rw [if_neg hthres]
  split at h
  · rename_i hthr
    obtain ⟨k, hk, h⟩ := bind_ok h
    cases h
    rw [if_pos hthr, div_ok hk]
    rfl
  rename_i hthr
  rw [if_neg hthr]
  obtain ⟨least, hl, h⟩ := bind_ok h
  obtain ⟨hlt, rfl⟩ := mul_ok hl
  rw [Nat.mod_eq_of_lt hlt]
  split at h
  · rename_i hle
    obtain ⟨k, hk, h⟩ := bind_ok h
    cases h
    rw [if_pos hle, div_ok hk]
    rfl
  rename_i hle
  rw [if_neg hle]
  obtain ⟨k, hk, h⟩ := bind_ok h
  rw [div_ok hk, Option.map_some]
  split at h
  · rename_i hone
    cases h
    rw [if_pos hone]
  · rename_i hone
    obtain ⟨c, hc, h⟩ := bind_ok h
    obtain ⟨hlt, rfl⟩ := mul_ok hc
    cases h
    rw [if_neg hone, if_neg hthr, Nat.mod_eq_of_lt hlt]

theorem chunkLoop_of_plan {n0 n1 numChunks d d' k0 k1 : Nat}
    (h : loop n0 n1 numChunks d = .ok (d', k0, k1)) :
    Statevector.chunkLoop n0 n1 numChunks d = some (k0, k1) := by
  induction d with
  | zero => cases h
  | succ d ih =>
    rw [loop] at h
    obtain ⟨chunk, hchunk, h⟩ := bind_ok h
    obtain ⟨j0, h0, h⟩ := bind_ok h
    obtain ⟨j1, h1, h⟩ := bind_ok h
    obtain ⟨j, hj, h⟩ := bind_ok h
    rw [Statevector.chunkLoop, div_ok hchunk]
    simp only [Option.bind_eq_bind, Option.bind_some, div_ok h0, div_ok h1]
    rw [← add_ok hj] at h
    split at h
    · rename_i hle
      cases h
      rw [if_pos hle]
      rfl
    · rename_i hle
      rw [if_neg hle]
      exact ih h

theorem forChunks_of_plan {maxChunkSize : Nat} {r : Bool × Nat × Nat}
    (h : chunks ctx (Statevector.elementSize N) s.part0.length s.part1.length maxChunkSize = .ok r) :
    s.forChunks ctx maxChunkSize = some r := by
  unfold chunks at h
  unfold Statevector.forChunks
  obtain ⟨n, hn, h⟩ := bind_ok h
  have hn := add_ok hn
  subst hn
  obtain ⟨⟨b, k⟩, hc, h⟩ := bind_ok h
  rw [forCommon_of_plan hc]
  simp only [Option.bind_eq_bind, Option.bind_some] at h ⊢
  split at h
  · rename_i hk
    rw [if_pos hk]
    cases h
    rfl
  rename_i hk
  rw [if_neg hk]
  split at h
  · rename_i h0
    rw [if_pos h0]
    obtain ⟨c, hcc, h⟩ := bind_ok h
    rw [div_ok hcc]
    cases h
    rfl
  rename_i h0
  rw [if_neg h0]
  obtain ⟨⟨d, k0, k1⟩, hl, h⟩ := bind_ok h
  obtain ⟨c0, h0, h⟩ := bind_ok h
  obtain ⟨c1, h1, h⟩ := bind_ok h
  rw [chunkLoop_of_plan hl]
  simp only [Option.bind_some, div_ok h0, div_ok h1]
  cases h
  rfl

end Plan

end Qblaze

import Mathlib.Data.List.Basic
import Mathlib.Algebra.Ring.Nat

/-!
# Hashing a message block by block

A compression function takes a chaining value and a block of `n` symbols.
`feed` runs it over the first `k` blocks of a sequence.  A streaming hash keeps
the symbols that do not fill a block; `Represents` says which data a chaining
value and such a buffer stand for, and is kept by adding symbols to the buffer
and by compressing a full buffer.

`inputs` lists what the compression function is given on the way.  If the last
block determines the number of blocks and two different sequences have one result,
two different inputs among those of the two sequences have one output
(`collide_of_feed_eq`).
-/

namespace BlockStreaming

universe u v

section Streaming

variable {σ : Type u}
variable {α : Type v}

/-- Compress `k` blocks of `n` symbols from the front of the data. -/
def feed
    (n : Nat)
    (f : σ → List α → σ) :
    Nat → List α → σ → σ
  | 0, _, s => s
  | k + 1, data, s => feed n f k (data.drop n) (f s (data.take n))

variable {n : Nat}
variable {f : σ → List α → σ}

theorem feed_add
    (k m : Nat) :
    ∀ (data : List α) (s : σ),
      feed n f (k + m) data s = feed n f m (data.drop (n * k)) (feed n f k data s) := by
  induction k with
  | zero =>
      intro data s
      simp [feed]
  | succ k ih =>
      intro data s
      rw [Nat.add_right_comm, feed, ih, feed, List.drop_drop, Nat.mul_succ, Nat.add_comm n]

/-- Blocks after the first `k` do not matter to the first `k`. -/
theorem feed_append
    (k : Nat) :
    ∀ {data : List α} (rest : List α) (s : σ), data.length = n * k →
      feed n f k (data ++ rest) s = feed n f k data s := by
  induction k with
  | zero =>
      intro data rest s _
      rfl
  | succ k ih =>
      intro data rest s h
      have hn : n ≤ data.length := by
        rw [h, Nat.mul_succ]
        exact Nat.le_add_left n _
      have hdrop : (data.drop n).length = n * k := by
        rw [List.length_drop, h, Nat.mul_succ, Nat.add_sub_cancel]
      rw [feed, feed, List.take_append_of_le_length hn, List.drop_append_of_le_length hn,
        ih rest _ hdrop]

/-- Only the values on blocks of `n` symbols matter. -/
theorem feed_congr
    {g : σ → List α → σ}
    (h : ∀ s block, block.length = n → f s block = g s block)
    (k : Nat) :
    ∀ {data : List α} (s : σ), data.length = n * k → feed n f k data s = feed n g k data s := by
  induction k with
  | zero =>
      intro data s _
      rfl
  | succ k ih =>
      intro data s hlen
      rw [Nat.mul_succ] at hlen
      have htake : (data.take n).length = n := by
        rw [List.length_take, hlen, Nat.min_eq_left (Nat.le_add_left n _)]
      have hdrop : (data.drop n).length = n * k := by
        rw [List.length_drop, hlen, Nat.add_sub_cancel]
      rw [feed, feed, h s _ htake, ih _ hdrop]

/-- One block after `k` others is compressed last. -/
theorem feed_snoc
    {k : Nat} {data block : List α}
    (hdata : data.length = n * k)
    (hblock : block.length = n)
    (s : σ) :
    feed n f (k + 1) (data ++ block) s = f (feed n f k data s) block := by
  have htake : block.take n = block := by
    rw [← hblock, List.take_length]
  have hdrop : (data ++ block).drop (n * k) = block := by
    rw [← hdata, List.drop_left]
  rw [feed_add k 1, feed_append k block s hdata, hdrop, feed, feed, htake]

/-- The chaining value `s` and the buffer `live` stand for `data`. -/
def Represents
    (n : Nat)
    (f : σ → List α → σ)
    (s₀ : σ)
    (data live : List α)
    (s : σ) : Prop :=
  ∃ (k : Nat) (head : List α),
    head.length = n * k ∧ data = head ++ live ∧ s = feed n f k head s₀

variable {s₀ : σ}

theorem represents_nil :
    Represents n f s₀ [] [] s₀ :=
  ⟨0, [], rfl, rfl, rfl⟩

/-- Adding symbols to the buffer. -/
theorem Represents.append
    {data live : List α} {s : σ}
    (h : Represents n f s₀ data live s)
    (symbols : List α) :
    Represents n f s₀ (data ++ symbols) (live ++ symbols) s := by
  obtain ⟨k, head, hlen, hdata, hs⟩ := h
  refine ⟨k, head, hlen, ?_, hs⟩
  rw [hdata, List.append_assoc]

/-- Compressing a full buffer. -/
theorem Represents.flush
    {data live : List α} {s : σ}
    (h : Represents n f s₀ data live s)
    (hlive : live.length = n) :
    Represents n f s₀ data [] (f s live) := by
  obtain ⟨k, head, hlen, hdata, hs⟩ := h
  refine ⟨k + 1, head ++ live, ?_, ?_, ?_⟩
  · rw [List.length_append, hlen, hlive, Nat.mul_succ]
  · rw [hdata, List.append_nil]
  · rw [feed_snoc hlen hlive, hs]

/-- Compressing a block of the input while the buffer is empty. -/
theorem Represents.block
    {data block : List α} {s : σ}
    (h : Represents n f s₀ data [] s)
    (hblock : block.length = n) :
    Represents n f s₀ (data ++ block) [] (f s block) :=
  (h.append block).flush hblock

/-- The length of the data, from its complete blocks and the buffer. -/
theorem Represents.length_mod
    {data live : List α} {s : σ}
    (h : Represents n f s₀ data live s)
    (hlive : live.length < n) :
    data.length % n = live.length := by
  obtain ⟨k, head, hlen, hdata, _⟩ := h
  rw [hdata, List.length_append, hlen, Nat.mul_add_mod, Nat.mod_eq_of_lt hlive]

/-- Compressing the padded buffer compresses the padded data. -/
theorem Represents.finish
    {data live : List α} {s : σ}
    (h : Represents n f s₀ data live s)
    (hn : 0 < n)
    {padding : List α} {m : Nat}
    (hlen : (live ++ padding).length = n * m) :
    feed n f ((data ++ padding).length / n) (data ++ padding) s₀ =
      feed n f m (live ++ padding) s := by
  obtain ⟨k, head, hhead, rfl, rfl⟩ := h
  have hall : (head ++ live ++ padding).length = n * (k + m) := by
    rw [List.append_assoc, List.length_append, hhead, hlen, Nat.mul_add]
  have hdrop : (head ++ (live ++ padding)).drop (n * k) = live ++ padding := by
    rw [← hhead, List.drop_left]
  rw [hall, Nat.mul_div_cancel_left _ hn, List.append_assoc, feed_add,
    feed_append k (live ++ padding) s₀ hhead, hdrop]

end Streaming

section Collisions

variable {σ : Type u}
variable {α : Type v}

/-- The inputs of the compression function over the first `k` blocks. -/
def inputs
    (n : Nat)
    (f : σ → List α → σ) :
    Nat → List α → σ → List (σ × List α)
  | 0, _, _ => []
  | k + 1, data, s => (s, data.take n) :: inputs n f k (data.drop n) (f s (data.take n))

/-- Two different inputs, one from each list, with one output. -/
def Collide
    (f : σ → List α → σ)
    (A B : List (σ × List α)) : Prop :=
  ∃ p ∈ A, ∃ q ∈ B, p ≠ q ∧ f p.1 p.2 = f q.1 q.2

variable {n : Nat}
variable {f : σ → List α → σ}

theorem Collide.mono
    {A A' B B' : List (σ × List α)}
    (h : Collide f A B)
    (hA : ∀ p ∈ A, p ∈ A')
    (hB : ∀ q ∈ B, q ∈ B') :
    Collide f A' B' := by
  obtain ⟨p, hp, q, hq, hne, heq⟩ := h
  exact ⟨p, hA p hp, q, hB q hq, hne, heq⟩

/-- The last block is compressed with the value reached before it. -/
theorem inputs_snoc
    (k : Nat) :
    ∀ {data block : List α} (s : σ), data.length = n * k → block.length = n →
      inputs n f (k + 1) (data ++ block) s =
        inputs n f k data s ++ [(feed n f k data s, block)] := by
  induction k with
  | zero =>
      intro data block s hdata hblock
      rw [Nat.mul_zero] at hdata
      obtain rfl := List.eq_nil_of_length_eq_zero hdata
      have htake : block.take n = block := by
        rw [← hblock, List.take_length]
      have hsingle : inputs n f (0 + 1) block s = [(s, block.take n)] := by
        rfl
      rw [List.nil_append, hsingle, htake]
      rfl
  | succ k ih =>
      intro data block s hdata hblock
      have hn : n ≤ data.length := by
        rw [hdata, Nat.mul_succ]
        exact Nat.le_add_left n _
      have hdrop : (data.drop n).length = n * k := by
        rw [List.length_drop, hdata, Nat.mul_succ, Nat.add_sub_cancel]
      rw [inputs, List.take_append_of_le_length hn, List.drop_append_of_le_length hn,
        ih _ hdrop hblock, inputs, feed, List.cons_append]

theorem mem_inputs_snoc
    {k : Nat} {data block : List α} {s : σ}
    (hdata : data.length = n * k)
    (hblock : block.length = n) :
    (feed n f k data s, block) ∈ inputs n f (k + 1) (data ++ block) s := by
  rw [inputs_snoc k s hdata hblock]
  exact List.mem_append_right _ (List.mem_singleton_self _)

theorem mem_inputs_append
    {k : Nat} {data block : List α} {s : σ}
    (hdata : data.length = n * k)
    (hblock : block.length = n)
    {p : σ × List α}
    (hp : p ∈ inputs n f k data s) :
    p ∈ inputs n f (k + 1) (data ++ block) s := by
  rw [inputs_snoc k s hdata hblock]
  exact List.mem_append_left _ hp

/-- Different last inputs with one output. -/
theorem collide_last
    {k k' : Nat} {head head' block block' : List α} {s : σ}
    (hhead : head.length = n * k)
    (hhead' : head'.length = n * k')
    (hblock : block.length = n)
    (hblock' : block'.length = n)
    (hne : (feed n f k head s, block) ≠ (feed n f k' head' s, block'))
    (heq : feed n f (k + 1) (head ++ block) s = feed n f (k' + 1) (head' ++ block') s) :
    Collide f (inputs n f (k + 1) (head ++ block) s)
      (inputs n f (k' + 1) (head' ++ block') s) := by
  rw [feed_snoc hhead hblock, feed_snoc hhead' hblock'] at heq
  exact ⟨_, mem_inputs_snoc hhead hblock, _, mem_inputs_snoc hhead' hblock', hne, heq⟩

/-- A sequence of `k + 1` blocks is `k` blocks and a last one. -/
theorem exists_last_block
    {k : Nat} {data : List α}
    (h : data.length = n * (k + 1)) :
    ∃ head block : List α,
      data = head ++ block ∧ head.length = n * k ∧ block.length = n := by
  have hle : n * k ≤ data.length := by
    rw [h, Nat.mul_succ]
    exact Nat.le_add_right _ _
  refine ⟨data.take (n * k), data.drop (n * k), ?_, ?_, ?_⟩
  · rw [List.take_append_drop]
  · rw [List.length_take, Nat.min_eq_left hle]
  · rw [List.length_drop, h, Nat.mul_succ, Nat.add_sub_cancel_left]

/-- Different sequences of equally many blocks with one result collide. -/
theorem collide_of_feed_eq_same
    (k : Nat) :
    ∀ {data data' : List α} {s : σ},
      data.length = n * k → data'.length = n * k → data ≠ data' →
      feed n f k data s = feed n f k data' s →
      Collide f (inputs n f k data s) (inputs n f k data' s) := by
  induction k with
  | zero =>
      intro data data' s hlen hlen' hne _
      rw [Nat.mul_zero] at hlen hlen'
      rw [List.eq_nil_of_length_eq_zero hlen, List.eq_nil_of_length_eq_zero hlen'] at hne
      exact absurd rfl hne
  | succ k ih =>
      intro data data' s hlen hlen' hne heq
      obtain ⟨head, block, rfl, hhead, hblock⟩ := exists_last_block hlen
      obtain ⟨head', block', rfl, hhead', hblock'⟩ := exists_last_block hlen'
      by_cases hlast : (feed n f k head s, block) = (feed n f k head' s, block')
      · -- the last inputs agree, so the difference lies before them
        obtain ⟨hs, rfl⟩ := Prod.mk.inj hlast
        have hheads : head ≠ head' := by
          intro h
          exact hne (by rw [h])
        exact (ih hhead hhead' hheads hs).mono
          (fun _ hp => mem_inputs_append hhead hblock hp)
          (fun _ hq => mem_inputs_append hhead' hblock' hq)
      · exact collide_last hhead hhead' hblock hblock' hlast heq

/-- If equal last blocks mean equally many blocks, different sequences with one
result collide. -/
theorem collide_of_feed_eq
    {k k' : Nat} {head head' block block' : List α} {s : σ}
    (hhead : head.length = n * k)
    (hhead' : head'.length = n * k')
    (hblock : block.length = n)
    (hblock' : block'.length = n)
    (hlast : block = block' → k = k')
    (hne : head ++ block ≠ head' ++ block')
    (heq : feed n f (k + 1) (head ++ block) s = feed n f (k' + 1) (head' ++ block') s) :
    Collide f (inputs n f (k + 1) (head ++ block) s)
      (inputs n f (k' + 1) (head' ++ block') s) := by
  by_cases hb : block = block'
  · obtain rfl := hlast hb
    refine collide_of_feed_eq_same (k + 1) ?_ ?_ hne heq
    · rw [List.length_append, hhead, hblock, Nat.mul_succ]
    · rw [List.length_append, hhead', hblock', Nat.mul_succ]
  · refine collide_last hhead hhead' hblock hblock' ?_ heq
    intro h
    exact hb (Prod.mk.inj h).2

end Collisions

end BlockStreaming

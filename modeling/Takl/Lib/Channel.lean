/-!
# Buffered channels

A Go channel `make(chan T, cap)`, written to by `c <- x`, which blocks when
the buffer is full, or by `select { case c <- x: default: }`, which then drops
`x`.
-/

/-- At most `cap` values wait. -/
structure Channel (α : Type) (cap : Nat) where
  queue : List α
  bounded : queue.length ≤ cap

namespace Channel

variable {α : Type} {cap : Nat}

/-- `make(chan T, cap)`. -/
def empty : Channel α cap := ⟨[], Nat.zero_le cap⟩

/-- `c <- x`, when it does not block. -/
def send (c : Channel α cap) (x : α) : Option (Channel α cap) :=
  if h : c.queue.length < cap then
    some ⟨c.queue ++ [x], by rw [List.length_append]; exact h⟩
  else none

/-- `select { case c <- x: default: }`. -/
def trySend (c : Channel α cap) (x : α) : Channel α cap :=
  if h : c.queue.length < cap then
    ⟨c.queue ++ [x], by rw [List.length_append]; exact h⟩
  else c

/-- `x := <-c`, when it does not block. -/
def receive (c : Channel α cap) : Option (α × Channel α cap) :=
  match h : c.queue with
  | [] => none
  | x :: rest => some (x, ⟨rest, by
      have hb := c.bounded
      rw [h, List.length_cons] at hb
      omega⟩)

/-- With room in the buffer a send does not block. -/
theorem exists_send {c : Channel α cap} (h : c.queue.length < cap) (x : α) :
    ∃ c', c.send x = some c' := by
  simp [send, h]

theorem queue_of_send {c c' : Channel α cap} {x : α} (h : c.send x = some c') :
    c'.queue = c.queue ++ [x] := by
  unfold send at h
  split at h
  · cases h
    rfl
  · cases h

/-- A receive does not block while something waits. -/
theorem exists_receive {c : Channel α cap} (h : c.queue ≠ []) :
    ∃ x c', c.receive = some (x, c') := by
  unfold receive
  split
  · next hnil => exact absurd hnil h
  · exact ⟨_, _, rfl⟩

/-- With room in the buffer the value is queued. -/
theorem mem_trySend_self {c : Channel α cap} (h : c.queue.length < cap) (x : α) :
    x ∈ (c.trySend x).queue := by
  simp [trySend, h]

/-- What waits goes on waiting. -/
theorem mem_trySend {c : Channel α cap} {y : α} (hy : y ∈ c.queue) (x : α) :
    y ∈ (c.trySend x).queue := by
  unfold trySend
  split
  · exact List.mem_append_left _ hy
  · exact hy

/-- The oldest value is taken out, and nothing else. -/
theorem queue_of_receive {c c' : Channel α cap} {x : α} (h : c.receive = some (x, c')) :
    c.queue = x :: c'.queue := by
  unfold receive at h
  split at h
  · cases h
  · next hq =>
    cases h
    exact hq

end Channel

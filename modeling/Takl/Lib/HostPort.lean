import Mathlib.Data.List.TakeWhile

/-!
# Host and port in one text

`host:port`, with a host that has colons itself in brackets. `split` takes
the text apart at its last colon and refuses brackets anywhere else; `join`
puts it together. What `split` gives is plain, and on plain parts the two are
inverse.
-/

namespace HostPort

/-- What stands before and after the last `sep`. -/
def cutLast {α : Type} [DecidableEq α] (sep : α) : List α → Option (List α × List α)
  | [] => none
  | c :: s =>
      match cutLast sep s with
      | some (before, after) => some (c :: before, after)
      | none => if c = sep then some ([], s) else none

section CutLast
variable {α : Type} [DecidableEq α] {sep : α}

theorem cutLast_eq_none {s : List α} (h : sep ∉ s) : cutLast sep s = none := by
  induction s with
  | nil => rfl
  | cons c s ih =>
    simp only [List.mem_cons, not_or] at h
    simp [cutLast, ih h.2, Ne.symm h.1]

theorem cutLast_append (before : List α) {after : List α} (h : sep ∉ after) :
    cutLast sep (before ++ sep :: after) = some (before, after) := by
  induction before with
  | nil => simp [cutLast, cutLast_eq_none h]
  | cons c before ih => simp [cutLast, ih]

/-- Without a separator there is nothing to cut. -/
theorem not_mem_of_cutLast {s : List α} (h : cutLast sep s = none) : sep ∉ s := by
  induction s with
  | nil => exact List.not_mem_nil
  | cons c s ih =>
    simp only [cutLast] at h
    split at h
    · cases h
    · next hs =>
      split_ifs at h with hc
      simp only [List.mem_cons, not_or]
      exact ⟨fun he => hc he.symm, ih hs⟩

theorem eq_of_cutLast {s before after : List α} (h : cutLast sep s = some (before, after)) :
    s = before ++ sep :: after ∧ sep ∉ after := by
  induction s generalizing before with
  | nil => cases h
  | cons c s ih =>
    simp only [cutLast] at h
    split at h
    · next b a hs =>
      cases h
      obtain ⟨hcut, hafter⟩ := ih hs
      exact ⟨by rw [hcut, List.cons_append], hafter⟩
    · next hs =>
      split_ifs at h with hc
      cases h
      exact ⟨by rw [hc, List.nil_append], not_mem_of_cutLast hs⟩

end CutLast

/-- The text taken apart; `none` is an error. -/
def split (s : List Char) : Option (List Char × List Char) :=
  match cutLast ':' s with
  | none => none
  | some (before, port) =>
      match s with
      | '[' :: rest =>
          -- the first closing bracket stands right before the last colon
          let host := rest.takeWhile fun c => decide (c ≠ ']')
          if before = '[' :: host ++ [']'] ∧ '[' ∉ rest ∧ ']' ∉ port then some (host, port)
          else none
      | _ => if ':' ∉ before ∧ '[' ∉ s ∧ ']' ∉ s then some (before, port) else none

/-- The text put together. -/
def join (host port : List Char) : List Char :=
  if ':' ∈ host then '[' :: host ++ ']' :: ':' :: port else host ++ ':' :: port

/-- No brackets, and no colon in the port. -/
structure Plain (host port : List Char) : Prop where
  host_open : '[' ∉ host
  host_close : ']' ∉ host
  port_open : '[' ∉ port
  port_close : ']' ∉ port
  port_colon : ':' ∉ port

variable {s host port : List Char}

/-- What is accepted is plain. -/
theorem plain_of_split (h : split s = some (host, port)) : Plain host port := by
  unfold split at h
  split at h
  · cases h
  · next before after hcut =>
    obtain ⟨hs, hcolon⟩ := eq_of_cutLast hcut
    split at h
    · next rest =>
      dsimp only at h
      split_ifs at h with hparts
      cases h
      obtain ⟨hbefore, hopen, hclose⟩ := hparts
      have hrest : rest = rest.takeWhile (fun c => decide (c ≠ ']')) ++ ']' :: ':' :: port := by
        rw [hbefore] at hs
        simpa using hs
      refine ⟨fun hm => hopen ?_, fun hm => ?_, fun hm => hopen ?_, hclose, hcolon⟩
      · exact (List.takeWhile_prefix _).subset hm
      · simpa using List.mem_takeWhile_imp hm
      · rw [hrest]
        simp [hm]
    · split_ifs at h with hparts
      cases h
      obtain ⟨-, hopen, hclose⟩ := hparts
      rw [hs] at hopen hclose
      simp only [List.mem_append, List.mem_cons, not_or] at hopen hclose
      exact ⟨hopen.1, hclose.1, hopen.2.2, hclose.2.2, hcolon⟩

theorem takeWhile_close (h : ']' ∉ host) (tail : List Char) :
    (host ++ ']' :: tail).takeWhile (fun c => decide (c ≠ ']')) = host := by
  have hall : ∀ c ∈ host, decide (c ≠ ']') = true := by
    intro c hc
    exact decide_eq_true fun he => h (he ▸ hc)
  rw [List.takeWhile_append_of_pos hall]
  simp

/-- **Plain parts are read back.** -/
theorem split_join (h : Plain host port) : split (join host port) = some (host, port) := by
  unfold join
  split_ifs with hcolon
  · have hcut : cutLast ':' ('[' :: host ++ ']' :: ':' :: port) =
        some ('[' :: host ++ [']'], port) := by
      simpa using cutLast_append ('[' :: host ++ [']']) h.port_colon
    have hopen : '[' ∉ host ++ ']' :: ':' :: port := by
      simp [h.host_open, h.port_open]
    simp only [List.cons_append] at hcut
    simp only [split, List.cons_append, hcut, takeWhile_close h.host_close]
    exact if_pos ⟨trivial, hopen, h.port_close⟩
  · have hcut := cutLast_append host h.port_colon
    have hfree : '[' ∉ host ++ ':' :: port ∧ ']' ∉ host ++ ':' :: port := by
      simp [h.host_open, h.host_close, h.port_open, h.port_close]
    unfold split
    rw [hcut]
    simp only
    split
    · next rest hs => exact absurd (hs ▸ List.mem_cons_self) hfree.1
    · exact if_pos ⟨hcolon, hfree⟩

end HostPort

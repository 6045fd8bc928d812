import Mathlib.Algebra.Order.Ring.Nat
import Mathlib.Data.List.Basic

/-!
# Base64 with padding

The standard alphabet, three bytes to four digits, `=` for the missing ones.
The decoder skips line breaks wherever they are and does not look at the bits
that the padding leaves over.
-/

namespace Base64

/-- The character of a digit below 64. -/
def char (d : Nat) : Char :=
  if d < 26 then Char.ofNat (65 + d)
  else if d < 52 then Char.ofNat (71 + d)
  else if d < 62 then Char.ofNat (d - 4)
  else if d = 62 then '+'
  else '/'

/-- The digit of a character, if it is in the alphabet. -/
def digit (c : Char) : Option Nat :=
  if 65 ≤ c.toNat ∧ c.toNat ≤ 90 then some (c.toNat - 65)
  else if 97 ≤ c.toNat ∧ c.toNat ≤ 122 then some (c.toNat - 71)
  else if 48 ≤ c.toNat ∧ c.toNat ≤ 57 then some (c.toNat + 4)
  else if c = '+' then some 62
  else if c = '/' then some 63
  else none

theorem digit_char : ∀ d < 64, digit (char d) = some d := by decide

theorem char_ne_pad : ∀ d < 64, char d ≠ '=' := by decide

/-- What the decoder skips. -/
def isBreak (c : Char) : Bool := c == '\n' || c == '\r'

theorem isBreak_char : ∀ d < 64, isBreak (char d) = false := by decide

/-- The digits of up to three bytes. -/
def encode : List UInt8 → List Char
  | [] => []
  | [a] => [char (a.toNat / 4), char (a.toNat % 4 * 16), '=', '=']
  | [a, b] =>
      [char (a.toNat / 4), char (a.toNat % 4 * 16 + b.toNat / 16), char (b.toNat % 16 * 4), '=']
  | a :: b :: c :: rest =>
      char (a.toNat / 4) :: char (a.toNat % 4 * 16 + b.toNat / 16) ::
        char (b.toNat % 16 * 4 + c.toNat / 64) :: char (c.toNat % 64) :: encode rest

/-- The bytes of a quantum of four digits. -/
def quantum (x y z w : Nat) : List UInt8 :=
  let val := x * 2 ^ 18 + y * 2 ^ 12 + z * 2 ^ 6 + w
  [UInt8.ofNat (val / 2 ^ 16), UInt8.ofNat (val / 2 ^ 8), UInt8.ofNat val]

/-- Quantum by quantum; only the last one may be padded. -/
def decodeQuanta : List Char → Option (List UInt8)
  | [] => some []
  | a :: b :: c :: d :: rest => do
      let x ← digit a
      let y ← digit b
      if d = '=' ∧ rest = [] then
        if c = '=' then some ((quantum x y 0 0).take 1)
        else do
          let z ← digit c
          some ((quantum x y z 0).take 2)
      else do
        let z ← digit c
        let w ← digit d
        let bytes ← decodeQuanta rest
        some (quantum x y z w ++ bytes)
  | _ => none

def decode (s : List Char) : Option (List UInt8) := decodeQuanta (s.filter fun c => !isBreak c)

/-! ## What is encoded is decoded -/

theorem quantum_three (a b c : UInt8) :
    quantum (a.toNat / 4) (a.toNat % 4 * 16 + b.toNat / 16) (b.toNat % 16 * 4 + c.toNat / 64)
      (c.toNat % 64) = [a, b, c] := by
  have ha := a.toNat_lt
  have hb := b.toNat_lt
  have hc := c.toNat_lt
  simp only [quantum, List.cons.injEq, and_true, ← UInt8.toNat_inj, UInt8.toNat_ofNat']
  omega

theorem quantum_two (a b : UInt8) :
    (quantum (a.toNat / 4) (a.toNat % 4 * 16 + b.toNat / 16) (b.toNat % 16 * 4) 0).take 2
      = [a, b] := by
  have hthree := quantum_three a b 0
  rw [show (0 : UInt8).toNat = 0 from rfl] at hthree
  exact congrArg (List.take 2) hthree

theorem quantum_one (a : UInt8) :
    (quantum (a.toNat / 4) (a.toNat % 4 * 16) 0 0).take 1 = [a] := by
  have hthree := quantum_three a 0 0
  rw [show (0 : UInt8).toNat = 0 from rfl] at hthree
  exact congrArg (List.take 1) hthree

section Digits
variable (a b c : UInt8)

theorem first_lt : a.toNat / 4 < 64 := by
  have := a.toNat_lt
  omega

theorem second_lt : a.toNat % 4 * 16 + b.toNat / 16 < 64 := by
  have := b.toNat_lt
  omega

theorem third_lt : b.toNat % 16 * 4 + c.toNat / 64 < 64 := by
  have := c.toNat_lt
  omega

end Digits

theorem decodeQuanta_encode (l : List UInt8) : decodeQuanta (encode l) = some l := by
  fun_induction encode l with
  | case1 => rfl
  | case2 a =>
    have hy : a.toNat % 4 * 16 < 64 := by omega
    simp [decodeQuanta, digit_char _ (first_lt a), digit_char _ hy, quantum_one]
  | case3 a b =>
    have hz : b.toNat % 16 * 4 < 64 := by omega
    simp [decodeQuanta, digit_char _ (first_lt a), digit_char _ (second_lt a b), digit_char _ hz,
      char_ne_pad _ hz, quantum_two]
  | case4 a b c rest ih =>
    have hw : c.toNat % 64 < 64 := by omega
    simp [decodeQuanta, digit_char _ (first_lt a), digit_char _ (second_lt a b),
      digit_char _ (third_lt b c), digit_char _ hw, char_ne_pad _ hw, ih, quantum_three]

/-- The characters of an encoded text. -/
theorem mem_encode {l : List UInt8} {c : Char} (h : c ∈ encode l) :
    (∃ d < 64, c = char d) ∨ c = '=' := by
  fun_induction encode l with
  | case1 => cases h
  | case2 a =>
    have hy : a.toNat % 4 * 16 < 64 := by omega
    simp only [List.mem_cons, List.not_mem_nil, or_false] at h
    rcases h with rfl | rfl | rfl | rfl
    · exact .inl ⟨_, first_lt a, rfl⟩
    · exact .inl ⟨_, hy, rfl⟩
    · exact .inr rfl
    · exact .inr rfl
  | case3 a b =>
    have hz : b.toNat % 16 * 4 < 64 := by omega
    simp only [List.mem_cons, List.not_mem_nil, or_false] at h
    rcases h with rfl | rfl | rfl | rfl
    · exact .inl ⟨_, first_lt a, rfl⟩
    · exact .inl ⟨_, second_lt a b, rfl⟩
    · exact .inl ⟨_, hz, rfl⟩
    · exact .inr rfl
  | case4 a b d rest ih =>
    have hw : d.toNat % 64 < 64 := by omega
    simp only [List.mem_cons] at h
    rcases h with rfl | rfl | rfl | rfl | h
    · exact .inl ⟨_, first_lt a, rfl⟩
    · exact .inl ⟨_, second_lt a b, rfl⟩
    · exact .inl ⟨_, third_lt b d, rfl⟩
    · exact .inl ⟨_, hw, rfl⟩
    · exact ih h

theorem isBreak_encode {l : List UInt8} : ∀ c ∈ encode l, isBreak c = false := by
  intro c hc
  rcases mem_encode hc with ⟨d, hd, rfl⟩ | rfl
  · exact isBreak_char d hd
  · rfl

/-- **Round trip.** -/
theorem decode_encode (l : List UInt8) : decode (encode l) = some l := by
  have hfilter : (encode l).filter (fun c => !isBreak c) = encode l :=
    List.filter_eq_self.mpr fun c hc => by rw [isBreak_encode c hc]; rfl
  rw [decode, hfilter, decodeQuanta_encode]

/-! ## How long it is -/

/-- A quantum that is decoded is the padded last one, or a full one. -/
theorem decodeQuanta_cons {a b c d : Char} {rest : List Char} {l : List UInt8}
    (h : decodeQuanta (a :: b :: c :: d :: rest) = some l) :
    (rest = [] ∧ l.length ≤ 2) ∨ ∃ l', decodeQuanta rest = some l' ∧ l.length = l'.length + 3 := by
  unfold decodeQuanta at h
  obtain ⟨x, -, h⟩ := Option.bind_eq_some_iff.mp h
  obtain ⟨y, -, h⟩ := Option.bind_eq_some_iff.mp h
  split at h
  · next hlast =>
    refine .inl ⟨hlast.2, ?_⟩
    split at h
    · cases h
      simp [quantum]
    · obtain ⟨z, -, h⟩ := Option.bind_eq_some_iff.mp h
      cases h
      simp [quantum]
  · obtain ⟨z, -, h⟩ := Option.bind_eq_some_iff.mp h
    obtain ⟨w, -, h⟩ := Option.bind_eq_some_iff.mp h
    obtain ⟨l', hl', h⟩ := Option.bind_eq_some_iff.mp h
    cases h
    refine .inr ⟨l', hl', ?_⟩
    simp only [quantum, List.length_append, List.length_cons, List.length_nil]
    omega

theorem length_decodeQuanta {s : List Char} {l : List UInt8} (h : decodeQuanta s = some l) :
    4 * l.length ≤ 3 * s.length := by
  induction s using decodeQuanta.induct generalizing l with
  | case1 =>
    cases h
    simp
  | case2 a b c d rest ih =>
    simp only [List.length_cons]
    rcases decodeQuanta_cons h with ⟨-, hl⟩ | ⟨l', hl', hlen⟩
    · omega
    · have := ih hl'
      omega
  | case3 s hnil hcons =>
    rw [decodeQuanta.eq_3 s hnil hcons] at h
    cases h

/-- Four digits are three bytes. -/
theorem decodeQuanta_digits {s : List Char} (hs : ∀ c ∈ s, (digit c).isSome)
    (hlen : s.length % 4 = 0) : ∃ l, decodeQuanta s = some l ∧ 4 * l.length = 3 * s.length := by
  induction s using decodeQuanta.induct with
  | case1 => exact ⟨[], rfl, rfl⟩
  | case2 a b c d rest ih =>
    simp only [List.forall_mem_cons, Option.isSome_iff_exists] at hs
    obtain ⟨⟨x, hx⟩, ⟨y, hy⟩, ⟨z, hz⟩, ⟨w, hw⟩, hrest⟩ := hs
    simp only [List.length_cons] at hlen
    obtain ⟨l, hl, hll⟩ := ih (fun e he => Option.isSome_iff_exists.mpr (hrest e he)) (by omega)
    have hd : d ≠ '=' := by
      rintro rfl
      cases hw
    refine ⟨quantum x y z w ++ l, ?_, ?_⟩
    · simp [decodeQuanta, hx, hy, hz, hw, hd, hl]
    · simp only [quantum, List.length_append, List.length_cons, List.length_nil]
      omega
  | case3 s hnil hcons =>
    match s, hnil, hcons with
    | [], h, _ => exact absurd rfl h
    | [_], _, _ => simp at hlen
    | [_, _], _, _ => simp at hlen
    | [_, _, _], _, _ => simp at hlen
    | a :: b :: c :: d :: rest, _, h => exact absurd rfl (h a b c d rest)

theorem decode_digits {s : List Char} (hs : ∀ c ∈ s, (digit c).isSome)
    (hlen : s.length % 4 = 0) : ∃ l, decode s = some l ∧ 4 * l.length = 3 * s.length := by
  have hbreak : ∀ c, (digit c).isSome → isBreak c = false := by
    intro c hc
    have hn : c ≠ '\n' := by
      rintro rfl
      cases hc
    have hr : c ≠ '\r' := by
      rintro rfl
      cases hc
    simp [isBreak, hn, hr]
  have hfilter : s.filter (fun c => !isBreak c) = s :=
    List.filter_eq_self.mpr fun c hc => by rw [hbreak c (hs c hc)]; rfl
  rw [decode, hfilter]
  exact decodeQuanta_digits hs hlen

/-- **At most three bytes for four characters.** -/
theorem length_decode {s : List Char} {l : List UInt8} (h : decode s = some l) :
    4 * l.length ≤ 3 * s.length := by
  have hle := length_decodeQuanta h
  have := List.length_filter_le (fun c => !isBreak c) s
  omega

end Base64

import Takl.Daemon.Text
import Takl.Lib.Base64
import Takl.Model.Domain

/-!
# The gossip key (`internal/membership/cluster.go`, `cmd/taklctl/main.go`)

`taklctl keygen gossip` prints a key as Base64 text, and `parseSecretKey`
reads it from the configuration: blanks around it are dropped, the text is
decoded if that gives a key of a length AES has, and else taken as it is.

A text that is both is decoded. A key of 16 bytes is never taken for one; a
passphrase of 32 letters and digits always is, as 24 bytes.
-/

namespace Takl

namespace Gossip

open Daemon (trimSpace isSpace trimSpace_blanks)
open EscapeFree (bytes)

/-- `validSecretKeyLen`. -/
def validSecretKeyLen (n : Nat) : Bool := n == 16 || n == 24 || n == 32

/-- `parseSecretKey`; the nil key is `none`. -/
def parseSecretKey (raw : String) : Except String (Option Bytes) :=
  let v := trimSpace raw
  if v = "" then .ok none
  else
    let plain := bytes v
    let rest : Except String (Option Bytes) :=
      if validSecretKeyLen plain.length then .ok (some plain)
      else .error ("invalid gossip key length " ++ toString plain.length ++
        ", expected 16, 24, or 32 bytes (raw or base64)")
    match Base64.decode v.toList with
    | some decoded => if validSecretKeyLen decoded.length then .ok (some decoded) else rest
    | none => rest

/-- The `SecretKey` that `NewCluster` sets, if it gets that far. -/
def clusterKey (gossipKey : String) : Except String (Option Bytes) :=
  if gossipKey ≠ "" then parseSecretKey gossipKey else .ok none

/-- What `runKeygen` prints for the bytes it has drawn. -/
def keygenText (b : Bytes) : String := String.ofList (Base64.encode b)

/-! ## What is accepted -/

/-- The text decodes to `k`, a key. -/
def DecodesTo (v : String) (k : Bytes) : Prop :=
  Base64.decode v.toList = some k ∧ validSecretKeyLen k.length = true

theorem parseSecretKey_blank {raw : String} (h : trimSpace raw = "") :
    parseSecretKey raw = .ok none := by
  simp [parseSecretKey, h]

theorem parseSecretKey_of_decodes {raw : String} {k : Bytes} (h : DecodesTo (trimSpace raw) k) :
    parseSecretKey raw = .ok (some k) := by
  have hne : trimSpace raw ≠ "" := by
    intro he
    obtain ⟨hdec, hvalid⟩ := h
    rw [he] at hdec
    cases hdec
    cases hvalid
  simp [parseSecretKey, hne, h.1, h.2]

theorem parseSecretKey_of_not_decodes {raw : String} (hne : trimSpace raw ≠ "")
    (h : ∀ k, ¬DecodesTo (trimSpace raw) k) :
    parseSecretKey raw = if validSecretKeyLen (bytes (trimSpace raw)).length then
      .ok (some (bytes (trimSpace raw)))
    else .error ("invalid gossip key length " ++ toString (bytes (trimSpace raw)).length ++
      ", expected 16, 24, or 32 bytes (raw or base64)") := by
  simp only [parseSecretKey, hne, if_false]
  split
  · next k hk =>
    rw [if_neg fun hvalid => h k ⟨hk, hvalid⟩]
  · rfl

/-! ## From `keygen` to the configuration -/

theorem isSpace_char : ∀ d < 64, isSpace (Base64.char d) = false := by decide

theorem isSpace_encode {b : Bytes} : ∀ c ∈ Base64.encode b, isSpace c = false := by
  have hpad : isSpace '=' = false := by decide
  intro c hc
  rcases Base64.mem_encode hc with ⟨d, hd, rfl⟩ | rfl
  · exact isSpace_char d hd
  · exact hpad

/-- The test for an empty key changes nothing. -/
theorem clusterKey_eq (gossipKey : String) : clusterKey gossipKey = parseSecretKey gossipKey := by
  unfold clusterKey
  split
  · rfl
  · next h =>
    rw [not_not.mp h]
    exact (parseSecretKey_blank (by decide)).symm

/-- **A generated key arrives.** Whatever blanks the text has picked up on its
way into the configuration, the key is the bytes that were drawn. -/
theorem generated_key_arrives {b : Bytes} (hb : validSecretKeyLen b.length = true)
    {l r : List Char} (hl : ∀ c ∈ l, isSpace c = true) (hr : ∀ c ∈ r, isSpace c = true) :
    clusterKey (String.ofList (l ++ ((keygenText b).toList ++ r))) = .ok (some b) := by
  have hne : Base64.encode b ≠ [] := by
    intro hnil
    have hdec := Base64.decode_encode b
    rw [hnil] at hdec
    cases hdec
    cases hb
  have htrim := trimSpace_blanks hl hr isSpace_encode hne
  rw [clusterKey_eq, keygenText, String.toList_ofList]
  refine parseSecretKey_of_decodes ⟨?_, hb⟩
  rw [htrim, String.toList_ofList, Base64.decode_encode]

/-- A key of 32 zero bytes, on a line of its own. -/
theorem zero_key_arrives : validSecretKeyLen (List.replicate 32 (0 : UInt8)).length = true ∧
    clusterKey (String.ofList ([' '] ++ ((keygenText (List.replicate 32 0)).toList ++ ['\n']))) =
      .ok (some (List.replicate 32 0)) :=
  ⟨by decide, generated_key_arrives (by decide) (List.all_eq_true.mp (by decide))
    (List.all_eq_true.mp (by decide))⟩

/-! ## Keys that are not encoded -/

theorem length_le_bytes (v : String) : v.toList.length ≤ (bytes v).length := by
  have hlen : (bytes v).length = v.utf8ByteSize := rfl
  rw [hlen, ← String.utf8Len_toList]
  generalize v.toList = l
  induction l with
  | nil => simp
  | cons c l ih =>
    have := c.utf8Size_pos
    simp only [List.length_cons, String.utf8Len_cons]
    omega

/-- A decoded key is shorter than its text. -/
theorem DecodesTo.length_lt {v : String} {k : Bytes} (h : DecodesTo v k) :
    4 * k.length ≤ 3 * (bytes v).length := by
  have := Base64.length_decode h.1
  have := length_le_bytes v
  omega

/-- **Which raw keys are taken as they are.** A text of a key's length is the
key itself, unless it decodes to a key: then it is that one, which is shorter.
A text of 16 bytes never does; one of 32 characters of the alphabet always
does, to 24 bytes. -/
theorem raw_key_taken_iff {raw : String}
    (hraw : validSecretKeyLen (bytes (trimSpace raw)).length = true) :
    (parseSecretKey raw = .ok (some (bytes (trimSpace raw))) ↔
        ∀ k, ¬DecodesTo (trimSpace raw) k) ∧
      ((bytes (trimSpace raw)).length = 16 →
        parseSecretKey raw = .ok (some (bytes (trimSpace raw)))) ∧
      ((trimSpace raw).toList.length = 32 →
        (∀ c ∈ (trimSpace raw).toList, (Base64.digit c).isSome) →
        ∃ k, parseSecretKey raw = .ok (some k) ∧ k.length = 24) := by
  have hne : trimSpace raw ≠ "" := by
    intro he
    rw [he] at hraw
    exact absurd hraw (by decide)
  have hkept : parseSecretKey raw = .ok (some (bytes (trimSpace raw))) ↔
      ∀ k, ¬DecodesTo (trimSpace raw) k := by
    constructor
    · intro hok k hk
      rw [parseSecretKey_of_decodes hk] at hok
      have hlen := hk.length_lt
      have hvalid := hk.2
      cases hok
      simp only [validSecretKeyLen, Bool.or_eq_true, beq_iff_eq] at hvalid
      omega
    · intro hno
      rw [parseSecretKey_of_not_decodes hne hno, if_pos hraw]
  refine ⟨hkept, fun h16 => hkept.mpr fun k hk => ?_, fun h32 hall => ?_⟩
  · have hlen := hk.length_lt
    have hvalid := hk.2
    simp only [validSecretKeyLen, Bool.or_eq_true, beq_iff_eq] at hvalid
    omega
  · obtain ⟨k, hdec, hlen⟩ := Base64.decode_digits hall (by omega)
    have h24 : k.length = 24 := by omega
    exact ⟨k, parseSecretKey_of_decodes ⟨hdec, by rw [h24]; decide⟩, h24⟩

/-- Letters and digits that were meant as 32 bytes. -/
def passphrase : String := "correct0horse1battery2staple3abc"

theorem passphrase_decoded : validSecretKeyLen (bytes (trimSpace passphrase)).length = true ∧
    ∃ k, parseSecretKey passphrase = .ok (some k) ∧ k.length = 24 := by
  have hraw : validSecretKeyLen (bytes (trimSpace passphrase)).length = true := by decide +kernel
  exact ⟨hraw, (raw_key_taken_iff hraw).2.2 (by decide +kernel)
    (List.all_eq_true.mp (by decide +kernel))⟩

/-! ## What a key that is set is -/

/-- A key that is set is one AES has. -/
theorem valid_of_parseSecretKey {raw : String} {k : Bytes}
    (h : parseSecretKey raw = .ok (some k)) : validSecretKeyLen k.length = true := by
  by_cases hne : trimSpace raw = ""
  · rw [parseSecretKey_blank hne] at h
    cases h
  by_cases hdec : ∃ d, DecodesTo (trimSpace raw) d
  · obtain ⟨d, hd⟩ := hdec
    rw [parseSecretKey_of_decodes hd] at h
    cases h
    exact hd.2
  · rw [parseSecretKey_of_not_decodes hne fun d hd => hdec ⟨d, hd⟩] at h
    split at h
    · next hvalid =>
      cases h
      exact hvalid
    · cases h

/-- No key is set for a blank text only. -/
theorem blank_of_parseSecretKey {raw : String} (h : parseSecretKey raw = .ok none) :
    trimSpace raw = "" := by
  by_contra hne
  by_cases hdec : ∃ d, DecodesTo (trimSpace raw) d
  · obtain ⟨d, hd⟩ := hdec
    rw [parseSecretKey_of_decodes hd] at h
    cases h
  · rw [parseSecretKey_of_not_decodes hne fun d hd => hdec ⟨d, hd⟩] at h
    split at h <;> cases h

end Gossip

end Takl

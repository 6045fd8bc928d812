import Mathlib.Data.List.Induction
import Takl.Model.Domain

/-!
# Label maps

What the API does with a `map[string]string`, and what it needs of
`encoding/json` for it.

A Go map has no order, so two maps are compared by their entries (`Same`).
The label endpoints only ever write one map over another (`update`), and a
sequence of such writes is read off from the right: the last one that has a
key decides it.

`Env.LabelsReadBack` is the documented behaviour of `json.Unmarshal` on what
`json.Marshal` wrote. `Env.escaping` is an environment that has it for every
map.
-/

namespace Takl

namespace Labels

/-- The two maps have the same entries. -/
def Same (l l' : Labels) : Prop := ∀ k, l.get k = l'.get k

theorem Same.refl (l : Labels) : Same l l := fun _ => rfl

theorem Same.symm {l l' : Labels} (h : Same l l') : Same l' l := fun k => (h k).symm

theorem Same.trans {l l' l'' : Labels} (h : Same l l') (h' : Same l' l'') : Same l l'' :=
  fun k => (h k).trans (h' k)

/-- `for k, v := range body { l[k] = v }`; a nil `body` has nothing to visit. -/
def update (l : Labels) (body : Option Labels) : Labels := l.setAll (body.getD .empty)

/-- The entry a possibly nil map has for a key. -/
def entry (body : Option Labels) (k : String) : Option (String × String) :=
  body.bind fun l => l.get k

theorem get_getD_empty (body : Option Labels) (k : String) :
    (body.getD .empty).get k = entry body k := by
  cases body <;> rfl

theorem get_setAll (l incoming : Labels) (k : String) :
    (l.setAll incoming).get k = (incoming.get k).or (l.get k) :=
  KeyedTable.get_foldl_upsert incoming.nodup l k

theorem get_update (l : Labels) (body : Option Labels) (k : String) :
    (l.update body).get k = (entry body k).or (l.get k) := by
  rw [update, get_setAll]
  cases body <;> rfl

theorem Same.setAll {l l' incoming incoming' : Labels} (h : Same l l')
    (hinc : Same incoming incoming') : Same (l.setAll incoming) (l'.setAll incoming') := by
  intro k
  rw [get_setAll, get_setAll, h k, hinc k]

theorem Same.update {l l' : Labels} (h : Same l l') (body : Option Labels) :
    Same (l.update body) (l'.update body) := h.setAll (.refl _)

theorem empty_setAll (l : Labels) : Same (setAll .empty l) l := by
  intro k
  rw [get_setAll]
  cases l.get k <;> rfl

/-! ## One body after the other -/

/-- The bodies written over `l`, left to right. -/
def updateAll (l : Labels) (bodies : List (Option Labels)) : Labels := bodies.foldl update l

theorem updateAll_append (l : Labels) (bodies : List (Option Labels)) (body : Option Labels) :
    l.updateAll (bodies ++ [body]) = (l.updateAll bodies).update body := by
  simp [updateAll]

/-- No key is dropped. -/
theorem updateAll_has {l : Labels} {bodies : List (Option Labels)} {k : String}
    (h : l.get k ≠ none ∨ ∃ body ∈ bodies, entry body k ≠ none) :
    (l.updateAll bodies).get k ≠ none := by
  induction bodies using List.reverseRecOn with
  | nil => simpa [updateAll] using h
  | append_singleton bodies body ih =>
    rw [updateAll_append, get_update]
    intro hnone
    obtain ⟨hbody, hprev⟩ := Option.or_eq_none_iff.mp hnone
    refine ih ?_ hprev
    rcases h with h | ⟨b, hb, hk⟩
    · exact .inl h
    · rcases List.mem_append.mp hb with hb | hb
      · exact .inr ⟨b, hb, hk⟩
      · exact absurd (List.mem_singleton.mp hb ▸ hbody) hk

/-- Where an entry comes from. -/
theorem updateAll_origin {l : Labels} {bodies : List (Option Labels)} {k : String}
    {e : String × String} (h : (l.updateAll bodies).get k = some e) :
    (∃ body ∈ bodies, entry body k = some e) ∨
      (l.get k = some e ∧ ∀ body ∈ bodies, entry body k = none) := by
  induction bodies using List.reverseRecOn with
  | nil => exact .inr ⟨h, by simp⟩
  | append_singleton bodies body ih =>
    rw [updateAll_append, get_update] at h
    cases hbody : entry body k with
    | some e' =>
      rw [hbody, Option.some_or] at h
      exact .inl ⟨body, by simp, hbody.trans h⟩
    | none =>
      rw [hbody, Option.none_or] at h
      rcases ih h with ⟨b, hb, hk⟩ | ⟨hl, hall⟩
      · exact .inl ⟨b, List.mem_append_left _ hb, hk⟩
      · refine .inr ⟨hl, fun b hb => ?_⟩
        rcases List.mem_append.mp hb with hb | hb
        · exact hall b hb
        · exact List.mem_singleton.mp hb ▸ hbody

end Labels

/-! ## Marshalled and read back -/

/-- `json.Unmarshal` of a marshalled map sets its entries in the map it is
given, or in a new one if that is nil. -/
def Env.LabelsReadBack (E : Env) : Prop :=
  ∀ (start : Option Labels) (l : Labels), ∃ l',
    E.decodeLabels start (some (E.encodeLabels (some l))) = (some l', true) ∧
      l'.Same ((start.getD .empty).setAll l)

/-! ## An environment with escapes

The label maps of `Env.escaping` are written as `encoding/json` writes them,
as long as no string holds `<`, `>`, `&`, a line separator or a control
character other than the three below; everything else is `Env.escapeFree`. -/

namespace Escaping

open EscapeFree (bytes pairs bytes_ne_nil)

def escape (c : Char) : List Char :=
  if c = '"' then ['\\', '"']
  else if c = '\\' then ['\\', '\\']
  else if c = '\n' then ['\\', 'n']
  else if c = '\r' then ['\\', 'r']
  else if c = '\t' then ['\\', 't']
  else [c]

def unescape (c : Char) : Char :=
  if c = 'n' then '\n' else if c = 'r' then '\r' else if c = 't' then '\t' else c

def quote (s : String) : List Char := '"' :: (s.toList.flatMap escape ++ ['"'])

def entryText (e : String × String) : List Char := quote e.1 ++ ':' :: quote e.2

def entriesText : List (String × String) → List Char
  | [] => []
  | e :: es => entryText e ++ es.flatMap fun e => ',' :: entryText e

def labelsText : Option Labels → String
  | none => "null"
  | some l => String.ofList <|
      '\x7b' :: (entriesText (l.rows.insertionSort fun a b => a.1 ≤ b.1) ++ ['\x7d'])

/-- The strings of a text; `acc` collects the characters of an open one. -/
def strings : Option (List Char) → List Char → List String
  | _, [] => []
  | none, c :: cs => if c = '"' then strings (some []) cs else strings none cs
  | some acc, c :: cs =>
      if c = '"' then String.ofList acc.reverse :: strings none cs
      else if c = '\\' then
        match cs with
        | [] => []
        | d :: cs => strings (some (unescape d :: acc)) cs
      else strings (some (c :: acc)) cs

def readLabels (start : Option Labels) : Option Bytes → Option Labels × Bool
  | none => (start, false)
  | some b =>
      match String.fromUTF8? ⟨b.toArray⟩ with
      | some text =>
          if text = "null" then (none, true)
          else (some ((pairs (strings none text.toList)).foldl KeyedTable.upsert
            (start.getD .empty)), true)
      | none => (start, false)

@[simp] theorem strings_open (cs : List Char) :
    strings none ('"' :: cs) = strings (some []) cs := by
  rw [strings, if_pos rfl]

@[simp] theorem strings_skip {c : Char} (h : c ≠ '"') (cs : List Char) :
    strings none (c :: cs) = strings none cs := by
  rw [strings, if_neg h]

@[simp] theorem strings_close (acc cs : List Char) :
    strings (some acc) ('"' :: cs) = String.ofList acc.reverse :: strings none cs := by
  cases cs <;> simp [strings]

@[simp] theorem strings_escape (acc : List Char) (d : Char) (cs : List Char) :
    strings (some acc) ('\\' :: d :: cs) = strings (some (unescape d :: acc)) cs := by
  simp [strings]

@[simp] theorem strings_char {c : Char} (hq : c ≠ '"') (hb : c ≠ '\\') (acc cs : List Char) :
    strings (some acc) (c :: cs) = strings (some (c :: acc)) cs := by
  cases cs <;> simp [strings, hq, hb]

/-- A string is read up to its closing quote. -/
theorem strings_escaped (cs acc rest : List Char) :
    strings (some acc) (cs.flatMap escape ++ '"' :: rest) =
      String.ofList (acc.reverse ++ cs) :: strings none rest := by
  induction cs generalizing acc with
  | nil => simp
  | cons c cs ih =>
    have hstep (tail : List Char) :
        strings (some acc) (escape c ++ tail) = strings (some (c :: acc)) tail := by
      simp only [escape]
      split_ifs <;> simp_all [unescape]
    rw [List.flatMap_cons, List.append_assoc, hstep, ih]
    simp

theorem strings_quote (s : String) (rest : List Char) :
    strings none (quote s ++ rest) = s :: strings none rest := by
  have h := strings_escaped s.toList [] rest
  simpa [quote] using h

theorem strings_entryText (e : String × String) (rest : List Char) :
    strings none (entryText e ++ rest) = e.1 :: e.2 :: strings none rest := by
  rw [entryText, List.append_assoc, strings_quote, List.cons_append,
    strings_skip (by decide), strings_quote]

theorem strings_more (es : List (String × String)) (rest : List Char) :
    strings none ((es.flatMap fun e => ',' :: entryText e) ++ rest) =
      (es.flatMap fun e => [e.1, e.2]) ++ strings none rest := by
  induction es with
  | nil => rfl
  | cons e es ih =>
    rw [List.flatMap_cons, List.append_assoc, List.cons_append, strings_skip (by decide),
      strings_entryText, ih]
    rfl

theorem strings_entriesText (es : List (String × String)) (rest : List Char) :
    strings none (entriesText es ++ rest) =
      (es.flatMap fun e => [e.1, e.2]) ++ strings none rest := by
  cases es with
  | nil => rfl
  | cons e es =>
    rw [entriesText, List.append_assoc, strings_entryText, strings_more]
    rfl

theorem pairs_flatMap (es : List (String × String)) :
    pairs (es.flatMap fun e => [e.1, e.2]) = es := by
  induction es with
  | nil => rfl
  | cons e es ih => simp [pairs, ih]

/-- The entries of a text are those it was written from. -/
theorem pairs_labelsText (l : Labels) :
    pairs (strings none (labelsText (some l)).toList) =
      l.rows.insertionSort fun a b => a.1 ≤ b.1 := by
  rw [labelsText, String.toList_ofList, strings_skip (by decide), strings_entriesText]
  simpa [strings] using pairs_flatMap _

theorem fromUTF8_bytes (s : String) : String.fromUTF8? ⟨(bytes s).toArray⟩ = some s := by
  have h : (⟨(bytes s).toArray⟩ : ByteArray) = s.toUTF8 := by simp [bytes]
  rw [h]
  simp only [String.fromUTF8?]
  exact dif_pos s.isValidUTF8

theorem labelsText_ne (l : Labels) : labelsText (some l) ≠ "null" := by
  intro h
  have := congrArg (fun s => s.toList.head?) h
  simp [labelsText] at this

end Escaping

open Escaping EscapeFree in
def Env.escaping : Env :=
  { Env.escapeFree with
    encodeLabels := fun l => bytes (Escaping.labelsText l)
    decodeLabels := Escaping.readLabels
    encodeLabels_ne_nil := by
      intro l
      cases l with
      | none => exact bytes_ne_nil (by decide)
      | some l => exact bytes_ne_nil (by simp [Escaping.labelsText]) }

/-- **Every label map written with escapes reads back.** -/
theorem Env.escaping_labelsReadBack : Env.escaping.LabelsReadBack := by
  intro start l
  let sorted := l.rows.insertionSort fun a b => a.1 ≤ b.1
  have hperm : sorted.Perm l.rows := List.perm_insertionSort _ _
  let l' : Labels := ⟨sorted, (hperm.map Prod.fst).nodup_iff.mpr l.nodup⟩
  refine ⟨(start.getD .empty).setAll l', ?_, ?_⟩
  · simp only [Env.escaping, Escaping.readLabels, Escaping.fromUTF8_bytes,
      if_neg (Escaping.labelsText_ne l), Escaping.pairs_labelsText]
    rfl
  · exact .setAll (.refl _) fun k => KeyedTable.get_eq_of_mem_iff (fun x => hperm.mem_iff) k

end Takl

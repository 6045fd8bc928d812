import Mathlib.Logic.Basic

/-!
# Request routing by patterns

The routing of Go's `http.ServeMux` for patterns with a method and without a
host. A path is its list of segments, cleaned and unescaped; one that ends in a
slash has a last segment `"/"`. A pattern segment is a literal, a wildcard for
one segment, or, at the end, one for everything that follows.

The tree of patterns is searched segment by segment, literals before wildcards
(`matchPath`). Which pattern it finds is not said by the order in which they
were registered; that it finds one exactly if one matches, and then one that
does, is `matchPath_sound` and `matchPath_complete`.
-/

namespace ServeMux

/-- A segment of a pattern. -/
inductive Seg where
  | lit (s : String)
  /-- `{name}` -/
  | wild
  /-- What a slash at the end of a pattern stands for. -/
  | rest
  deriving DecidableEq, Repr

/-- A registered pattern. -/
structure Route (η : Type) where
  method : String
  pattern : List Seg
  handler : η
  deriving DecidableEq, Repr

variable {η : Type}

/-- A node of the tree: the routes below it, with what is left of their
patterns. -/
abbrev Branch (η : Type) := List (List Seg × Route η)

/-- The child for a segment. -/
def child (seg : Seg) (b : Branch η) : Branch η :=
  b.filterMap fun
    | (s :: p, r) => if s = seg then some (p, r) else none
    | ([], _) => none

/-- The pattern that ends at a node. -/
def leaf (b : Branch η) : Option (Route η) := (b.find? fun e => e.1.isEmpty).map Prod.snd

/-- `routingNode.matchPath`, with the values of the wildcards. -/
def matchPath : List String → Branch η → Option (Route η × List String)
  | [], b => (leaf b).map fun r => (r, [])
  | s :: path, b =>
      (matchPath path (child (.lit s) b)).or
        (((if s = "/" then none else matchPath path (child .wild b)).map fun x =>
            (x.1, s :: x.2)).or
          ((leaf (child .rest b)).map fun r => (r, [])))

/-- The routes of a method. -/
def ofMethod (method : String) (routes : List (Route η)) : Branch η :=
  (routes.filter fun r => r.method = method).map fun r => (r.pattern, r)

/-- `routingNode.matchMethodAndPath`: `GET` patterns also match `HEAD`. -/
def matchMethodAndPath (routes : List (Route η)) (method : String) (path : List String) :
    Option (Route η × List String) :=
  (matchPath path (ofMethod method routes)).or
    (if method = "HEAD" then matchPath path (ofMethod "GET" routes) else none)

/-- What becomes of a request. -/
inductive Found (η : Type) where
  | handler (h : η) (values : List String)
  /-- To the same path with a slash at its end. -/
  | redirect
  | methodNotAllowed (allow : List String)
  | notFound

/-- `matchOrRedirect` when nothing matches: the path is a subtree's but for
the slash. -/
def redirects (routes : List (Route η)) (method : String) (path : List String) : Bool :=
  path.getLast? ≠ some "/" &&
    (matchMethodAndPath routes method (path ++ ["/"])).any fun x =>
      x.1.pattern.length = path.length + 1

/-- `matchingMethods`, before they are sorted. -/
def matchingMethods (routes : List (Route η)) (path : List String) : List String :=
  let found := (routes.map Route.method).eraseDups.filter fun m =>
    (matchPath path (ofMethod m routes)).isSome ||
      (path.getLast? ≠ some "/" && (matchPath (path ++ ["/"]) (ofMethod m routes)).isSome)
  if "GET" ∈ found then "HEAD" :: found else found

/-- `ServeMux.findHandler`. -/
def findHandler (routes : List (Route η)) (method : String) (path : List String) : Found η :=
  match matchMethodAndPath routes method path with
  | some (r, values) => .handler r.handler values
  | none =>
      if redirects routes method path then .redirect
      else match matchingMethods routes path with
        | [] => .notFound
        | allow => .methodNotAllowed (allow.mergeSort fun a b => decide (a ≤ b))

/-! ## What is found -/

/-- The pattern matches the path, with these values. -/
inductive Matches : List Seg → List String → List String → Prop
  | nil : Matches [] [] []
  | lit {p : List Seg} {path values : List String} (s : String) :
      Matches p path values → Matches (.lit s :: p) (s :: path) values
  | wild {p : List Seg} {path values : List String} {s : String} (hs : s ≠ "/") :
      Matches p path values → Matches (.wild :: p) (s :: path) (s :: values)
  | rest (s : String) (path : List String) : Matches [.rest] (s :: path) []

theorem mem_child {seg : Seg} {b : Branch η} {p : List Seg} {r : Route η} :
    (p, r) ∈ child seg b ↔ (seg :: p, r) ∈ b := by
  simp only [child, List.mem_filterMap]
  constructor
  · rintro ⟨⟨q, r'⟩, hmem, hsome⟩
    cases q with
    | nil => cases hsome
    | cons s q =>
      simp only at hsome
      split at hsome
      · next hs =>
        cases hsome
        exact hs ▸ hmem
      · cases hsome
  · intro hmem
    exact ⟨_, hmem, if_pos rfl⟩

theorem leaf_sound {b : Branch η} {r : Route η} (h : leaf b = some r) : ([], r) ∈ b := by
  obtain ⟨⟨p, r'⟩, hfind, rfl⟩ := Option.map_eq_some_iff.mp h
  have hnil : p = [] := by simpa using List.find?_some hfind
  subst hnil
  exact List.mem_of_find?_eq_some hfind

theorem leaf_complete {b : Branch η} {r : Route η} (h : ([], r) ∈ b) : (leaf b).isSome := by
  rw [leaf, Option.isSome_map, List.find?_isSome]
  exact ⟨_, h, rfl⟩

/-- **What is found matches.** -/
theorem matchPath_sound {path : List String} {b : Branch η} {r : Route η} {values : List String}
    (h : matchPath path b = some (r, values)) : ∃ p, (p, r) ∈ b ∧ Matches p path values := by
  induction path generalizing b values with
  | nil =>
    obtain ⟨r', hr', he⟩ := Option.map_eq_some_iff.mp h
    cases he
    exact ⟨[], leaf_sound hr', .nil⟩
  | cons s path ih =>
    rw [matchPath] at h
    rcases Option.or_eq_some_iff.mp h with hlit | ⟨-, h⟩
    · obtain ⟨p, hp, hm⟩ := ih hlit
      exact ⟨_, mem_child.mp hp, .lit s hm⟩
    rcases Option.or_eq_some_iff.mp h with hwild | ⟨-, hrest⟩
    · obtain ⟨⟨r', values'⟩, hx, he⟩ := Option.map_eq_some_iff.mp hwild
      cases he
      split at hx
      · cases hx
      · next hs =>
        obtain ⟨p, hp, hm⟩ := ih hx
        exact ⟨_, mem_child.mp hp, .wild hs hm⟩
    · obtain ⟨r', hr', he⟩ := Option.map_eq_some_iff.mp hrest
      cases he
      exact ⟨_, mem_child.mp (leaf_sound hr'), .rest s path⟩

/-- **If a pattern matches, one is found.** -/
theorem matchPath_complete {p : List Seg} {path values : List String} (hm : Matches p path values)
    {b : Branch η} {r : Route η} (h : (p, r) ∈ b) : (matchPath path b).isSome := by
  induction hm generalizing b with
  | nil => simpa [matchPath] using leaf_complete h
  | lit s _ ih =>
    have := ih (mem_child.mpr h)
    simp [matchPath, this]
  | wild hs _ ih =>
    have := ih (mem_child.mpr h)
    simp [matchPath, hs, this]
  | rest s path =>
    have := leaf_complete (mem_child.mpr h)
    simp [matchPath, this]

/-- A handler is reached by a request that one of its patterns matches. -/
theorem findHandler_sound {routes : List (Route η)} {method : String} {path : List String} {h : η}
    {values : List String} (hf : findHandler routes method path = .handler h values) :
    ∃ r ∈ routes, r.handler = h ∧ (method = r.method ∨ method = "HEAD" ∧ r.method = "GET") ∧
      Matches r.pattern path values := by
  have hof : ∀ {m r vs}, matchPath path (ofMethod m routes) = some (r, vs) →
      r ∈ routes ∧ r.method = m ∧ Matches r.pattern path vs := by
    intro m r vs hmatch
    obtain ⟨p, hp, hm⟩ := matchPath_sound hmatch
    obtain ⟨r', hr', he⟩ := List.mem_map.mp hp
    cases he
    obtain ⟨hmem, hmethod⟩ := List.mem_filter.mp hr'
    exact ⟨hmem, by simpa using hmethod, hm⟩
  unfold findHandler at hf
  split at hf
  · next r vs hmatch =>
    cases hf
    rcases Option.or_eq_some_iff.mp hmatch with hmatch | ⟨-, hmatch⟩
    · obtain ⟨hmem, hmethod, hm⟩ := hof hmatch
      exact ⟨r, hmem, rfl, .inl hmethod.symm, hm⟩
    · split at hmatch
      · next hhead =>
        obtain ⟨hmem, hmethod, hm⟩ := hof hmatch
        exact ⟨r, hmem, rfl, .inr ⟨hhead, hmethod⟩, hm⟩
      · cases hmatch
  · split at hf
    · cases hf
    · split at hf <;> cases hf

/-- A request that a pattern matches reaches a handler. -/
theorem findHandler_complete {routes : List (Route η)} {r : Route η} (hr : r ∈ routes)
    {path values : List String} (hm : Matches r.pattern path values) :
    ∃ h vs, findHandler routes r.method path = .handler h vs := by
  have hmem : (r.pattern, r) ∈ ofMethod r.method routes :=
    List.mem_map.mpr ⟨r, List.mem_filter.mpr ⟨hr, by simp⟩, rfl⟩
  obtain ⟨⟨r', vs⟩, hfound⟩ := Option.isSome_iff_exists.mp (matchPath_complete hm hmem)
  have hmatch : matchMethodAndPath routes r.method path = some (r', vs) := by
    rw [matchMethodAndPath, hfound, Option.some_or]
  exact ⟨r'.handler, vs, by simp only [findHandler, hmatch]⟩

end ServeMux

/-
Paths.

A path is a text, and is kept as it was written; what it means are its components. Empty segments
between slashes mean nothing, nor does a `.`, except that a path that starts with `.` says so. Paths
are the same when their components are (`Path.same`), so `/a//b` and `/a/./b/` are the same path and
`./a` and `a` are not; `..` is not resolved.

`Path.parent?` cuts the last component off the text, with the slashes and dots before it, and leaves
the rest of the text as it is; the result is shorter (`parent?_length_lt`), so a path has finitely
many ancestors.

Names are Unicode text. A file system may hold others, made of any bytes, which there is no path for here; so to
print a path, or to match it against a pattern, loses nothing of it.
-/
import LineEndings.Text.Split

namespace LineEndings

/-- What a segment of a path says. -/
inductive Component where
  /-- The top, which a leading slash stands for. -/
  | root
  /-- A leading `.`. -/
  | current
  /-- `..`. -/
  | parent
  /-- The name of a file or directory. -/
  | name (s : String)
  deriving Repr, DecidableEq

/-- A path as it was written. -/
structure Path where
  text : String
  deriving Repr, DecidableEq

namespace Path

/-! ### Components -/

/-- What a segment says that is not the first; nothing for an empty one and for `.`. -/
def ofSegment? : List Char → Option Component
  | [] => none
  | ['.'] => none
  | ['.', '.'] => some .parent
  | segment => some (.name (String.ofList segment))

/-- The components of a text that has been cut at its slashes. -/
def componentsOf : List (List Char) → List Component
  | [] :: segment :: rest => .root :: (segment :: rest).filterMap ofSegment?
  | ['.'] :: rest => .current :: rest.filterMap ofSegment?
  | segments => segments.filterMap ofSegment?

/-- The components of a path. -/
def components (p : Path) : List Component :=
  componentsOf (Text.pieces '/' p.text.toList)

/-- Whether two paths have the same components. -/
def same (p q : Path) : Bool :=
  p.components == q.components

/-- Whether a path starts at the top. -/
def isAbsolute (p : Path) : Bool :=
  p.text.toList.head? == some '/'

/-- The text of a component. -/
def componentText : Component → List Char
  | .root => ['/']
  | .current => ['.']
  | .parent => ['.', '.']
  | .name s => s.toList

/-- The path that components spell out with no segment to spare. -/
def ofComponents : List Component → Path
  | .root :: rest => ⟨String.ofList ('/' :: Text.joined '/' (rest.map componentText))⟩
  | components => ⟨String.ofList (Text.joined '/' (components.map componentText))⟩

/-! ### Joining -/

/-- `q` as seen from `p`: an absolute path is itself, another is appended, with a slash in between
where one is missing. -/
def join (p q : Path) : Path :=
  if q.isAbsolute then q
  else if p.text.isEmpty || p.text.toList.getLast? == some '/' then ⟨p.text ++ q.text⟩
  else ⟨p.text ++ "/" ++ q.text⟩

/-! ### Parents -/

/-- Whether a segment means nothing. -/
def isIdle (segment : List Char) : Bool :=
  segment == [] || segment == ['.']

/-- Segments without the idle ones at the end. -/
def stripIdle (segments : List (List Char)) : List (List Char) :=
  (segments.reverse.dropWhile isIdle).reverse

/-- The slash or the dot that a text starts with, if it is a component, and the text after it. -/
def splitLead : List Char → List Char × List Char
  | '/' :: body => (['/'], body)
  | ['.'] => (['.'], [])
  | '.' :: '/' :: body => (['.'], '/' :: body)
  | text => ([], text)

/-- The text of the parent; the top and the empty path have none. -/
def parentText? (text : List Char) : Option (List Char) :=
  let (lead, body) := splitLead text
  match stripIdle (Text.pieces '/' body) with
  | [] => if lead = ['.'] then some [] else none
  | segments => some (lead ++ Text.joined '/' (stripIdle segments.dropLast))

/-- The path without its last component. -/
def parent? (p : Path) : Option Path :=
  (parentText? p.text.toList).map fun text => ⟨String.ofList text⟩

theorem stripIdle_isPrefix (segments : List (List Char)) : stripIdle segments <+: segments := by
  have h := List.reverse_prefix.2 (@List.dropWhile_suffix _ segments.reverse isIdle)
  rwa [List.reverse_reverse] at h

theorem getLast_stripIdle {segments : List (List Char)} (h : stripIdle segments ≠ []) :
    isIdle ((stripIdle segments).getLast h) = false := by
  have hne : segments.reverse.dropWhile isIdle ≠ [] := by
    intro he
    exact h (by simp [stripIdle, he])
  have := List.head_dropWhile_not isIdle hne
  simpa [stripIdle, List.getLast_reverse] using this

theorem length_joined_le_of_isPrefix (sep : Char) {l₁ l₂ : List (List Char)} (h : l₁ <+: l₂) :
    (Text.joined sep l₁).length ≤ (Text.joined sep l₂).length := by
  induction l₁ generalizing l₂ with
  | nil => simp [Text.joined]
  | cons piece rest ih =>
    obtain ⟨tail, rfl⟩ := h
    cases rest with
    | nil =>
      cases tail with
      | nil => simp
      | cons _ _ => simp [Text.joined]
    | cons next rest =>
      have := @ih (next :: (rest ++ tail)) ⟨tail, by simp⟩
      simp only [Text.joined, List.cons_append, List.length_append, List.length_cons] at this ⊢
      omega

theorem length_joined_dropLast_lt {sep : Char} {l : List (List Char)} (h : l ≠ [])
    (hlast : l.getLast h ≠ []) :
    (Text.joined sep l.dropLast).length < (Text.joined sep l).length := by
  induction l with
  | nil => exact absurd rfl h
  | cons piece rest ih =>
    cases rest with
    | nil => simpa [Text.joined, List.length_pos_iff] using hlast
    | cons next rest =>
      have := ih (by simp) (by simpa using hlast)
      cases rest with
      | nil => simp [Text.joined]
      | cons third rest =>
        simp only [List.dropLast_cons_cons, Text.joined, List.length_append, List.length_cons] at this ⊢
        omega

theorem length_splitLead (text : List Char) :
    (splitLead text).1.length + (splitLead text).2.length = text.length := by
  unfold splitLead
  split <;> simp +arith

theorem parentText?_length_lt {text parent : List Char} (h : parentText? text = some parent) :
    parent.length < text.length := by
  have hsplit := length_splitLead text
  unfold parentText? at h
  generalize hl : splitLead text = parts at h hsplit
  obtain ⟨lead, body⟩ := parts
  dsimp only at h hsplit
  split at h
  · -- Only a lone dot has a parent, which is the empty path.
    split at h
    · rename_i hd
      cases h
      subst hd
      simp at hsplit ⊢
      omega
    · cases h
  · -- The last of the segments is not idle, so there is text to it.
    rename_i segments hne
    cases h
    have hbody : (Text.joined '/' (stripIdle (Text.pieces '/' body))).length ≤ body.length := by
      have := length_joined_le_of_isPrefix '/' (stripIdle_isPrefix (Text.pieces '/' body))
      rwa [Text.joined_pieces] at this
    have hne' : stripIdle (Text.pieces '/' body) ≠ [] := hne
    have hlast := getLast_stripIdle hne'
    have hlt : (Text.joined '/' (stripIdle (Text.pieces '/' body)).dropLast).length
        < (Text.joined '/' (stripIdle (Text.pieces '/' body))).length := by
      refine length_joined_dropLast_lt hne' ?_
      intro he
      simp [he, isIdle] at hlast
    have hstrip := length_joined_le_of_isPrefix '/'
      (stripIdle_isPrefix (stripIdle (Text.pieces '/' body)).dropLast)
    simp only [List.length_append]
    omega

theorem parent?_length_lt {p q : Path} (h : p.parent? = some q) :
    q.text.toList.length < p.text.toList.length := by
  obtain ⟨text, ht, rfl⟩ := Option.map_eq_some_iff.1 h
  simpa using parentText?_length_lt ht

/-- A path, its parent, and so on to the last that has none. -/
def ancestors (p : Path) : List Path :=
  match _h : p.parent? with
  | none => [p]
  | some q => p :: ancestors q
  termination_by p.text.toList.length
  decreasing_by exact parent?_length_lt _h

end Path

end LineEndings

/-
Quoted names.

With a backslash before each of its characters, a name is read as these characters and nothing else
(`tokensWith_quote_append`): none of them is a wildcard, and a blank in front is not trimmed away, because a
backslash stands before it. The end is another matter. Trimming does not look at backslashes, so a blank there is
taken away from the backslash before it (`trim_quote_blank`), which then stands for itself and is found in no path.

* `matches_quoted_iff` — a quoted name is matched by the files of that name, unless it ends with a blank.
-/
import LineEndings.Proofs.Glob.Matching
import LineEndings.Proofs.Glob.Expanding
import LineEndings.Proofs.Text.Trimming

namespace LineEndings.Glob

/-- The text with a backslash before every character. -/
def quote (s : List Char) : List Char :=
  s.flatMap fun c => ['\\', c]

/-- The pattern for a name, with a backslash before every character. -/
def quoted (name : String) : String :=
  String.ofList (quote name.toList)

/-- Whether a text ends with a blank. -/
def endsBlank (s : List Char) : Bool :=
  s.getLast?.any Text.isBlank

variable {branch : Option (List Char → List Token)} {reading : Reading} {s t : List Char}

theorem quote_cons (c : Char) (s : List Char) : quote (c :: s) = '\\' :: c :: quote s :=
  rfl

theorem quote_snoc (s : List Char) (c : Char) : quote (s ++ [c]) = quote s ++ ['\\', c] := by
  rw [quote, List.flatMap_append]
  rfl

/-! ### Reading -/

/-- Every quoted character is read as itself. -/
theorem tokensWith_quote_append (s t : List Char) :
    tokensWith branch (quote s ++ t) = s.map .literal ++ tokensWith branch t := by
  induction s with
  | nil => rfl
  | cons c s ih =>
    rw [quote_cons, List.cons_append, List.cons_append, tokensWith_escape, ih]
    rfl

theorem matches_literals_iff : Matches reading (s.map .literal) t ↔ t = s := by
  induction s generalizing t with
  | nil => exact Iff.rfl
  | cons c s ih =>
    constructor
    · rintro ⟨_, v, rfl, rfl, hv⟩
      rw [ih.1 hv]
      rfl
    · rintro rfl
      exact ⟨[c], s, rfl, rfl, ih.2 rfl⟩

theorem never_notMem_literals (s : List Char) : Token.never ∉ s.map Token.literal := by
  simp

/-! ### Trimming -/

/-- There is nothing to trim at the start of a quoted text. -/
theorem isBlank_head_quote_append (s t : List Char) :
    ∀ d ∈ (quote s ++ '\\' :: t).head?, Text.isBlank d = false := by
  intro d hd
  obtain rfl : d = '\\' := by
    cases s with
    | nil => exact (Option.some.inj hd).symm
    | cons _ _ => exact (Option.some.inj hd).symm
  decide

theorem trim_quote {c : Char} (hc : Text.isBlank c = false) : Text.trim (quote (s ++ [c])) = quote (s ++ [c]) := by
  rw [quote_snoc]
  exact Text.trim_eq_self (isBlank_head_quote_append s [c]) (by simpa using hc)

/-- A blank at the end is trimmed away, but the backslash before it is not. -/
theorem trim_quote_blank {c : Char} (hc : Text.isBlank c = true) :
    Text.trim (quote (s ++ [c])) = quote s ++ ['\\'] := by
  have hblank : Text.allBlank [c] = true := by
    rw [Text.allBlank, List.all_cons, hc]
    rfl
  have hsplit : quote s ++ ['\\', c] = (quote s ++ ['\\']) ++ [c] := by simp
  rw [quote_snoc, hsplit, Text.trim_append_blanks hblank]
  exact Text.trim_eq_self (isBlank_head_quote_append s []) (by simp; decide)

/-! ### Patterns -/

theorem slash_notMem_quote (h : '/' ∉ s) : '/' ∉ quote s := by
  rw [quote, List.mem_flatMap]
  rintro ⟨c, hc, hmem⟩
  simp only [List.mem_cons, List.not_mem_nil, or_false] at hmem
  rcases hmem with hmem | rfl
  · exact absurd hmem (by decide)
  · exact h hc

theorem patternBody_of_not_mem (h : '/' ∉ s) : patternBody s = s := by
  unfold patternBody
  split
  · exact absurd List.mem_cons_self h
  · rfl

/-- What a pattern without a separator matches when it is read as the characters of a text. -/
theorem matches_iff_lastSegment_eq {raw : String} (htrim : Text.trim raw.toList = t) (hne : t ≠ [])
    (hslash : '/' ∉ t) (htokens : tokenize t = s.map .literal) (path : String) :
    (Pattern.compile raw).matches path = true ↔ lastSegment (slashed path.toList) = s := by
  have htokensOf : tokensOf raw = s.map .literal := by rw [tokensOf, htrim, patternBody_of_not_mem hslash, htokens]
  rw [matches_iff_selects, Selects, htokensOf, htrim, if_neg hslash, matches_literals_iff]
  exact ⟨fun h => h.2.2, fun h => ⟨hne, never_notMem_literals s, h⟩⟩

theorem tokenize_quote (s : List Char) : tokenize (quote s) = s.map .literal := by
  obtain ⟨branch, hbranch⟩ := exists_tokensWithin_eq maxDepth
  rw [← List.append_nil (quote s), tokenize, hbranch, tokensWith_quote_append, tokensWith_nil, List.append_nil]

theorem tokenize_quote_lone (s : List Char) : tokenize (quote s ++ ['\\']) = (s ++ ['\\']).map .literal := by
  obtain ⟨branch, hbranch⟩ := exists_tokensWithin_eq maxDepth
  rw [tokenize, hbranch, tokensWith_quote_append, tokensWith_lone, List.map_append]
  rfl

/-- No segment of a path holds a backslash. -/
theorem escape_notMem_lastSegment (path : List Char) : '\\' ∉ lastSegment (slashed path) := by
  intro hmem
  rw [lastSegment, List.mem_reverse] at hmem
  exact escape_notMem_slashed path (List.mem_reverse.1 ((List.takeWhile_sublist _).subset hmem))

theorem lastSegment_of_not_mem (h : '/' ∉ s) : lastSegment s = s := by
  have hall : ∀ c ∈ s.reverse, (c != '/') = true := by
    intro c hc
    rw [bne_iff_ne]
    rintro rfl
    exact h (List.mem_reverse.1 hc)
  rw [lastSegment, List.takeWhile_eq_self_iff.2 hall, List.reverse_reverse]

theorem lastSegment_name {name : String} (hslash : '/' ∉ name.toList) (hescape : '\\' ∉ name.toList) :
    lastSegment (slashed name.toList) = name.toList := by
  rw [slashed_of_not_mem hescape, lastSegment_of_not_mem hslash]

section

variable {name : String} {c : Char}

theorem matches_quoted_of_not_isBlank (hname : name.toList = s ++ [c]) (hslash : '/' ∉ name.toList)
    (hc : Text.isBlank c = false) (path : String) :
    (Pattern.compile (quoted name)).matches path = true ↔ lastSegment (slashed path.toList) = name.toList := by
  have htrim : Text.trim (quoted name).toList = quote name.toList := by
    rw [quoted, String.toList_ofList, hname, trim_quote hc]
  have hne : quote name.toList ≠ [] := by
    rw [hname, quote_snoc]
    simp
  exact matches_iff_lastSegment_eq htrim hne (slash_notMem_quote hslash) (tokenize_quote name.toList) path

/-- With a blank at its end, a quoted name is read with a backslash there, which is in no segment of a path. -/
theorem not_matches_quoted_of_isBlank (hname : name.toList = s ++ [c]) (hslash : '/' ∉ name.toList)
    (hc : Text.isBlank c = true) (path : String) : (Pattern.compile (quoted name)).matches path = false := by
  have htrim : Text.trim (quoted name).toList = quote s ++ ['\\'] := by
    rw [quoted, String.toList_ofList, hname, trim_quote_blank hc]
  have hslashes : '/' ∉ quote s ++ ['\\'] := by
    have hs : '/' ∉ s := fun h => hslash (by simp [hname, h])
    simpa using slash_notMem_quote hs
  rw [← Bool.not_eq_true, matches_iff_lastSegment_eq htrim (by simp) hslashes (tokenize_quote_lone s)]
  intro heq
  exact escape_notMem_lastSegment path.toList (by simp [heq])

/-- A quoted name is matched by the paths with that last segment, whatever characters it has, unless it ends with a
blank: then no path is matched, not even the name itself. -/
theorem matches_quoted_iff (hne : name ≠ "") (hslash : '/' ∉ name.toList) (hescape : '\\' ∉ name.toList) :
    (∀ path, (Pattern.compile (quoted name)).matches path = true ↔
        endsBlank name.toList = false ∧ lastSegment (slashed path.toList) = name.toList) ∧
      ((∀ path, (Pattern.compile (quoted name)).matches path = true ↔
          lastSegment (slashed path.toList) = name.toList) ↔ endsBlank name.toList = false) := by
  have hmatch : ∀ path, (Pattern.compile (quoted name)).matches path = true ↔
      endsBlank name.toList = false ∧ lastSegment (slashed path.toList) = name.toList := by
    intro path
    obtain ⟨s, c, hname⟩ : ∃ s c, name.toList = s ++ [c] :=
      (List.eq_nil_or_concat' name.toList).resolve_left (by simpa using hne)
    have hends : endsBlank name.toList = Text.isBlank c := by simp [hname, endsBlank]
    rw [hends]
    cases hc : Text.isBlank c with
    | false => simpa using matches_quoted_of_not_isBlank hname hslash hc path
    | true => simpa using not_matches_quoted_of_isBlank hname hslash hc path
  refine ⟨hmatch, fun h => ?_, fun hends path => by rw [hmatch, hends]; simp⟩
  exact ((hmatch name).1 ((h name).2 (lastSegment_name hslash hescape))).1

end

/-- Blanks in front and in between, braces, a comma, wildcards and a bracket stand for themselves. -/
theorem matches_quoted_wildcards :
    " {a, *}[?" ≠ "" ∧ '/' ∉ " {a, *}[?".toList ∧ '\\' ∉ " {a, *}[?".toList ∧
      ∀ path, (Pattern.compile (quoted " {a, *}[?")).matches path = true ↔
        lastSegment (slashed path.toList) = " {a, *}[?".toList := by
  have hne : " {a, *}[?" ≠ "" := by decide
  have hslash : '/' ∉ " {a, *}[?".toList := by decide
  have hescape : '\\' ∉ " {a, *}[?".toList := by decide
  exact ⟨hne, hslash, hescape, (matches_quoted_iff hne hslash hescape).2.2 (by decide)⟩

/-- The name of a letter and a blank does not match itself when it is quoted. -/
theorem matches_quoted_blank :
    '/' ∉ "a ".toList ∧ '\\' ∉ "a ".toList ∧ quoted "a " = "\\a\\ " ∧
      lastSegment (slashed "a ".toList) = "a ".toList ∧
        (Pattern.compile (quoted "a ")).matches "a " = false := by
  have hname : "a ".toList = ['a'] ++ [' '] := rfl
  exact ⟨by decide, by decide, by decide, by decide,
    not_matches_quoted_of_isBlank hname (by decide) (by decide) "a "⟩

end LineEndings.Glob

import Mathlib.Data.List.DropRight

/-!
# Lines of text

A text is a list of characters. `splitlines`, `strip` and `isSpace` follow the string methods of
Python. Lines without line breaks that are written one below the other are what `splitlines` finds
(`splitlines_unlines`); to cut the blanks of a word that is padded with blanks leaves the word
(`rstrip_append`).
-/

namespace TieredKVCache.Lib

/-! ## Line breaks -/

/-- The line boundaries of `str.splitlines`. -/
def isLineBreak (c : Char) : Bool :=
  c ∈ ['\n', '\r', '\x0b', '\x0c', '\x1c', '\x1d', '\x1e', '\u0085', '\u2028', '\u2029']

theorem forall_mem_of_any {p : Char → Bool} {text : List Char} (h : text.any p = false) :
    ∀ c ∈ text, p c = false :=
  fun c hc => Bool.eq_false_iff.mpr (List.any_eq_false.mp h c hc)

/-- The lines of a text that continues `line`. -/
def splitlinesFrom (line : List Char) : List Char → List (List Char)
  | [] => if line = [] then [] else [line]
  | '\r' :: '\n' :: text => line :: splitlinesFrom [] text
  | c :: text =>
    if isLineBreak c then line :: splitlinesFrom [] text else splitlinesFrom (line ++ [c]) text

/-- `str.splitlines`. -/
def splitlines (text : List Char) : List (List Char) := splitlinesFrom [] text

/-- Every line with its line break. -/
def unlines (lines : List (List Char)) : List Char := lines.flatMap (· ++ ['\n'])

theorem splitlinesFrom_cons {c : Char} (line text : List Char) (hc : isLineBreak c = false) :
    splitlinesFrom line (c :: text) = splitlinesFrom (line ++ [c]) text := by
  rw [splitlinesFrom.eq_3]
  · rw [hc, if_neg Bool.false_ne_true]
  · rintro text' rfl
    exact absurd hc (by decide)

theorem splitlinesFrom_line (line rest text : List Char) (h : ∀ c ∈ rest, isLineBreak c = false) :
    splitlinesFrom line (rest ++ '\n' :: text) = (line ++ rest) :: splitlines text := by
  induction rest generalizing line with
  | nil =>
    rw [List.nil_append, splitlinesFrom.eq_3 _ _ _ (by simp), if_pos (by decide), List.append_nil]
    rfl
  | cons c rest ih =>
    obtain ⟨hc, hrest⟩ := List.forall_mem_cons.mp h
    rw [List.cons_append, splitlinesFrom_cons _ _ hc, ih _ hrest, List.append_assoc,
      List.singleton_append]

theorem splitlinesFrom_last (line rest : List Char) (h : ∀ c ∈ rest, isLineBreak c = false) :
    splitlinesFrom line rest = if line ++ rest = [] then [] else [line ++ rest] := by
  induction rest generalizing line with
  | nil => rw [List.append_nil, splitlinesFrom]
  | cons c rest ih =>
    obtain ⟨hc, hrest⟩ := List.forall_mem_cons.mp h
    rw [splitlinesFrom_cons _ _ hc, ih _ hrest, List.append_assoc, List.singleton_append]

/-- Lines that are written one below the other are found again; the last one may go without its
line break. -/
theorem splitlines_unlines {lines : List (List Char)} {last : List Char}
    (h : ∀ line ∈ lines, ∀ c ∈ line, isLineBreak c = false)
    (hlast : ∀ c ∈ last, isLineBreak c = false) :
    splitlines (unlines lines ++ last) = lines ++ (if last = [] then [] else [last]) := by
  induction lines with
  | nil => exact splitlinesFrom_last [] last hlast
  | cons line lines ih =>
    obtain ⟨hline, hlines⟩ := List.forall_mem_cons.mp h
    have htext : unlines (line :: lines) ++ last = line ++ '\n' :: (unlines lines ++ last) := by
      simp [unlines]
    rw [htext, splitlines, splitlinesFrom_line _ _ _ hline, List.nil_append, ih hlines,
      List.cons_append]

/-! ## Blanks -/

/-- `str.isspace`, of a character; the class `\s` of regular expressions. -/
def isSpace (c : Char) : Bool :=
  c ∈ [' ', '\t', '\n', '\x0b', '\x0c', '\r', '\x1c', '\x1d', '\x1e', '\x1f', '\u0085', '\u00a0',
    '\u1680', '\u2000', '\u2001', '\u2002', '\u2003', '\u2004', '\u2005', '\u2006', '\u2007',
    '\u2008', '\u2009', '\u200a', '\u2028', '\u2029', '\u202f', '\u205f', '\u3000']

def lstrip (text : List Char) : List Char := text.dropWhile isSpace

def rstrip (text : List Char) : List Char := text.rdropWhile isSpace

/-- `str.strip`. -/
def strip (text : List Char) : List Char := rstrip (lstrip text)

variable {blanks text : List Char}

theorem lstrip_append (h : ∀ c ∈ blanks, isSpace c = true) :
    lstrip (blanks ++ text) = lstrip text := by
  rw [lstrip, lstrip, List.dropWhile_append_of_pos h]

theorem lstrip_cons {c : Char} (h : isSpace c = false) : lstrip (c :: text) = c :: text := by
  rw [lstrip, List.dropWhile_cons_of_neg (by simp [h])]

theorem lstrip_blanks (h : ∀ c ∈ blanks, isSpace c = true) : lstrip blanks = [] := by
  rw [lstrip, List.dropWhile_eq_nil_iff]
  exact h

/-- Behind its last character that is no blank, a text is cut. -/
theorem rstrip_append (h : ∀ c ∈ blanks, isSpace c = true) :
    rstrip (text ++ blanks) = rstrip text := by
  rw [rstrip, rstrip, List.rdropWhile, List.rdropWhile, List.reverse_append,
    List.dropWhile_append_of_pos fun c hc => h c (List.mem_reverse.mp hc)]

theorem rstrip_cons {c : Char} (h : isSpace c = false) : rstrip (c :: text) = c :: rstrip text := by
  rw [rstrip, rstrip, List.rdropWhile, List.rdropWhile, List.reverse_cons, List.dropWhile_append]
  split
  next hnone =>
    rw [List.isEmpty_iff.mp hnone, List.dropWhile_cons_of_neg (by simp [h])]
    rfl
  next => rw [List.reverse_append]; rfl

theorem rstrip_concat {c : Char} (h : isSpace c = false) : rstrip (text ++ [c]) = text ++ [c] :=
  List.rdropWhile_concat_neg _ _ _ (by simp [h])

end TieredKVCache.Lib

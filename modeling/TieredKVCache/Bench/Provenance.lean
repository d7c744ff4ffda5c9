import TieredKVCache.Core.Types
import TieredKVCache.Lib.AssocSum
import TieredKVCache.Lib.Loop
import TieredKVCache.Lib.TextLines

/-!
# The lock file

`provenance.py` reads the locked version of the upstream project from `mooncake.lock`, a text with a
line `KEY=VALUE` for each field. Fields that are written out, with blanks around their parts and
with comments and blank lines between them, are read back: the last value of a key counts, and a
missing key is reported (`readMooncakeLock_render`).
-/

namespace TieredKVCache.Bench

open Lib

/-! ## Parsing -/

/-- The class `[A-Za-z0-9_]`. -/
def isKeyChar (c : Char) : Bool :=
  ('A' ≤ c && c ≤ 'Z') || ('a' ≤ c && c ≤ 'z') || ('0' ≤ c && c ≤ '9') || c = '_'

/-- The second group of `_KV_LINE_RE`, of what follows the sign: `.+?` takes one blank where there
are only blanks. -/
def matchValue (rest : List Char) : Option (List Char) :=
  match lstrip rest with
  | [] => rest.getLast?.map fun c => [c]
  | text => some (rstrip text)

/-- `_KV_LINE_RE.match`, of a line without `\n`: the two groups. -/
def matchKv (line : List Char) : Option (List Char × List Char) :=
  let text := lstrip line
  let key := text.takeWhile isKeyChar
  match lstrip (text.dropWhile isKeyChar) with
  | '=' :: rest => if key = [] then none else (matchValue rest).map fun value => (key, value)
  | _ => none

/-- What `parse_lock_text` takes from a line. -/
def lineField (line : List Char) : Option (List Char × List Char) :=
  match strip line with
  | [] => none
  | '#' :: _ => none
  | _ => matchKv line

abbrev Fields : Type := AList fun _ : List Char => List Char

def parseLockText (text : List Char) : Fields :=
  ((splitlines text).filterMap lineField).foldl
    (fun result field => result.insert field.1 field.2) ∅

/-- `_REQUIRED_KEYS`. -/
def requiredKeys : List (List Char) := ["mooncake_commit".toList, "mooncake_version".toList]

structure MooncakeLock where
  commit : List Char
  version : List Char
  tag : Option (List Char)
  repo : Option (List Char)
  license : Option (List Char)
  raw : Fields

inductive LockError where
  | fileNotFound (message : List Char)
  | valueError (message : List Char)
deriving DecidableEq, Repr

/-- The text of the file at the path, or nothing if there is no file. -/
def readMooncakeLock (path : List Char) (text : Option (List Char)) :
    Except LockError MooncakeLock :=
  match text with
  | none => .error (.fileNotFound ("未找到 mooncake.lock：".toList ++ path))
  | some text =>
    let fields := parseLockText text
    -- an empty value counts as missing
    let missing := requiredKeys.filter fun key => ((fields.lookup key).getD []).isEmpty
    if missing ≠ [] then
      .error (.valueError ("mooncake.lock 缺少必需字段：".toList ++ [',', ' '].intercalate missing ++
        "（路径：".toList ++ path ++ "）".toList))
    else .ok {
      commit := (fields.lookup "mooncake_commit".toList).getD []
      version := (fields.lookup "mooncake_version".toList).getD []
      tag := fields.lookup "mooncake_tag".toList
      repo := fields.lookup "mooncake_repo".toList
      license := fields.lookup "mooncake_license".toList
      raw := fields }

/-! ## Rendering -/

/-- What a lock file consists of. -/
inductive LockLine where
  | blank (blanks : List Char)
  | comment (indent text : List Char)
  | field (indent key before after value trailing : List Char)

namespace LockLine

def render : LockLine → List Char
  | blank blanks => blanks
  | comment indent text => indent ++ '#' :: text
  | field indent key before after value trailing =>
    indent ++ key ++ before ++ '=' :: (after ++ value ++ trailing)

/-- The key and the value of a field. -/
def entry : LockLine → Option (List Char × List Char)
  | field _ key _ _ value _ => some (key, value)
  | _ => none

/-- Blanks within a line. -/
def Blanks (text : List Char) : Prop := ∀ c ∈ text, isSpace c = true ∧ isLineBreak c = false

/-- A text within a line that starts and ends with no blank. -/
structure Word (text : List Char) : Prop where
  inLine : ∀ c ∈ text, isLineBreak c = false
  first : ∃ c rest, text = c :: rest ∧ isSpace c = false
  last : ∃ rest c, text = rest ++ [c] ∧ isSpace c = false

/-- The parts of a line are what they stand for. -/
inductive WellFormed : LockLine → Prop
  | blank {blanks : List Char} (h : Blanks blanks) : WellFormed (.blank blanks)
  | comment {indent text : List Char} (hindent : Blanks indent)
      (htext : ∀ c ∈ text, isLineBreak c = false) : WellFormed (.comment indent text)
  | field {indent key before after value trailing : List Char} (hindent : Blanks indent)
      (hkey : key ≠ [] ∧ ∀ c ∈ key, isKeyChar c = true) (hbefore : Blanks before)
      (hafter : Blanks after) (hvalue : Word value) (htrailing : Blanks trailing) :
      WellFormed (.field indent key before after value trailing)

end LockLine

/-! ## Reading a rendered line -/

/-- No blank is a character of a key. -/
theorem isKeyChar_of_isSpace {c : Char} (h : isSpace c = true) : isKeyChar c = false := by
  have hall : ∀ c ∈ [' ', '\t', '\n', '\x0b', '\x0c', '\r', '\x1c', '\x1d', '\x1e', '\x1f',
      '\u0085', '\u00a0', '\u1680', '\u2000', '\u2001', '\u2002', '\u2003', '\u2004', '\u2005',
      '\u2006', '\u2007', '\u2008', '\u2009', '\u200a', '\u2028', '\u2029', '\u202f', '\u205f',
      '\u3000'], isKeyChar c = false := forall_mem_of_any rfl
  exact hall c (of_decide_eq_true h)

theorem isSpace_of_isKeyChar {c : Char} (h : isKeyChar c = true) : isSpace c = false :=
  Bool.eq_false_iff.mpr fun hspace =>
    Bool.false_ne_true ((isKeyChar_of_isSpace hspace).symm.trans h)

/-- The characters of a key end before blanks and a sign. -/
theorem span_key {key before : List Char} (rest : List Char)
    (hkey : ∀ c ∈ key, isKeyChar c = true) (hbefore : LockLine.Blanks before) :
    (key ++ (before ++ '=' :: rest)).takeWhile isKeyChar = key ∧
      (key ++ (before ++ '=' :: rest)).dropWhile isKeyChar = before ++ '=' :: rest := by
  have hstop : ∃ c text, before ++ '=' :: rest = c :: text ∧ isKeyChar c = false := by
    cases before with
    | nil => exact ⟨_, _, rfl, by decide⟩
    | cons c before => exact ⟨_, _, rfl, isKeyChar_of_isSpace (hbefore c List.mem_cons_self).1⟩
  obtain ⟨c, text, htext, hc⟩ := hstop
  rw [List.takeWhile_append_of_pos hkey, List.dropWhile_append_of_pos hkey, htext,
    List.takeWhile_cons_of_neg (by simp [hc]), List.dropWhile_cons_of_neg (by simp [hc])]
  exact ⟨List.append_nil _, rfl⟩

theorem matchValue_word {after value trailing : List Char} (hafter : LockLine.Blanks after)
    (hvalue : LockLine.Word value) (htrailing : LockLine.Blanks trailing) :
    matchValue (after ++ value ++ trailing) = some value := by
  obtain ⟨c, rest, hfirst, hc⟩ := hvalue.first
  obtain ⟨body, d, hlast, hd⟩ := hvalue.last
  have hstrip : lstrip (after ++ value ++ trailing) = c :: (rest ++ trailing) := by
    rw [List.append_assoc, lstrip_append fun c hc => (hafter c hc).1, hfirst, List.cons_append,
      lstrip_cons hc]
  have hcut : rstrip (c :: (rest ++ trailing)) = value := by
    rw [← List.cons_append, ← hfirst, rstrip_append fun c hc => (htrailing c hc).1, hlast,
      rstrip_concat hd]
  rw [matchValue, hstrip]
  exact congrArg some hcut

open LockLine

/-- A line is read as what it was written for. -/
theorem lineField_render {line : LockLine} (h : line.WellFormed) :
    lineField line.render = line.entry := by
  cases h with
  | blank h =>
    rw [render, lineField, strip, lstrip_blanks fun c hc => (h c hc).1]
    rfl
  | comment hindent =>
    rw [render, lineField, strip, lstrip_append fun c hc => (hindent c hc).1,
      lstrip_cons (by decide), rstrip_cons (by decide)]
    rfl
  | @field indent key before after value trailing hindent hkey hbefore hafter hvalue htrailing =>
    obtain ⟨hne, hkey⟩ := hkey
    have hmatch : matchKv (render (.field indent key before after value trailing)) =
        some (key, value) := by
      have htext : lstrip (render (.field indent key before after value trailing)) =
          key ++ (before ++ '=' :: (after ++ value ++ trailing)) := by
        rw [render, List.append_assoc, List.append_assoc,
          lstrip_append fun c hc => (hindent c hc).1]
        cases key with
        | nil => exact absurd rfl hne
        | cons c key => exact lstrip_cons (isSpace_of_isKeyChar (hkey c List.mem_cons_self))
      obtain ⟨htake, hdrop⟩ := span_key (after ++ value ++ trailing) hkey hbefore
      rw [matchKv, htext, htake, hdrop, lstrip_append fun c hc => (hbefore c hc).1,
        lstrip_cons (by decide)]
      show (if key = [] then none else (matchValue _).map fun value => (key, value)) = _
      rw [if_neg hne, matchValue_word hafter hvalue htrailing]
      rfl
    obtain ⟨c, rest, hstart, hc⟩ : ∃ c rest,
        strip (render (.field indent key before after value trailing)) = c :: rest ∧ c ≠ '#' := by
      cases key with
      | nil => exact absurd rfl hne
      | cons c key =>
        have hc := hkey c List.mem_cons_self
        have hnot : isKeyChar '#' = false := by decide
        refine ⟨c, rstrip (key ++ (before ++ '=' :: (after ++ value ++ trailing))), ?_, ?_⟩
        case refine_2 =>
          rintro rfl
          exact Bool.false_ne_true (hnot.symm.trans hc)
        rw [render, strip, List.append_assoc, List.append_assoc,
          lstrip_append fun c hc => (hindent c hc).1, List.cons_append,
          lstrip_cons (isSpace_of_isKeyChar hc), rstrip_cons (isSpace_of_isKeyChar hc)]
    rw [lineField, hstart]
    split
    next heq => cases heq
    next heq => exact absurd (List.cons.inj heq).1 hc
    next => exact hmatch

/-! ## Reading a rendered file -/

namespace LockLine

/-- A file of lines, of which the last one goes without a line break. -/
def file (lines : List LockLine) (last : LockLine) : List Char :=
  unlines (lines.map render) ++ last.render

/-- The last value that is written for a key. -/
def valueOf (lines : List LockLine) (key : List Char) : Option (List Char) :=
  ((lines.filterMap entry).filter fun field => decide (field.1 = key)).getLast?.map Prod.snd

/-- The required keys for which no value is written. -/
def missingKeys (lines : List LockLine) : List (List Char) :=
  requiredKeys.filter fun key => (valueOf lines key).isNone

theorem WellFormed.inLine {line : LockLine} (h : line.WellFormed) :
    ∀ c ∈ line.render, isLineBreak c = false := by
  have hblanks {text : List Char} (h : Blanks text) : ∀ c ∈ text, isLineBreak c = false :=
    fun c hc => (h c hc).2
  cases h with
  | blank h => exact hblanks h
  | comment hindent htext =>
    refine List.forall_mem_append.mpr ⟨hblanks hindent, List.forall_mem_cons.mpr ⟨by decide, htext⟩⟩
  | field hindent hkey hbefore hafter hvalue htrailing =>
    have hkeyLine : ∀ c, isKeyChar c = true → isLineBreak c = false := by
      intro c hc
      refine Bool.eq_false_iff.mpr fun hbreak => ?_
      have hall : ∀ c ∈ ['\n', '\r', '\x0b', '\x0c', '\x1c', '\x1d', '\x1e', '\u0085', '\u2028',
          '\u2029'], isKeyChar c = false := forall_mem_of_any rfl
      exact Bool.false_ne_true ((hall c (of_decide_eq_true hbreak)).symm.trans hc)
    simp only [render, List.forall_mem_append, List.forall_mem_cons]
    exact ⟨⟨⟨hblanks hindent, fun c hc => hkeyLine c (hkey.2 c hc)⟩, hblanks hbefore⟩, by decide,
      ⟨hblanks hafter, hvalue.inLine⟩, hblanks htrailing⟩

theorem WellFormed.value_ne {lines : List LockLine} (h : ∀ line ∈ lines, line.WellFormed)
    {key value : List Char} (hvalue : valueOf lines key = some value) : value ≠ [] := by
  obtain ⟨⟨key', value'⟩, hlast, rfl⟩ := Option.map_eq_some_iff.mp hvalue
  have hentry := List.mem_of_mem_filter (List.mem_of_getLast? hlast)
  obtain ⟨line, hline, hfield⟩ := List.mem_filterMap.mp hentry
  have hformed := h line hline
  cases hformed with
  | blank => cases hfield
  | comment => cases hfield
  | field hindent hkey hbefore hafter hword =>
    cases hfield
    obtain ⟨c, rest, hfirst, -⟩ := hword.first
    exact hfirst ▸ List.cons_ne_nil c rest

/-- The fields of a file are the fields of its lines. -/
theorem filterMap_file {lines : List LockLine} {last : LockLine}
    (h : ∀ line ∈ lines ++ [last], line.WellFormed) :
    (splitlines (file lines last)).filterMap lineField = (lines ++ [last]).filterMap entry := by
  obtain ⟨hlines, hlast⟩ := List.forall_mem_append.mp h
  have hlast := hlast last List.mem_cons_self
  have hread : ∀ ls : List LockLine, (∀ line ∈ ls, line.WellFormed) →
      (ls.map render).filterMap lineField = ls.filterMap entry := by
    intro ls hls
    rw [List.filterMap_map]
    exact List.filterMap_congr fun line hline => lineField_render (hls line hline)
  have hlines' : ∀ text ∈ lines.map render, ∀ c ∈ text, isLineBreak c = false :=
    List.forall_mem_map.mpr fun line hline => (hlines line hline).inLine
  rw [file, splitlines_unlines hlines' hlast.inLine, List.filterMap_append, hread lines hlines,
    List.filterMap_append]
  congr 1
  by_cases hempty : last.render = []
  · have hnone : last.entry = none := by
      rw [← lineField_render hlast, hempty]
      rfl
    rw [if_pos hempty, List.filterMap_cons_none hnone]
    rfl
  · rw [if_neg hempty]
    exact hread [last] fun line hline => List.mem_singleton.mp hline ▸ hlast

/-- A file is read as the fields that are written in it. -/
structure ReadsBack (path : List Char) (lines : List LockLine) (text : List Char) : Prop where
  fields : ∀ key, (parseLockText text).lookup key = valueOf lines key
  locked : ∀ commit version, valueOf lines "mooncake_commit".toList = some commit →
    valueOf lines "mooncake_version".toList = some version →
    Returns (readMooncakeLock path (some text)) fun lock =>
      lock.commit = commit ∧ lock.version = version ∧
        lock.tag = valueOf lines "mooncake_tag".toList ∧
        lock.repo = valueOf lines "mooncake_repo".toList ∧
        lock.license = valueOf lines "mooncake_license".toList ∧
        ∀ key, lock.raw.lookup key = valueOf lines key
  refused : missingKeys lines ≠ [] → readMooncakeLock path (some text) =
    .error (.valueError ("mooncake.lock 缺少必需字段：".toList ++
      [',', ' '].intercalate (missingKeys lines) ++ "（路径：".toList ++ path ++ "）".toList))

/-- **Round trip of the lock file.** Fields that are written as lines, with any blanks around their
parts and among any comments and blank lines, are read back. -/
theorem readMooncakeLock_render (path : List Char) (lines : List LockLine) (last : LockLine)
    (h : ∀ line ∈ lines ++ [last], line.WellFormed) :
    ReadsBack path (lines ++ [last]) (file lines last) := by
  have hfields : ∀ key, (parseLockText (file lines last)).lookup key =
      valueOf (lines ++ [last]) key := by
    intro key
    rw [parseLockText, filterMap_file h, lookup_insertAll_last, AList.lookup_empty, Option.or_none,
      valueOf]
  have hmissing : (requiredKeys.filter fun key =>
      (((parseLockText (file lines last)).lookup key).getD []).isEmpty) =
        missingKeys (lines ++ [last]) := by
    refine List.filter_congr fun key _ => ?_
    rw [hfields]
    cases hvalue : valueOf (lines ++ [last]) key with
    | none => rfl
    | some value =>
      have hne := WellFormed.value_ne h hvalue
      cases value with
      | nil => exact absurd rfl hne
      | cons c value => rfl
  refine ⟨hfields, fun commit version hcommit hversion => ?_, fun hne => ?_⟩
  · have hnone : missingKeys (lines ++ [last]) = [] := by
      refine List.filter_eq_nil_iff.mpr fun key hkey => ?_
      rcases List.mem_pair.mp hkey with rfl | rfl
      · rw [hcommit]
        exact Bool.false_ne_true
      · rw [hversion]
        exact Bool.false_ne_true
    rw [readMooncakeLock, hmissing, if_neg (not_not.mpr hnone)]
    refine returns_ok ⟨?_, ?_, hfields _, hfields _, hfields _, hfields⟩
    · show ((parseLockText (file lines last)).lookup "mooncake_commit".toList).getD [] = commit
      rw [hfields, hcommit]
      rfl
    · show ((parseLockText (file lines last)).lookup "mooncake_version".toList).getD [] = version
      rw [hfields, hversion]
      rfl
  · rw [readMooncakeLock, hmissing, if_pos hne]

/-- A comment, a commit and, after its first value, another one. -/
def relocked : List LockLine :=
  [.comment [] " locked".toList, .field [] "mooncake_commit".toList [] [] ['a', '1'] [],
    .field [' '] "mooncake_commit".toList [' '] [' '] ['b', ' ', '2'] ['\t']]

theorem readMooncakeLock_render_relocked :
    ReadsBack [] (relocked ++ [.blank [' ']]) (file relocked (.blank [' '])) := by
  have hword {text : List Char} {c d : Char} (hline : ∀ c ∈ text, isLineBreak c = false)
      (hfirst : text.head? = some c) (hc : isSpace c = false) (hlast : text.getLast? = some d)
      (hd : isSpace d = false) : Word text :=
    ⟨hline, ⟨c, text.tail, (List.cons_head?_tail hfirst).symm, hc⟩,
      ⟨text.dropLast, d, (List.dropLast_append_getLast? d hlast).symm, hd⟩⟩
  have hblank : Blanks [' '] ∧ Blanks ['\t'] ∧ Blanks [] := by
    simp only [Blanks, List.forall_mem_singleton]
    exact ⟨by decide, by decide, List.forall_mem_nil _⟩
  refine readMooncakeLock_render [] relocked (.blank [' ']) ?_
  simp only [relocked, List.forall_mem_append, List.forall_mem_cons, List.not_mem_nil,
    false_imp_iff, implies_true, and_true]
  have hkey : "mooncake_commit".toList ≠ [] ∧ ∀ c ∈ "mooncake_commit".toList, isKeyChar c = true :=
    ⟨by decide, List.all_eq_true.mp rfl⟩
  refine ⟨⟨.comment hblank.2.2 (forall_mem_of_any rfl), ?_, ?_⟩, .blank hblank.1⟩
  · exact .field hblank.2.2 hkey hblank.2.2 hblank.2.2
      (hword (forall_mem_of_any rfl) rfl (by decide) rfl (by decide)) hblank.2.2
  · exact .field hblank.1 hkey hblank.1 hblank.1
      (hword (forall_mem_of_any rfl) rfl (by decide) rfl (by decide)) hblank.2.1

end LockLine

end TieredKVCache.Bench

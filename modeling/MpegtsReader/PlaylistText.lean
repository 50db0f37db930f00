import Mathlib.Data.List.TakeWhile
import MpegtsReader.Lines
import MpegtsReader.Playlist

/-!
# Reading a playlist

`hls_parse` and `load_media`. The text is read through a buffer of 512 bytes, a buffer that holds a
`#` anywhere is dropped, and every other buffer is opened as a path. What is called is a function
of the text alone (`parseLoop_eq_foldlM`), line by line (`openedPaths_eq_flatMap`);
`hlsParse_calls_iff` says which lines are read as they should be.
-/

namespace MpegtsReader

open Lines

/-- `'\n'`. -/
def lf : Byte := 10

/-- `'\r'`. -/
def cr : Byte := 13

/-- `'#'`. -/
def hash : Byte := 35

/-- The C string in a buffer: the bytes before the first zero. -/
def cString (cb : List Byte) : List Byte := cb.takeWhile (· ≠ 0)

/-- `strchr`: the offset of the first byte equal to `c`. -/
def strchr (cb : List Byte) (c : Byte) : Option ℕ := (cString cb).findIdx? (· = c)

/-- `fgets` into a buffer of `size` bytes: what it holds before the terminating zero, and what is
left of the file. -/
def fgets (size : ℕ) (fp : List Byte) : Option (List Byte × List Byte) :=
  let r := takeLine lf (size - 1) fp
  if r.1 = [] then none else some r

/-- `load_media`: the path that is opened. -/
def mediaPath (path : List Byte) : Path :=
  match strchr path lf with
  | some nl => cString (path.set nl 0)
  | none => cString path

/-- `load_media`. -/
def loadMedia (fs : FileSystem) (stale : ℕ → ℕ → Stale) (playlist : Playlist) (path : List Byte) :
    Except LogErr Playlist :=
  let r := mpegtsStreamReadSegment fs (stale playlist.sublist.length)
    (mpegtsStreamInit (mediaPath path))
  match r.2 with
  | some err => .error err
  | none => .ok { playlist with sublist := cdslDlistPutTail playlist.sublist r.1 }

theorem fgets_eq_none_iff {n : ℕ} {fp : List Byte} : fgets (n + 2) fp = none ↔ fp = [] := by
  unfold fgets
  simp only [show n + 2 - 1 = n + 1 by omega, ite_eq_left_iff, reduceCtorEq, imp_false, not_not]
  constructor
  · intro h
    by_contra hne
    exact takeLine_ne_nil lf n hne h
  · rintro rfl
    rfl

theorem fgets_of_ne_nil {n : ℕ} {fp : List Byte} (h : fp ≠ []) :
    fgets (n + 2) fp = some (takeLine lf (n + 1) fp) :=
  if_neg (takeLine_ne_nil lf n h)

theorem length_lt_of_fgets {fp cb rest : List Byte} (h : fgets 512 fp = some (cb, rest)) :
    rest.length < fp.length := by
  have hne : fp ≠ [] := by
    rintro rfl
    rw [fgets_eq_none_iff.mpr rfl] at h
    cases h
  rw [fgets_of_ne_nil hne, Option.some.injEq] at h
  have hlt := length_takeLine_snd_lt lf 510 hne
  rwa [h] at hlt

/-- `hls_parse`: the loop, for any `load_media`. -/
def parseLoop {σ : Type} (load : σ → List Byte → Except LogErr σ) (s : σ) (fp : List Byte) :
    Except LogErr σ :=
  match _h : fgets 512 fp with
  | none => .ok s
  | some (cb, rest) =>
    match strchr cb hash with
    | some _ => parseLoop load s rest
    | none => (load s cb).bind fun s => parseLoop load s rest
termination_by fp.length
decreasing_by all_goals exact length_lt_of_fgets _h

/-- `hls_parse`. -/
def hlsParse (fs : FileSystem) (stale : ℕ → ℕ → Stale) (playlist : Playlist) :
    Except LogErr Playlist :=
  match fs playlist.url with
  | none => .ok playlist
  | some fp => parseLoop (loadMedia fs stale) playlist fp

/-! ## The calls of `load_media` -/

/-- The buffer holds no tag. -/
def NoTag (cb : List Byte) : Prop := hash ∉ cString cb

instance (cb : List Byte) : Decidable (NoTag cb) := inferInstanceAs (Decidable (¬ _))

theorem strchr_eq_none_iff {cb : List Byte} {c : Byte} : strchr cb c = none ↔ c ∉ cString cb := by
  unfold strchr
  rw [List.findIdx?_eq_none_iff]
  constructor
  · intro h hc
    simpa using h c hc
  · intro h b hb
    simp only [decide_eq_false_iff_not]
    rintro rfl
    exact h hb

/-- The buffers that are handed to `load_media`. -/
def loadedBuffers (text : List Byte) : List (List Byte) := (reads lf 510 text).filter (NoTag ·)

/-- The loop calls `load_media` on these buffers in order, whatever it does. -/
theorem parseLoop_eq_foldlM {σ : Type} (load : σ → List Byte → Except LogErr σ) (s : σ)
    (fp : List Byte) : parseLoop load s fp = (loadedBuffers fp).foldlM load s := by
  induction hn : fp.length using Nat.strong_induction_on generalizing fp s with
  | _ n ih =>
    by_cases hne : fp = []
    · subst hne
      rw [parseLoop]
      split
      · unfold loadedBuffers
        rw [reads_nil]
        rfl
      · rename_i h
        rw [fgets_eq_none_iff.mpr rfl] at h
        cases h
    · have hlt := length_takeLine_snd_lt lf 510 hne
      have hread : loadedBuffers fp =
          if NoTag (takeLine lf 511 fp).1 then
            (takeLine lf 511 fp).1 :: loadedBuffers (takeLine lf 511 fp).2
          else loadedBuffers (takeLine lf 511 fp).2 := by
        unfold loadedBuffers
        rw [reads_of_ne_nil 510 hne, List.filter_cons]
        simp only [decide_eq_true_eq]
      rw [parseLoop]
      split
      · rename_i h
        rw [fgets_of_ne_nil hne] at h
        cases h
      · rename_i cb rest h
        rw [fgets_of_ne_nil hne, Option.some.injEq] at h
        rw [h] at hread hlt
        rw [hread]
        split
        · rename_i i hi
          have htag : ¬ NoTag cb := fun hno => by
            rw [strchr_eq_none_iff.mpr hno] at hi
            cases hi
          rw [if_neg htag, ih _ (hn ▸ hlt) s rest rfl]
        · rename_i hnone
          rw [if_pos (show NoTag cb from strchr_eq_none_iff.mp hnone), List.foldlM_cons]
          exact congrArg _ (funext fun s => ih _ (hn ▸ hlt) s rest rfl)

/-- `hls_parse` is these calls, until one of them ends the process. -/
theorem hlsParse_eq {fs : FileSystem} {playlist : Playlist} {text : List Byte}
    (h : fs playlist.url = some text) (stale : ℕ → ℕ → Stale) :
    hlsParse fs stale playlist = (loadedBuffers text).foldlM (loadMedia fs stale) playlist := by
  unfold hlsParse
  rw [h]
  exact parseLoop_eq_foldlM (loadMedia fs stale) playlist text

/-- `load_media` replaced by a record of the path it opens. -/
def recordMedia (calls : List Path) (path : List Byte) : Except LogErr (List Path) :=
  .ok (calls ++ [mediaPath path])

/-- The paths that `load_media` is called to open. -/
def openedPaths (text : List Byte) : List Path := (loadedBuffers text).map mediaPath

theorem parseLoop_recordMedia (text : List Byte) :
    parseLoop recordMedia [] text = .ok (openedPaths text) := by
  suffices h : ∀ (buffers : List (List Byte)) (calls : List Path),
      buffers.foldlM recordMedia calls = .ok (calls ++ buffers.map mediaPath) by
    rw [parseLoop_eq_foldlM, h]
    rfl
  intro buffers
  induction buffers with
  | nil =>
    intro calls
    rw [List.map_nil, List.append_nil]
    rfl
  | cons cb buffers ih =>
    intro calls
    rw [List.foldlM_cons]
    exact (ih (calls ++ [mediaPath cb])).trans (by simp)

theorem cString_cons {b : Byte} (h : b ≠ 0) (cb : List Byte) :
    cString (b :: cb) = b :: cString cb := List.takeWhile_cons_of_pos (by simpa using h)

theorem cString_zero (cb : List Byte) : cString (0 :: cb) = [] :=
  List.takeWhile_cons_of_neg (by simp)

theorem strchr_cons {b : Byte} (h : b ≠ 0) (cb : List Byte) (c : Byte) :
    strchr (b :: cb) c = if b = c then some 0 else (strchr cb c).map (· + 1) := by
  unfold strchr
  rw [cString_cons h, List.findIdx?_cons]
  simp only [decide_eq_true_eq]

/-- The path ends before the first end of line. -/
theorem mediaPath_eq (path : List Byte) : mediaPath path = (cString path).takeWhile (· ≠ lf) := by
  unfold mediaPath
  induction path with
  | nil => rfl
  | cons b path ih =>
    by_cases h0 : b = 0
    · subst h0
      have hnone : strchr (0 :: path) lf = none :=
        strchr_eq_none_iff.mpr (by rw [cString_zero]; exact List.not_mem_nil)
      rw [hnone, cString_zero]
      rfl
    · rw [strchr_cons h0, cString_cons h0]
      by_cases hlf : b = lf
      · rw [if_pos hlf, List.takeWhile_cons_of_neg (by simpa using hlf)]
        exact cString_zero path
      · rw [if_neg hlf, List.takeWhile_cons_of_pos (by simpa using hlf), ← ih]
        cases strchr path lf with
        | none => rfl
        | some nl => exact cString_cons h0 (path.set nl 0)

theorem openedPaths_eq_flatMap (text : List Byte) :
    openedPaths text = (lines lf text).flatMap openedPaths := by
  unfold openedPaths loadedBuffers
  rw [reads_eq_flatMap, List.filter_flatMap, List.map_flatMap]

/-- What is opened holds neither a `#` nor a zero. -/
theorem not_mem_of_opened {text : List Byte} {path : Path} (h : path ∈ openedPaths text) :
    hash ∉ path ∧ 0 ∉ path := by
  obtain ⟨cb, hcb, rfl⟩ := List.mem_map.mp h
  have hno : NoTag cb := by simpa using (List.mem_filter.mp hcb).2
  rw [mediaPath_eq]
  constructor
  · intro hmem
    exact hno (List.takeWhile_sublist _ |>.mem hmem)
  · intro hmem
    have h0 := List.mem_takeWhile_imp ((List.takeWhile_sublist _).mem hmem)
    simp at h0

/-! ## What is asked of a playlist -/

/-- A line without its terminator, LF or CRLF. -/
def lineContent (line : List Byte) : List Byte :=
  if [cr, lf] <:+ line then line.dropLast.dropLast
  else if [lf] <:+ line then line.dropLast
  else line

/-- The path that a line stands for: none for a blank line or a tag. -/
def lineUri (line : List Byte) : List Path :=
  if lineContent line = [] ∨ (lineContent line).head? = some hash then [] else [lineContent line]

/-- The paths of a playlist, in order. -/
def uriPaths (text : List Byte) : List Path := (lines lf text).flatMap lineUri

/-- The line is read as it should be. -/
structure LineRead (line : List Byte) : Prop where
  /-- A blank line is opened as a path. -/
  notBlank : lineContent line ≠ []
  /-- Of a tag every piece that fits the buffer must show a `#`. -/
  tag : (lineContent line).head? = some hash → ∀ cb ∈ reads lf 510 line, ¬ NoTag cb
  /-- A path must fit the buffer with its terminator, which is LF, and holds no `#` and no zero. -/
  uri : (lineContent line).head? ≠ some hash →
    line.length ≤ 511 ∧ ¬ [cr, lf] <:+ line ∧ hash ∉ line ∧ 0 ∉ line

/-! ### One line -/

section Line

variable {line body : List Byte} (hbody : lf ∉ body)
  (hline : line = body ++ [lf] ∨ line = body ∧ body ≠ [])
include hbody hline

/-- The content is the body of the line, but for a CR in front of the LF. -/
theorem lineContent_cases : lineContent line = body ∧ ¬ [cr, lf] <:+ line ∨
    body = lineContent line ++ [cr] ∧ line = lineContent line ++ [cr, lf] := by
  unfold lineContent
  by_cases hcr : [cr, lf] <:+ line
  · obtain ⟨pre, rfl⟩ := hcr
    have hpre : (pre ++ [cr, lf]).dropLast.dropLast = pre := by
      rw [show pre ++ [cr, lf] = pre ++ [cr] ++ [lf] by simp, List.dropLast_concat,
        List.dropLast_concat]
    rw [if_pos (List.suffix_append _ _), hpre]
    refine Or.inr ⟨?_, rfl⟩
    rcases hline with h | ⟨h, -⟩
    · rw [show pre ++ [cr, lf] = pre ++ [cr] ++ [lf] by simp] at h
      exact (List.append_inj_left' h rfl).symm
    · exact absurd (h ▸ by simp) hbody
  · rw [if_neg hcr]
    refine Or.inl ⟨?_, hcr⟩
    rcases hline with rfl | ⟨rfl, -⟩
    · rw [if_pos (List.suffix_append _ _), List.dropLast_concat]
    · rw [if_neg fun h => hbody (h.mem (List.mem_singleton_self _))]

/-- A byte of the line is in its content or belongs to the terminator. -/
theorem mem_content_of_mem {b : Byte} (hb : b ∈ line) :
    b ∈ lineContent line ∨ b = cr ∨ b = lf := by
  rcases lineContent_cases hbody hline with ⟨hc, -⟩ | ⟨-, hc⟩
  · rw [hc]
    rcases hline with rfl | ⟨rfl, -⟩
    · rcases List.mem_append.mp hb with h | h
      · exact Or.inl h
      · exact Or.inr (Or.inr (List.mem_singleton.mp h))
    · exact Or.inl hb
  · rw [hc] at hb
    rcases List.mem_append.mp hb with h | h
    · exact Or.inl h
    · exact Or.inr (by simpa using h)

theorem not_mem_line {b : Byte} (hb : b ∉ lineContent line) (hcr : b ≠ cr) (hlf : b ≠ lf) :
    b ∉ line := by
  intro h
  rcases mem_content_of_mem hbody hline h with h | h | h
  · exact hb h
  · exact hcr h
  · exact hlf h

theorem mediaPath_line (h0 : 0 ∉ line) : mediaPath line = body := by
  have hstring : cString line = line := by
    unfold cString
    rw [List.takeWhile_eq_self_iff]
    intro b hb
    simp only [ne_eq, decide_not, Bool.not_eq_eq_eq_not, Bool.not_true, decide_eq_false_iff_not]
    rintro rfl
    exact h0 hb
  have hall : ∀ b ∈ body, decide (b ≠ lf) = true := by
    intro b hb
    rw [decide_eq_true_eq]
    rintro rfl
    exact hbody hb
  rw [mediaPath_eq, hstring]
  rcases hline with rfl | ⟨rfl, -⟩
  · rw [List.takeWhile_append_of_pos hall]
    simp
  · exact List.takeWhile_eq_self_iff.mpr hall

omit hbody hline in
/-- Without a `#` every piece of the line is opened. -/
theorem loadedBuffers_of_not_mem (h : hash ∉ line) : loadedBuffers line = reads lf 510 line := by
  unfold loadedBuffers
  rw [List.filter_eq_self]
  intro cb hcb
  rw [decide_eq_true_eq]
  intro hmem
  apply h
  rw [← flatten_reads lf 510 line]
  exact List.mem_flatten.mpr ⟨cb, hcb, (List.takeWhile_sublist _).mem hmem⟩

theorem openedPaths_of_short (hlen : line.length ≤ 511) (h : hash ∉ line) :
    openedPaths line = [mediaPath line] := by
  unfold openedPaths
  rw [loadedBuffers_of_not_mem h, reads_of_short hbody hline hlen]
  rfl

end Line

/-- From a tag nothing may be opened. -/
theorem openedPaths_tag_iff {line : List Byte} (htag : (lineContent line).head? = some hash) :
    openedPaths line = lineUri line ↔ LineRead line := by
  have hne : lineContent line ≠ [] := by
    intro h
    rw [h] at htag
    cases htag
  have huri : lineUri line = [] := if_pos (Or.inr htag)
  have hnone : openedPaths line = [] ↔ ∀ cb ∈ reads lf 510 line, ¬ NoTag cb := by
    unfold openedPaths loadedBuffers
    rw [List.map_eq_nil_iff, List.filter_eq_nil_iff]
    simp only [decide_eq_true_eq]
  rw [huri, hnone]
  exact ⟨fun h => ⟨hne, fun _ => h, fun h' => absurd htag h'⟩, fun h => h.tag htag⟩

/-- A blank line is opened. -/
theorem openedPaths_blank {line body : List Byte} (hbody : lf ∉ body)
    (hline : line = body ++ [lf] ∨ line = body ∧ body ≠ []) (hblank : lineContent line = []) :
    openedPaths line ≠ lineUri line := by
  have huri : lineUri line = [] := if_pos (Or.inl hblank)
  have hshort : line.length ≤ 511 := by
    rcases lineContent_cases hbody hline with ⟨hc, -⟩ | ⟨-, hc⟩
    · rcases hline with rfl | ⟨-, hne⟩
      · rw [← hc, hblank]
        decide
      · exact absurd (hc.symm.trans hblank) hne
    · rw [hc, hblank]
      decide
  have hhash : hash ∉ line :=
    not_mem_line hbody hline (by rw [hblank]; exact List.not_mem_nil) (by decide) (by decide)
  rw [openedPaths_of_short hbody hline hshort hhash, huri]
  exact List.cons_ne_nil _ _

/-- A path is to be opened as it stands. -/
theorem openedPaths_uri_iff {line body : List Byte} (hbody : lf ∉ body)
    (hline : line = body ++ [lf] ∨ line = body ∧ body ≠ [])
    (htag : ¬ (lineContent line).head? = some hash) (hblank : lineContent line ≠ []) :
    openedPaths line = lineUri line ↔ LineRead line := by
  have hcases := lineContent_cases hbody hline
  have huri : lineUri line = [lineContent line] := if_neg (not_or.mpr ⟨hblank, htag⟩)
  rw [huri]
  constructor
  · intro h
    have hmem : lineContent line ∈ openedPaths line := by
      rw [h]
      exact List.mem_singleton_self _
    have hhash : hash ∉ line :=
      not_mem_line hbody hline (not_mem_of_opened hmem).1 (by decide) (by decide)
    have hzero : 0 ∉ line :=
      not_mem_line hbody hline (not_mem_of_opened hmem).2 (by decide) (by decide)
    have hlen : line.length ≤ 511 := by
      refine length_le_of_reads (?_ : (reads lf 510 line).length ≤ 1)
      have hone := congrArg List.length h
      unfold openedPaths at hone
      rw [loadedBuffers_of_not_mem hhash, List.length_map, List.length_singleton] at hone
      exact hone.le
    rw [openedPaths_of_short hbody hline hlen hhash, mediaPath_line hbody hline hzero] at h
    refine ⟨hblank, fun h' => absurd h' htag, fun _ => ⟨hlen, ?_, hhash, hzero⟩⟩
    rcases hcases with ⟨-, hcr⟩ | ⟨hc, -⟩
    · exact hcr
    · have hlong := congrArg List.length hc
      rw [List.length_append, List.length_singleton, (List.cons.inj h).1] at hlong
      omega
  · intro h
    obtain ⟨hlen, hcr, hhash, hzero⟩ := h.uri htag
    have hc : lineContent line = body := by
      rcases hcases with ⟨hc, -⟩ | ⟨-, hc⟩
      · exact hc
      · exact absurd ⟨lineContent line, hc.symm⟩ hcr
    rw [openedPaths_of_short hbody hline hlen hhash, mediaPath_line hbody hline hzero, hc]

/-- A line yields what is asked of it exactly when it is read as it should be. -/
theorem openedPaths_line_iff {line body : List Byte} (hbody : lf ∉ body)
    (hline : line = body ++ [lf] ∨ line = body ∧ body ≠ []) :
    openedPaths line = lineUri line ↔ LineRead line := by
  by_cases htag : (lineContent line).head? = some hash
  · exact openedPaths_tag_iff htag
  · by_cases hblank : lineContent line = []
    · exact iff_of_false (openedPaths_blank hbody hline hblank) fun h => h.notBlank hblank
    · exact openedPaths_uri_iff hbody hline htag hblank

/-! ### All lines -/

/-- When the whole text is read as it should be, so is each of its lines: no line can stand in for
another, since nothing that is opened holds a `#`. -/
theorem openedPaths_lines {text : List Byte} (h : openedPaths text = uriPaths text) :
    ∀ line ∈ lines lf text, openedPaths line = lineUri line := by
  rw [openedPaths_eq_flatMap] at h
  refine flatMap_inj_of_length_le (fun line hmem => ?_) h
  obtain ⟨body, hbody, hline⟩ := exists_body_of_mem_lines hmem
  unfold lineUri
  split_ifs with hnone
  · exact Nat.zero_le _
  · have hopened : lineContent line ∈ openedPaths text := by
      rw [openedPaths_eq_flatMap, h]
      exact List.mem_flatMap.mpr ⟨line, hmem, by
        unfold lineUri
        rw [if_neg hnone]
        exact List.mem_singleton_self _⟩
    have hhash : hash ∉ line :=
      not_mem_line hbody hline (not_mem_of_opened hopened).1 (by decide) (by decide)
    have hne : line ≠ [] := by
      rcases hline with rfl | ⟨rfl, hne⟩
      · simp
      · exact hne
    unfold openedPaths
    rw [loadedBuffers_of_not_mem hhash, List.length_map, reads_of_ne_nil 510 hne]
    exact Nat.succ_le_succ (Nat.zero_le _)

/-- **Reading a playlist.** `hls_parse` opens exactly the paths of the playlist, in order, when each
of its lines is `LineRead`, and only then. -/
theorem hlsParse_calls_iff (text : List Byte) :
    parseLoop recordMedia [] text = .ok (uriPaths text) ↔
      ∀ line ∈ lines lf text, LineRead line := by
  rw [parseLoop_recordMedia, Except.ok.injEq]
  have hiff : ∀ line ∈ lines lf text, (openedPaths line = lineUri line ↔ LineRead line) := by
    intro line hmem
    obtain ⟨body, hbody, hline⟩ := exists_body_of_mem_lines hmem
    exact openedPaths_line_iff hbody hline
  constructor
  · exact fun h line hmem => (hiff line hmem).mp (openedPaths_lines h line hmem)
  · intro h
    rw [openedPaths_eq_flatMap, uriPaths]
    exact List.flatMap_congr fun line hmem => (hiff line hmem).mpr (h line hmem)

/-- A blank line is opened as the empty path. -/
theorem not_calls_blank :
    ¬ ∀ text : List Byte, parseLoop recordMedia [] text = .ok (uriPaths text) := by
  intro h
  have hopened := h [lf]
  rw [parseLoop_recordMedia, Except.ok.injEq] at hopened
  have hblank := openedPaths_lines hopened [lf] (List.mem_singleton_self _)
  have hbody : lf ∉ ([] : List Byte) := List.not_mem_nil
  exact ((openedPaths_line_iff hbody (Or.inl rfl)).mp hblank).notBlank (by decide)

end MpegtsReader

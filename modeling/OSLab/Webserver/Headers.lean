import OSLab.Webserver.Rio
import OSLab.Webserver.Response

/-!
# Reading the headers (`webserver/request.c`)

`request_read_headers` reads lines until one is empty. At the end of file `rio_readlineb` stores
nothing, so the last line stays in the array and the loop reads on forever.

* `requestReadHeaders_eq`: with `read` and the buffer behind it, the function does what it does
  on the stream (`Request`).
* `readHeaders_eof`: after the end of file the loop does not end.
* `headersEnd_iff`: the headers are read to their end if and only if the stream has an empty line
  and each line in front of it fits in the array.
-/

namespace OSLab.Webserver

namespace Rio

/-- `Rio_readlineb(rp, buf, MAXLINE)` on an array of `MAXLINE` bytes, of which `buf` says what was
stored in it last. An error ends the process. -/
def readlineInto (buf : Option (List UInt8)) (rp : Rio) (fd : List Read) :
    Option (Option (List UInt8) × Rio × List Read) := do
  let (l, rp, fd) ← rp.readlineb fd maxLine
  if l.ret < 0 ∨ maxLine < l.stored.length then none
  else return (if l.stored = [] then buf else some l.stored, rp, fd)

/-- The loop of `request_read_headers`, for at most `fuel` turns. -/
def headerLoop : ℕ → Option (List UInt8) → Rio → List Read → Option (Rio × List Read)
  | 0, _, _, _ => none
  | fuel + 1, buf, rp, fd => do
    let line ← buf
    if cString line = text "\r\n" then some (rp, fd)
    else do
      let (buf, rp, fd) ← readlineInto buf rp fd
      headerLoop fuel buf rp fd

/-- `request_read_headers`. -/
def requestReadHeaders (fuel : ℕ) (rp : Rio) (fd : List Read) : Option (Rio × List Read) := do
  let (buf, rp, fd) ← readlineInto none rp fd
  headerLoop fuel buf rp fd

variable {rp : Rio} {fd : List Read} {s rest : List UInt8} {fuel : ℕ}

theorem cString_append_nul (l : List UInt8) : cString (l ++ [0]) = cString l := by
  induction l with
  | nil => rfl
  | cons c l ih =>
    by_cases hc : c = 0
    · simp [cString, hc]
    · simpa [cString, hc] using ih

/-- One line: what `buf` holds afterwards is what it holds in the model on the stream, and a NUL. -/
theorem readlineInto_eq (h : rp.Unread fd s) (buf : Option (List UInt8)) :
    (rioReadlineb buf s = none ∧ readlineInto (buf.map (· ++ [0])) rp fd = none) ∨
      ∃ buf' rest rp' fd', rioReadlineb buf s = some (buf', rest) ∧ rp'.Unread fd' rest ∧
        readlineInto (buf.map (· ++ [0])) rp fd = some (buf'.map (· ++ [0]), rp', fd') := by
  have hle := lineOf_length_le maxLine s
  obtain ⟨-, rp', fd', hu, he⟩ | ⟨hlong, -⟩ := readlineb_eq h (show 1 ≤ maxLine by decide)
  · rw [readlineInto, he]
    by_cases hnil : (lineOf maxLine s).1 = []
    · refine Or.inr ⟨buf, (lineOf maxLine s).2, rp', fd', by simp [rioReadlineb, hnil], hu, ?_⟩
      simp [lineRead, hnil]
    by_cases hlt : (lineOf maxLine s).1.length < maxLine
    · refine Or.inr ⟨some (lineOf maxLine s).1, (lineOf maxLine s).2, rp', fd',
        by simp [rioReadlineb, hnil, hlt], hu, ?_⟩
      simp [lineRead, hnil]
      omega
    · refine Or.inl ⟨by simp [rioReadlineb, hnil, hlt], ?_⟩
      simp [lineRead, hnil]
      omega
  · have : maxLine < 2 ^ 31 := by decide
    omega

theorem headerLoop_eq (h : rp.Unread fd s) (buf : Option (List UInt8)) :
    (readHeaders fuel buf s = none ∧ headerLoop fuel (buf.map (· ++ [0])) rp fd = none) ∨
      ∃ rest rp' fd', readHeaders fuel buf s = some rest ∧ rp'.Unread fd' rest ∧
        headerLoop fuel (buf.map (· ++ [0])) rp fd = some (rp', fd') := by
  induction fuel generalizing rp fd s buf with
  | zero => exact Or.inl ⟨rfl, rfl⟩
  | succ fuel ih =>
    cases buf with
    | none => exact Or.inl ⟨rfl, rfl⟩
    | some line =>
      by_cases hend : cString line = text "\r\n"
      · refine Or.inr ⟨s, rp, fd, by simp [readHeaders, hend], h, ?_⟩
        simp [headerLoop, cString_append_nul, hend]
      · obtain ⟨hn, hn'⟩ | ⟨buf', rest, rp', fd', he, hu, he'⟩ := readlineInto_eq h (some line)
        · refine Or.inl ⟨by simp [readHeaders, hend, hn], ?_⟩
          rw [Option.map_some] at hn' ⊢
          simp [headerLoop, cString_append_nul, hend, hn']
        · rw [Option.map_some] at he' ⊢
          have hs : readHeaders (fuel + 1) (some line) s = readHeaders fuel buf' rest := by
            simp [readHeaders, hend, he]
          have hr : headerLoop (fuel + 1) (some (line ++ [0])) rp fd =
              headerLoop fuel (buf'.map (· ++ [0])) rp' fd' := by
            simp [headerLoop, cString_append_nul, hend, he']
          rw [hs, hr]
          exact ih hu buf'

/-- **Reading the headers does not depend on `read`**: it does what it does on the stream. -/
theorem requestReadHeaders_eq (fuel : ℕ) (h : rp.Unread fd s) :
    (Webserver.requestReadHeaders fuel s = none ∧ requestReadHeaders fuel rp fd = none) ∨
      ∃ rest rp' fd', Webserver.requestReadHeaders fuel s = some rest ∧ rp'.Unread fd' rest ∧
        requestReadHeaders fuel rp fd = some (rp', fd') := by
  obtain ⟨hn, hn'⟩ | ⟨buf, rest, rp', fd', he, hu, he'⟩ := readlineInto_eq h none
  · exact Or.inl ⟨by simp [Webserver.requestReadHeaders, hn],
      by rw [requestReadHeaders, ← Option.map_none, hn']; rfl⟩
  · rw [Option.map_none] at he'
    simpa [Webserver.requestReadHeaders, he, requestReadHeaders, he'] using headerLoop_eq hu buf

end Rio

variable {s rest : List UInt8} {ls : List (List UInt8)} {fuel : ℕ}

/-! ### Lines and the empty line -/

/-- A line of the stream: its only newline is its last byte. -/
def IsLine (l : List UInt8) : Prop := l.getLast? = some 10 ∧ 10 ∉ l.dropLast

/-- The stream is some lines that are not empty, the empty line, and the rest. -/
structure Heads (s : List UInt8) (ls : List (List UInt8)) (rest : List UInt8) : Prop where
  split : s = ls.flatten ++ (text "\r\n" ++ rest)
  line : ∀ l ∈ ls, IsLine l ∧ l ≠ text "\r\n"

theorem lineOf_line {l : List UInt8} {m : ℕ} (h : IsLine l) (hm : l.length ≤ m) :
    lineOf m (l ++ rest) = (l, rest) := by
  induction l generalizing m with
  | nil => cases h.1
  | cons c l ih =>
    obtain ⟨m, rfl⟩ : ∃ k, m = k + 1 := ⟨m - 1, by simp at hm; omega⟩
    obtain ⟨hlast, hmem⟩ := h
    cases l with
    | nil =>
      obtain rfl : c = 10 := by simpa using hlast
      simp [lineOf]
    | cons d l =>
      rw [List.dropLast_cons_cons, List.mem_cons, not_or] at hmem
      rw [List.getLast?_cons_cons] at hlast
      have hrest := ih ⟨hlast, hmem.2⟩ (Nat.le_of_succ_le_succ hm)
      rw [List.cons_append, lineOf, if_neg (Ne.symm hmem.1), hrest]

/-- The string in the array is `"\r\n"` for the empty line only. -/
theorem cString_eq_crlf {l : List UInt8} (h : 10 ∉ l.dropLast) :
    cString l = text "\r\n" ↔ l = text "\r\n" := by
  constructor
  · intro hc
    obtain ⟨more, hmore⟩ : text "\r\n" <+: l := hc ▸ List.takeWhile_prefix _
    rw [← hmore] at h ⊢
    cases more with
    | nil => rw [List.append_nil]
    | cons d more => exact absurd (by simp [text_crlf]) h
  · rintro rfl
    decide

theorem rioReadlineb_line {l : List UInt8} (h : IsLine l) (hl : l.length < maxLine)
    (buf : Option (List UInt8)) : rioReadlineb buf (l ++ rest) = some (some l, rest) := by
  have hne : l ≠ [] := by
    rintro rfl
    cases h.1
  rw [rioReadlineb, lineOf_line h hl.le]
  simp [hne, hl]

/-- **After the end of file the loop does not end**: nothing is stored in the array any more. -/
theorem readHeaders_eof {line : List UInt8} (h : cString line ≠ text "\r\n") (fuel : ℕ) :
    readHeaders fuel (some line) [] = none := by
  induction fuel with
  | zero => rfl
  | succ fuel ih =>
    have hread : rioReadlineb (some line) [] = some (some line, []) := rfl
    simp [readHeaders, h, hread, ih]

theorem isLine_crlf : IsLine (text "\r\n") := ⟨rfl, by decide⟩

/-- A turn of the loop that reads a line. -/
theorem readHeaders_line {line l : List UInt8} (hline : cString line ≠ text "\r\n") (h : IsLine l)
    (hl : l.length < maxLine) (fuel : ℕ) :
    readHeaders (fuel + 1) (some line) (l ++ rest) = readHeaders fuel (some l) rest := by
  simp [readHeaders, hline, rioReadlineb_line h hl]

theorem readHeaders_of_heads {line : List UInt8} (hline : cString line ≠ text "\r\n")
    (h : Heads s ls rest) (hlen : ∀ l ∈ ls, l.length < maxLine) :
    readHeaders (ls.length + 2) (some line) s = some rest := by
  induction ls generalizing s line with
  | nil =>
    have hs : s = text "\r\n" ++ rest := h.split
    have hend : cString (text "\r\n") = text "\r\n" := by decide
    rw [hs, List.length_nil, readHeaders_line hline isLine_crlf (by decide)]
    simp [readHeaders, hend]
  | cons l ls ih =>
    obtain ⟨hl, hne⟩ := h.line l List.mem_cons_self
    have hs : s = l ++ (ls.flatten ++ (text "\r\n" ++ rest)) := by
      rw [h.split, List.flatten_cons, List.append_assoc]
    have htail : Heads (ls.flatten ++ (text "\r\n" ++ rest)) ls rest :=
      ⟨rfl, fun l' hl' => h.line l' (List.mem_cons_of_mem _ hl')⟩
    rw [hs, List.length_cons, Nat.add_right_comm,
      readHeaders_line hline hl (hlen l List.mem_cons_self)]
    exact ih (fun hc => hne ((cString_eq_crlf hl.2).1 hc)) htail
      fun l' hl' => hlen l' (List.mem_cons_of_mem _ hl')

/-- The loop that ends has read lines up to an empty one. -/
theorem heads_of_readHeaders {line : List UInt8} (hline : 10 ∉ line.dropLast)
    (h : readHeaders fuel (some line) s = some rest) :
    (line = text "\r\n" ∧ s = rest) ∨
      (line ≠ text "\r\n" ∧ ∃ ls, Heads s ls rest ∧ ∀ l ∈ ls, l.length < maxLine) := by
  induction fuel generalizing s line with
  | zero => cases h
  | succ fuel ih =>
    by_cases hend : cString line = text "\r\n"
    · refine Or.inl ⟨(cString_eq_crlf hline).1 hend, ?_⟩
      simpa [readHeaders, hend] using h
    refine Or.inr ⟨fun hc => hend ((cString_eq_crlf hline).2 hc), ?_⟩
    have happ := lineOf_append maxLine s
    have hnl := newline_notMem_lineOf maxLine s
    by_cases hnil : (lineOf maxLine s).1 = []
    · have hs := lineOf_eq_nil (by decide) hnil
      rw [hs, readHeaders_eof hend] at h
      cases h
    by_cases hlt : (lineOf maxLine s).1.length < maxLine
    · have hread : rioReadlineb (some line) s =
          some (some (lineOf maxLine s).1, (lineOf maxLine s).2) := by
        simp [rioReadlineb, hnil, hlt]
      have hrest : readHeaders fuel (some (lineOf maxLine s).1) (lineOf maxLine s).2 = some rest := by
        simpa [readHeaders, hend, hread] using h
      obtain ⟨hcrlf, htail⟩ | ⟨hne, ls, htail, hlen⟩ := ih hnl hrest
      · refine ⟨[], ⟨?_, by simp⟩, by simp⟩
        rw [List.flatten_nil, List.nil_append, ← hcrlf, ← htail, happ]
      · -- the line ends at a newline, since something follows it
        have hlast : IsLine (lineOf maxLine s).1 := by
          obtain hlast | hmax | hnone := lineOf_ends maxLine s
          · exact ⟨hlast, hnl⟩
          · omega
          · have hsplit := htail.split
            rw [hnone] at hsplit
            simp [text_crlf] at hsplit
        refine ⟨(lineOf maxLine s).1 :: ls, ⟨?_, ?_⟩, ?_⟩
        · rw [List.flatten_cons, List.append_assoc, ← htail.split, happ]
        · rw [List.forall_mem_cons]
          exact ⟨⟨hlast, hne⟩, htail.line⟩
        · rw [List.forall_mem_cons]
          exact ⟨hlt, hlen⟩
    · have hread : rioReadlineb (some line) s = none := by simp [rioReadlineb, hnil, hlt]
      simp [readHeaders, hend, hread] at h

/-- **The headers are read** if and only if there is an empty line, and the lines in front of it
fit in the array. -/
theorem requestReadHeaders_iff :
    (∃ fuel, requestReadHeaders fuel s = some rest) ↔
      ∃ ls, Heads s ls rest ∧ ∀ l ∈ ls, l.length < maxLine := by
  -- the first line is read before the loop: as by a turn of it, if there is one
  have hstart {fuel : ℕ} (hs : s ≠ []) :
      requestReadHeaders fuel s = readHeaders (fuel + 1) (some []) s := by
    have hne : (lineOf maxLine s).1 ≠ [] := fun hnil => hs (lineOf_eq_nil (by decide) hnil)
    have hend : cString [] ≠ text "\r\n" := by decide
    simp [requestReadHeaders, readHeaders, rioReadlineb, hne, hend]
  by_cases hs : s = []
  · subst hs
    constructor
    · rintro ⟨fuel, h⟩
      have hread : rioReadlineb none [] = some (none, []) := rfl
      rw [requestReadHeaders, hread] at h
      cases fuel <;> cases h
    · rintro ⟨ls, h, -⟩
      have hsplit := h.split
      simp [text_crlf] at hsplit
  · constructor
    · rintro ⟨fuel, h⟩
      rw [hstart hs] at h
      obtain ⟨hcrlf, -⟩ | ⟨-, hheads⟩ := heads_of_readHeaders (by simp) h
      · exact absurd hcrlf (by decide)
      · exact hheads
    · rintro ⟨ls, h, hlen⟩
      exact ⟨ls.length + 1, by rw [hstart hs]; exact readHeaders_of_heads (by decide) h hlen⟩

/-! ### What a connection should do -/

/-- Reading the headers ends right: behind the first empty line of the unread bytes or, without
one, at the end of file. -/
def HeadersEnd (rp : Rio) (fd : List Read) (s : List UInt8) : Prop :=
  ∃ fuel rp' fd' rest, Rio.requestReadHeaders fuel rp fd = some (rp', fd') ∧
    rp'.Unread fd' rest ∧ ((∃ ls, Heads s ls rest) ∨ (¬∃ ls rest', Heads s ls rest') ∧ rest = [])

/-- The unread bytes have an empty line, and each line in front of it has fewer than `MAXLINE`
bytes. -/
def HasEmptyLine (s : List UInt8) : Prop :=
  ∃ ls rest, Heads s ls rest ∧ ∀ l ∈ ls, l.length < maxLine

variable {rp : Rio} {fd : List Read}

theorem hasEmptyLine_of_end (h : rp.Unread fd s) (hend : HeadersEnd rp fd s) :
    HasEmptyLine s := by
  obtain ⟨fuel, rp', fd', rest, he, -⟩ := hend
  obtain ⟨-, hnone⟩ | ⟨rest', -, -, hs, -⟩ := Rio.requestReadHeaders_eq fuel h
  · rw [hnone] at he
    cases he
  · obtain ⟨ls, hheads⟩ := requestReadHeaders_iff.1 ⟨fuel, hs⟩
    exact ⟨ls, rest', hheads⟩

/-- **Reading the headers ends** where it should if and only if the unread bytes have an empty
line and each line in front of it fits in the array. -/
theorem headersEnd_iff (h : rp.Unread fd s) : HeadersEnd rp fd s ↔ HasEmptyLine s := by
  refine ⟨hasEmptyLine_of_end h, ?_⟩
  rintro ⟨ls, rest, hheads, hlen⟩
  obtain ⟨fuel, hs⟩ := requestReadHeaders_iff.2 ⟨ls, hheads, hlen⟩
  obtain ⟨hnone, -⟩ | ⟨rest', rp', fd', hs', hu, he⟩ := Rio.requestReadHeaders_eq fuel h
  · rw [hnone] at hs
    cases hs
  · obtain rfl := Option.some.inj (hs'.symm.trans hs)
    exact ⟨fuel, rp', fd', rest', he, hu, Or.inl ⟨ls, hheads⟩⟩

/-- A buffer of the right size. -/
def zeros : List UInt8 := List.replicate rioBufSize 0

theorem zeros_length : zeros.length = rioBufSize := List.length_replicate

theorem headersEnd_host : HeadersEnd (Rio.init zeros zeros_length)
    [.bytes (text "Host: a\r\n") (by decide), .eintr, .bytes (text "\r\n") (by decide)]
    (text "Host: a\r\n" ++ (text "\r\n" ++ [])) :=
  (headersEnd_iff (Rio.Unread.start zeros_length
    (.chunk (by decide) (.eintr (.chunk (by decide) .done))))).2
    ⟨[text "Host: a\r\n"], [], ⟨rfl, by simp [IsLine]; decide⟩, by decide⟩

/-- A client that closes the connection behind a header is waited for forever. -/
theorem closed_early : ¬HeadersEnd (Rio.init zeros zeros_length)
    [.bytes (text "Host: a\r\n") (by decide)] (text "Host: a\r\n" ++ []) := by
  intro hend
  have hu : (Rio.init zeros zeros_length).Unread [.bytes (text "Host: a\r\n") (by decide)]
      (text "Host: a\r\n" ++ []) :=
    Rio.Unread.start zeros_length (.chunk (by decide) .done)
  obtain ⟨ls, rest, hheads⟩ := hasEmptyLine_of_end hu hend
  obtain ⟨fuel, hs⟩ := requestReadHeaders_iff.2 ⟨ls, hheads⟩
  have hread : rioReadlineb none (text "Host: a\r\n" ++ []) =
      some (some (text "Host: a\r\n"), []) :=
    rioReadlineb_line ⟨rfl, by decide⟩ (by decide) none
  have heof : requestReadHeaders fuel (text "Host: a\r\n" ++ []) =
      readHeaders fuel (some (text "Host: a\r\n")) [] := by
    rw [requestReadHeaders, hread]
    rfl
  rw [heof, readHeaders_eof (by decide)] at hs
  cases hs

end OSLab.Webserver

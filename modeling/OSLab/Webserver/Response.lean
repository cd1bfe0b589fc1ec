import OSLab.Webserver.Request
import OSLab.Lib.Framing
import Mathlib.Data.List.Induction

/-!
# Responses

`Response` is an HTTP response whose `Content-Length` is the length of its body: what is written
says what the response is, and two in a row are not one (`Response.Valid.append_ne`).
`request_error` writes one (`requestError_ok`), and so does `request_sendfile`
(`requestSendfile_ok`); `request_readfile` reads a file that passes its checks and else writes
one (`requestReadfile_ok`). It reads all of the file when the size is an `int`
(`requestReadfile_complete`).
-/

namespace OSLab.Webserver

variable {name : Name} {disk : Disk} {written cause errnum shortmsg longmsg : List UInt8}
  {data : FileData} {rd : ReadResult}

/-! ### Numbers and sums -/

theorem digit_of_mem {n : ℕ} {d : Char} (h : d ∈ Nat.toDigits 10 n) : d.isDigit = true :=
  Nat.isDigit_of_mem_toDigits (by omega) (by omega) h

/-- The byte of a digit is its code. -/
theorem digit_byte {d : Char} (hd : d.isDigit = true) :
    d.toNat.toUInt8.toNat = d.toNat ∧ 48 ≤ d.toNat := by
  simp only [Char.isDigit, Bool.and_eq_true, decide_eq_true_eq, UInt32.le_iff_toNat_le] at hd
  have h0 : 48 ≤ d.toNat := hd.1
  have h1 : d.toNat ≤ 57 := hd.2
  refine ⟨?_, h0⟩
  show d.toNat % 2 ^ 8 = d.toNat
  omega

/-- No line ends inside a number. -/
theorem cr_notMem_decimal (n : ℕ) : (13 : UInt8) ∉ decimal n := by
  intro h
  obtain ⟨d, hd, hc⟩ := List.mem_map.1 h
  obtain ⟨heq, h0⟩ := digit_byte (digit_of_mem hd)
  have := congrArg UInt8.toNat hc
  rw [heq] at this
  have h13 : (13 : UInt8).toNat = 13 := rfl
  omega

theorem decimal_inj {n n' : ℕ} (h : decimal n = decimal n') : n = n' := by
  have hcode : ∀ k, (decimal k).map UInt8.toNat = (Nat.toDigits 10 k).map Char.toNat := by
    intro k
    unfold decimal
    rw [List.map_map]
    exact List.map_congr_left fun d hd => (digit_byte (digit_of_mem hd)).1
  have hinj : Function.Injective Char.toNat := fun a b hab => Char.ext (UInt32.toNat_inj.1 hab)
  have hd : Nat.toDigits 10 n = Nat.toDigits 10 n' := by
    apply hinj.list_map
    rw [← hcode, ← hcode, h]
  rw [← Nat.ofDigitChars_ten_toDigits (n := n), hd, Nat.ofDigitChars_ten_toDigits]

/-- The checksum is the sum of the bytes modulo 2^32. -/
theorem csum_eq (s : List UInt8) : csum s = (s.map (·.toNat)).sum % 2 ^ 32 := by
  unfold csum
  induction s using List.reverseRecOn with
  | nil => rfl
  | append_singleton s b ih =>
    rw [List.foldl_append, List.map_append, List.sum_append, ih]
    simp only [List.foldl_cons, List.foldl_nil, List.map_cons, List.map_nil, List.sum_singleton]
    omega

/-! ### Responses -/

/-- An HTTP response. -/
structure Response where
  status : List UInt8
  headers : List (List UInt8)
  body : List UInt8

namespace Response

/-- The status line and the headers. -/
def lines (r : Response) : List (List UInt8) := (text "HTTP/1.0 " ++ r.status) :: r.headers

/-- What is written to the connection. -/
def bytes (r : Response) : List UInt8 := Framing.head 13 [10] r.lines ++ r.body

/-- The line with the length. -/
def lengthLine (n : ℕ) : List UInt8 := text "Content-Length: " ++ decimal n

/-- The line with the checksum. -/
def csumLine (n : ℕ) : List UInt8 := text "Content-Csum: " ++ decimal n

/-- The lines say that the length is `n`, and no other length. -/
def Sized (ls : List (List UInt8)) (n : ℕ) : Prop := ∀ k, lengthLine k ∈ ls ↔ k = n

/-- One status line, headers with the length of the body, and the body. -/
structure Valid (r : Response) : Prop where
  lines : Framing.Lines 13 r.lines
  sized : Sized r.lines r.body.length

theorem Sized.unique (ls : List (List UInt8)) (n n' : ℕ) (h : Sized ls n) (h' : Sized ls n') :
    n = n' := (h' n).1 ((h n).2 rfl)

/-- **What is written says what the response is.** -/
theorem Valid.inj {r r' : Response} (h : r.Valid) (h' : r'.Valid) (he : r.bytes = r'.bytes) :
    r = r' := by
  have happ : r.bytes ++ [] = r'.bytes ++ [] := by rw [he]
  obtain ⟨hl, hb, -⟩ := Framing.message_append_inj Sized.unique h.lines h'.lines h.sized h'.sized
    happ
  obtain ⟨status, headers, body⟩ := r
  obtain ⟨status', headers', body'⟩ := r'
  obtain ⟨hst, rfl⟩ := List.cons.inj hl
  obtain rfl := List.append_cancel_left hst
  obtain rfl : body = body' := hb
  rfl

theorem bytes_ne_nil (r : Response) : r.bytes ≠ [] := by
  unfold bytes lines Framing.head
  simp

/-- **Two responses in a row are not one.** -/
theorem Valid.append_ne {r₁ r₂ r : Response} (h₁ : r₁.Valid) (h : r.Valid) :
    r₁.bytes ++ r₂.bytes ≠ r.bytes :=
  Framing.message_append_ne Sized.unique h₁.lines h.lines h₁.sized h.sized r₂.bytes_ne_nil

end Response

/-! ### What the code writes -/

/-- The body of an error page. -/
def errorBody (cause errnum shortmsg longmsg : List UInt8) : List UInt8 :=
  text "<html><title>OS Web Server Error</title>" ++ text "<body bgcolor=fffff>\r\n" ++
    text "<p>" ++ errnum ++ text ": " ++ shortmsg ++ text "</p>\r\n" ++
    text "<p>" ++ longmsg ++ text ": " ++ cause ++ text "</p>\r\n" ++ text "</body></html>\r\n"

/-- The error page. -/
def errorPage (cause errnum shortmsg longmsg : List UInt8) : Response where
  status := errnum ++ text " " ++ shortmsg
  headers := [text "Content-Type: text/html",
    Response.lengthLine (errorBody cause errnum shortmsg longmsg).length,
    Response.csumLine (csum (errorBody cause errnum shortmsg longmsg))]
  body := errorBody cause errnum shortmsg longmsg

/-- The page with a file. -/
def filePage (data : FileData) : Response where
  status := text "200 OK"
  headers := [text "Server: OS Web Server",
    text "Content-Type: " ++ requestGetFileType data.fileName,
    Response.lengthLine data.fileBuf.length, Response.csumLine (csum data.fileBuf)]
  body := data.fileBuf

theorem sprintf_eq_some {a b : List UInt8} : sprintf a = some b ↔ a.length < maxBuf ∧ a = b := by
  unfold sprintf
  split
  · simp [*]
  · simp [*]

theorem text_crlf : text "\r\n" = [13, 10] := rfl

theorem text_crlf_crlf : text "\r\n\r\n" = [13, 10, 13, 10] := rfl

/-- **`request_error`** writes the error page. -/
theorem requestError_ok (h : requestError cause errnum shortmsg longmsg = some written) :
    written = (errorPage cause errnum shortmsg longmsg).bytes := by
  unfold requestError at h
  simp only [Option.bind_eq_bind, Option.bind_eq_some_iff, sprintf_eq_some] at h
  obtain ⟨_, ⟨-, rfl⟩, _, ⟨-, rfl⟩, _, ⟨-, rfl⟩, _, ⟨-, rfl⟩, body, ⟨-, hbody⟩, h⟩ := h
  have hct : text "Content-Type: text/html\r\n" = text "Content-Type: text/html" ++ [13, 10] := rfl
  have he : errorBody cause errnum shortmsg longmsg = body := by
    rw [← hbody]
    simp only [errorBody, List.append_assoc]
  rw [← Option.some.inj h]
  simp only [errorPage, he, Response.bytes, Response.lines, Response.lengthLine, Response.csumLine,
    Framing.head, hct, text_crlf, text_crlf_crlf, List.append_assoc, List.cons_append,
    List.nil_append]

/-- **`request_sendfile`** writes the page with the file. -/
theorem requestSendfile_ok (h : data.fileSize = data.fileBuf.length) :
    requestSendfile data = some (filePage data).bytes := by
  have hst : text "HTTP/1.0 200 OK\r\n" = text "HTTP/1.0 " ++ (text "200 OK" ++ [13, 10]) := rfl
  have hsv : text "Server: OS Web Server\r\n" = text "Server: OS Web Server" ++ [13, 10] := rfl
  have hsize : decimalInt data.fileSize = decimal data.fileBuf.length := by
    unfold decimalInt
    rw [h, if_neg (by omega), Int.toNat_natCast]
  have htake : data.fileBuf.take data.fileSize.toNat = data.fileBuf := by
    rw [h, Int.toNat_natCast, List.take_length]
  unfold requestSendfile
  rw [if_neg (by omega)]
  simp only [htake, hsize, hst, hsv, filePage, Response.bytes, Response.lines,
    Response.lengthLine, Response.csumLine, Framing.head, text_crlf, text_crlf_crlf,
    List.append_assoc, List.cons_append, List.nil_append]

/-- The line with the length is the only one that starts like it. -/
theorem sized_of_lines {ls : List (List UInt8)} {n : ℕ} (hm : Response.lengthLine n ∈ ls)
    (h : ∀ l ∈ ls, l = Response.lengthLine n ∨ l.take 9 ≠ text "Content-L") :
    Response.Sized ls n := by
  intro k
  constructor
  · intro hk
    rcases h _ hk with he | hne
    · exact decimal_inj (List.append_cancel_left he)
    · exact absurd rfl hne
  · intro hk
    rw [hk]
    exact hm

theorem cr_notMem_append {a b : List UInt8} (ha : (13 : UInt8) ∉ a) (hb : (13 : UInt8) ∉ b) :
    (13 : UInt8) ∉ a ++ b := by
  rw [List.mem_append]
  exact not_or.2 ⟨ha, hb⟩

/-- An error page is a response, when its status is one line. -/
theorem errorPage_valid (he : (13 : UInt8) ∉ errnum) (hs : (13 : UInt8) ∉ shortmsg) :
    (errorPage cause errnum shortmsg longmsg).Valid where
  lines := by
    intro l hl
    simp only [errorPage, Response.lines, List.mem_cons, List.not_mem_nil, or_false] at hl
    obtain rfl | rfl | rfl | rfl := hl
    · refine ⟨List.append_ne_nil_of_left_ne_nil (by decide) _, cr_notMem_append (by decide) ?_⟩
      exact cr_notMem_append (cr_notMem_append he (by decide)) hs
    · exact ⟨by decide, by decide⟩
    · exact ⟨List.append_ne_nil_of_left_ne_nil (by decide) _,
        cr_notMem_append (by decide) (cr_notMem_decimal _)⟩
    · exact ⟨List.append_ne_nil_of_left_ne_nil (by decide) _,
        cr_notMem_append (by decide) (cr_notMem_decimal _)⟩
  sized := by
    apply sized_of_lines (by simp [errorPage, Response.lines])
    intro l hl
    simp only [errorPage, Response.lines, List.mem_cons, List.not_mem_nil, or_false] at hl
    obtain rfl | rfl | rfl | rfl := hl
    · exact Or.inr (show text "HTTP/1.0 " ≠ text "Content-L" by decide)
    · exact Or.inr (by decide)
    · exact Or.inl rfl
    · exact Or.inr (show text "Content-C" ≠ text "Content-L" by decide)

theorem cr_notMem_fileType (fileName : Name) : (13 : UInt8) ∉ requestGetFileType fileName := by
  unfold requestGetFileType
  split_ifs <;> decide

/-- The page with a file is a response. -/
theorem filePage_valid (data : FileData) : (filePage data).Valid where
  lines := by
    intro l hl
    simp only [filePage, Response.lines, List.mem_cons, List.not_mem_nil, or_false] at hl
    obtain rfl | rfl | rfl | rfl | rfl := hl
    · exact ⟨by decide, by decide⟩
    · exact ⟨by decide, by decide⟩
    · exact ⟨List.append_ne_nil_of_left_ne_nil (by decide) _,
        cr_notMem_append (by decide) (cr_notMem_fileType _)⟩
    · exact ⟨List.append_ne_nil_of_left_ne_nil (by decide) _,
        cr_notMem_append (by decide) (cr_notMem_decimal _)⟩
    · exact ⟨List.append_ne_nil_of_left_ne_nil (by decide) _,
        cr_notMem_append (by decide) (cr_notMem_decimal _)⟩
  sized := by
    apply sized_of_lines (by simp [filePage, Response.lines])
    intro l hl
    simp only [filePage, Response.lines, List.mem_cons, List.not_mem_nil, or_false] at hl
    obtain rfl | rfl | rfl | rfl | rfl := hl
    · exact Or.inr (show text "HTTP/1.0 " ≠ text "Content-L" by decide)
    · exact Or.inr (by decide)
    · exact Or.inr (show text "Content-T" ≠ text "Content-L" by decide)
    · exact Or.inl rfl
    · exact Or.inr (show text "Content-C" ≠ text "Content-L" by decide)

/-! ### Reading the file -/

/-- The file passes the checks of `request_readfile`. -/
structure Passes (disk : Disk) (name : Name) (f : DiskFile) : Prop where
  relative : name.head? ≠ some 47
  inside : ¬text ".." <:+: name
  noSource : ¬(strrchr 46 name = some (text ".c") ∨ strrchr 46 name = some (text ".h"))
  found : disk name = some f
  isReg : f.isReg = true
  irusr : f.irusr = true

/-- The file passes the checks and can be read: it is empty as an `int`, or it can be opened and
its size is an `int` that is not negative. -/
def Readable (disk : Disk) (name : Name) : Prop := ∃ f, Passes disk name f ∧
  (toInt32 f.contents.length = 0 ∨ f.opens = true ∧ 0 ≤ toInt32 f.contents.length)

/-- What `request_readfile` did. -/
structure ReadOK (disk : Disk) (name : Name) (rd : ReadResult) : Prop where
  fileName : rd.data.fileName = name
  sized : rd.data.fileSize = rd.data.fileBuf.length
  passed : rd.ret = true → Readable disk name ∧ rd.written = []
  failed : rd.ret = false → ¬Readable disk name ∧ ∃ r : Response, r.Valid ∧ rd.written = r.bytes

theorem readfileError_ok {a b c : String} (ha : (13 : UInt8) ∉ text a) (hb : (13 : UInt8) ∉ text b)
    (hn : ¬Readable disk name) (h : readfileError name a b c = some rd) : ReadOK disk name rd := by
  unfold readfileError at h
  obtain ⟨written, hw, h⟩ := Option.bind_eq_some_iff.1 h
  rw [← Option.some.inj h]
  exact ⟨rfl, rfl, fun hret => absurd hret (by simp),
    fun _ => ⟨hn, _, errorPage_valid ha hb, requestError_ok hw⟩⟩

theorem readContents_ok {f : DiskFile} (hp : Passes disk name f)
    (h : readContents name f = some rd) : ReadOK disk name rd ∧ rd.ret = true := by
  have hle : toInt32 f.contents.length ≤ f.contents.length := toInt32_le (by omega)
  unfold readContents at h
  simp only at h
  split at h
  · rename_i h0
    rw [← Option.some.inj h]
    refine ⟨⟨rfl, rfl, fun _ => ⟨⟨f, hp, Or.inl h0⟩, rfl⟩, fun hret => ?_⟩, rfl⟩
    exact absurd hret (by simp)
  · split at h
    · rename_i hopen
      rw [← Option.some.inj h]
      refine ⟨⟨rfl, ?_, fun _ => ⟨⟨f, hp, Or.inr hopen⟩, rfl⟩, fun hret => ?_⟩, rfl⟩
      · have := hopen.2
        simp only [List.length_take]
        omega
      · exact absurd hret (by simp)
    · cases h

/-- **`request_readfile`** reads a file that passes the checks, and else writes one response. -/
theorem requestReadfile_ok (h : requestReadfile disk name = some rd) : ReadOK disk name rd := by
  unfold requestReadfile at h
  split at h
  · rename_i hc
    exact readfileError_ok (by decide) (by decide) (fun ⟨_, hp, _⟩ => hp.relative hc) h
  · rename_i hrel
    split at h
    · rename_i hc
      exact readfileError_ok (by decide) (by decide) (fun ⟨_, hp, _⟩ => hp.inside hc) h
    · rename_i hin
      split at h
      · rename_i hc
        exact readfileError_ok (by decide) (by decide) (fun ⟨_, hp, _⟩ => hp.noSource hc) h
      · rename_i hsrc
        split at h
        · rename_i hd
          refine readfileError_ok (by decide) (by decide) (fun ⟨f, hp, _⟩ => ?_) h
          rw [hp.found] at hd
          cases hd
        · rename_i f hd
          split at h
          · rename_i hc
            refine readfileError_ok (by decide) (by decide) (fun ⟨f', hp, _⟩ => ?_) h
            obtain rfl : f = f' := Option.some.inj (hd.symm.trans hp.found)
            simp [hp.isReg, hp.irusr] at hc
          · rename_i hc
            rw [not_or, not_not, not_not] at hc
            exact (readContents_ok ⟨hrel, hin, hsrc, hd, hc.1, hc.2⟩ h).1

/-- A file that passes the checks is opened and read. -/
theorem Passes.requestReadfile_eq {f : DiskFile} (h : Passes disk name f) :
    requestReadfile disk name = readContents name f := by
  unfold requestReadfile
  rw [if_neg h.relative, if_neg h.inside, if_neg h.noSource, h.found]
  simp only [h.isReg, h.irusr, not_true_eq_false, or_self, if_false]

/-- A file that passes the checks and can be read is read. -/
theorem requestReadfile_returns (h : Readable disk name) :
    ∃ rd, requestReadfile disk name = some rd ∧ rd.ret = true := by
  obtain ⟨f, hp, hread⟩ := h
  have hret : ∃ rd, readContents name f = some rd := by
    unfold readContents
    simp only
    by_cases h0 : toInt32 f.contents.length = 0
    · rw [if_pos h0]
      exact ⟨_, rfl⟩
    · rw [if_neg h0, if_pos (hread.resolve_left h0)]
      exact ⟨_, rfl⟩
  obtain ⟨rd, hrd⟩ := hret
  exact ⟨rd, hp.requestReadfile_eq.trans hrd, (readContents_ok hp hrd).2⟩

/-! ### Reading all of the file -/

/-- The file passes the checks and all of it is read: its size is an `int`, and it is empty or can
be opened. -/
def ReadsAll (disk : Disk) (name : Name) : Prop := ∃ f, Passes disk name f ∧
  f.contents.length < 2 ^ 31 ∧ (f.contents = [] ∨ f.opens = true)

/-- The file data is all of a file that passes the checks. -/
def Complete (disk : Disk) (data : FileData) : Prop :=
  ∃ f, Passes disk data.fileName f ∧ data.fileBuf = f.contents

theorem ReadsAll.readable (h : ReadsAll disk name) : Readable disk name := by
  obtain ⟨f, hp, hsize, hempty | hopen⟩ := h
  · exact ⟨f, hp, Or.inl (by simp [hempty, toInt32])⟩
  · exact ⟨f, hp, Or.inr ⟨hopen, by rw [toInt32_of_lt (by omega) (by omega)]; omega⟩⟩

/-- All of the file is read when its size is an `int`. -/
theorem readContents_complete {f : DiskFile} (h : readContents name f = some rd) :
    rd.data.fileBuf = f.contents ↔
      f.contents.length < 2 ^ 31 ∧ (f.contents = [] ∨ f.opens = true) := by
  have hfits : f.contents.length < 2 ^ 31 →
      toInt32 f.contents.length = f.contents.length := fun hlt =>
    toInt32_of_lt (by omega) (by omega)
  unfold readContents at h
  simp only at h
  split at h
  · rename_i h0
    rw [← Option.some.inj h]
    constructor
    · intro he
      change [] = f.contents at he
      rw [← he]
      exact ⟨by decide, Or.inl rfl⟩
    · -- a size below 2^31 is 0 if it is as an `int`
      rintro ⟨hlt, -⟩
      rw [hfits hlt] at h0
      exact (List.eq_nil_of_length_eq_zero (by omega)).symm
  · split at h
    · rename_i h0 hopen
      rw [← Option.some.inj h]
      simp only [List.take_eq_self_iff]
      constructor
      · intro hle
        have := toInt32_lt f.contents.length
        exact ⟨by omega, Or.inr hopen.1⟩
      · rintro ⟨hlt, -⟩
        rw [hfits hlt, Int.toNat_natCast]
    · cases h

/-- **What `request_readfile` returns is the file** exactly when all of it is read. -/
theorem requestReadfile_complete (h : requestReadfile disk name = some rd) :
    Complete disk rd.data ↔ ReadsAll disk name := by
  have hname := (requestReadfile_ok h).fileName
  constructor
  · rintro ⟨f, hp, he⟩
    rw [hname] at hp
    rw [hp.requestReadfile_eq] at h
    exact ⟨f, hp, (readContents_complete h).1 he⟩
  · rintro ⟨f, hp, hread⟩
    rw [hp.requestReadfile_eq] at h
    exact ⟨f, hname ▸ hp, (readContents_complete h).2 hread⟩

end OSLab.Webserver

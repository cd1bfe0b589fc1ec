import OSLab.Webserver.Cache
import Mathlib.Data.List.Infix
import Mathlib.Data.Nat.Digits.Defs

/-!
# Requests (`webserver/request.c`)

What `request_init` reads from a connection, what `request_readfile` reads from disk, and the
bytes each function writes to the connection. A C string is the list of its bytes without the
NUL. A function that does not return (it reads an array nothing was stored in, it writes past
the end of one, it ends the process or it never ends) is `none`.

The connection is the bytes the client sends, followed by end of file. What `request.c` prints
on the terminal and the loops of `request_processfile`, whose sum nothing reads, are left out;
the header lines are all shorter than the buffers they are put together in.
-/

namespace OSLab.Webserver

/-- A string constant. -/
def text (s : String) : List UInt8 := s.toList.map fun c => c.toNat.toUInt8

/-- `%u` and `%ld` of a number that is not negative. -/
def decimal (n : ℕ) : List UInt8 := (Nat.toDigits 10 n).map fun c => c.toNat.toUInt8

/-- `%d`. -/
def decimalInt (n : ℤ) : List UInt8 :=
  if n < 0 then text "-" ++ decimal (-n).toNat else decimal n.toNat

/-- `MAXLINE`. -/
def maxLine : ℕ := 8192

/-- `MAXBUF`. -/
def maxBuf : ℕ := 8192

/-- `sprintf` into an array of `MAXBUF` bytes. -/
def sprintf (s : List UInt8) : Option (List UInt8) := if s.length < maxBuf then some s else none

/-- The sum of the bytes, in `unsigned int`. -/
def csum (s : List UInt8) : ℕ := s.foldl (fun csum b => (csum + b.toNat) % 2 ^ 32) 0

/-! ### Responses -/

/-- `request_error`: what it writes. The body is put together with `sprintf(body, "%s…", body)`,
which appends. -/
def requestError (cause errnum shortmsg longmsg : List UInt8) : Option (List UInt8) := do
  let body ← sprintf (text "<html><title>OS Web Server Error</title>")
  let body ← sprintf (body ++ text "<body bgcolor=fffff>\r\n")
  let body ← sprintf (body ++ text "<p>" ++ errnum ++ text ": " ++ shortmsg ++ text "</p>\r\n")
  let body ← sprintf (body ++ text "<p>" ++ longmsg ++ text ": " ++ cause ++ text "</p>\r\n")
  let body ← sprintf (body ++ text "</body></html>\r\n")
  return text "HTTP/1.0 " ++ errnum ++ text " " ++ shortmsg ++ text "\r\n" ++
    text "Content-Type: text/html\r\n" ++
    text "Content-Length: " ++ decimal body.length ++ text "\r\n" ++
    text "Content-Csum: " ++ decimal (csum body) ++ text "\r\n\r\n" ++ body

/-- `request_get_file_type`. -/
def requestGetFileType (fileName : Name) : List UInt8 :=
  if text ".html" <:+: fileName then text "text/html"
  else if text ".gif" <:+: fileName then text "image/gif"
  else if text ".jpg" <:+: fileName then text "image/jpeg"
  else text "text/plain"

/-- `request_sendfile`: what it writes. -/
def requestSendfile (data : FileData) : Option (List UInt8) :=
  -- the loops read `file_size` bytes of `file_buf`
  if data.fileBuf.length < data.fileSize then none
  else
    let sent := data.fileBuf.take data.fileSize.toNat
    some (text "HTTP/1.0 200 OK\r\n" ++
      text "Server: OS Web Server\r\n" ++
      text "Content-Type: " ++ requestGetFileType data.fileName ++ text "\r\n" ++
      text "Content-Length: " ++ decimalInt data.fileSize ++ text "\r\n" ++
      text "Content-Csum: " ++ decimal (csum sent) ++ text "\r\n\r\n" ++ sent)

/-! ### Reading the request -/

/-- The bytes of a line, up to a newline, the end of file or `maxlen` bytes, and the bytes that
are still unread. -/
def lineOf : ℕ → List UInt8 → List UInt8 × List UInt8
  | 0, rio => ([], rio)
  | _ + 1, [] => ([], [])
  | maxlen + 1, c :: rio =>
    if c = 10 then ([c], rio) else (c :: (lineOf maxlen rio).1, (lineOf maxlen rio).2)

/-- `Rio_readlineb(rio, buf, MAXLINE)`: the array and the bytes that are still unread. At end of
file it stores nothing; behind `MAXLINE` bytes the NUL is outside the array. -/
def rioReadlineb (buf : Option (List UInt8)) (rio : List UInt8) :
    Option (Option (List UInt8) × List UInt8) :=
  let line := lineOf maxLine rio
  if line.1 = [] then some (buf, line.2)
  else if line.1.length < maxLine then some (some line.1, line.2)
  else none

/-- The string in an array: the bytes before the first NUL. -/
def cString (buf : List UInt8) : List UInt8 := buf.takeWhile (· ≠ 0)

/-- The loop of `request_read_headers`, for at most `fuel` turns. -/
def readHeaders : ℕ → Option (List UInt8) → List UInt8 → Option (List UInt8)
  | 0, _, _ => none
  | fuel + 1, buf, rio => do
    let line ← buf
    if cString line = text "\r\n" then some rio
    else do
      let (buf, rio) ← rioReadlineb buf rio
      readHeaders fuel buf rio

/-- `request_read_headers`. -/
def requestReadHeaders (fuel : ℕ) (rio : List UInt8) : Option (List UInt8) := do
  let (buf, rio) ← rioReadlineb none rio
  readHeaders fuel buf rio

/-- `isspace`. -/
def isSpace (c : UInt8) : Bool := c = 32 ∨ 9 ≤ c ∧ c ≤ 13

/-- `%s` of `sscanf`: the next word, and what follows it. Without one nothing is stored. -/
def scanWord (s : List UInt8) : Option (List UInt8) × List UInt8 :=
  let s := s.dropWhile isSpace
  let word := s.takeWhile (!isSpace ·)
  (if word = [] then none else some word, s.dropWhile (!isSpace ·))

/-- `tolower`. -/
def toLower (c : UInt8) : UInt8 := if 65 ≤ c ∧ c ≤ 90 then c + 32 else c

/-- `request_parse_URI`. -/
def requestParseURI (uri : List UInt8) : Name := (text "./" ++ uri).take (maxLine - 1)

/-- What `request_init` did. -/
inductive Request
  /-- It wrote an error page and returned `NULL`. -/
  | refused (written : List UInt8)
  /-- It stored the name of the file and wrote nothing. -/
  | asks (fileName : Name)
  deriving DecidableEq

/-- `request_init`. -/
def requestInit (fuel : ℕ) (input : List UInt8) : Option Request := do
  let (buf, rio) ← rioReadlineb none input
  let line ← buf
  let (method, rest) := scanWord (cString line)
  let method ← method
  if method.map toLower ≠ (text "GET").map toLower then do
    let written ← requestError method (text "501") (text "Not Implemented")
      (text "OS Web Server does not implement this method")
    return .refused written
  else do
    let _ ← requestReadHeaders fuel rio
    let uri ← (scanWord rest).1
    return .asks (requestParseURI uri)

/-! ### Reading the file -/

/-- A file on disk, as the server sees it: `S_ISREG`, `S_IRUSR`, whether `open` succeeds, and the
bytes. `st_size` is their number. -/
structure DiskFile where
  isReg : Bool
  irusr : Bool
  opens : Bool
  contents : List UInt8

/-- The files on disk; `stat` fails on the other names. -/
abbrev Disk := Name → Option DiskFile

/-- What `request_readfile` did: its return value, the file data and what it wrote. -/
structure ReadResult where
  ret : Bool
  data : FileData
  written : List UInt8

/-- `strrchr`: the string from the last `c` on. -/
def strrchr (c : UInt8) : List UInt8 → Option (List UInt8)
  | [] => none
  | b :: s => match strrchr c s with
    | some ext => some ext
    | none => if b = c then some (b :: s) else none

/-- An exit of `request_readfile` after a check that failed. -/
def readfileError (fileName : Name) (errnum shortmsg longmsg : String) : Option ReadResult := do
  let written ← requestError fileName (text errnum) (text shortmsg) (text longmsg)
  return ⟨false, ⟨fileName, [], 0⟩, written⟩

/-- Opening and reading a file that passed the checks. For a size that is negative as an `int`
`Malloc` ends the process. -/
def readContents (fileName : Name) (f : DiskFile) : Option ReadResult :=
  let fileSize := toInt32 f.contents.length
  if fileSize = 0 then some ⟨true, ⟨fileName, [], 0⟩, []⟩
  else if f.opens ∧ 0 ≤ fileSize then
    some ⟨true, ⟨fileName, f.contents.take fileSize.toNat, fileSize⟩, []⟩
  else none

/-- `request_readfile`. -/
def requestReadfile (disk : Disk) (fileName : Name) : Option ReadResult :=
  if fileName.head? = some 47 then
    readfileError fileName "404" "Not found" "OS Web Server doesn't serve files with absolute paths"
  else if text ".." <:+: fileName then
    readfileError fileName "404" "Not found" "OS Web Server doesn't serve files with .. in the path"
  else if strrchr 46 fileName = some (text ".c") ∨ strrchr 46 fileName = some (text ".h") then
    readfileError fileName "404" "Not found" "OS Web Server doesn't serve C or header files "
  else match disk fileName with
    | none => readfileError fileName "404" "Not found" "OS Web Server could not find this file"
    | some f =>
      if ¬f.isReg ∨ ¬f.irusr then
        readfileError fileName "403" "Forbidden" "OS Web Server could not read this file"
      else readContents fileName f

end OSLab.Webserver

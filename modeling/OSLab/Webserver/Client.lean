import OSLab.Webserver.Rio

/-!
# The client (`webserver/client.c`)

What `client_send` writes to a connection, and what `client_print` does with the answer: it prints
the headers and the body, and asserts that the length and the checksum of the body are those in
the headers and those the client was told to expect. `none` is an assertion that fails, or a
function that does not return, as in the rest of the web server.

An array is what was stored in it last, with its NUL; `fuel` bounds the turns of a loop.
-/

namespace OSLab.Webserver

/-! ### `sscanf` -/

/-- `isdigit`. -/
def isDigit (c : UInt8) : Bool := 48 ≤ c ∧ c ≤ 57

/-- The value of a string of digits. -/
def digitsValue (s : List UInt8) : ℕ := s.foldl (fun n c => n * 10 + (c.toNat - 48)) 0

/-- The sign in front of a number, if there is one. -/
def scanSign : List UInt8 → Bool × List UInt8
  | 45 :: s => (true, s)
  | 43 :: s => (false, s)
  | s => (false, s)

/-- The number at the beginning of a string, behind white space and a sign, and what follows it. -/
def scanNumber (s : List UInt8) : Option (ℤ × List UInt8) :=
  let p := scanSign (s.dropWhile isSpace)
  let digits := p.2.takeWhile isDigit
  if digits = [] then none
  else some (if p.1 then -(digitsValue digits : ℤ) else digitsValue digits, p.2.dropWhile isDigit)

/-- `%d` of `sscanf`: `some none` is no number, and a number must be an `int`. -/
def scanD (s : List UInt8) : Option (Option (ℤ × List UInt8)) :=
  match scanNumber s with
  | none => some none
  | some (n, rest) => if -2 ^ 31 ≤ n ∧ n < 2 ^ 31 then some (some (n, rest)) else none

/-- `%u` of `sscanf`; a negative number wraps around. -/
def scanU (s : List UInt8) : Option (Option (ℕ × List UInt8)) :=
  match scanNumber s with
  | none => some none
  | some (n, rest) =>
    if -2 ^ 32 < n ∧ n < 2 ^ 32 then some (some ((n % 2 ^ 32).toNat, rest)) else none

/-- `sscanf(buf, "<tag> %d ", &var)`, or with `%u`: what `var` is afterwards. -/
def scanTag {α : Type} (scan : List UInt8 → Option (Option (α × List UInt8)))
    (tag buf : List UInt8) (var : α) : Option α :=
  if tag <+: buf then (scan (buf.drop tag.length)).map fun r => r.elim var Prod.fst else some var

/-! ### The request -/

/-- `client_send`: what it writes. The array of `MAXLINE` bytes is as long as one of `MAXBUF`. -/
def clientSend (host filename : List UInt8) : Option (List UInt8) := do
  let buf ← sprintf (text "GET " ++ filename ++ text " HTTP/1.0\r\n")
  sprintf (buf ++ text "host: " ++ host ++ text "\r\n\r\n")

/-! ### The answer -/

namespace Rio

/-- `n = Rio_readlineb(rio, buf, MAXBUF)` on an array of `MAXBUF` bytes: `n` and the array. -/
def readline (buf : Option (List UInt8)) (rp : Rio) (fd : List Read) :
    Option (ℤ × Option (List UInt8) × Rio × List Read) := do
  let (l, rp, fd) ← rp.readlineb fd maxBuf
  if l.ret < 0 ∨ maxBuf < l.stored.length then none
  else return (l.ret, if l.stored = [] then buf else some l.stored, rp, fd)

/-- The loop over the headers of `client_print`: what it prints, `length`, `csum` and the array. -/
def printHeaders (print : Bool) : ℕ → ℤ → Option (List UInt8) → ℤ → ℕ → Rio → List Read →
    Option (List UInt8 × ℤ × ℕ × Option (List UInt8) × Rio × List Read)
  | 0, _, _, _, _, _, _ => none
  | fuel + 1, n, buf, length, csum, rp, fd => do
    let line ← buf
    if cString line = text "\r\n" ∨ n ≤ 0 then return ([], length, csum, buf, rp, fd)
    else do
      let (n, buf, rp, fd) ← readline buf rp fd
      let next ← buf
      let length ← scanTag scanD (text "Content-Length:") (cString next) length
      let csum ← scanTag scanU (text "Content-Csum:") (cString next) csum
      let (printed, rest) ← printHeaders print fuel n buf length csum rp fd
      return ((if print then text "Header: " ++ cString line else []) ++ printed, rest)

/-- The sum of more bytes, in `unsigned int`. -/
def csumFrom (csum : ℕ) (s : List UInt8) : ℕ :=
  s.foldl (fun csum b => (csum + b.toNat) % 2 ^ 32) csum

/-- The loop over the body: what it prints, `length_received` and `csum_received`. -/
def printBody (print : Bool) : ℕ → Option (List UInt8) → ℤ → ℕ → Rio → List Read →
    Option (List UInt8 × ℤ × ℕ)
  | 0, _, _, _, _, _ => none
  | fuel + 1, buf, lengthReceived, csumReceived, rp, fd => do
    let (n, buf, rp, fd) ← readline buf rp fd
    let bytes := (buf.getD []).take n.toNat
    -- `length_received` is an `int`
    if 2 ^ 31 ≤ lengthReceived + n then none
    else if 0 < n then do
      let (printed, rest) ← printBody print fuel buf (lengthReceived + n)
        (csumFrom csumReceived bytes) rp fd
      return ((if print then bytes else []) ++ printed, rest)
    else return ([], lengthReceived + n, csumReceived)

/-- `client_print`: what it prints, when its assertions hold. -/
def clientPrint (fuel : ℕ) (origCsum : ℕ) (origLength : ℤ) (print : Bool) (rp : Rio)
    (fd : List Read) : Option (List UInt8) := do
  let (n, buf, rp, fd) ← readline none rp fd
  let (headers, length, csum, buf, rp, fd) ← printHeaders print fuel n buf 0 0 rp fd
  let (body, lengthReceived, csumReceived) ← printBody print fuel buf 0 0 rp fd
  if origCsum = csum ∧ origLength = length ∧ length = lengthReceived ∧ csum = csumReceived then
    return headers ++ body
  else none

end Rio

end OSLab.Webserver

import OSLab.Webserver.Request

/-!
# Buffered reading (`webserver/common.c`, the Rio package)

`read` delivers the bytes of a connection in pieces, and a call that is interrupted delivers
none. `rio_readb` keeps what it has read and not yet returned in a buffer of its own;
`rio_readlineb` takes lines from it.

* `readb_ok`: a call returns the next unread bytes.
* `readlineb_eq`: a call returns the next line of the stream, however `read` splits it.
* `readsLossless_iff`: so the lines of all calls are the stream, if and only if the `int` that
  counts the bytes of a line can hold their number.
-/

namespace OSLab.Webserver

/-- `RIO_BUFSIZE`. -/
def rioBufSize : ℕ := 8192

/-- What a call of `read` on the connection does: it returns at most as many bytes as fit in the
buffer, none at end of file, it is interrupted by a signal handler, or it fails. -/
inductive Read
  | bytes (chunk : List UInt8) (fits : chunk.length ≤ rioBufSize)
  | eintr
  | fails

/-- `struct rio`, where `bufptr` is a position in `buf`. -/
structure Rio where
  cnt : ℤ
  bufptr : ℕ
  buf : List UInt8
  size : buf.length = rioBufSize
  inBuf : bufptr + cnt.toNat ≤ rioBufSize

namespace Rio

/-- `rio_init`; `malloc` leaves anything in the buffer. -/
def init (buf : List UInt8) (size : buf.length = rioBufSize) : Rio where
  cnt := 0
  bufptr := 0
  buf := buf
  size := size
  inBuf := Nat.zero_le _

/-- `rp->rio_cnt = cnt` for a result of `read` that is not a number of bytes. -/
def setCnt (rp : Rio) (cnt : ℤ) (h : cnt ≤ 0) : Rio :=
  { rp with
    cnt := cnt
    inBuf := by rw [Int.toNat_of_nonpos h]; exact (Nat.le_add_right _ _).trans rp.inBuf }

/-- The buffer after a `read` that delivered bytes. -/
def fill (rp : Rio) (chunk : List UInt8) (fits : chunk.length ≤ rioBufSize) : Rio where
  cnt := chunk.length
  bufptr := 0
  buf := chunk ++ rp.buf.drop chunk.length
  size := by rw [List.length_append, List.length_drop, rp.size]; omega
  inBuf := by simpa using fits

/-- The buffer after `k` bytes of it were copied. -/
def advance (rp : Rio) (k : ℕ) (h : k ≤ rp.cnt.toNat) : Rio :=
  { rp with
    cnt := rp.cnt - k
    bufptr := rp.bufptr + k
    inBuf := by have := rp.inBuf; omega }

/-- The loop of `rio_readb`: what the function returns from inside it, if it does. Behind the
last of the calls listed, `read` returns 0. -/
def refill : List Read → Rio → Option ℤ × Rio × List Read
  | [], rp => if 0 < rp.cnt then (none, rp, []) else (some 0, rp.setCnt 0 le_rfl, [])
  | r :: fd, rp =>
    if 0 < rp.cnt then (none, rp, r :: fd)
    else match r with
      | .eintr => refill fd (rp.setCnt (-1) (by decide))
      | .fails => (some (-1), rp.setCnt (-1) (by decide), fd)
      | .bytes chunk fits =>
        if chunk.length = 0 then (some 0, rp.setCnt 0 le_rfl, fd)
        else refill fd (rp.fill chunk fits)

/-- `rio_readb`: what it returns, and the bytes it copies to `usrbuf`. -/
def readb (rp : Rio) (fd : List Read) (n : ℕ) : ℤ × List UInt8 × Rio × List Read :=
  match refill fd rp with
  | (some rc, rp, fd) => (rc, [], rp, fd)
  | (none, rp, fd) =>
    let cnt := min n rp.cnt.toNat
    (cnt, (rp.buf.drop rp.bufptr).take cnt, rp.advance cnt (min_le_right _ _), fd)

/-- What a call of `rio_readlineb` did: its return value, and what it stored in `usrbuf`, from
the beginning of the array on. -/
structure Line where
  ret : ℤ
  stored : List UInt8
  deriving DecidableEq

/-- The bytes of a line, without the NUL behind them. -/
def Line.bytes (l : Line) : List UInt8 := l.stored.take l.ret.toNat

/-- The loop of `rio_readlineb` with `left` turns to go; `n` is the number of bytes stored. It
is an `int`, and it is incremented for every byte. -/
def lineLoop : ℕ → List UInt8 → Rio → List Read → Option (Line × Rio × List Read)
  | 0, stored, rp, fd => some (⟨stored.length, stored ++ [0]⟩, rp, fd)
  | left + 1, stored, rp, fd =>
    let (rc, c, rp, fd) := rp.readb fd 1
    if rc = 1 then
      if stored.length + 1 = 2 ^ 31 then none
      else if c = [10] then
        some (⟨(stored.length + 1 : ℕ), stored ++ c ++ [0]⟩, rp, fd)
      else lineLoop left (stored ++ c) rp fd
    else if rc = 0 then
      if stored.length = 0 then some (⟨0, stored⟩, rp, fd)
      else some (⟨stored.length, stored ++ [0]⟩, rp, fd)
    else some (⟨-1, stored⟩, rp, fd)

/-- `rio_readlineb`. -/
def readlineb (rp : Rio) (fd : List Read) (maxlen : ℕ) : Option (Line × Rio × List Read) :=
  lineLoop maxlen [] rp fd

/-- `k` calls of `rio_readlineb`, one after the other. -/
def readLines (maxlen : ℕ) : ℕ → Rio → List Read → Option (List Line × Rio × List Read)
  | 0, rp, fd => some ([], rp, fd)
  | k + 1, rp, fd => do
    let (l, rp, fd) ← rp.readlineb fd maxlen
    let (ls, rp, fd) ← readLines maxlen k rp fd
    return (l :: ls, rp, fd)

/-! ### Unread bytes -/

/-- The calls of `read` deliver a stream and then the end of file, with interruptions anywhere. -/
inductive Delivers : List Read → List UInt8 → Prop
  | done : Delivers [] []
  | eintr {fd s} (h : Delivers fd s) : Delivers (.eintr :: fd) s
  | chunk {fd s chunk fits} (hne : chunk ≠ []) (h : Delivers fd s) :
      Delivers (.bytes chunk fits :: fd) (chunk ++ s)
  | eof {fd fits} (h : Delivers fd []) : Delivers (.bytes [] fits :: fd) []

/-- The bytes `rio_readb` has read and not yet returned. -/
def held (rp : Rio) : List UInt8 := (rp.buf.drop rp.bufptr).take rp.cnt.toNat

/-- The unread bytes of a connection: those in the buffer, and those `read` still delivers. -/
def Unread (rp : Rio) (fd : List Read) (s : List UInt8) : Prop :=
  ∃ v, Delivers fd v ∧ s = rp.held ++ v

variable {rp : Rio} {fd : List Read} {s : List UInt8} {maxlen : ℕ}

theorem held_nil (h : rp.cnt ≤ 0) : rp.held = [] := by
  rw [held, Int.toNat_of_nonpos h, List.take_zero]

theorem held_fill {chunk : List UInt8} {fits : chunk.length ≤ rioBufSize} :
    (rp.fill chunk fits).held = chunk := by
  simp [held, fill]

theorem held_advance {k : ℕ} (h : k ≤ rp.cnt.toNat) :
    (rp.buf.drop rp.bufptr).take k ++ (rp.advance k h).held = rp.held := by
  have hk : (rp.cnt - k).toNat = rp.cnt.toNat - k := by omega
  rw [held, held, advance, hk, ← List.drop_drop, ← List.take_add]
  congr 1
  omega

theorem Unread.start {buf : List UInt8} (size : buf.length = rioBufSize) (h : Delivers fd s) :
    (init buf size).Unread fd s := by
  have hnil : (init buf size).held = [] := held_nil le_rfl
  exact ⟨s, h, by rw [hnil, List.nil_append]⟩

/-- The loop of `rio_readb` ends with bytes in the buffer, or at the end of file. -/
theorem refill_ok (h : rp.Unread fd s) :
    ∃ rp' fd', rp'.Unread fd' s ∧
      ((refill fd rp = (none, rp', fd') ∧ 0 < rp'.cnt) ∨
        (refill fd rp = (some 0, rp', fd') ∧ s = [])) := by
  obtain ⟨v, hv, rfl⟩ := h
  by_cases hpos : 0 < rp.cnt
  · refine ⟨rp, fd, ⟨v, hv, rfl⟩, Or.inl ⟨?_, hpos⟩⟩
    cases fd <;> exact if_pos hpos
  -- the buffer is empty: the next calls of `read` decide
  rw [held_nil (not_lt.1 hpos), List.nil_append]
  induction hv generalizing rp with
  | done =>
    refine ⟨rp.setCnt 0 le_rfl, [], ⟨[], .done, ?_⟩, Or.inr ⟨if_neg hpos, rfl⟩⟩
    rw [held_nil (show (rp.setCnt 0 le_rfl).cnt ≤ 0 from le_rfl), List.append_nil]
  | eintr hv ih =>
    have hneg : ¬0 < (rp.setCnt (-1) (by decide)).cnt := by simp [setCnt]
    rw [refill, if_neg hpos]
    exact ih hneg
  | @chunk fd v chunk fits hne hv ih =>
    have hlen : chunk.length ≠ 0 := fun h0 => hne (List.length_eq_zero_iff.1 h0)
    have hcnt : 0 < (rp.fill chunk fits).cnt := by simp only [fill]; omega
    refine ⟨rp.fill chunk fits, fd, ⟨v, hv, by rw [held_fill]⟩, Or.inl ⟨?_, hcnt⟩⟩
    rw [refill, if_neg hpos]
    simp only [hlen, if_false]
    cases fd <;> exact if_pos hcnt
  | @eof fd fits hv ih =>
    refine ⟨rp.setCnt 0 le_rfl, fd, ⟨[], hv, ?_⟩, Or.inr ⟨?_, rfl⟩⟩
    · rw [held_nil (show (rp.setCnt 0 le_rfl).cnt ≤ 0 from le_rfl), List.append_nil]
    · rw [refill, if_neg hpos]
      exact if_pos rfl

/-- **`rio_readb` takes from the front.** A call returns the next unread bytes, at least one
before the end of file. -/
theorem readb_ok (h : rp.Unread fd s) (n : ℕ) :
    ∃ c rest rp' fd', rp.readb fd n = ((c.length : ℤ), c, rp', fd') ∧ s = c ++ rest ∧
      rp'.Unread fd' rest ∧ c.length ≤ n ∧ (c = [] → n = 0 ∨ s = []) := by
  obtain ⟨rp', fd', ⟨v, hv, hs⟩, ⟨he, hpos⟩ | ⟨he, rfl⟩⟩ := refill_ok h
  · have hle : min n rp'.cnt.toNat ≤ rp'.cnt.toNat := min_le_right _ _
    let c := (rp'.buf.drop rp'.bufptr).take (min n rp'.cnt.toNat)
    have hsplit : c ++ (rp'.advance _ hle).held = rp'.held := held_advance hle
    have hlen : c.length = min n rp'.cnt.toNat := by
      have := rp'.inBuf
      rw [List.length_take, List.length_drop, rp'.size]
      omega
    refine ⟨c, (rp'.advance _ hle).held ++ v, rp'.advance _ hle, fd', ?_, ?_, ⟨v, hv, rfl⟩, ?_, ?_⟩
    · rw [readb, he, hlen]
    · rw [hs, ← hsplit, List.append_assoc]
    · omega
    · intro hc
      rw [hc, List.length_nil] at hlen
      omega
  · exact ⟨[], [], rp', fd', by rw [readb, he]; rfl, rfl, ⟨v, hv, hs⟩, Nat.zero_le _,
      fun _ => Or.inr rfl⟩

/-- One byte at a time. -/
theorem readb_one (h : rp.Unread fd s) :
    ∃ rp' fd', (∃ c rest, s = c :: rest ∧ rp'.Unread fd' rest ∧
        rp.readb fd 1 = (1, [c], rp', fd')) ∨
      (s = [] ∧ rp'.Unread fd' [] ∧ rp.readb fd 1 = (0, [], rp', fd')) := by
  obtain ⟨c, rest, rp', fd', he, rfl, hu, hlen, hnil⟩ := readb_ok h 1
  cases c with
  | nil =>
    obtain h0 | hs := hnil rfl
    · cases h0
    · rw [List.nil_append] at hs
      subst hs
      exact ⟨rp', fd', Or.inr ⟨rfl, hu, he⟩⟩
  | cons c cs =>
    obtain rfl : cs = [] := List.length_eq_zero_iff.1 (by simpa using hlen)
    exact ⟨rp', fd', Or.inl ⟨c, rest, rfl, hu, he⟩⟩

end Rio

/-! ### Lines of the stream -/

theorem lineOf_append (m : ℕ) (s : List UInt8) : (lineOf m s).1 ++ (lineOf m s).2 = s := by
  induction m generalizing s with
  | zero => rfl
  | succ m ih =>
    cases s with
    | nil => rfl
    | cons c s =>
      unfold lineOf
      split_ifs
      · rfl
      · exact congrArg (c :: ·) (ih s)

theorem lineOf_length_le (m : ℕ) (s : List UInt8) : (lineOf m s).1.length ≤ m := by
  induction m generalizing s with
  | zero => exact le_rfl
  | succ m ih =>
    cases s with
    | nil => exact Nat.zero_le _
    | cons c s =>
      unfold lineOf
      split_ifs
      · simp
      · simpa using ih s

theorem lineOf_eq_nil {m : ℕ} (hm : 0 < m) (h : (lineOf m s).1 = []) : s = [] := by
  obtain ⟨m, rfl⟩ : ∃ k, m = k + 1 := ⟨m - 1, by omega⟩
  cases s with
  | nil => rfl
  | cons c s =>
    unfold lineOf at h
    split_ifs at h

/-- A line has a newline at its end only. -/
theorem newline_notMem_lineOf (m : ℕ) (s : List UInt8) : 10 ∉ (lineOf m s).1.dropLast := by
  induction m generalizing s with
  | zero => simp [lineOf]
  | succ m ih =>
    cases s with
    | nil => simp [lineOf]
    | cons c s =>
      unfold lineOf
      split_ifs with hc
      · simp
      · by_cases hnil : (lineOf m s).1 = []
        · simp [hnil]
        · rw [List.dropLast_cons_of_ne_nil hnil]
          exact List.not_mem_cons_of_ne_of_not_mem (Ne.symm hc) (ih s)

/-- A line ends at a newline, after `m` bytes, or with the stream. -/
theorem lineOf_ends (m : ℕ) (s : List UInt8) :
    (lineOf m s).1.getLast? = some 10 ∨ (lineOf m s).1.length = m ∨ (lineOf m s).2 = [] := by
  induction m generalizing s with
  | zero => exact Or.inr (Or.inl rfl)
  | succ m ih =>
    cases s with
    | nil => exact Or.inr (Or.inr rfl)
    | cons c s =>
      unfold lineOf
      split_ifs with hc
      · exact Or.inl (by simp [hc])
      · obtain h | h | h := ih s
        · exact Or.inl (by rw [List.getLast?_cons, h]; rfl)
        · exact Or.inr (Or.inl (by simp [h]))
        · exact Or.inr (Or.inr h)

namespace Rio

variable {rp : Rio} {fd : List Read} {s : List UInt8} {maxlen : ℕ}

/-- What a call of `rio_readlineb` did that read these bytes. -/
def lineRead (bytes : List UInt8) : Line :=
  if bytes = [] then ⟨0, []⟩ else ⟨bytes.length, bytes ++ [0]⟩

theorem lineRead_bytes (bytes : List UInt8) : (lineRead bytes).bytes = bytes := by
  unfold lineRead Line.bytes
  split_ifs with h
  · simp [h]
  · simp

theorem lineRead_ret (bytes : List UInt8) : (lineRead bytes).ret = bytes.length := by
  unfold lineRead
  split_ifs with h
  · simp [h]
  · rfl

/-- The loop stores the rest of the line behind what it has stored, unless it counts too far. -/
theorem lineLoop_eq {left : ℕ} {stored : List UInt8} (h : rp.Unread fd s)
    (hpos : 0 < left + stored.length) (hint : stored.length < 2 ^ 31) :
    (stored.length + (lineOf left s).1.length < 2 ^ 31 ∧
      ∃ rp' fd', rp'.Unread fd' (lineOf left s).2 ∧
        lineLoop left stored rp fd = some (lineRead (stored ++ (lineOf left s).1), rp', fd')) ∨
      (2 ^ 31 ≤ stored.length + (lineOf left s).1.length ∧
        lineLoop left stored rp fd = none) := by
  induction left generalizing stored rp fd s with
  | zero =>
    have hne : stored ≠ [] := List.ne_nil_of_length_pos (by omega)
    refine Or.inl ⟨hint, rp, fd, h, ?_⟩
    simp [lineLoop, lineOf, lineRead, hne]
  | succ left ih =>
    obtain ⟨rp', fd', ⟨c, rest, rfl, hu, he⟩ | ⟨rfl, hu, he⟩⟩ := readb_one h
    · -- a byte was read
      by_cases hmax : stored.length + 1 = 2 ^ 31
      · refine Or.inr ⟨?_, ?_⟩
        · have hne : (lineOf (left + 1) (c :: rest)).1 ≠ [] := fun h0 => by
            cases lineOf_eq_nil (Nat.succ_pos left) h0
          have := List.length_pos_iff.2 hne
          omega
        · rw [lineLoop, he]
          simp only [if_true, if_pos hmax]
      by_cases hc : c = 10
      · subst hc
        refine Or.inl ⟨?_, rp', fd', by simpa [lineOf] using hu, ?_⟩
        · simp only [lineOf, if_true, List.length_singleton]
          omega
        · rw [lineLoop, he]
          simp only [if_true, if_neg hmax]
          simp [lineOf, lineRead]
      · have hlen : (stored ++ [c]).length = stored.length + 1 := by simp
        have hline : lineOf (left + 1) (c :: rest) =
            (c :: (lineOf left rest).1, (lineOf left rest).2) := by
          rw [lineOf, if_neg hc]
        have hstep : lineLoop (left + 1) stored rp fd =
            lineLoop left (stored ++ [c]) rp' fd' := by
          rw [lineLoop, he]
          simp only [if_true, if_neg hmax]
          rw [if_neg (by simpa using hc)]
        have hpos' : 0 < left + (stored ++ [c]).length := by omega
        have hrest := ih hu hpos' (by omega)
        rw [hlen, List.append_assoc, List.singleton_append] at hrest
        rw [hline, hstep, List.length_cons, Nat.add_comm _ 1, ← Nat.add_assoc]
        exact hrest
    · -- the end of file
      refine Or.inl ⟨by simpa [lineOf] using hint, rp', fd', hu, ?_⟩
      rw [lineLoop, he]
      by_cases hnil : stored = []
      · simp [hnil, lineOf, lineRead]
      · simp [hnil, lineOf, lineRead]

/-- **`rio_readlineb` reads the next line**, however `read` splits the stream. -/
theorem readlineb_eq (h : rp.Unread fd s) (hmax : 1 ≤ maxlen) :
    ((lineOf maxlen s).1.length < 2 ^ 31 ∧ ∃ rp' fd', rp'.Unread fd' (lineOf maxlen s).2 ∧
        rp.readlineb fd maxlen = some (lineRead (lineOf maxlen s).1, rp', fd')) ∨
      (2 ^ 31 ≤ (lineOf maxlen s).1.length ∧ rp.readlineb fd maxlen = none) := by
  have hpos : 0 < maxlen + ([] : List UInt8).length := by simp; omega
  have hloop := lineLoop_eq h hpos (by decide)
  simpa [readlineb] using hloop

/-- The first `k` lines of a stream. -/
def linesOf (maxlen : ℕ) : ℕ → List UInt8 → List (List UInt8)
  | 0, _ => []
  | k + 1, s => (lineOf maxlen s).1 :: linesOf maxlen k (lineOf maxlen s).2

theorem length_linesOf (k : ℕ) (s : List UInt8) : (linesOf maxlen k s).length = k := by
  induction k generalizing s with
  | zero => rfl
  | succ k ih => rw [linesOf, List.length_cons, ih]

theorem readLines_ok (hmax : 1 ≤ maxlen) {k : ℕ} (h : rp.Unread fd s)
    (hint : ∀ l ∈ linesOf maxlen k s, l.length < 2 ^ 31) :
    ∃ rp' fd', readLines maxlen k rp fd =
      some ((linesOf maxlen k s).map lineRead, rp', fd') := by
  induction k generalizing rp fd s with
  | zero => exact ⟨rp, fd, rfl⟩
  | succ k ih =>
    obtain ⟨-, rp', fd', hu, he⟩ | ⟨hlong, -⟩ := readlineb_eq h hmax
    · obtain ⟨rp'', fd'', hrest⟩ := ih hu fun l hl => hint l (List.mem_cons_of_mem _ hl)
      exact ⟨rp'', fd'', by rw [readLines, he]; simp [hrest, linesOf]⟩
    · have := hint _ List.mem_cons_self
      omega

theorem readLines_short (hmax : 1 ≤ maxlen) {k : ℕ} {r : List Line × Rio × List Read}
    (h : rp.Unread fd s) (hr : readLines maxlen k rp fd = some r) :
    ∀ l ∈ linesOf maxlen k s, l.length < 2 ^ 31 := by
  induction k generalizing rp fd s r with
  | zero => simp [linesOf]
  | succ k ih =>
    rw [readLines] at hr
    obtain ⟨p, hp, hr⟩ := Option.bind_eq_some_iff.1 hr
    obtain ⟨q, hq, -⟩ := Option.bind_eq_some_iff.1 hr
    obtain ⟨hlt, rp', fd', hu, he⟩ | ⟨-, hnone⟩ := readlineb_eq h hmax
    · obtain rfl := Option.some.inj (he.symm.trans hp)
      rw [linesOf, List.forall_mem_cons]
      exact ⟨hlt, ih hu hq⟩
    · rw [hnone] at hp
      cases hp

/-! ### Nothing is lost -/

/-- The bytes some calls delivered. -/
def delivered (lines : List Line) : List UInt8 := lines.flatMap Line.bytes

/-- What calls of `rio_readlineb` should have delivered of a stream. -/
structure Lossless (maxlen : ℕ) (s : List UInt8) (lines : List Line) : Prop where
  inOrder : delivered lines <+: s
  complete : s.length ≤ lines.length → delivered lines = s
  ret : ∀ l ∈ lines, l.ret = l.bytes.length
  newline : ∀ l ∈ lines, 10 ∉ l.bytes.dropLast
  ends : ∀ before l after, lines = before ++ l :: after →
    l.bytes.getLast? = some 10 ∨ l.bytes.length = maxlen ∨ delivered (before ++ [l]) = s
  zero : ∀ before l after, lines = before ++ l :: after → l.ret = 0 → delivered before = s

theorem lossless_linesOf (hmax : 1 ≤ maxlen) (k : ℕ) (s : List UInt8) :
    Lossless maxlen s ((linesOf maxlen k s).map lineRead) := by
  induction k generalizing s with
  | zero =>
    refine ⟨List.nil_prefix, fun hs => ?_, by simp [linesOf], by simp [linesOf], ?_, ?_⟩
    · exact (List.length_eq_zero_iff.1 (Nat.le_zero.1 hs)).symm
    · simp [linesOf]
    · simp [linesOf]
  | succ k ih =>
    have hrest := ih (lineOf maxlen s).2
    have happ := lineOf_append maxlen s
    set l := (lineOf maxlen s).1 with hl
    set rest := (lineOf maxlen s).2 with hrs
    have hcons : (linesOf maxlen (k + 1) s).map lineRead =
        lineRead l :: (linesOf maxlen k rest).map lineRead := rfl
    have hdel (ls : List Line) : delivered (lineRead l :: ls) = l ++ delivered ls := by
      rw [delivered, List.flatMap_cons, lineRead_bytes, delivered]
    rw [hcons]
    refine ⟨?_, fun hlen => ?_, ?_, ?_, fun before m after hm => ?_, fun before m after hm h0 => ?_⟩
    · rw [hdel, ← happ]
      exact (List.prefix_append_right_inj l).2 hrest.inOrder
    · rw [hdel, ← happ]
      congr 1
      by_cases hnil : l = []
      · -- at the end of the stream nothing is left
        have hs := lineOf_eq_nil hmax hnil
        have hr : rest = [] := by rw [hs] at happ; exact (List.append_eq_nil_iff.1 happ).2
        have hpre := hrest.inOrder
        rw [hr] at hpre ⊢
        exact List.prefix_nil.1 hpre
      · apply hrest.complete
        have := List.length_pos_iff.2 hnil
        have htot := congrArg List.length happ
        rw [List.length_append] at htot
        rw [List.length_cons] at hlen
        omega
    · rw [List.forall_mem_cons]
      exact ⟨by rw [lineRead_ret, lineRead_bytes], hrest.ret⟩
    · rw [List.forall_mem_cons]
      exact ⟨by rw [lineRead_bytes]; exact newline_notMem_lineOf maxlen s, hrest.newline⟩
    · cases before with
      | nil =>
        obtain ⟨rfl, -⟩ := List.cons.inj hm
        rw [lineRead_bytes, List.nil_append, hdel]
        obtain h | h | h := lineOf_ends maxlen s
        · exact Or.inl h
        · exact Or.inr (Or.inl h)
        · exact Or.inr (Or.inr (by rw [← happ, hrs, h]; rfl))
      | cons b before =>
        obtain ⟨rfl, htail⟩ := List.cons.inj hm
        rw [List.cons_append, hdel, ← happ, List.append_cancel_left_eq]
        exact hrest.ends before m after htail
    · cases before with
      | nil =>
        obtain ⟨rfl, -⟩ := List.cons.inj hm
        rw [lineRead_ret] at h0
        have hs := lineOf_eq_nil hmax (List.length_eq_zero_iff.1 (by exact_mod_cast h0) : l = [])
        rw [hs]
        rfl
      | cons b before =>
        obtain ⟨rfl, htail⟩ := List.cons.inj hm
        rw [hdel, ← happ, List.append_cancel_left_eq]
        exact hrest.zero before m after htail h0

/-- Every stream can be delivered, one byte at a time. -/
theorem exists_delivers (s : List UInt8) : ∃ fd, Delivers fd s := by
  induction s with
  | nil => exact ⟨[], .done⟩
  | cons c s ih =>
    obtain ⟨fd, h⟩ := ih
    have hfits : [c].length ≤ rioBufSize := by simp [rioBufSize]
    exact ⟨.bytes [c] hfits :: fd, .chunk (by simp) h⟩

/-- The lines fit the `int` that counts their bytes: either `maxlen` does, or no piece of the
stream that has a newline at its end only has as many bytes. -/
def FitsInt (maxlen : ℕ) (s : List UInt8) : Prop :=
  maxlen < 2 ^ 31 ∨ ∀ piece, piece <:+: s → 10 ∉ piece.dropLast → piece.length < 2 ^ 31

theorem linesOf_isInfix {k : ℕ} {l : List UInt8} (h : l ∈ linesOf maxlen k s) :
    l <:+: s ∧ 10 ∉ l.dropLast ∧ l.length ≤ maxlen := by
  induction k generalizing s with
  | zero => simp [linesOf] at h
  | succ k ih =>
    have happ := lineOf_append maxlen s
    obtain rfl | h := List.mem_cons.1 h
    · exact ⟨⟨[], (lineOf maxlen s).2, by simpa using happ⟩, newline_notMem_lineOf maxlen s,
        lineOf_length_le maxlen s⟩
    · obtain ⟨hin, hrest⟩ := ih h
      exact ⟨hin.trans ⟨(lineOf maxlen s).1, [], by simpa using happ⟩, hrest⟩

/-- A piece without a newline before its end is not cut: some line is as long as it. -/
theorem exists_long_line {a piece c : List UInt8} {n : ℕ} (hn : 0 < n) (hmax : n ≤ maxlen)
    (hs : s = a ++ piece ++ c) (hpiece : 10 ∉ piece.dropLast) (hlen : n ≤ piece.length) :
    ∃ k, ∃ l ∈ linesOf maxlen k s, n ≤ l.length := by
  -- the induction is on what stands before the piece, of which each line takes some
  induction hk : a.length using Nat.strong_induction_on generalizing a s with
  | _ m ih =>
    by_cases hlong : n ≤ (lineOf maxlen s).1.length
    · exact ⟨1, (lineOf maxlen s).1, by simp [linesOf], hlong⟩
    have happ := lineOf_append maxlen s
    set l := (lineOf maxlen s).1 with hl
    set rest := (lineOf maxlen s).2 with hrs
    have hslen : s.length = a.length + piece.length + c.length := by
      rw [hs, List.length_append, List.length_append]
    have hl0 : 0 < l.length := by
      rw [List.length_pos_iff]
      intro hnil
      rw [lineOf_eq_nil (hn.trans_le hmax) hnil, List.length_nil] at hslen
      omega
    by_cases hin : l.length ≤ a.length
    · have hrest : rest = a.drop l.length ++ piece ++ c := by
        have hdrop := congrArg (List.drop l.length) (happ.trans hs)
        rwa [List.drop_left, List.append_assoc, List.drop_append_of_le_length hin,
          ← List.append_assoc] at hdrop
      obtain ⟨k, l', hmem, hlen'⟩ := ih _ (by rw [← hk, List.length_drop]; omega) hrest rfl
      exact ⟨k + 1, l', by rw [linesOf]; exact List.mem_cons_of_mem _ hmem, hlen'⟩
    · -- the line ends inside the piece, so not at a newline
      have hends := lineOf_ends maxlen s
      rw [← hl, ← hrs] at hends
      obtain h | h | h := hends
      · refine absurd ?_ hpiece
        have hget : s[l.length - 1]? = some 10 := by
          rw [← happ, List.getElem?_append_left (by omega), ← List.getLast?_eq_getElem?]
          exact h
        rw [hs, List.append_assoc, List.getElem?_append_right (by omega),
          List.getElem?_append_left (by omega)] at hget
        refine List.mem_of_getElem? (i := l.length - 1 - a.length) ?_
        rw [List.getElem?_dropLast, if_pos (by omega), hget]
      · omega
      · have htot := congrArg List.length happ
        rw [List.length_append, h, List.length_nil] at htot
        omega

theorem fitsInt_iff :
    FitsInt maxlen s ↔ ∀ k, ∀ l ∈ linesOf maxlen k s, l.length < 2 ^ 31 := by
  constructor
  · intro h k l hl
    obtain ⟨hin, hnl, hle⟩ := linesOf_isInfix hl
    obtain h | h := h
    · exact hle.trans_lt h
    · exact h l hin hnl
  · intro h
    by_contra hnot
    rw [FitsInt, not_or, not_lt, not_forall] at hnot
    obtain ⟨hlt, piece, hpiece⟩ := hnot
    simp only [Classical.not_imp, not_lt] at hpiece
    obtain ⟨⟨a, c, hs⟩, hnl, hlong⟩ := hpiece
    obtain ⟨k, l, hl, hlen⟩ := exists_long_line (by decide) hlt hs.symm hnl hlong
    have := h k l hl
    omega

/-- Line reading does what it should on a stream: `k` calls return the same lines however `read`
delivers the stream, and these lines are the stream. -/
def ReadsLossless (maxlen : ℕ) (s : List UInt8) : Prop :=
  ∀ k, ∃ lines, lines.length = k ∧ Lossless maxlen s lines ∧
    ∀ fd buf size, Delivers fd s →
      ∃ rp fd', readLines maxlen k (init buf size) fd = some (lines, rp, fd')

theorem fitsInt_of_reads (hmax : 1 ≤ maxlen) (h : ReadsLossless maxlen s) :
    FitsInt maxlen s := by
  refine fitsInt_iff.2 fun k => ?_
  obtain ⟨lines, -, -, hreads⟩ := h k
  obtain ⟨fd, hfd⟩ := exists_delivers s
  have size : (List.replicate rioBufSize (0 : UInt8)).length = rioBufSize :=
    List.length_replicate
  obtain ⟨rp, fd', hr⟩ := hreads fd _ size hfd
  exact readLines_short hmax (Unread.start size hfd) hr

/-- **Line reading is lossless** and independent of how `read` splits the stream, if and only if
the lines fit the `int` that counts their bytes. -/
theorem readsLossless_iff (hmax : 1 ≤ maxlen) :
    ReadsLossless maxlen s ↔ FitsInt maxlen s := by
  refine ⟨fitsInt_of_reads hmax, fun h k => ?_⟩
  refine ⟨(linesOf maxlen k s).map lineRead, ?_, lossless_linesOf hmax k s,
    fun fd buf size hfd => ?_⟩
  · rw [List.length_map, length_linesOf]
  · exact readLines_ok hmax (Unread.start size hfd) (fitsInt_iff.1 h k)

theorem readsLossless_two_bytes : ReadsLossless 2 [97, 98, 10, 99] :=
  (readsLossless_iff (by decide)).2 (Or.inl (by decide))

/-- A line of `2 ^ 31` bytes is too long. -/
theorem long_line_overflows : ¬ReadsLossless (2 ^ 31) (List.replicate (2 ^ 31) 0) := by
  intro h
  obtain hlt | hpieces := fitsInt_of_reads (by decide) h
  · exact absurd hlt (lt_irrefl _)
  · have hlen := hpieces _ List.infix_rfl fun hmem => by
      have h0 := List.eq_of_mem_replicate (List.dropLast_subset _ hmem)
      exact absurd h0 (by decide)
    rw [List.length_replicate] at hlen
    exact lt_irrefl _ hlen

end Rio

end OSLab.Webserver

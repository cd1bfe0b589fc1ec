import OSLab.Webserver.Scan
import OSLab.Webserver.Headers
import Mathlib.Data.List.TakeWhile

/-!
# What the client accepts

`client_print` reads an answer line by line, its body as well, into an array of `MAXBUF` bytes.

* `printHeaders_eq`: however `read` splits the answer, the loop over the headers stops behind the
  empty line, with the numbers of the lines it looked for.
* `printBody_some`, `printBody_returns`: the loop over the body adds up all its bytes, if and only
  if its lines fit in the array.
* `client_accepts_iff`: the assertions hold for the page with a file if and only if the client
  expects the length and the checksum of the file, and its lines fit.
-/

namespace OSLab.Webserver

open Rio

variable {s rest body : List UInt8} {ls : List (List UInt8)} {rp : Rio} {fd : List Read} {fuel : ℕ}
  {print : Bool}

/-! ### One line -/

/-- A line that fits in the array is stored; a longer one is not. -/
theorem readline_eq (h : rp.Unread fd s) (buf : Option (List UInt8)) :
    ((lineOf maxBuf s).1.length < maxBuf ∧ ∃ rp' fd', rp'.Unread fd' (lineOf maxBuf s).2 ∧
      readline buf rp fd = some (((lineOf maxBuf s).1.length : ℤ),
        if (lineOf maxBuf s).1 = [] then buf else some ((lineOf maxBuf s).1 ++ [0]), rp', fd')) ∨
    (maxBuf ≤ (lineOf maxBuf s).1.length ∧ readline buf rp fd = none) := by
  have hle := lineOf_length_le maxBuf s
  have hint : maxBuf < 2 ^ 31 := by decide
  obtain ⟨-, rp', fd', hu, he⟩ | ⟨hlong, -⟩ := readlineb_eq h (show 1 ≤ maxBuf by decide)
  · unfold readline
    rw [he]
    by_cases hnil : (lineOf maxBuf s).1 = []
    · rw [hnil]
      exact Or.inl ⟨by decide, rp', fd', hu, rfl⟩
    have hret : (lineRead (lineOf maxBuf s).1).ret = (lineOf maxBuf s).1.length := lineRead_ret _
    have hstored : (lineRead (lineOf maxBuf s).1).stored = (lineOf maxBuf s).1 ++ [0] := by
      unfold lineRead
      rw [if_neg hnil]
    have hlen : ((lineOf maxBuf s).1 ++ [(0 : UInt8)]).length = (lineOf maxBuf s).1.length + 1 := by
      rw [List.length_append, List.length_singleton]
    have hne : (lineOf maxBuf s).1 ++ [(0 : UInt8)] ≠ [] := by simp
    by_cases hlt : (lineOf maxBuf s).1.length < maxBuf
    · refine Or.inl ⟨hlt, rp', fd', hu, ?_⟩
      simp only [Option.bind_eq_bind, Option.bind_some, hret, hstored, hlen]
      rw [if_neg (by omega), if_neg hne, if_neg hnil]
      rfl
    · refine Or.inr ⟨not_lt.1 hlt, ?_⟩
      simp only [Option.bind_eq_bind, Option.bind_some, hret, hstored, hlen]
      exact if_pos (by omega)
  · omega

/-- A line that ends at a newline. -/
theorem readline_line {l : List UInt8} (hl : IsLine l) (hlen : l.length < maxBuf)
    (h : rp.Unread fd (l ++ rest)) (buf : Option (List UInt8)) :
    ∃ rp' fd', rp'.Unread fd' rest ∧
      readline buf rp fd = some ((l.length : ℤ), some (l ++ [0]), rp', fd') := by
  have hne : l ≠ [] := by
    intro h0
    rw [h0] at hl
    cases hl.1
  have hline : lineOf maxBuf (l ++ rest) = (l, rest) := lineOf_line hl hlen.le
  obtain ⟨-, rp', fd', hu, he⟩ | ⟨hlong, -⟩ := readline_eq h buf
  · rw [hline] at hu he
    rw [if_neg hne] at he
    exact ⟨rp', fd', hu, he⟩
  · rw [hline] at hlong
    exact absurd hlen hlong.not_gt

/-! ### The headers -/

/-- A line of the headers that fits in the array, without its end. -/
structure HeaderLine (l : List UInt8) : Prop where
  ne_nil : l ≠ []
  short : l.length + 2 < maxBuf
  newline : (10 : UInt8) ∉ l
  nul : (0 : UInt8) ∉ l

/-- A line as it is read. -/
def withEnd (l : List UInt8) : List UInt8 := l ++ text "\r\n"

theorem HeaderLine.isLine {l : List UInt8} (h : HeaderLine l) : IsLine (withEnd l) := by
  have hdrop : (l ++ [(13 : UInt8), 10]).dropLast = l ++ [13] := by
    rw [List.dropLast_append_cons]
    rfl
  constructor
  · exact List.getLast?_append_of_ne_nil l (by decide)
  · unfold withEnd
    rw [text_crlf, hdrop, List.mem_append, not_or]
    exact ⟨h.newline, by decide⟩

theorem HeaderLine.length {l : List UInt8} (h : HeaderLine l) :
    (withEnd l).length < maxBuf := by
  unfold withEnd
  rw [List.length_append]
  exact h.short

/-- What `strcmp` and `sscanf` see of the array. -/
theorem cString_eq_self {l : List UInt8} (h : (0 : UInt8) ∉ l) : cString (l ++ [0]) = l := by
  rw [cString_append_nul]
  refine List.takeWhile_eq_self_iff.2 fun c hc => decide_eq_true fun h0 => h (h0 ▸ hc)

theorem HeaderLine.cString {l : List UInt8} (h : HeaderLine l) :
    cString (withEnd l ++ [0]) = withEnd l := by
  refine cString_eq_self ?_
  unfold withEnd
  rw [List.mem_append, not_or]
  exact ⟨h.nul, by decide⟩

theorem HeaderLine.ne_crlf {l : List UInt8} (h : HeaderLine l) : withEnd l ≠ text "\r\n" := by
  intro he
  exact h.ne_nil (List.append_left_eq_self.1 he)

/-- What is printed for some lines. -/
def headersPrinted (print : Bool) (ls : List (List UInt8)) : List UInt8 :=
  if print then ls.flatMap fun l => text "Header: " ++ withEnd l else []

theorem headersPrinted_cons (print : Bool) (l : List UInt8) (ls : List (List UInt8)) :
    headersPrinted print (l :: ls) =
      (if print then text "Header: " ++ withEnd l else []) ++ headersPrinted print ls := by
  unfold headersPrinted
  cases print
  · rfl
  · rw [if_pos rfl, if_pos rfl, if_pos rfl, List.flatMap_cons]

/-- The empty line ends the loop. -/
theorem printHeaders_end {n length : ℤ} {csum : ℕ} (fuel : ℕ) :
    printHeaders print (fuel + 1) n (some (text "\r\n" ++ [0])) length csum rp fd =
      some ([], length, csum, some (text "\r\n" ++ [0]), rp, fd) := by
  have hend : cString (text "\r\n" ++ [0]) = text "\r\n" := by decide
  rw [printHeaders]
  simp only [Option.bind_eq_bind, Option.bind_some]
  rw [if_pos (Or.inl hend)]
  rfl

/-- A turn of the loop. -/
theorem printHeaders_turn (print : Bool) {n : ℤ} (length : ℤ) (csum : ℕ) {cur next : List UInt8}
    (hcur : HeaderLine cur) (hn : 0 < n) (hline : IsLine next) (hlen : next.length < maxBuf) (hnul : (0 : UInt8) ∉ next)
    (h : rp.Unread fd (next ++ rest)) : ∃ rp' fd', rp'.Unread fd' rest ∧ ∀ fuel,
      printHeaders print (fuel + 1) n (some (withEnd cur ++ [0])) length csum rp fd =
        (scanHeader (length, csum) next).bind fun v =>
          (printHeaders print fuel next.length (some (next ++ [0])) v.1 v.2 rp' fd').map fun r =>
            ((if print then text "Header: " ++ withEnd cur else []) ++ r.1, r.2) := by
  obtain ⟨rp', fd', hu, he⟩ := readline_line hline hlen h (some (withEnd cur ++ [0]))
  refine ⟨rp', fd', hu, fun fuel => ?_⟩
  have hgo : ¬(cString (withEnd cur ++ [0]) = text "\r\n" ∨ n ≤ 0) := by
    rw [hcur.cString]
    rintro (hc | hc)
    · exact hcur.ne_crlf hc
    · exact hc.not_gt hn
  rw [printHeaders]
  simp only [Option.bind_eq_bind, Option.bind_some]
  rw [if_neg hgo, he]
  simp only [Option.bind_some, cString_eq_self hnul, hcur.cString]
  unfold scanHeader
  cases scanTag scanD (text "Content-Length:") next length with
  | none => rfl
  | some len =>
    cases scanTag scanU (text "Content-Csum:") next csum with
    | none => rfl
    | some c =>
      show (printHeaders print fuel next.length (some (next ++ [0])) len c rp' fd').bind _ =
        (printHeaders print fuel next.length (some (next ++ [0])) len c rp' fd').map _
      cases printHeaders print fuel next.length (some (next ++ [0])) len c rp' fd' <;> rfl

theorem unlooked_crlf : Unlooked (text "\r\n") := by
  unfold Unlooked
  decide

/-- **The loop over the headers** stops behind the empty line. Its numbers are those of the lines. -/
theorem printHeaders_eq (print : Bool) {n : ℤ} (length : ℤ) (csum : ℕ) {cur : List UInt8}
    (hcur : HeaderLine cur) (hn : 0 < n) (hls : ∀ l ∈ ls, HeaderLine l)
    (h : rp.Unread fd (Framing.head 13 [10] ls ++ body)) : ∃ rp' fd', rp'.Unread fd' body ∧
      ∀ fuel, printHeaders print fuel n (some (withEnd cur ++ [0])) length csum rp fd =
        if ls.length + 2 ≤ fuel then
          ((ls.map withEnd).foldlM scanHeader (length, csum)).map fun v =>
            (headersPrinted print (cur :: ls), v.1, v.2, some (text "\r\n" ++ [0]), rp', fd')
        else none := by
  induction ls generalizing n length csum cur rp fd with
  | nil =>
    obtain ⟨rp', fd', hu, he⟩ := printHeaders_turn print length csum hcur hn isLine_crlf (by decide) (by decide) h
    refine ⟨rp', fd', hu, fun fuel => ?_⟩
    cases fuel with
    | zero => rfl
    | succ fuel =>
      rw [he, scanHeader_other unlooked_crlf, Option.bind_some]
      cases fuel with
      | zero => rfl
      | succ fuel =>
        have hfuel : ([] : List (List UInt8)).length + 2 ≤ fuel + 1 + 1 := by
          rw [List.length_nil]
          omega
        have hprinted : headersPrinted print [cur] =
            (if print then text "Header: " ++ withEnd cur else []) ++ [] := by
          cases print <;> rfl
        rw [printHeaders_end, if_pos hfuel, hprinted]
        rfl
  | cons l ls ih =>
    obtain ⟨hl, hrest⟩ := List.forall_mem_cons.1 hls
    have hs : Framing.head 13 [10] (l :: ls) ++ body =
        withEnd l ++ (Framing.head 13 [10] ls ++ body) := by
      simp only [Framing.head, withEnd, text_crlf, List.append_assoc]
    have hnul : (0 : UInt8) ∉ withEnd l := by
      unfold withEnd
      rw [List.mem_append, not_or]
      exact ⟨hl.nul, by decide⟩
    have hpos : (0 : ℤ) < (withEnd l).length := by
      have := List.length_pos_iff.2 hl.ne_nil
      unfold withEnd
      rw [List.length_append]
      omega
    rw [hs] at h
    obtain ⟨rp', fd', hu, he⟩ := printHeaders_turn print length csum hcur hn hl.isLine hl.length hnul h
    cases hv : scanHeader (length, csum) (withEnd l) with
    | none =>
      obtain ⟨rp'', fd'', hu', -⟩ := ih length csum hl hpos hrest hu
      refine ⟨rp'', fd'', hu', fun fuel => ?_⟩
      have hnone : ((l :: ls).map withEnd).foldlM scanHeader (length, csum) = none := by
        rw [List.map_cons, List.foldlM_cons, hv]
        rfl
      rw [hnone, Option.map_none, ite_self]
      cases fuel with
      | zero => rfl
      | succ fuel => rw [he, hv, Option.bind_none]
    | some v =>
      obtain ⟨rp'', fd'', hu', he'⟩ := ih v.1 v.2 hl hpos hrest hu
      refine ⟨rp'', fd'', hu', fun fuel => ?_⟩
      have hsome : ((l :: ls).map withEnd).foldlM scanHeader (length, csum) =
          (ls.map withEnd).foldlM scanHeader v := by
        rw [List.map_cons, List.foldlM_cons, hv]
        rfl
      rw [hsome, headersPrinted_cons]
      cases fuel with
      | zero => rfl
      | succ fuel =>
        have hlen : (l :: ls).length + 2 ≤ fuel + 1 ↔ ls.length + 2 ≤ fuel := by
          rw [List.length_cons]
          omega
        rw [he, hv, Option.bind_some, he', if_congr hlen rfl rfl]
        by_cases hfuel : ls.length + 2 ≤ fuel
        · rw [if_pos hfuel, if_pos hfuel, Option.map_map]
          rfl
        · rw [if_neg hfuel, if_neg hfuel]
          rfl

/-! ### The body -/

/-- No piece of a body is too long for the array and has a newline at its end only. -/
def ShortLines (s : List UInt8) : Prop :=
  ∀ piece, piece <:+: s → (10 : UInt8) ∉ piece.dropLast → piece.length < maxBuf

theorem shortLines_iff :
    ShortLines s ↔ ∀ k, ∀ l ∈ linesOf maxBuf k s, l.length < maxBuf := by
  constructor
  · intro h k l hl
    obtain ⟨hin, hnl, -⟩ := linesOf_isInfix hl
    exact h l hin hnl
  · intro h piece hin hnl
    by_contra hlong
    obtain ⟨a, c, hs⟩ := hin
    obtain ⟨k, l, hl, hlen⟩ : ∃ k, ∃ l ∈ linesOf maxBuf k s, maxBuf ≤ l.length :=
      exists_long_line (by decide) le_rfl hs.symm hnl (not_lt.1 hlong)
    exact (h k l hl).not_ge hlen

theorem ShortLines.line (h : ShortLines s) :
    (lineOf maxBuf s).1.length < maxBuf ∧ ShortLines (lineOf maxBuf s).2 := by
  rw [shortLines_iff] at h ⊢
  exact ⟨h 1 _ List.mem_cons_self, fun k l hl => h (k + 1) l (List.mem_cons_of_mem _ hl)⟩

theorem ShortLines.of_line (hl : (lineOf maxBuf s).1.length < maxBuf)
    (h : ShortLines (lineOf maxBuf s).2) : ShortLines s := by
  rw [shortLines_iff] at h ⊢
  intro k l hk
  cases k with
  | zero => cases hk
  | succ k =>
    rcases List.mem_cons.1 hk with rfl | hk
    · exact hl
    · exact h k l hk

theorem csumFrom_append (c : ℕ) (a b : List UInt8) :
    csumFrom c (a ++ b) = csumFrom (csumFrom c a) b := List.foldl_append

/-- A turn of the loop over the body. -/
theorem printBody_turn (print : Bool) (buf : Option (List UInt8)) (length : ℤ) (csum : ℕ)
    (h : rp.Unread fd s)
    (hl : (lineOf maxBuf s).1.length < maxBuf) (hs : s ≠ []) :
    ∃ buf' rp' fd', rp'.Unread fd' (lineOf maxBuf s).2 ∧ ∀ fuel,
      printBody print (fuel + 1) buf length csum rp fd =
        if 2 ^ 31 ≤ length + (lineOf maxBuf s).1.length then none
        else (printBody print fuel buf' (length + (lineOf maxBuf s).1.length)
          (csumFrom csum (lineOf maxBuf s).1) rp' fd').map fun r =>
            ((if print then (lineOf maxBuf s).1 else []) ++ r.1, r.2) := by
  have hne : (lineOf maxBuf s).1 ≠ [] := fun h0 => hs (lineOf_eq_nil (by decide) h0)
  have hpos : (0 : ℤ) < (lineOf maxBuf s).1.length := by
    have := List.length_pos_iff.2 hne
    omega
  rcases readline_eq h buf with ⟨-, rp', fd', hu, he⟩ | ⟨hlong, -⟩
  swap
  · exact absurd hl hlong.not_gt
  rw [if_neg hne] at he
  refine ⟨some ((lineOf maxBuf s).1 ++ [0]), rp', fd', hu, fun fuel => ?_⟩
  have htake : ((some ((lineOf maxBuf s).1 ++ [(0 : UInt8)])).getD []).take
      ((lineOf maxBuf s).1.length : ℤ).toNat = (lineOf maxBuf s).1 := by
    rw [Option.getD_some, Int.toNat_natCast, List.take_left]
  rw [printBody, he]
  simp only [Option.bind_eq_bind, Option.bind_some, htake, if_pos hpos]
  by_cases hmax : 2 ^ 31 ≤ length + ((lineOf maxBuf s).1.length : ℤ)
  · rw [if_pos hmax, if_pos hmax]
  · rw [if_neg hmax, if_neg hmax]
    cases printBody print fuel (some ((lineOf maxBuf s).1 ++ [0]))
      (length + (lineOf maxBuf s).1.length) (csumFrom csum (lineOf maxBuf s).1) rp' fd' <;> rfl

/-- The end of the body ends the loop. -/
theorem printBody_end {buf : Option (List UInt8)} {length : ℤ} {csum : ℕ} (h : rp.Unread fd [])
    (hlen : length < 2 ^ 31) (fuel : ℕ) :
    printBody print (fuel + 1) buf length csum rp fd = some ([], length, csum) := by
  rcases readline_eq h buf with ⟨-, rp', fd', -, he⟩ | ⟨hlong, -⟩
  · have hnil : (lineOf maxBuf ([] : List UInt8)).1 = [] := rfl
    rw [hnil, if_pos rfl] at he
    rw [printBody, he]
    simp only [Option.bind_eq_bind, Option.bind_some, List.length_nil, Nat.cast_zero, add_zero]
    rw [if_neg (not_le.2 hlen), if_neg (lt_irrefl 0)]
    rfl
  · exact absurd hlong (by decide)

/-- The bytes of a body are printed and added up. -/
def received (print : Bool) (s : List UInt8) (length : ℤ) (csum : ℕ) : List UInt8 × ℤ × ℕ :=
  (if print then s else [], length + s.length, csumFrom csum s)

theorem received_line {length : ℤ} {csum : ℕ} {r : List UInt8 × ℤ × ℕ}
    (hr : r = received print (lineOf maxBuf s).2 (length + (lineOf maxBuf s).1.length)
      (csumFrom csum (lineOf maxBuf s).1)) :
    ((if print then (lineOf maxBuf s).1 else []) ++ r.1, r.2) = received print s length csum := by
  have happ := lineOf_append maxBuf s
  have hprint : (if print then (lineOf maxBuf s).1 else []) ++
      (if print then (lineOf maxBuf s).2 else []) = if print then s else [] := by
    cases print
    · rfl
    · rw [if_pos rfl, if_pos rfl, if_pos rfl, happ]
  have hlen : length + (lineOf maxBuf s).1.length + (lineOf maxBuf s).2.length =
      length + s.length := by
    have := congrArg List.length happ
    rw [List.length_append] at this
    omega
  rw [hr]
  unfold received
  rw [hprint, hlen, ← csumFrom_append, happ]

/-- **The loop over the body** that ends has read short lines. -/
theorem printBody_some {buf : Option (List UInt8)} {length : ℤ} {csum : ℕ}
    {r : List UInt8 × ℤ × ℕ} (h : rp.Unread fd s) (hlen : length < 2 ^ 31)
    (hr : printBody print fuel buf length csum rp fd = some r) :
    ShortLines s ∧ length + s.length < 2 ^ 31 ∧ r = received print s length csum := by
  induction fuel generalizing s buf length csum rp fd r with
  | zero => cases hr
  | succ fuel ih =>
    by_cases hs : s = []
    · subst hs
      rw [printBody_end h hlen] at hr
      obtain rfl := Option.some.inj hr
      refine ⟨shortLines_iff.2 fun k l hl => ?_, by simpa using hlen, ?_⟩
      · have hnil := (linesOf_isInfix hl).1
        rw [List.infix_nil.1 hnil]
        decide
      · cases print <;> simp [received, csumFrom]
    have happ := congrArg List.length (lineOf_append maxBuf s)
    rw [List.length_append] at happ
    rcases readline_eq h buf with ⟨hl, -⟩ | ⟨-, hnone⟩
    · obtain ⟨buf', rp', fd', hu, he⟩ := printBody_turn print buf length csum h hl hs
      rw [he] at hr
      split at hr
      · cases hr
      rename_i hmax
      obtain ⟨r', hr', rfl⟩ := Option.map_eq_some_iff.1 hr
      obtain ⟨hshort, hlt, heq⟩ := ih hu (not_le.1 hmax) hr'
      exact ⟨.of_line hl hshort, by omega, received_line heq⟩
    · rw [printBody, hnone] at hr
      cases hr

theorem printBody_returns {buf : Option (List UInt8)} {length : ℤ} {csum : ℕ}
    (h : rp.Unread fd s) (hshort : ShortLines s) (hlen : length + s.length < 2 ^ 31)
    (h0 : s.length < fuel) :
    printBody print fuel buf length csum rp fd = some (received print s length csum) := by
  induction fuel generalizing s buf length csum rp fd with
  | zero => omega
  | succ fuel ih =>
    by_cases hs : s = []
    · subst hs
      rw [printBody_end h (by simpa using hlen)]
      cases print <;> simp [received, csumFrom]
    have happ := congrArg List.length (lineOf_append maxBuf s)
    rw [List.length_append] at happ
    have hpos : 0 < (lineOf maxBuf s).1.length :=
      List.length_pos_iff.2 fun hnil => hs (lineOf_eq_nil (by decide) hnil)
    obtain ⟨hl, hrest⟩ := hshort.line
    obtain ⟨buf', rp', fd', hu, he⟩ := printBody_turn print buf length csum h hl hs
    rw [he, if_neg (by omega), ih hu hrest (by omega) (by omega), Option.map_some,
      received_line rfl]

/-! ### An answer -/

/-- The headers of a response are lines the client can read, and say `length` and `csum`. -/
structure Announces (r : Response) (length : ℤ) (csum : ℕ) : Prop where
  lines : ∀ l ∈ r.lines, HeaderLine l
  scan : (r.headers.map withEnd).foldlM scanHeader (0, 0) = some (length, csum)

/-- What `client_print` prints of a response. -/
def printed (print : Bool) (r : Response) : List UInt8 :=
  headersPrinted print r.lines ++ if print then r.body else []

/-- **The assertions hold** for a response that says what the client expects and what its body is,
if and only if the lines of the body fit. -/
theorem clientPrint_response {r : Response} {length origLength : ℤ} {csum' origCsum : ℕ}
    {out : List UInt8} (ha : Announces r length csum') (h : rp.Unread fd r.bytes) :
    (∃ fuel, clientPrint fuel origCsum origLength print rp fd = some out) ↔
      (origCsum = csum' ∧ origLength = length) ∧ (csum' = csum r.body ∧ length = r.body.length) ∧
        ShortLines r.body ∧ r.body.length < 2 ^ 31 ∧ out = printed print r := by
  obtain ⟨hfirst, hrest⟩ := List.forall_mem_cons.1 ha.lines
  have hs : r.bytes = withEnd (text "HTTP/1.0 " ++ r.status) ++
      (Framing.head 13 [10] r.headers ++ r.body) := by
    simp only [Response.bytes, Response.lines, Framing.head, withEnd, text_crlf, List.append_assoc]
  have hpos : (0 : ℤ) < (withEnd (text "HTTP/1.0 " ++ r.status)).length := by
    unfold withEnd
    rw [List.length_append, text_crlf, List.length_cons]
    omega
  rw [hs] at h
  obtain ⟨rp₁, fd₁, hu₁, he₁⟩ := readline_line hfirst.isLine hfirst.length h none
  obtain ⟨rp₂, fd₂, hu₂, he₂⟩ := printHeaders_eq print 0 0 hfirst hpos hrest hu₁
  rw [ha.scan] at he₂
  constructor
  · rintro ⟨fuel, hp⟩
    unfold clientPrint at hp
    rw [he₁] at hp
    simp only [Option.bind_eq_bind, Option.bind_some] at hp
    rw [he₂] at hp
    by_cases hfuel : r.headers.length + 2 ≤ fuel
    swap
    · rw [if_neg hfuel] at hp
      cases hp
    rw [if_pos hfuel] at hp
    simp only [Option.map_some, Option.bind_some] at hp
    obtain ⟨b, hb, hp⟩ := Option.bind_eq_some_iff.1 hp
    obtain ⟨hshort, hlt, rfl⟩ := printBody_some hu₂ (by decide) hb
    rw [zero_add] at hlt
    split at hp
    · rename_i hall
      obtain ⟨h1, h2, h3, h4⟩ := hall
      have h3 : length = 0 + (r.body.length : ℤ) := h3
      rw [zero_add] at h3
      refine ⟨⟨h1, h2⟩, ⟨h4, h3⟩, hshort, by exact_mod_cast hlt, ?_⟩
      exact (Option.some.inj hp).symm
    · cases hp
  · rintro ⟨⟨rfl, rfl⟩, ⟨rfl, rfl⟩, hshort, hlt, rfl⟩
    refine ⟨r.headers.length + r.body.length + 2, ?_⟩
    have hb : printBody print (r.headers.length + r.body.length + 2) (some (text "\r\n" ++ [0])) 0 0
        rp₂ fd₂ = some (received print r.body 0 0) :=
      printBody_returns hu₂ hshort (by rw [zero_add]; exact_mod_cast hlt) (by omega)
    unfold clientPrint
    rw [he₁]
    simp only [Option.bind_eq_bind, Option.bind_some]
    rw [he₂, if_pos (by omega)]
    simp only [Option.map_some, Option.bind_some]
    rw [hb]
    have hsum : csumFrom 0 r.body = csum r.body := rfl
    simp only [Option.bind_some, received, zero_add, hsum, and_self, if_true]
    rfl

/-! ### The pages of the server -/

theorem decimal_length {n : ℕ} (h : n < 2 ^ 32) : (decimal n).length ≤ 10 := by
  unfold decimal
  rw [List.length_map, Nat.length_toDigits_le_iff (by decide) (by decide)]
  omega

theorem notMem_decimal {c : UInt8} (hc : isDigit c = false) (n : ℕ) : c ∉ decimal n := by
  intro h
  rw [isDigit_decimal h] at hc
  cases hc

/-- A line that ends with a number. -/
theorem headerLine_decimal {l : List UInt8} (h : HeaderLine l) (hl : l.length ≤ 100) {n : ℕ}
    (hn : n < 2 ^ 32) : HeaderLine (l ++ decimal n) where
  ne_nil := List.append_ne_nil_of_left_ne_nil h.ne_nil _
  short := by
    have := decimal_length hn
    have hmax : maxBuf = 8192 := rfl
    rw [List.length_append]
    omega
  newline := by
    rw [List.mem_append, not_or]
    exact ⟨h.newline, notMem_decimal (by decide) n⟩
  nul := by
    rw [List.mem_append, not_or]
    exact ⟨h.nul, notMem_decimal (by decide) n⟩

/-- Headers that end with the length and the checksum of the body. -/
theorem announces_of {r : Response} (pre : List (List UInt8)) {n c : ℕ}
    (hr : r.headers = pre ++ [Response.lengthLine n, Response.csumLine c])
    (hn : n < 2 ^ 31) (hc : c < 2 ^ 32) (hstatus : HeaderLine (text "HTTP/1.0 " ++ r.status))
    (hpre : ∀ l ∈ pre, HeaderLine l ∧ Unlooked (withEnd l)) : Announces r n c where
  lines := by
    have hlength : HeaderLine (Response.lengthLine n) :=
      headerLine_decimal ⟨by decide, by decide, by decide, by decide⟩ (by decide) (by omega)
    have hcsum : HeaderLine (Response.csumLine c) :=
      headerLine_decimal ⟨by decide, by decide, by decide, by decide⟩ (by decide) hc
    unfold Response.lines
    rw [hr, List.forall_mem_cons]
    refine ⟨hstatus, fun l hl => ?_⟩
    rcases List.mem_append.1 hl with hl | hl
    · exact (hpre l hl).1
    · rcases List.mem_pair.1 hl with rfl | rfl
      · exact hlength
      · exact hcsum
  scan := by
    have hskip : ∀ (ls : List (List UInt8)) (v : ℤ × ℕ), (∀ l ∈ ls, Unlooked (withEnd l)) →
        (ls.map withEnd).foldlM scanHeader v = some v := by
      intro ls v
      induction ls with
      | nil => intro _; rfl
      | cons l ls ih =>
        intro h
        rw [List.map_cons, List.foldlM_cons, scanHeader_other (h l List.mem_cons_self)]
        exact ih fun k hk => h k (List.mem_cons_of_mem _ hk)
    rw [hr, List.map_append, List.foldlM_append, hskip pre (0, 0) fun l hl => (hpre l hl).2]
    show (scanHeader (0, 0) (Response.lengthLine n ++ [13, 10])).bind (fun v =>
      (scanHeader v (Response.csumLine c ++ [13, 10])).bind fun w => some w) = _
    rw [scanHeader_length hn, Option.bind_some, scanHeader_csum hc]
    rfl

theorem csum_lt (s : List UInt8) : csum s < 2 ^ 32 := by
  rw [csum_eq]
  exact Nat.mod_lt _ (by decide)

/-- The page with a file. -/
theorem filePage_announces {data : FileData} (h : data.fileBuf.length < 2 ^ 31) :
    Announces (filePage data) data.fileBuf.length (csum data.fileBuf) := by
  have htype : HeaderLine (text "Content-Type: " ++ requestGetFileType data.fileName) ∧
      Unlooked (withEnd (text "Content-Type: " ++ requestGetFileType data.fileName)) := by
    constructor
    · unfold requestGetFileType
      split_ifs <;> exact ⟨by decide, by decide, by decide, by decide⟩
    · unfold withEnd Unlooked
      rw [List.append_assoc]
      exact ⟨prefix_differs 9 (by decide) (by decide) (by decide),
        prefix_differs 9 (by decide) (by decide) (by decide)⟩
  have hstatus : HeaderLine (text "HTTP/1.0 " ++ text "200 OK") :=
    ⟨by decide, by decide, by decide, by decide⟩
  refine announces_of [text "Server: OS Web Server",
    text "Content-Type: " ++ requestGetFileType data.fileName] rfl h (csum_lt _) hstatus
    fun l hl => ?_
  rcases List.mem_pair.1 hl with rfl | rfl
  · refine ⟨⟨by decide, by decide, by decide, by decide⟩, ?_⟩
    unfold Unlooked
    decide
  · exact htype

/-- **The client accepts what the server sends**, however the network splits it, if and only if it
was told the checksum and the length of the file, and the lines of the file fit in its array. -/
theorem client_accepts_iff {data : FileData} {sent out buf : List UInt8}
    {size : buf.length = rioBufSize} {origCsum : ℕ} {origLength : ℤ}
    (hs : requestSendfile data = some sent) (hsize : data.fileSize = data.fileBuf.length)
    (hint : data.fileSize < 2 ^ 31) (hfd : Rio.Delivers fd sent) :
    (∃ fuel, clientPrint fuel origCsum origLength print (Rio.init buf size) fd = some out) ↔
      origCsum = csum data.fileBuf ∧ origLength = data.fileSize ∧ ShortLines data.fileBuf ∧
        out = printed print (filePage data) := by
  rw [requestSendfile_ok hsize] at hs
  obtain rfl := Option.some.inj hs
  rw [hsize] at hint
  have hlen : data.fileBuf.length < 2 ^ 31 := by exact_mod_cast hint
  rw [clientPrint_response (filePage_announces hlen) (Rio.Unread.start size hfd), hsize]
  constructor
  · rintro ⟨⟨h1, h2⟩, -, h3, -, h4⟩
    exact ⟨h1, h2, h3, h4⟩
  · rintro ⟨h1, h2, h3, h4⟩
    exact ⟨⟨h1, h2⟩, ⟨rfl, rfl⟩, h3, hlen, h4⟩

/-- The client prints the page with a file of three bytes, and gives up on a file of `MAXBUF` bytes
without a newline. -/
theorem client_accepts_three_bytes :
    (∃ fd fuel out, Rio.Delivers fd (filePage ⟨text ".//a", [1, 2, 3], 3⟩).bytes ∧
      clientPrint fuel 6 3 true (Rio.init zeros zeros_length) fd = some out) ∧
    ¬∃ fd fuel out origCsum origLength,
      Rio.Delivers fd (filePage ⟨text ".//a", List.replicate maxBuf 32, maxBuf⟩).bytes ∧
      clientPrint fuel origCsum origLength true (Rio.init zeros zeros_length) fd = some out := by
  constructor
  · obtain ⟨fd, hfd⟩ := exists_delivers (filePage ⟨text ".//a", [1, 2, 3], 3⟩).bytes
    have hshort : ShortLines [1, 2, 3] := by
      intro piece hin _
      exact hin.length_le.trans_lt (by decide)
    have hsend : requestSendfile ⟨text ".//a", [1, 2, 3], 3⟩ =
        some (filePage ⟨text ".//a", [1, 2, 3], 3⟩).bytes := requestSendfile_ok rfl
    obtain ⟨fuel, hp⟩ : ∃ fuel, clientPrint fuel 6 3 true (Rio.init zeros zeros_length) fd =
        some (printed true (filePage ⟨text ".//a", [1, 2, 3], 3⟩)) :=
      (client_accepts_iff hsend rfl (by decide) hfd).2 ⟨rfl, rfl, hshort, rfl⟩
    exact ⟨fd, fuel, _, hfd, hp⟩
  · rintro ⟨fd, fuel, out, origCsum, origLength, hfd, hp⟩
    have hlen : (List.replicate maxBuf (32 : UInt8)).length = maxBuf := List.length_replicate
    have hsend : requestSendfile ⟨text ".//a", List.replicate maxBuf 32, maxBuf⟩ =
        some (filePage ⟨text ".//a", List.replicate maxBuf 32, maxBuf⟩).bytes :=
      requestSendfile_ok (by rw [hlen])
    have hshort := ((client_accepts_iff hsend (by rw [hlen]) (by decide) hfd).1 ⟨fuel, hp⟩).2.2.1
    have hlong := hshort _ List.infix_rfl fun hmem => by
      have h10 := List.eq_of_mem_replicate (List.dropLast_subset _ hmem)
      exact absurd h10 (by decide)
    rw [hlen] at hlong
    exact lt_irrefl _ hlong

end OSLab.Webserver

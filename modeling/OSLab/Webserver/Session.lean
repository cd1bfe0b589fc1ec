import OSLab.Webserver.Fileset
import OSLab.Webserver.Transparent

/-!
# Clients and the server together

A client asks for files of a file set, one after the other, and the server answers each request.

* `requestInit_clientSend`: the server asks for the file that the client named.
* `exchange_ok`, `exchange_returns`: one request and its answer, with and without a cache.
* `session_iff`: all assertions of the client hold if and only if every file it asks for has fewer
  than `MAXBUF` bytes: the files of a file set have no newlines, and a line that fills the array of
  the client is ended behind it.
-/

namespace OSLab.Webserver

open Rio

variable {dir host name rest input written : List UInt8} {fileSz random : ℕ → ℕ}
  {files : List WrittenFile} {f : WrittenFile} {fi : FileInfo} {disk : Disk} {m : ℤ} {s t : Wc}

/-- A turn of the loop of `client_request`: the client sends a request, the server serves it, and
the client prints the answer, however `read` delivers it. -/
def exchange (disk : Disk) (m : ℤ) (host : List UInt8) (s : Wc) (fi : FileInfo) (t : Wc) : Prop :=
  ∃ name csum len input written,
    fi = ⟨some name, some csum, some len⟩ ∧ clientSend host name = some input ∧
    serverStep disk m s (input, written) t ∧ ∀ fd buf size, Rio.Delivers fd written →
      ∃ fuel out, clientPrint fuel csum len true (Rio.init buf size) fd = some out

/-- A turn in which the client prints the answer as `read` happens to deliver it. -/
def someExchange (disk : Disk) (m : ℤ) (host : List UInt8) (s : Wc) (fi : FileInfo) (t : Wc) :
    Prop :=
  ∃ name csum len input written fd fuel out buf size,
    fi = ⟨some name, some csum, some len⟩ ∧ clientSend host name = some input ∧
    serverStep disk m s (input, written) t ∧ Rio.Delivers fd written ∧
    clientPrint fuel csum len true (Rio.init buf size) fd = some out

/-! ### The request -/

/-- A name that can be sent in a request. -/
structure Sendable (name : List UInt8) : Prop where
  ne_nil : name ≠ []
  noSpace : NoSpace name
  nul : (0 : UInt8) ∉ name

/-- A name of a host. -/
structure HostName (host : List UInt8) : Prop where
  newline : (10 : UInt8) ∉ host
  short : host.length ≤ 1000

theorem scanWord_space {c : UInt8} (h : isSpace c = true) (s : List UInt8) :
    scanWord (c :: s) = scanWord s := by
  have hdrop : (c :: s).dropWhile isSpace = s.dropWhile isSpace := by
    rw [List.dropWhile_cons, h]
    rfl
  unfold scanWord
  rw [hdrop]

theorem noSpace_newline (h : NoSpace name) : (10 : UInt8) ∉ name := by
  intro hm
  have := h 10 hm
  exact absurd this (by decide)

/-- **The server asks for the file that the client named.** -/
theorem requestInit_clientSend (hname : Sendable name) (hhost : HostName host)
    (hs : clientSend host name = some input) :
    ∃ fuel, requestInit fuel input = some (.asks (requestParseURI name)) := by
  unfold clientSend at hs
  obtain ⟨_, hb, hi⟩ := Option.bind_eq_some_iff.1 hs
  obtain ⟨hlen, rfl⟩ := sprintf_eq_some.1 hb
  obtain ⟨-, rfl⟩ := sprintf_eq_some.1 hi
  obtain ⟨line, hline⟩ : ∃ line, line = text "GET " ++ name ++ text " HTTP/1.0\r" := ⟨_, rfl⟩
  obtain ⟨head, hhead⟩ : ∃ head, head = text "host: " ++ host ++ text "\r" := ⟨_, rfl⟩
  have hget : text "GET " ++ name ++ text " HTTP/1.0\r\n" = line ++ [10] := by
    have h10 : text " HTTP/1.0\r\n" = text " HTTP/1.0\r" ++ [10] := rfl
    rw [hline, h10]
    simp only [List.append_assoc]
  have hrest : text "host: " ++ host ++ text "\r\n\r\n" =
      head ++ [10] ++ (text "\r\n" ++ []) := by
    have h10 : text "\r\n\r\n" = text "\r" ++ ([10] ++ (text "\r\n" ++ [])) := rfl
    rw [hhead, h10]
    simp only [List.append_assoc]
  have hinput : text "GET " ++ name ++ text " HTTP/1.0\r\n" ++ text "host: " ++ host ++
      text "\r\n\r\n" = line ++ [10] ++ (head ++ [10] ++ (text "\r\n" ++ [])) := by
    rw [← hget, ← hrest]
    simp only [List.append_assoc]
  have hmem : ∀ c : UInt8, c ∉ name → c ∉ text "GET " ++ text " HTTP/1.0\r" → c ∉ line := by
    intro c h1 h2
    rw [hline]
    simp only [List.mem_append, not_or] at h2 ⊢
    exact ⟨⟨h2.1, h1⟩, h2.2⟩
  have hline10 : IsLine (line ++ [10]) :=
    isLine_concat (hmem 10 (noSpace_newline hname.noSpace) (by decide))
  have hhead10 : (10 : UInt8) ∉ head := by
    have h1 : (10 : UInt8) ∉ text "host: " := by decide
    have h2 : (10 : UInt8) ∉ text "\r" := by decide
    rw [hhead]
    simp only [List.mem_append, not_or]
    exact ⟨⟨h1, hhost.newline⟩, h2⟩
  -- the empty line ends the headers
  have hheads : Heads (head ++ [10] ++ (text "\r\n" ++ [])) [head ++ [10]] [] := by
    refine ⟨by simp only [List.flatten_cons, List.flatten_nil, List.append_nil], fun l hl => ?_⟩
    rw [List.mem_singleton.1 hl]
    refine ⟨isLine_concat hhead10, fun he => ?_⟩
    have hlen := congrArg List.length he
    rw [hhead] at hlen
    have h6 : (text "host: ").length = 6 := rfl
    have h2 : (text "\r\n").length = 2 := rfl
    simp only [List.length_append, h6, h2] at hlen
    omega
  have hshort : ∀ l ∈ [head ++ [(10 : UInt8)]], l.length < maxLine := by
    intro l hl
    have h6 : (text "host: ").length = 6 := rfl
    have h1 : (text "\r").length = 1 := rfl
    have hmax : maxLine = 8192 := rfl
    have := hhost.short
    rw [List.mem_singleton.1 hl, hhead]
    simp only [List.length_append, h6, h1, List.length_singleton]
    omega
  obtain ⟨fuel, hread⟩ := requestReadHeaders_iff.2 ⟨_, hheads, hshort⟩
  refine ⟨fuel, ?_⟩
  have hlen' : (line ++ [(10 : UInt8)]).length < maxLine := by rwa [← hget]
  have hstr : cString (line ++ [10]) = line ++ [10] := by
    rw [← cString_append_nul]
    refine cString_eq_self ?_
    rw [List.mem_append, not_or]
    exact ⟨hmem 0 hname.nul (by decide), by decide⟩
  have hword : scanWord (line ++ [10]) = (some (text "GET"),
      32 :: (name ++ 32 :: (text "HTTP/1.0\r" ++ [10]))) := by
    have hsplit : line ++ [10] =
        text "GET" ++ 32 :: (name ++ 32 :: (text "HTTP/1.0\r" ++ [10])) := by
      have h1 : text "GET " = text "GET" ++ [32] := rfl
      have h2 : text " HTTP/1.0\r" = [32] ++ text "HTTP/1.0\r" := rfl
      rw [hline, h1, h2]
      simp only [List.append_assoc, List.cons_append, List.nil_append]
    rw [hsplit]
    exact scanWord_append (noSpace_of_all (by decide)) (by decide) (by decide)
  have huri : (scanWord (32 :: (name ++ 32 :: (text "HTTP/1.0\r" ++ [10])))).1 = some name := by
    rw [scanWord_space (by decide), scanWord_append hname.noSpace hname.ne_nil (by decide)]
  unfold requestInit
  rw [hinput, rioReadlineb_line hline10 hlen']
  simp only [Option.bind_eq_bind, Option.bind_some, hstr, hword]
  rw [if_neg (not_not.2 rfl), hread]
  simp only [Option.bind_some, huri]
  rfl

/-! ### The file -/

theorem strrchr_suffix {c : UInt8} {s ext : List UInt8} (h : strrchr c s = some ext) :
    ext <:+ s := by
  induction s with
  | nil => cases h
  | cons b s ih =>
    unfold strrchr at h
    split at h
    · rename_i e he
      obtain rfl := Option.some.inj h
      exact (ih he).trans (List.suffix_cons b s)
    · split at h
      · obtain rfl := Option.some.inj h
        exact List.suffix_rfl
      · cases h

/-- Two dots in front of digits are not completed by the digits. -/
theorem notMem_dots {a : List UInt8} (b : List UInt8) (hb : (46 : UInt8) ∉ b) (h : text ".." <:+: a ++ b) :
    text ".." <:+: a := by
  obtain ⟨x, y, hxy⟩ := h
  have hdots : text ".." = [46, 46] := rfl
  rcases List.append_eq_append_iff.1 hxy with ⟨c, hc, -⟩ | ⟨c, hc, hcy⟩
  · exact ⟨x, c, hc.symm⟩
  · rcases List.eq_nil_or_concat c with rfl | ⟨c, d, rfl⟩
    · rw [List.append_nil] at hc
      exact ⟨x, [], by rw [List.append_nil, hc]⟩
    · -- the last byte of `c` is a dot
      have hlast := congrArg List.getLast? hc
      rw [hdots, List.concat_eq_append, ← List.append_assoc, List.getLast?_concat,
        List.getLast?_append_of_ne_nil x (by decide)] at hlast
      obtain rfl : 46 = d := Option.some.inj hlast
      refine absurd ?_ hb
      rw [hcy, List.concat_eq_append]
      exact List.mem_append_left _ (List.mem_append_right _ (List.mem_singleton.2 rfl))

/-- The file on disk that `fileset` has made. -/
def onDisk (contents : List UInt8) : DiskFile := ⟨true, true, true, contents⟩

/-- The files of a file set are on the disk of the server, in a directory that it serves. -/
structure Hosts (disk : Disk) (dir : List UInt8) (files : List WrittenFile) : Prop where
  stored : ∀ f ∈ files, disk (text "./" ++ f.name) = some (onDisk f.contents)
  served : ¬text ".." <:+: text "./" ++ dir ++ text "/"

theorem requestReadfile_passes {g : DiskFile} (h : Passes disk name g) (hopens : g.opens = true)
    (hsize : g.contents.length < 2 ^ 31) : requestReadfile disk name =
      some ⟨true, ⟨name, g.contents, g.contents.length⟩, []⟩ := by
  have hint : toInt32 g.contents.length = g.contents.length :=
    toInt32_of_lt (by omega) (by exact_mod_cast hsize)
  have hread : readContents name g = some ⟨true, ⟨name, g.contents, g.contents.length⟩, []⟩ := by
    unfold readContents
    simp only [hint]
    by_cases h0 : (g.contents.length : ℤ) = 0
    · have hnil : g.contents = [] := List.eq_nil_of_length_eq_zero (by omega)
      rw [if_pos h0, hnil]
      rfl
    · rw [if_neg h0, if_pos ⟨hopens, by omega⟩, Int.toNat_natCast, List.take_length]
  exact h.requestReadfile_eq.trans hread

/-- A file of a file set passes the checks of the server. -/
theorem FileOf.passes {i : ℕ} (h : FileOf dir fileSz i f) (hd : Hosts disk dir files)
    (hf : f ∈ files) : Passes disk (text "./" ++ f.name) (onDisk f.contents) where
  relative := by simp [text]
  inside := by
    intro hin
    refine hd.served (notMem_dots (decimal5 i) ?_ ?_)
    · unfold decimal5
      rw [List.mem_append, not_or]
      refine ⟨fun hm => ?_, notMem_decimal (by decide) i⟩
      exact absurd (List.eq_of_mem_replicate hm) (by decide)
    · rw [h.name] at hin
      unfold filesetName at hin
      simpa only [List.append_assoc] using hin
  noSource := by
    -- the name ends with a digit
    have hlast : ∀ ext : List UInt8, ∀ c, ext.getLast? = some c → isDigit c = false →
        ¬strrchr 46 (text "./" ++ f.name) = some ext := by
      intro ext c hc hdig hs
      obtain ⟨x, hx⟩ := strrchr_suffix hs
      obtain ⟨ds, d, hd⟩ := (List.eq_nil_or_concat (decimal i)).resolve_left (decimal_ne_nil i)
      rw [List.concat_eq_append] at hd
      have hl := congrArg List.getLast? hx
      have hne : ext ≠ [] := by
        intro h0
        rw [h0] at hc
        cases hc
      have hne' : decimal i ≠ [] := decimal_ne_nil i
      rw [List.getLast?_append_of_ne_nil x hne, hc, h.name] at hl
      unfold filesetName decimal5 at hl
      simp only [← List.append_assoc] at hl
      rw [List.getLast?_append_of_ne_nil _ hne', hd, List.getLast?_concat] at hl
      have hdd : isDigit d = true := isDigit_decimal (n := i) (by rw [hd]; simp)
      rw [← Option.some.inj hl, hdig] at hdd
      cases hdd
    rintro (hc | hc)
    · exact hlast _ 99 (by decide) (by decide) hc
    · exact hlast _ 104 (by decide) (by decide) hc
  found := hd.stored f hf
  isReg := rfl
  irusr := rfl

/-! ### One request -/

/-- A server without a cache, or with one that holds what is on disk. -/
def Ready (disk : Disk) (m : ℤ) (s : Wc) : Prop :=
  (m = 0 ∧ s = cacheInit 0) ∨ (0 < m ∧ ∃ held, Cached disk s held)

theorem Ready.init (hm : 0 ≤ m) (hmax : m * 11 < 2 ^ 31) : Ready disk m (cacheInit m) := by
  rcases hm.eq_or_lt with rfl | h0
  · exact Or.inl ⟨rfl, rfl⟩
  · exact Or.inr ⟨h0, _, init_cached h0 hmax⟩

theorem Ready.step (h : Ready disk m s) (hsafe : 0 < m → SafeRequest disk s input)
    (hs : serverStep disk m s (input, written) t) :
    Uncached disk input written ∧ Ready disk m t := by
  rcases h with ⟨rfl, rfl⟩ | ⟨h0, held, hc⟩
  · obtain ⟨hu, rfl⟩ := serverStep_uncached.1 hs
    exact ⟨hu, Or.inl ⟨rfl, rfl⟩⟩
  · obtain ⟨hu, hc'⟩ := hc.to h0 (hsafe h0) hs
    exact ⟨hu, Or.inr ⟨h0, hc'.imp fun _ h => h.1⟩⟩

theorem Ready.serves (h : Ready disk m s) (hsafe : 0 < m → SafeRequest disk s input)
    (hu : Uncached disk input written) : ∃ t, serverStep disk m s (input, written) t := by
  rcases h with ⟨rfl, rfl⟩ | ⟨h0, held, hc⟩
  · exact ⟨_, serverStep_uncached.2 ⟨hu, rfl⟩⟩
  · exact hc.from h0 (hsafe h0) hu

/-- A file that the client can ask for. -/
structure Requestable (disk : Disk) (host : List UInt8) (f : WrittenFile) : Prop where
  name : Sendable f.name
  host : HostName host
  short : f.name.length ≤ 2000
  passes : Passes disk (text "./" ++ f.name) (onDisk f.contents)
  newline : (10 : UInt8) ∉ f.contents
  size : f.contents.length < 2 ^ 31

/-- What the server has of a file. -/
def served (f : WrittenFile) : FileData := ⟨text "./" ++ f.name, f.contents, f.contents.length⟩

theorem parseURI_name (h : f.name.length ≤ 2000) :
    requestParseURI f.name = text "./" ++ f.name := by
  have hmax : maxLine - 1 = 8191 := rfl
  have h2 : (text "./").length = 2 := rfl
  unfold requestParseURI
  refine List.take_of_length_le ?_
  rw [List.length_append, h2, hmax]
  omega

/-- **The answer to a request for a file is the page with it.** -/
theorem uncached_file (h : Requestable disk host f) (hs : clientSend host f.name = some input) :
    Uncached disk input written ↔ written = (filePage (served f)).bytes := by
  obtain ⟨fuel, hi⟩ := requestInit_clientSend h.name h.host hs
  rw [parseURI_name h.short] at hi
  have hr := requestReadfile_passes h.passes rfl h.size
  have hsend : requestSendfile (served f) = some (filePage (served f)).bytes :=
    requestSendfile_ok rfl
  constructor
  · intro hu
    cases hu with
    | refused hi' => cases requestInit_unique hi hi'
    | @read fuel' name rd sent hi' hr' hs' =>
      cases requestInit_unique hi hi'
      obtain rfl := Option.some.inj (hr.symm.trans hr')
      obtain rfl := Option.some.inj (hsend.symm.trans hs')
      rfl
  · rintro rfl
    exact .read hi hr hsend

theorem shortLines_of_noNewline {s : List UInt8} (h : (10 : UInt8) ∉ s) :
    ShortLines s ↔ s.length < maxBuf := by
  constructor
  · intro hs
    exact hs s List.infix_rfl fun hm => h (List.dropLast_subset _ hm)
  · intro hlt piece hin _
    exact hin.length_le.trans_lt hlt

theorem clientSend_returns (h : Requestable disk host f) :
    ∃ input, clientSend host f.name = some input := by
  have hmax : maxBuf = 8192 := rfl
  have h1 : (text "GET ").length = 4 := rfl
  have h2 : (text " HTTP/1.0\r\n").length = 11 := rfl
  have h3 : (text "host: ").length = 6 := rfl
  have h4 : (text "\r\n\r\n").length = 4 := rfl
  have hname := h.short
  have hhost := h.host.short
  refine ⟨_, Option.bind_eq_some_iff.2 ⟨_, sprintf_eq_some.2 ⟨?_, rfl⟩,
    sprintf_eq_some.2 ⟨?_, rfl⟩⟩⟩
  · simp only [List.length_append, h1, h2]
    omega
  · simp only [List.length_append, h1, h2, h3, h4]
    omega

/-- The client prints the page with a short file, however it is delivered. -/
theorem clientPrint_served (h : Requestable disk host f) (hlt : f.contents.length < maxBuf)
    {fd : List Read} (buf : List UInt8) (size : buf.length = rioBufSize)
    (hfd : Rio.Delivers fd (filePage (served f)).bytes) :
    ∃ fuel out, clientPrint fuel (csum f.contents) f.contents.length true (Rio.init buf size) fd =
      some out := by
  obtain ⟨fuel, hp⟩ := (clientPrint_response (filePage_announces h.size)
    (Rio.Unread.start size hfd)).2
      ⟨⟨rfl, rfl⟩, ⟨rfl, rfl⟩, (shortLines_of_noNewline h.newline).2 hlt, h.size, rfl⟩
  exact ⟨fuel, _, hp⟩

/-- An exchange that comes to its end does so however the answer is delivered. -/
theorem exchange_ok (h : Requestable disk host f) (hready : Ready disk m s)
    (hsafe : 0 < m → ∀ input, clientSend host f.name = some input → SafeRequest disk s input)
    (hx : someExchange disk m host s f.info t) :
    f.contents.length < maxBuf ∧ Ready disk m t ∧ exchange disk m host s f.info t := by
  obtain ⟨name, c, len, input, written, fd, fuel, out, buf, size, hinfo, hs, hstep, hfd, hp⟩ := hx
  obtain ⟨h1, h2, h3⟩ := FileInfo.mk.inj hinfo
  obtain rfl := Option.some.inj h1
  obtain rfl := Option.some.inj h2
  obtain rfl := Option.some.inj h3
  obtain ⟨hu, ht⟩ := hready.step (fun h0 => hsafe h0 input hs) hstep
  obtain rfl := (uncached_file h hs).1 hu
  have hall := (clientPrint_response (filePage_announces h.size)
    (Rio.Unread.start size hfd)).1 ⟨fuel, hp⟩
  -- one delivery shows that the file is short, and then every delivery is accepted
  have hlt := (shortLines_of_noNewline h.newline).1 hall.2.2.1
  exact ⟨hlt, ht, _, _, _, input, _, rfl, hs, hstep, fun fd buf size hfd =>
    clientPrint_served h hlt buf size hfd⟩

/-- An exchange for a short file comes to its end. -/
theorem exchange_returns (h : Requestable disk host f) (hready : Ready disk m s)
    (hsafe : 0 < m → ∀ input, clientSend host f.name = some input → SafeRequest disk s input)
    (hlt : f.contents.length < maxBuf) : ∃ t, exchange disk m host s f.info t := by
  obtain ⟨input, hs⟩ := clientSend_returns h
  obtain ⟨t, hstep⟩ := hready.serves (fun h0 => hsafe h0 input hs) ((uncached_file h hs).2 rfl)
  exact ⟨t, _, _, _, input, _, rfl, hs, hstep, fun fd buf size hfd =>
    clientPrint_served h hlt buf size hfd⟩

theorem exchange.some {fi : FileInfo} (h : exchange disk m host s fi t) :
    someExchange disk m host s fi t := by
  obtain ⟨name, c, len, input, written, hinfo, hs, hstep, hall⟩ := h
  obtain ⟨fd, hfd⟩ := exists_delivers written
  obtain ⟨fuel, out, hp⟩ := hall fd zeros zeros_length hfd
  exact ⟨name, c, len, input, written, fd, fuel, out, _, _, hinfo, hs, hstep, hfd, hp⟩

/-! ### Any number of requests -/

theorem randomByte_ne_newline (r : ℕ) : randomByte r ≠ 10 := by
  intro h
  have hn := congrArg UInt8.toNat h
  have h10 : (10 : UInt8).toNat = 10 := rfl
  have hr : (randomByte r).toNat = (r % (0x73 - 0x20) + 0x20) % 2 ^ 8 := rfl
  rw [hr, h10] at hn
  omega

/-- The files of a file set can be asked for. -/
theorem FileOf.requestable {i : ℕ} (h : FileOf dir fileSz i f) (hi : i < 99999)
    (hdir : NoSpace dir) (hnul : (0 : UInt8) ∉ dir) (hlen : dir.length ≤ 1000)
    (hsize : ∀ i, fileSz i < 2 ^ 31) (hhost : HostName host) (hd : Hosts disk dir files)
    (hf : f ∈ files) : Requestable disk host f := by
  have hl := h.listed hi hdir hnul hlen hsize
  refine ⟨⟨hl.ne_nil, hl.noSpace, hl.nul⟩, hhost, hl.short, h.passes hd hf, fun hm => ?_, hl.size⟩
  obtain ⟨r, hr⟩ := h.printable 10 hm
  exact randomByte_ne_newline r hr.symm

/-- Before each request of a run the lookup of the server is safe. -/
def SafeSession (disk : Disk) (m : ℤ) (host : List UInt8) (fs : List WrittenFile) : Prop :=
  ∀ before f s input, before ++ [f] <+: fs →
    Run (exchange disk m host) (cacheInit m) (before.map WrittenFile.info) s →
    clientSend host f.name = some input → SafeRequest disk s input

theorem SafeSession.init {fs : List WrittenFile} (h : SafeSession disk m host (fs ++ [f])) :
    SafeSession disk m host fs :=
  fun before g s input hp => h before g s input (hp.trans (List.prefix_append _ _))

theorem session_ok {fs : List WrittenFile} (hreq : ∀ f ∈ fs, Requestable disk host f)
    (hm : 0 ≤ m) (hmax : m * 11 < 2 ^ 31) (hsafe : 0 < m → SafeSession disk m host fs)
    (hr : Run (someExchange disk m host) (cacheInit m) (fs.map WrittenFile.info) t) :
    (∀ f ∈ fs, f.contents.length < maxBuf) ∧ Ready disk m t ∧
      Run (exchange disk m host) (cacheInit m) (fs.map WrittenFile.info) t := by
  induction fs using List.reverseRecOn generalizing t with
  | nil =>
    obtain rfl := run_nil_iff.1 hr
    exact ⟨fun f hf => absurd hf List.not_mem_nil, Ready.init hm hmax, .nil _⟩
  | append_singleton fs f ih =>
    rw [List.map_append, List.map_singleton] at hr ⊢
    obtain ⟨s, hr, hx⟩ := run_concat_iff.1 hr
    obtain ⟨hall, hready, hr⟩ := ih (fun g hg => hreq g (List.mem_append_left _ hg))
      (fun h0 => (hsafe h0).init) hr
    obtain ⟨hlt, ht, hx⟩ := exchange_ok
      (hreq f (List.mem_append_right _ (List.mem_singleton.2 rfl))) hready
      (fun h0 input hs => hsafe h0 fs f s input List.prefix_rfl hr hs) hx
    refine ⟨fun g hg => ?_, ht, hr.snoc hx⟩
    rcases List.mem_append.1 hg with hg | hg
    · exact hall g hg
    · rwa [List.mem_singleton.1 hg]

theorem session_returns {fs : List WrittenFile} (hreq : ∀ f ∈ fs, Requestable disk host f)
    (hm : 0 ≤ m) (hmax : m * 11 < 2 ^ 31) (hsafe : 0 < m → SafeSession disk m host fs)
    (hlt : ∀ f ∈ fs, f.contents.length < maxBuf) :
    ∃ t, Run (exchange disk m host) (cacheInit m) (fs.map WrittenFile.info) t := by
  induction fs using List.reverseRecOn with
  | nil => exact ⟨_, .nil _⟩
  | append_singleton fs f ih =>
    have hreq' : ∀ g ∈ fs, Requestable disk host g := fun g hg => hreq g (List.mem_append_left _ hg)
    have hsafe' : 0 < m → SafeSession disk m host fs := fun h0 => (hsafe h0).init
    have hf : f ∈ fs ++ [f] := List.mem_append_right _ (List.mem_singleton.2 rfl)
    obtain ⟨s, hr⟩ := ih hreq' hsafe' fun g hg => hlt g (List.mem_append_left _ hg)
    obtain ⟨-, hready, -⟩ := session_ok hreq' hm hmax hsafe' (hr.mono fun _ _ _ => exchange.some)
    obtain ⟨t, hx⟩ := exchange_returns (hreq f hf) hready
      (fun h0 input hs => hsafe h0 fs f s input List.prefix_rfl hr hs) (hlt f hf)
    rw [List.map_append, List.map_singleton]
    exact ⟨t, hr.snoc hx⟩

/-- **A client gets through** any number of requests for files of a file set, with a server that
has a cache or none and however `read` delivers the answers, if and only if each of the files has
fewer than `MAXBUF` bytes; and if one has more, it gets through with no delivery at all. -/
theorem session_iff {nrFiles : ℕ} {idx : List UInt8} {fs : List WrittenFile}
    (hfs : fileset dir nrFiles fileSz random = some (idx, files)) (hdir : NoSpace dir)
    (hnul : (0 : UInt8) ∉ dir) (hsize : ∀ i, fileSz i < 2 ^ 31) (hhost : HostName host)
    (hd : Hosts disk dir files) (hm : 0 ≤ m) (hmax : m * 11 < 2 ^ 31)
    (hsub : ∀ f ∈ fs, f ∈ files) (hsafe : 0 < m → SafeSession disk m host fs) :
    ((∃ t, Run (exchange disk m host) (cacheInit m) (fs.map WrittenFile.info) t) ↔
      ∀ f ∈ fs, f.contents.length < maxBuf) ∧
    ((∃ t, Run (someExchange disk m host) (cacheInit m) (fs.map WrittenFile.info) t) ↔
      ∀ f ∈ fs, f.contents.length < maxBuf) := by
  obtain ⟨-, hnr, hlen, -, -, hfiles⟩ := fileset_ok hfs
  have hreq : ∀ f ∈ fs, Requestable disk host f := by
    intro f hf
    obtain ⟨i, hi, hof⟩ := hfiles f (hsub f hf)
    exact hof.requestable (by omega) hdir hnul hlen hsize hhost hd (hsub f hf)
  have hreturns := session_returns hreq hm hmax hsafe
  constructor
  · refine ⟨?_, hreturns⟩
    rintro ⟨_, hr⟩
    exact (session_ok hreq hm hmax hsafe (hr.mono fun _ _ _ => exchange.some)).1
  · refine ⟨?_, fun hlt => (hreturns hlt).imp fun _ hr => hr.mono fun _ _ _ => exchange.some⟩
    rintro ⟨_, hr⟩
    exact (session_ok hreq hm hmax hsafe hr).1

/-- Requests for one file leave the lookups of the server safe. -/
theorem safeSession_one (h : Requestable disk host f) (h0 : 0 < m) (hmax : m * 11 < 2 ^ 31)
    {fs : List WrittenFile} (hfs : ∀ g ∈ fs, g = f) : SafeSession disk m host fs := by
  have hread : Readable disk (text "./" ++ f.name) :=
    ReadsAll.readable ⟨_, h.passes, h.size, Or.inr rfl⟩
  have hasks : ∀ input, clientSend host f.name = some input →
      AsksOnly (text "./" ++ f.name) input := by
    intro input hs fuel n hi
    obtain ⟨fuel', hi'⟩ := requestInit_clientSend h.name h.host hs
    rw [parseURI_name h.short] at hi'
    exact Request.asks.inj (requestInit_unique hi hi')
  intro before g s input hp hr hs
  have hall : ∀ k ∈ before ++ [g], k = f := fun k hk => hfs k (hp.subset hk)
  rw [hall g (by simp)] at hs
  -- all requests before this one were for the same file, so the cache holds no other
  have hg := hr.guard (P := fun _ fi => fi = f.info) fun fi hfi _ => by
    obtain ⟨k, hk, rfl⟩ := List.mem_map.1 hfi
    rw [hall k (by simp [hk])]
  have honly : OnlyFile disk (text "./" ++ f.name) s := by
    refine run_inv ?_ hg ⟨_, init_cached h0 hmax, fun _ _ => rfl⟩
    rintro u fi v hu ⟨rfl, name, c, len, input', written, hinfo, hs', hstep, -⟩
    obtain rfl := Option.some.inj (FileInfo.mk.inj hinfo).1
    exact hu.step h0 hread (hasks input' hs') hstep
  exact honly.safe hread (hasks input hs)

/-- A file of three bytes is requested twice of a server with a cache; a file of `MAXBUF` bytes ends
the client. -/
theorem session_one_file : (∃ idx f disk t,
      fileset (text "d") 1 (fun _ => 3) (fun k => k) = some (idx, [f]) ∧
      Run (exchange disk 10 (text "h")) (cacheInit 10) [f.info, f.info] t) ∧
    ∃ idx f disk, fileset (text "d") 1 (fun _ => maxBuf) (fun k => k) = some (idx, [f]) ∧
      disk (text "./" ++ f.name) = some (onDisk f.contents) ∧
      ¬∃ t, Run (someExchange disk 10 (text "h")) (cacheInit 10) [f.info] t := by
  have hdir : NoSpace (text "d") := noSpace_of_all (by decide)
  have hhost : HostName (text "h") := ⟨by decide, by decide⟩
  have hone : ∀ n, n < 2 ^ 31 → ∃ idx f disk,
      fileset (text "d") 1 (fun _ => n) (fun k => k) = some (idx, [f]) ∧
      f.contents.length = n ∧ Hosts disk (text "d") [f] ∧ Requestable disk (text "h") f := by
    intro n hn
    obtain ⟨idx, files, hfs⟩ : ∃ idx files,
        fileset (text "d") 1 (fun _ => n) (fun k => k) = some (idx, files) :=
      ⟨_, _, if_neg (by decide)⟩
    obtain ⟨-, -, -, hcount, -, hfiles⟩ := fileset_ok hfs
    obtain ⟨f, rfl⟩ := List.length_eq_one_iff.1 hcount
    obtain ⟨i, hi, hof⟩ := hfiles f (List.mem_singleton.2 rfl)
    obtain ⟨disk, hd⟩ : ∃ disk, Hosts disk (text "d") [f] := by
      refine ⟨fun n => if n = text "./" ++ f.name then some (onDisk f.contents) else none,
        fun g hg => ?_, by decide⟩
      rw [List.mem_singleton.1 hg]
      exact if_pos rfl
    exact ⟨idx, f, disk, hfs, hof.length, hd, hof.requestable (by omega) hdir (by decide)
      (by decide) (fun _ => hn) hhost hd (List.mem_singleton.2 rfl)⟩
  constructor
  · obtain ⟨idx, f, disk, hfs, hlen, hd, hreq⟩ := hone 3 (by decide)
    have htwice : ∀ g ∈ [f, f], g = f := by simp
    obtain ⟨t, ht⟩ : ∃ t, Run (exchange disk 10 (text "h")) (cacheInit 10)
        ([f, f].map WrittenFile.info) t :=
      (session_iff hfs hdir (by decide) (fun _ => by decide) hhost hd (by decide) (by decide)
        (fun g hg => List.mem_singleton.2 (htwice g hg))
        (fun h0 => safeSession_one hreq h0 (by decide) htwice)).1.2 fun g hg => by
          rw [htwice g hg, hlen]
          decide
    exact ⟨idx, f, disk, t, hfs, ht⟩
  · obtain ⟨idx, f, disk, hfs, hlen, hd, hreq⟩ := hone maxBuf (by decide)
    refine ⟨idx, f, disk, hfs, hd.stored f (List.mem_singleton.2 rfl), fun hex => ?_⟩
    have hex : ∃ t, Run (someExchange disk 10 (text "h")) (cacheInit 10)
        ([f].map WrittenFile.info) t := hex
    have hlt := (session_iff hfs hdir (by decide) (fun _ => by decide) hhost hd (by decide)
      (by decide) (fun _ hg => hg) (fun h0 => safeSession_one hreq h0 (by decide) fun _ hg =>
        List.mem_singleton.1 hg)).2.1 hex f (List.mem_singleton.2 rfl)
    rw [hlen] at hlt
    exact lt_irrefl _ hlt

end OSLab.Webserver

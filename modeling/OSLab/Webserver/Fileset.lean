import OSLab.Webserver.ClientPrint

/-!
# The files that are requested (`webserver/fileset.c`, `init_fileset` of `webserver/client.c`)

`fileset` writes files of random bytes, and an index with the name, the checksum and the length of
each; the client reads the index before it sends requests.

* `readName_noSpace`: a name that the client has read has no white space in it.
* `initFileset_eq`: however `read` splits an index, its lines are read one by one.
* `fileset_read_back_iff`: the client reads back what `fileset` wrote, if and only if the name of
  the directory has no white space in it.

The lines of an index fit in the array they are put together in, since the name of the directory
has at most 1000 bytes. What `fileset` prints on the terminal is left out.
-/

namespace OSLab.Webserver

open Rio

/-! ### Writing the files -/

/-- `random() % (0x73 - 0x20) + 0x20`. -/
def randomByte (random : ℕ) : UInt8 := (random % (0x73 - 0x20) + 0x20).toUInt8

/-- `for (j = 0; j < sz; j++)`: the bytes of `buf` and `csum`; `k` counts the calls of `random`. -/
def fillBuf (random : ℕ → ℕ) (k : ℕ) : ℕ → ℕ → List UInt8 × ℕ
  | 0, csum => ([], csum)
  | sz + 1, csum =>
    let r := fillBuf random k sz csum
    let b := randomByte (random (k + sz))
    (r.1 ++ [b], (r.2 + b.toNat) % 2 ^ 32)

/-- `while (remaining > 0)`: what is written to the file, `csum` and the calls of `random`. -/
def writeFile (random : ℕ → ℕ) (remaining k csum : ℕ) : List UInt8 × ℕ × ℕ :=
  if 0 < remaining then
    let sz := if remaining < 4096 then remaining else 4096
    let buf := fillBuf random k sz csum
    let r := writeFile random (remaining - sz) (k + sz) buf.2
    (buf.1 ++ r.1, r.2)
  else ([], csum, k)
  termination_by remaining
  decreasing_by split <;> omega

/-- `%05d` of a number that is not negative. -/
def decimal5 (n : ℕ) : List UInt8 := List.replicate (5 - (decimal n).length) 48 ++ decimal n

/-- The name of file `i`. -/
def filesetName (dir : List UInt8) (i : ℕ) : List UInt8 := dir ++ text "/" ++ decimal5 i

/-- A file that was written. -/
structure WrittenFile where
  name : List UInt8
  contents : List UInt8

/-- `for (i = 0; i < nr_files; i++)`: the lines of the index and the files. `fileSz` says what
`rand_pareto` returns. -/
def writeFiles (dir : List UInt8) (fileSz random : ℕ → ℕ) : ℕ → List UInt8 × List WrittenFile × ℕ
  | 0 => ([], [], 0)
  | i + 1 =>
    let r := writeFiles dir fileSz random i
    let f := writeFile random (fileSz i) r.2.2 0
    (r.1 ++ (filesetName dir i ++ text " " ++ decimal f.2.1 ++ text " " ++ decimal (fileSz i) ++
      text "\n"), r.2.1 ++ [⟨filesetName dir i, f.1⟩], f.2.2)

/-- `fileset`: the index and the files. -/
def fileset (dir : List UInt8) (nrFiles : ℕ) (fileSz random : ℕ → ℕ) :
    Option (List UInt8 × List WrittenFile) :=
  if nrFiles < 1 ∨ 99999 < nrFiles ∨ 1000 < dir.length then none
  else
    let r := writeFiles dir fileSz random nrFiles
    some (decimal nrFiles ++ text "\n" ++ r.1, r.2.1)

/-! ### Reading the index -/

/-- `struct fileinfo`; a field that `sscanf` did not store is `none`. -/
structure FileInfo where
  name : Option (List UInt8)
  csum : Option ℕ
  len : Option ℤ
  deriving DecidableEq

/-- `sscanf(buf, "%s %u %d", fi->name, &fi->csum, &fi->len)`. -/
def scanFile (buf : List UInt8) : Option FileInfo := do
  let (name, rest) := scanWord buf
  if name = none then return ⟨none, none, none⟩
  else match ← scanU rest with
    | none => return ⟨name, none, none⟩
    | some (csum, rest) => match ← scanD rest with
      | none => return ⟨name, csum, none⟩
      | some (len, _) => return ⟨name, csum, len⟩

/-- `atoi`. -/
def atoi (s : List UInt8) : Option ℤ :=
  match scanNumber s with
  | none => some 0
  | some (n, _) => if -2 ^ 31 ≤ n ∧ n < 2 ^ 31 then some n else none

/-- The loop of `init_fileset`; the array of `MAXLINE` bytes is as long as one of `MAXBUF`. -/
def initLoop : ℕ → Option (List UInt8) → ℤ → List FileInfo → Rio → List Read →
    Option (List FileInfo)
  | 0, _, _, _, _, _ => none
  | fuel + 1, buf, nrFiles, fileset, rp, fd => do
    let (n, buf, rp, fd) ← readline buf rp fd
    if n = 0 then
      if 0 < nrFiles ∧ fileset.length = nrFiles then return fileset else none
    else do
      let line ← buf
      if nrFiles = 0 then do
        let nr ← atoi (cString line)
        if 0 < nr then initLoop fuel buf nr fileset rp fd else none
      else if fileset.length < nrFiles then do
        let fi ← scanFile (cString line)
        initLoop fuel buf nrFiles (fileset ++ [fi]) rp fd
      else none

/-- `init_fileset`. -/
def initFileset (fuel : ℕ) (rp : Rio) (fd : List Read) : Option (List FileInfo) :=
  initLoop fuel none 0 [] rp fd

/-- What the client should read. -/
def WrittenFile.info (f : WrittenFile) : FileInfo :=
  ⟨some f.name, some (csum f.contents), some f.contents.length⟩

variable {dir idx name rest : List UInt8} {fileSz random : ℕ → ℕ} {files : List WrittenFile}
  {nrFiles fuel : ℕ} {rp : Rio} {fd : List Read} {f : WrittenFile}

/-! ### What is written -/

theorem fillBuf_ok (random : ℕ → ℕ) (k sz c : ℕ) :
    (fillBuf random k sz c).2 = csumFrom c (fillBuf random k sz c).1 ∧
      (fillBuf random k sz c).1.length = sz ∧
      ∀ b ∈ (fillBuf random k sz c).1, ∃ r, b = randomByte r := by
  induction sz with
  | zero => exact ⟨rfl, rfl, fun b hb => absurd hb List.not_mem_nil⟩
  | succ sz ih =>
    obtain ⟨hsum, hlen, hb⟩ := ih
    unfold fillBuf
    refine ⟨?_, ?_, fun b hmem => ?_⟩
    · simp only [csumFrom_append, hsum]
      rfl
    · simp only [List.length_append, hlen, List.length_singleton]
    · rcases List.mem_append.1 hmem with hmem | hmem
      · exact hb b hmem
      · exact ⟨_, List.mem_singleton.1 hmem⟩

/-- **A file has the size it was given**, its bytes are printable, and `csum` is their sum. -/
theorem writeFile_ok (random : ℕ → ℕ) (n k c : ℕ) :
    (writeFile random n k c).2.1 = csumFrom c (writeFile random n k c).1 ∧
      (writeFile random n k c).1.length = n ∧
      ∀ b ∈ (writeFile random n k c).1, ∃ r, b = randomByte r := by
  induction n using Nat.strong_induction_on generalizing k c with
  | _ n ih =>
    rw [writeFile]
    by_cases h0 : 0 < n
    · rw [if_pos h0]
      obtain ⟨sz, hsz⟩ : ∃ sz, sz = if n < 4096 then n else 4096 := ⟨_, rfl⟩
      have hle : sz ≤ n ∧ 0 < sz := by
        rw [hsz]
        split <;> omega
      obtain ⟨hsum, hlen, hb⟩ := fillBuf_ok random k sz c
      obtain ⟨hsum', hlen', hb'⟩ := ih (n - sz) (by omega) (k + sz) (fillBuf random k sz c).2
      simp only [← hsz]
      refine ⟨?_, ?_, fun b hmem => ?_⟩
      · rw [csumFrom_append, ← hsum]
        exact hsum'
      · rw [List.length_append, hlen, hlen']
        omega
      · rcases List.mem_append.1 hmem with hmem | hmem
        · exact hb b hmem
        · exact hb' b hmem
    · rw [if_neg h0]
      refine ⟨rfl, ?_, fun b hb => absurd hb List.not_mem_nil⟩
      simp only [List.length_nil]
      omega

/-- The line of a file. -/
def infoLine (f : WrittenFile) : List UInt8 :=
  f.name ++ text " " ++ decimal (csum f.contents) ++ text " " ++ decimal f.contents.length ++
    text "\n"

/-- File `i` of a file set. -/
structure FileOf (dir : List UInt8) (fileSz : ℕ → ℕ) (i : ℕ) (f : WrittenFile) : Prop where
  name : f.name = filesetName dir i
  length : f.contents.length = fileSz i
  printable : ∀ b ∈ f.contents, ∃ r, b = randomByte r

theorem writeFiles_ok (dir : List UInt8) (fileSz random : ℕ → ℕ) (n : ℕ) :
    (writeFiles dir fileSz random n).1 = (writeFiles dir fileSz random n).2.1.flatMap infoLine ∧
      (writeFiles dir fileSz random n).2.1.length = n ∧
      ∀ f ∈ (writeFiles dir fileSz random n).2.1, ∃ i < n, FileOf dir fileSz i f := by
  induction n with
  | zero => exact ⟨rfl, rfl, fun f hf => absurd hf List.not_mem_nil⟩
  | succ n ih =>
    obtain ⟨hidx, hlen, hfiles⟩ := ih
    obtain ⟨hsum, hsize, hb⟩ := writeFile_ok random (fileSz n)
      (writeFiles dir fileSz random n).2.2 0
    unfold writeFiles
    refine ⟨?_, ?_, fun f hf => ?_⟩
    · simp only [List.flatMap_append, hidx]
      rw [hsum, List.flatMap_singleton]
      unfold infoLine
      simp only [hsize]
      rfl
    · simp only [List.length_append, hlen, List.length_singleton]
    · rcases List.mem_append.1 hf with hf | hf
      · obtain ⟨i, hi, hfi⟩ := hfiles f hf
        exact ⟨i, by omega, hfi⟩
      · rw [List.mem_singleton.1 hf]
        exact ⟨n, by omega, rfl, hsize, hb⟩

/-- **What `fileset` writes**: the index has a line for each file. -/
theorem fileset_ok (h : fileset dir nrFiles fileSz random = some (idx, files)) :
    1 ≤ nrFiles ∧ nrFiles ≤ 99999 ∧ dir.length ≤ 1000 ∧ files.length = nrFiles ∧
      idx = decimal nrFiles ++ text "\n" ++ files.flatMap infoLine ∧
      ∀ f ∈ files, ∃ i < nrFiles, FileOf dir fileSz i f := by
  unfold fileset at h
  split at h
  · cases h
  rename_i hok
  obtain ⟨hidx, hlen, hfiles⟩ := writeFiles_ok dir fileSz random nrFiles
  obtain ⟨h1, h2⟩ := Prod.mk.inj (Option.some.inj h)
  rw [← h2, ← h1]
  exact ⟨by omega, by omega, by omega, hlen, by rw [hidx], hfiles⟩

/-! ### Words -/

/-- Nothing in the string is white space. -/
def NoSpace (s : List UInt8) : Prop := ∀ c ∈ s, isSpace c = false

theorem noSpace_of_all {s : List UInt8} (h : s.all (fun c => !isSpace c) = true) : NoSpace s := by
  intro c hc
  simpa using List.all_eq_true.1 h c hc

theorem noSpace_append {a b : List UInt8} (ha : NoSpace a) (hb : NoSpace b) : NoSpace (a ++ b) := by
  intro c hc
  exact (List.mem_append.1 hc).elim (ha c) (hb c)

theorem noSpace_decimal (n : ℕ) : NoSpace (decimal n) :=
  fun _ hc => (not_space_of_isDigit (isDigit_decimal hc)).1

theorem noSpace_decimal5 (n : ℕ) : NoSpace (decimal5 n) := by
  refine noSpace_append (fun c hc => ?_) (noSpace_decimal n)
  rw [List.eq_of_mem_replicate hc]
  decide

theorem scanWord_noSpace {s w : List UInt8} (h : (scanWord s).1 = some w) : NoSpace w := by
  have h : (if ((s.dropWhile isSpace).takeWhile (!isSpace ·)) = [] then none
    else some ((s.dropWhile isSpace).takeWhile (!isSpace ·))) = some w := h
  split at h
  · cases h
  · obtain rfl := Option.some.inj h
    intro c hc
    have := List.mem_takeWhile_imp hc
    rwa [Bool.not_eq_true'] at this

/-- **A word that is printed is scanned.** -/
theorem scanWord_append {c : UInt8} (hname : NoSpace name) (hne : name ≠ [])
    (hc : isSpace c = true) : scanWord (name ++ c :: rest) = (some name, c :: rest) := by
  obtain ⟨a, as, ha⟩ := List.exists_cons_of_ne_nil hne
  have hfirst : isSpace a = false := hname a (by rw [ha]; exact List.mem_cons_self)
  have hdrop : (name ++ c :: rest).dropWhile isSpace = name ++ c :: rest := by
    rw [ha, List.cons_append, List.dropWhile_cons, hfirst]
    rfl
  have hword : ∀ d ∈ name, (!isSpace d) = true := by
    intro d hd
    rw [hname d hd]
    rfl
  have hstop : (!isSpace c) = false := by rw [hc]; rfl
  unfold scanWord
  simp only [hdrop]
  rw [List.takeWhile_append_of_pos hword, List.dropWhile_append_of_pos hword,
    List.takeWhile_cons, List.dropWhile_cons, hstop]
  simp [hne]

theorem scanU_decimal {w : List UInt8} (hw : ∀ c ∈ w, isSpace c = true) {n : ℕ} (hn : n < 2 ^ 32)
    (h : NoDigit rest) : scanU (w ++ decimal n ++ rest) = some (some (n, rest)) := by
  have hmod : ((n : ℤ) % 2 ^ 32).toNat = n := by omega
  unfold scanU
  rw [scanNumber_decimal hw n h]
  simp only
  rw [if_pos ⟨by omega, by exact_mod_cast hn⟩, hmod]

theorem scanD_decimal {w : List UInt8} (hw : ∀ c ∈ w, isSpace c = true) {n : ℕ} (hn : n < 2 ^ 31)
    (h : NoDigit rest) : scanD (w ++ decimal n ++ rest) = some (some ((n : ℤ), rest)) := by
  unfold scanD
  rw [scanNumber_decimal hw n h]
  exact if_pos ⟨by omega, by exact_mod_cast hn⟩

/-- A file whose line can be read back. -/
structure Listed (f : WrittenFile) : Prop where
  ne_nil : f.name ≠ []
  noSpace : NoSpace f.name
  nul : (0 : UInt8) ∉ f.name
  short : f.name.length ≤ 2000
  size : f.contents.length < 2 ^ 31

/-- **The line of a file is read back.** -/
theorem scanFile_infoLine (h : Listed f) : scanFile (infoLine f) = some f.info := by
  obtain ⟨tail, ht⟩ : ∃ tail, tail = text " " ++ decimal f.contents.length ++ text "\n" := ⟨_, rfl⟩
  have hline : infoLine f = f.name ++ 32 :: (decimal (csum f.contents) ++ tail) := by
    have hcons : (32 : UInt8) :: (decimal (csum f.contents) ++ tail) =
        text " " ++ (decimal (csum f.contents) ++ tail) := rfl
    rw [hcons, ht]
    unfold infoLine
    simp only [List.append_assoc]
  have hspace : ∀ c ∈ text " ", isSpace c = true := List.all_eq_true.1 (by decide)
  have htail : NoDigit tail := by
    rw [ht]
    exact noDigit_cons (c := 32) (by decide)
  have hcsum : scanU (32 :: (decimal (csum f.contents) ++ tail)) =
      some (some (csum f.contents, tail)) := scanU_decimal hspace (csum_lt _) htail
  have hlen : scanD tail = some (some ((f.contents.length : ℤ), text "\n")) := by
    rw [ht]
    exact scanD_decimal hspace h.size (noDigit_cons (c := 10) (by decide))
  unfold scanFile
  rw [hline, scanWord_append h.noSpace h.ne_nil (by decide)]
  simp only
  rw [if_neg (by simp), hcsum]
  simp only [Option.bind_eq_bind, Option.bind_some]
  rw [hlen]
  rfl

/-! ### The index is read -/

theorem isLine_concat {l : List UInt8} (h : (10 : UInt8) ∉ l) : IsLine (l ++ [10]) :=
  ⟨List.getLast?_concat, by rwa [List.dropLast_concat]⟩

/-- The line of a file without its end. -/
theorem infoLine_split (h : Listed f) : ∃ l, infoLine f = l ++ [10] ∧ (10 : UInt8) ∉ l ∧
    (0 : UInt8) ∉ l ∧ l.length ≤ 2022 := by
  have hsize : f.contents.length < 2 ^ 32 := h.size.trans (by decide)
  have hc := decimal_length (csum_lt f.contents)
  have hl := decimal_length hsize
  refine ⟨f.name ++ text " " ++ decimal (csum f.contents) ++ text " " ++
    decimal f.contents.length, rfl, ?_, ?_, ?_⟩
  · have hname : (10 : UInt8) ∉ f.name := by
      intro hm
      have := h.noSpace 10 hm
      exact absurd this (by decide)
    have hsp : (10 : UInt8) ∉ text " " := by decide
    simp only [List.mem_append, not_or]
    exact ⟨⟨⟨⟨hname, hsp⟩, notMem_decimal (by decide) _⟩, hsp⟩, notMem_decimal (by decide) _⟩
  · have hsp : (0 : UInt8) ∉ text " " := by decide
    simp only [List.mem_append, not_or]
    exact ⟨⟨⟨⟨h.nul, hsp⟩, notMem_decimal (by decide) _⟩, hsp⟩, notMem_decimal (by decide) _⟩
  · have hname := h.short
    have hsp : (text " ").length = 1 := rfl
    simp only [List.length_append, hsp]
    omega

/-- A turn of the loop that reads a line. -/
theorem initLoop_turn (buf : Option (List UInt8)) (nr : ℤ) (done : List FileInfo) {l : List UInt8}
    (hnl : (10 : UInt8) ∉ l) (hnul : (0 : UInt8) ∉ l) (hlen : l.length ≤ 2022)
    (h : rp.Unread fd (l ++ [10] ++ rest)) : ∃ rp' fd', rp'.Unread fd' rest ∧ ∀ fuel,
      initLoop (fuel + 1) buf nr done rp fd =
        if nr = 0 then (atoi (l ++ [10])).bind fun nr =>
          if 0 < nr then initLoop fuel (some (l ++ [10] ++ [0])) nr done rp' fd' else none
        else if done.length < nr then (scanFile (l ++ [10])).bind fun fi =>
          initLoop fuel (some (l ++ [10] ++ [0])) nr (done ++ [fi]) rp' fd'
        else none := by
  have hmax : maxBuf = 8192 := rfl
  have hll : (l ++ [(10 : UInt8)]).length = l.length + 1 := by
    rw [List.length_append, List.length_singleton]
  obtain ⟨rp', fd', hu, he⟩ := readline_line (isLine_concat hnl) (by omega) h buf
  refine ⟨rp', fd', hu, fun fuel => ?_⟩
  have hstr : cString (l ++ [10] ++ [0]) = l ++ [10] := by
    refine cString_eq_self ?_
    rw [List.mem_append, not_or]
    exact ⟨hnul, by decide⟩
  have hn : ((l ++ [(10 : UInt8)]).length : ℤ) ≠ 0 := by omega
  rw [initLoop, he]
  simp only [Option.bind_eq_bind, Option.bind_some, if_neg hn, hstr]

/-- At the end of the index the client has read all its files. -/
theorem initLoop_end {buf : Option (List UInt8)} {nr : ℤ} {done : List FileInfo}
    (h : rp.Unread fd []) (hnr : 0 < nr) (hdone : (done.length : ℤ) = nr) (fuel : ℕ) :
    initLoop (fuel + 1) buf nr done rp fd = some done := by
  rcases readline_eq h buf with ⟨-, rp', fd', -, he⟩ | ⟨hlong, -⟩
  · have hnil : (lineOf maxBuf ([] : List UInt8)).1 = [] := rfl
    rw [hnil, if_pos rfl] at he
    rw [initLoop, he]
    simp only [Option.bind_eq_bind, Option.bind_some, List.length_nil, Nat.cast_zero, if_true]
    rw [if_pos ⟨hnr, hdone⟩]
    rfl
  · exact absurd hlong (by decide)

/-- **The lines of the files** are read one by one. -/
theorem initLoop_files {buf : Option (List UInt8)} {nr : ℤ} {done : List FileInfo}
    (hfiles : ∀ f ∈ files, Listed f) (h : rp.Unread fd (files.flatMap infoLine)) (hnr : 0 < nr)
    (hdone : (done.length + files.length : ℤ) = nr) (hfuel : files.length < fuel) :
    initLoop fuel buf nr done rp fd = some (done ++ files.map WrittenFile.info) := by
  obtain ⟨fuel, rfl⟩ : ∃ k, fuel = k + 1 := ⟨fuel - 1, by omega⟩
  induction files generalizing buf done rp fd fuel with
  | nil =>
    rw [initLoop_end h hnr (by simpa using hdone), List.map_nil, List.append_nil]
  | cons f files ih =>
    obtain ⟨hf, hrest⟩ := List.forall_mem_cons.1 hfiles
    obtain ⟨l, hl, hnl, hnul, hlen⟩ := infoLine_split hf
    rw [List.flatMap_cons, hl] at h
    obtain ⟨rp', fd', hu, he⟩ := initLoop_turn buf nr done hnl hnul hlen h
    rw [List.length_cons] at hdone hfuel
    push_cast at hdone
    rw [he, if_neg hnr.ne', if_pos (by omega), ← hl, scanFile_infoLine hf, Option.bind_some]
    obtain ⟨k, rfl⟩ : ∃ k, fuel = k + 1 := ⟨fuel - 1, by omega⟩
    have hlast : ((done ++ [f.info]).length : ℤ) + files.length = nr := by
      rw [List.length_append, List.length_singleton]
      push_cast
      omega
    rw [ih hrest hu hlast k (by omega), List.map_cons, List.append_assoc]
    rfl

/-- The files of a file set. -/
theorem FileOf.listed {i : ℕ} (h : FileOf dir fileSz i f) (hi : i < 99999)
    (hdir : NoSpace dir) (hnul : (0 : UInt8) ∉ dir) (hlen : dir.length ≤ 1000)
    (hsize : ∀ i, fileSz i < 2 ^ 31) : Listed f where
  ne_nil := by
    rw [h.name]
    exact List.append_ne_nil_of_right_ne_nil _
      (List.append_ne_nil_of_right_ne_nil _ (decimal_ne_nil i))
  noSpace := by
    rw [h.name]
    exact noSpace_append (noSpace_append hdir (noSpace_of_all (by decide))) (noSpace_decimal5 i)
  nul := by
    have hslash : (0 : UInt8) ∉ text "/" := by decide
    have hzeros : (0 : UInt8) ∉ List.replicate (5 - (decimal i).length) (48 : UInt8) := by
      intro hm
      exact absurd (List.eq_of_mem_replicate hm) (by decide)
    rw [h.name]
    unfold filesetName decimal5
    simp only [List.mem_append, not_or]
    exact ⟨⟨hnul, hslash⟩, hzeros, notMem_decimal (by decide) i⟩
  short := by
    have hdec : (decimal i).length ≤ 10 := decimal_length (by omega)
    have hslash : (text "/").length = 1 := rfl
    rw [h.name]
    unfold filesetName decimal5
    simp only [List.length_append, List.length_replicate, hslash]
    omega
  size := by
    rw [h.length]
    exact hsize i

/-- A name that the client has read has no white space in it. -/
theorem readName_noSpace {buf : Option (List UInt8)} {nr : ℤ} {done infos : List FileInfo}
    (h : initLoop fuel buf nr done rp fd = some infos)
    (hdone : ∀ fi ∈ done, ∀ w, fi.name = some w → NoSpace w) :
    ∀ fi ∈ infos, ∀ w, fi.name = some w → NoSpace w := by
  induction fuel generalizing buf nr done rp fd with
  | zero => cases h
  | succ fuel ih =>
    rw [initLoop] at h
    obtain ⟨⟨n, buf', rp', fd'⟩, -, h⟩ := Option.bind_eq_some_iff.1 h
    simp only at h
    split at h
    · split at h
      · obtain rfl := Option.some.inj h
        exact hdone
      · cases h
    obtain ⟨line, -, h⟩ := Option.bind_eq_some_iff.1 h
    split at h
    · obtain ⟨m, -, h⟩ := Option.bind_eq_some_iff.1 h
      split at h
      · exact ih h hdone
      · cases h
    split at h
    · obtain ⟨fi, hfi, h⟩ := Option.bind_eq_some_iff.1 h
      refine ih h fun fi' hmem w hw => ?_
      rcases List.mem_append.1 hmem with hmem | hmem
      · exact hdone fi' hmem w hw
      · -- the name is what `%s` has scanned
        rw [List.mem_singleton.1 hmem] at hw
        refine scanWord_noSpace (s := cString line) ?_
        rw [← hw]
        unfold scanFile at hfi
        simp only at hfi
        split at hfi
        · rename_i hnone
          rw [hnone, ← Option.some.inj hfi]
        · obtain ⟨o, -, hfi⟩ := Option.bind_eq_some_iff.1 hfi
          cases o with
          | none => rw [← Option.some.inj hfi]
          | some p =>
            obtain ⟨o, -, hfi⟩ := Option.bind_eq_some_iff.1 hfi
            cases o with
            | none => rw [← Option.some.inj hfi]
            | some q => rw [← Option.some.inj hfi]
    · cases h

/-- **The client reads back what `fileset` wrote**, however `read` splits the index, if and only
if the name of the directory has no white space in it. -/
theorem fileset_read_back_iff {buf : List UInt8} {size : buf.length = rioBufSize}
    (hfs : fileset dir nrFiles fileSz random = some (idx, files)) (hnul : (0 : UInt8) ∉ dir)
    (hsize : ∀ i, fileSz i < 2 ^ 31) (hfd : Rio.Delivers fd idx) :
    (∃ fuel, initFileset fuel (Rio.init buf size) fd = some (files.map WrittenFile.info)) ↔
      NoSpace dir := by
  obtain ⟨h1, hmax, hdir, hcount, rfl, hfiles⟩ := fileset_ok hfs
  constructor
  · intro ⟨fuel, h⟩
    obtain ⟨f, hf⟩ := List.exists_mem_of_length_pos (l := files) (by omega)
    have hname := readName_noSpace h (fun fi hfi => absurd hfi List.not_mem_nil) f.info
      (List.mem_map_of_mem hf) f.name rfl
    obtain ⟨i, -, hi⟩ := hfiles f hf
    rw [hi.name] at hname
    intro c hc
    exact hname c (List.mem_append_left _ (List.mem_append_left _ hc))
  · intro hns
    have hlisted : ∀ f ∈ files, Listed f := by
      intro f hf
      obtain ⟨i, hi, hfi⟩ := hfiles f hf
      exact hfi.listed (by omega) hns hnul hdir hsize
    have hstream : decimal nrFiles ++ text "\n" ++ files.flatMap infoLine =
        decimal nrFiles ++ [10] ++ files.flatMap infoLine := rfl
    have hcountlen : (decimal nrFiles).length ≤ 10 := decimal_length (by omega)
    have hu := Rio.Unread.start size hfd
    rw [hstream] at hu
    obtain ⟨rp', fd', hu', he⟩ := initLoop_turn none 0 []
      (notMem_decimal (by decide) _) (notMem_decimal (by decide) _) (by omega) hu
    have hatoi : atoi (decimal nrFiles ++ [10]) = some (nrFiles : ℤ) := by
      have hscan := scanNumber_decimal (w := []) (fun c hc => absurd hc List.not_mem_nil) nrFiles
        (show NoDigit [10] from noDigit_cons (by decide))
      unfold atoi
      rw [List.nil_append] at hscan
      rw [hscan]
      exact if_pos ⟨by omega, by omega⟩
    refine ⟨nrFiles + 2, ?_⟩
    unfold initFileset
    rw [he, if_pos rfl, hatoi, Option.bind_some, if_pos (by omega)]
    exact initLoop_files hlisted hu' (by omega) (by simpa using hcount) (by omega)

theorem fileset_read_back_one : ∃ idx files fd fuel,
    fileset (text "d") 1 (fun _ => 3) (fun k => k) = some (idx, files) ∧ files.length = 1 ∧
    initFileset fuel (Rio.init zeros zeros_length) fd = some (files.map WrittenFile.info) := by
  obtain ⟨idx, files, hfs⟩ : ∃ idx files,
      fileset (text "d") 1 (fun _ => 3) (fun k => k) = some (idx, files) := ⟨_, _, if_neg (by decide)⟩
  obtain ⟨fd, hfd⟩ := exists_delivers idx
  have hdir : NoSpace (text "d") := noSpace_of_all (by decide)
  obtain ⟨fuel, h⟩ : ∃ fuel, initFileset fuel (Rio.init zeros zeros_length) fd =
      some (files.map WrittenFile.info) :=
    (fileset_read_back_iff hfs (by decide) (fun _ => by decide) hfd).2 hdir
  exact ⟨idx, files, fd, fuel, hfs, (fileset_ok hfs).2.2.2.1, h⟩

end OSLab.Webserver

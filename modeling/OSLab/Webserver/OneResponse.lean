import OSLab.Webserver.Serve
import OSLab.Webserver.Lookup
import OSLab.Webserver.Response

/-!
# One response for each request

`do_server_request` sends the file whatever `request_readfile` returned, so when a file fails a
check the error page is followed by a second response (`two_responses`), and the empty file data
goes into the cache, from where it is sent as if it had been read.

* `serve_served`: what the first part of a request does, by cases.
* `respondsOnce_iff`: a request is answered with one response, `200 OK` only with all of a file
  that passed the checks, if and only if the request is `Clear`.
-/

namespace OSLab.Webserver

open Prog

variable {s t : Wc} {w w' : Site} {m : ℤ} {fuel fuel' e : ℕ} {name : Name} {disk : Disk}
  {input written sent : List UInt8} {data : FileData} {rd : ReadResult}

/-! ### Loops that end -/

theorem readHeaders_mono {buf : Option (List UInt8)} {rio rest : List UInt8}
    (h : readHeaders fuel buf rio = some rest) (hf : fuel ≤ fuel') :
    readHeaders fuel' buf rio = some rest := by
  induction fuel generalizing buf rio fuel' with
  | zero => cases h
  | succ n ih =>
    obtain ⟨k, rfl⟩ : ∃ k, fuel' = k + 1 := ⟨fuel' - 1, by omega⟩
    unfold readHeaders at h ⊢
    obtain ⟨line, hline, h⟩ := Option.bind_eq_some_iff.1 h
    refine Option.bind_eq_some_iff.2 ⟨line, hline, ?_⟩
    by_cases hend : cString line = text "\r\n"
    · rw [if_pos hend] at h ⊢
      exact h
    · rw [if_neg hend] at h ⊢
      obtain ⟨p, hp, h⟩ := Option.bind_eq_some_iff.1 h
      exact Option.bind_eq_some_iff.2 ⟨p, hp, ih h (by omega)⟩

theorem requestInit_mono {rq : Request} (h : requestInit fuel input = some rq)
    (hf : fuel ≤ fuel') : requestInit fuel' input = some rq := by
  unfold requestInit at h ⊢
  obtain ⟨p, hp, h⟩ := Option.bind_eq_some_iff.1 h
  obtain ⟨line, hline, h⟩ := Option.bind_eq_some_iff.1 h
  obtain ⟨method, hmethod, h⟩ := Option.bind_eq_some_iff.1 h
  refine Option.bind_eq_some_iff.2 ⟨p, hp, Option.bind_eq_some_iff.2 ⟨line, hline,
    Option.bind_eq_some_iff.2 ⟨method, hmethod, ?_⟩⟩⟩
  split_ifs at h ⊢ with hget
  · exact h
  · obtain ⟨rest, hrest, h⟩ := Option.bind_eq_some_iff.1 h
    refine Option.bind_eq_some_iff.2 ⟨rest, ?_, h⟩
    unfold requestReadHeaders at hrest ⊢
    obtain ⟨q, hq, hrest⟩ := Option.bind_eq_some_iff.1 hrest
    exact Option.bind_eq_some_iff.2 ⟨q, hq, readHeaders_mono hrest hf⟩

theorem requestInit_unique {rq rq' : Request} (h : requestInit fuel input = some rq)
    (h' : requestInit fuel' input = some rq') : rq = rq' := by
  have h1 := requestInit_mono h (le_max_left fuel fuel')
  have h2 := requestInit_mono h' (le_max_right fuel fuel')
  exact Option.some.inj (h1.symm.trans h2)

/-- What is written for another method. -/
theorem requestInit_refused (h : requestInit fuel input = some (.refused written)) :
    ∃ method, written = (errorPage method (text "501") (text "Not Implemented")
      (text "OS Web Server does not implement this method")).bytes := by
  unfold requestInit at h
  obtain ⟨p, hp, h⟩ := Option.bind_eq_some_iff.1 h
  obtain ⟨line, hline, h⟩ := Option.bind_eq_some_iff.1 h
  obtain ⟨method, hmethod, h⟩ := Option.bind_eq_some_iff.1 h
  split_ifs at h with hget
  · obtain ⟨page, hpage, h⟩ := Option.bind_eq_some_iff.1 h
    obtain rfl : page = written := by simpa using h
    exact ⟨method, requestError_ok hpage⟩
  · obtain ⟨rest, -, h⟩ := Option.bind_eq_some_iff.1 h
    obtain ⟨uri, -, h⟩ := Option.bind_eq_some_iff.1 h
    simp at h

theorem cacheLookup_eq {found : Option ℕ} {flag : Bool} :
    cacheLookup fuel name flag s = some (found, t) ↔
      ∃ r, s.findEntry name fuel (s.firstKey name) = some r ∧
        (match r with
          | none => pure none
          | some e => if flag then (do upgradeLru2 e false; return some e) else return some e :
            Prog Wc (Option ℕ)) s = some (found, t) := by
  unfold cacheLookup
  rw [bind_eq_some]
  constructor
  · rintro ⟨r, u, hr, h⟩
    obtain ⟨r', hr', heq⟩ := Option.map_eq_some_iff.1 hr
    obtain ⟨rfl, rfl⟩ := Prod.mk.inj heq
    exact ⟨r', hr', h⟩
  · rintro ⟨r, hr, h⟩
    exact ⟨r, s, by simp [reads, hr], h⟩

theorem lookupSection_mono {found : Option ℕ} (h : lookupSection m fuel name s = some (found, t))
    (hf : fuel ≤ fuel') : lookupSection m fuel' name s = some (found, t) := by
  unfold lookupSection at h ⊢
  split_ifs at h ⊢ with hm
  · obtain ⟨p, u, hp, h⟩ := bind_eq_some.1 h
    refine bind_eq_some.2 ⟨p, u, ?_, h⟩
    obtain ⟨r, v, hr, hp⟩ := bind_eq_some.1 hp
    refine bind_eq_some.2 ⟨r, v, ?_, hp⟩
    obtain ⟨o, ho, hr⟩ := cacheLookup_eq.1 hr
    exact cacheLookup_eq.2 ⟨o, findEntry_mono ho hf, hr⟩
  · exact h

theorem lookupSection_unique {found found' : Option ℕ} {t' : Wc}
    (h : lookupSection m fuel name s = some (found, t))
    (h' : lookupSection m fuel' name s = some (found', t')) : found = found' ∧ t = t' := by
  have h1 := lookupSection_mono h (le_max_left fuel fuel')
  have h2 := lookupSection_mono h' (le_max_right fuel fuel')
  exact Prod.mk.inj (Option.some.inj (h1.symm.trans h2))

/-- What the first section does: it only relinks the list, and what it finds has the name. -/
theorem lookupSection_ok {found : Option ℕ} (h : lookupSection m fuel name s = some (found, t)) :
    Relinked s t ∧ ∀ e, found = some e → s.nameOf e = some name := by
  unfold lookupSection at h
  split_ifs at h with hm
  · obtain ⟨p, u, hp, h⟩ := bind_eq_some.1 h
    obtain ⟨rfl, rfl⟩ := Prod.mk.inj (Option.some.inj h)
    obtain ⟨r, v, hr, hp⟩ := bind_eq_some.1 hp
    obtain ⟨rfl, rfl⟩ := Prod.mk.inj (Option.some.inj hp)
    have hw := (cacheLookup_frame fuel name true).of_run hr
    refine ⟨hw.1, fun e he => ?_⟩
    obtain ⟨n, -, ⟨-, hnone⟩ | ⟨e', -, hname, hsome⟩⟩ :=
      findEntry_ends (m := 0) (fun i hi => by omega) hw.2
    · rw [hnone] at he
      cases he
    · rw [hsome] at he
      obtain rfl := Option.some.inj he
      exact hname
  · obtain ⟨rfl, rfl⟩ := Prod.mk.inj (Option.some.inj h)
    exact ⟨Relinked.refl _, fun e he => by cases he⟩

/-- An insertion stores no file data but its own. -/
theorem insert_files {file element : ℕ} :
    wp True ((CacheOp.insert file data element).run fuel)
      (fun _ t => t.files = Function.update s.files file (some data)) s := by
  simp only [CacheOp.run, wp_bind, wp_getState, wp_require, wp_modify]
  refine ⟨fun _ => ?_, fun _ => trivial⟩
  refine wp_mono (cacheLookup_frame fuel data.fileName false) fun check s₂ h₂ => ?_
  cases check with
  | some x => exact (wp_pure _).2 h₂.1.files
  | none =>
    simp only [cacheInsert, wp_bind, wp_getState]
    refine wp_load_true fun fd _ => ?_
    simp only [wp_ite, wp_pure]
    refine ⟨fun _ => h₂.1.files, fun _ => ?_⟩
    rw [wp_bind]
    refine wp_mono (makeRoom_idle fd.fileSize (Or.inl trivial)) fun _ s₃ h₃ => ?_
    obtain ⟨-, rfl⟩ := h₃
    simp only [wp_bind, wp_getState, wp_require, wp_modify]
    refine ⟨fun _ => ?_, fun _ => trivial⟩
    refine wp_reads_of fun key _ => ?_
    refine wp_mono (upgradeLru2_frame element true) fun _ s₄ h₄ => ?_
    exact (wp_pure _).2 (h₄.files.trans h₂.1.files)

/-! ### Serving -/

/-- What the first part of a request does. -/
inductive Served (disk : Disk) (m : ℤ) (fuel : ℕ) (input : List UInt8) (s : Wc) :
    List UInt8 → Option ReadResult → Wc → Prop
  /-- Another method than `GET`. -/
  | refused {written : List UInt8} (hi : requestInit fuel input = some (.refused written)) :
      Served disk m fuel input s written none s
  /-- The file is in the cache. -/
  | hit {name : Name} {e : ℕ} {t : Wc} {data : FileData} {written : List UInt8}
      (hi : requestInit fuel input = some (.asks name))
      (hl : lookupSection m fuel name s = some (some e, t)) (hf : t.fileOf e = some data)
      (hs : requestSendfile data = some written) : Served disk m fuel input s written none t
  /-- The file is not in the cache. -/
  | miss {name : Name} {t : Wc} {rd : ReadResult} {sent : List UInt8}
      (hi : requestInit fuel input = some (.asks name))
      (hl : lookupSection m fuel name s = some (none, t))
      (hr : requestReadfile disk name = some rd) (hs : requestSendfile rd.data = some sent) :
      Served disk m fuel input s (rd.written ++ sent) (some rd) t

theorem serve_served {o : Option ReadResult} :
    serve disk m fuel input s = some ((written, o), t) ↔ Served disk m fuel input s written o t := by
  unfold serve
  simp only [bind_eq_some, load_eq_some]
  constructor
  · rintro ⟨rq, u, ⟨hrq, rfl⟩, h⟩
    cases rq with
    | refused page =>
      simp only [pure_eq_some, Prod.mk.injEq] at h
      obtain ⟨⟨rfl, rfl⟩, rfl⟩ := h
      exact .refused hrq
    | asks name =>
      obtain ⟨found, u, hl, h⟩ := bind_eq_some.1 h
      cases found with
      | some e =>
        simp only [sendCached, bind_eq_some, getState_eq_some, load_eq_some, pure_eq_some,
          Prod.mk.injEq] at h
        obtain ⟨page, v, ⟨_, _, ⟨rfl, rfl⟩, data, _, ⟨hd, rfl⟩, hs, rfl⟩, ⟨rfl, rfl⟩, rfl⟩ := h
        exact .hit hrq hl hd hs
      | none =>
        simp only [readAndSend, bind_eq_some, load_eq_some, pure_eq_some, Prod.mk.injEq,
          Option.bind_eq_bind, Option.bind_eq_some_iff] at h
        obtain ⟨r, v, ⟨⟨rd, hrd, sent, hs, hr⟩, rfl⟩, ⟨rfl, rfl⟩, rfl⟩ := h
        obtain rfl := Option.some.inj hr
        exact .miss hrq hl hrd hs
  · intro h
    cases h with
    | refused hi => exact ⟨_, s, ⟨hi, rfl⟩, rfl⟩
    | hit hi hl hf hs =>
      refine ⟨_, s, ⟨hi, rfl⟩, bind_eq_some.2 ⟨_, t, hl, ?_⟩⟩
      simp only [sendCached, bind_eq_some, getState_eq_some, load_eq_some, pure_eq_some]
      exact ⟨written, t, ⟨t, t, ⟨rfl, rfl⟩, _, t, ⟨hf, rfl⟩, hs, rfl⟩, rfl, rfl⟩
    | miss hi hl hr hs =>
      refine ⟨_, s, ⟨hi, rfl⟩, bind_eq_some.2 ⟨_, t, hl, ?_⟩⟩
      simp only [readAndSend, bind_eq_some, load_eq_some, pure_eq_some, Option.bind_eq_bind,
        Option.bind_eq_some_iff]
      exact ⟨_, t, ⟨⟨_, hr, _, hs, rfl⟩, rfl⟩, rfl, rfl⟩

/-! ### One response -/

/-- File data whose size is the number of its bytes. -/
def FileData.Sized (data : FileData) : Prop := data.fileSize = data.fileBuf.length

/-- The file data in the cache, and what is on its way, is sized. -/
structure SiteOK (w : Site) : Prop where
  files : ∀ f data, w.cache.files f = some data → data.Sized
  inserting : ∀ data ∈ w.inserting, data.Sized
  record : ∀ p ∈ w.record, p.2.Sized

theorem SiteOK.serve {o : Option ReadResult} (h : SiteOK w)
    (hs : Served disk m fuel input w.cache written o t) : SiteOK (w.served disk m o t) := by
  have hread : ∀ rd, o = some rd → rd.data.Sized := by
    intro rd ho
    cases hs with
    | refused => cases ho
    | hit => cases ho
    | miss _ _ hr _ =>
      obtain rfl := Option.some.inj ho
      exact (requestReadfile_ok hr).sized
  have hfiles : t.files = w.cache.files := by
    cases hs with
    | refused => rfl
    | hit _ hl _ _ => exact (lookupSection_ok hl).1.files
    | miss _ hl _ _ => exact (lookupSection_ok hl).1.files
  refine ⟨fun f data hf => h.files f data (hfiles ▸ hf), fun data hd => ?_, fun p hp => ?_⟩
  · rcases List.mem_append.1 hd with hd | hd
    · exact h.inserting data hd
    · cases o with
      | none => simp at hd
      | some rd =>
        split_ifs at hd with hm
        · obtain rfl : data = rd.data := by simpa using hd
          exact hread rd rfl
        · simp at hd
  · rcases List.mem_append.1 hp with hp | hp
    · exact h.record p hp
    · cases o with
      | none => simp at hp
      | some rd =>
        obtain rfl : p = (disk, rd.data) := by simpa using hp
        exact hread rd rfl

theorem SiteOK.step {l : SiteLab} (h : SiteOK w) (hs : siteStep m w l w') : SiteOK w' := by
  cases l with
  | serve input disk written =>
    obtain ⟨fuel, o, t, hrun, rfl⟩ := hs
    exact h.serve (serve_served.1 hrun)
  | insert data =>
    obtain ⟨fuel, file, element, l₁, l₂, r, t, hins, hrun, rfl⟩ := hs
    have hsub : ∀ d ∈ l₁ ++ l₂, d ∈ w.inserting := by
      intro d hd
      rw [hins]
      simp only [List.mem_append, List.mem_cons] at hd ⊢
      tauto
    refine ⟨fun f d hf => ?_, fun d hd => h.inserting d (hsub d hd), h.record⟩
    have hfiles := insert_files.of_run hrun
    change t.files f = some d at hf
    rw [hfiles, Function.update_apply] at hf
    split_ifs at hf with hff
    · obtain rfl := Option.some.inj hf
      exact h.inserting data (by simp [hins])
    · exact h.files f d hf

theorem site_ok {ls : List SiteLab} (hr : Run (siteStep m) (siteInit m) ls w) : SiteOK w := by
  refine run_inv (I := SiteOK) (fun _ _ _ h hs => h.step hs) hr ⟨?_, ?_, ?_⟩
  · intro f data hf
    cases hf
  · intro data hd
    cases hd
  · intro data hd
    cases hd

/-- Where the data of a page can be from: what `request_readfile` made for the request itself, or if
it was not called what it had made for earlier ones. -/
def Site.sources (w : Site) (disk : Disk) : Option ReadResult → List (Disk × FileData)
  | some rd => [(disk, rd.data)]
  | none => w.record

/-- One response was written; it is `200 OK` only with all the bytes of the file that was asked for,
which had passed the checks, with the length and the checksum of the body. -/
def Answers (sources : List (Disk × FileData)) (input written : List UInt8) : Prop :=
  ∃ r : Response, r.Valid ∧ written = r.bytes ∧ (r.status = text "200 OK" →
    (∃ p ∈ sources, (∃ fuel, requestInit fuel input = some (.asks p.2.fileName)) ∧
      Complete p.1 p.2 ∧ r.body = p.2.fileBuf) ∧
    Response.lengthLine r.body.length ∈ r.headers ∧
    Response.csumLine ((r.body.map (·.toNat)).sum % 2 ^ 32) ∈ r.headers)

/-- The first part of a request is served, and answers it. -/
structure RespondsOnce (m : ℤ) (w : Site) (input : List UInt8) (disk : Disk) : Prop where
  returns : ∃ written w', siteStep m w (.serve input disk written) w'
  answers : ∀ fuel written o t, serve disk m fuel input w.cache = some ((written, o), t) →
    Answers (w.sources disk o) input written

/-- The request is not a `GET` and its error page fits, or the cache has all of the file since it
passed the checks, or it has no entry and all of the file can be read now. -/
def Clear (m : ℤ) (w : Site) (input : List UInt8) (disk : Disk) : Prop :=
  ∃ fuel rq, requestInit fuel input = some rq ∧ match rq with
    | .refused _ => True
    | .asks name => ∃ fuel found t, lookupSection m fuel name w.cache = some (found, t) ∧
      match found with
      | some e => ∃ p ∈ w.record, Complete p.1 p.2 ∧ w.cache.fileOf e = some p.2
      | none => ReadsAll disk name

/-- The page with all of a file that passed. -/
theorem filePage_answers {sources : List (Disk × FileData)} {p : Disk × FileData}
    (hp : p ∈ sources) (hc : Complete p.1 p.2)
    (hi : requestInit fuel input = some (.asks p.2.fileName)) :
    Answers sources input (filePage p.2).bytes := by
  refine ⟨filePage p.2, filePage_valid p.2, rfl, fun _ => ⟨⟨p, hp, ⟨fuel, hi⟩, hc, rfl⟩, ?_, ?_⟩⟩
  · simp [filePage]
  · rw [← csum_eq]
    simp [filePage]

/-- **Two responses** are written when the file fails a check. -/
theorem two_responses {sources : List (Disk × FileData)} (hr : requestReadfile disk name = some rd)
    (hret : rd.ret = false) (hs : requestSendfile rd.data = some sent) :
    ¬Answers sources input (rd.written ++ sent) := by
  have hok := requestReadfile_ok hr
  obtain ⟨-, r₁, hv₁, hw₁⟩ := hok.failed hret
  rintro ⟨r, hv, he, -⟩
  rw [requestSendfile_ok hok.sized] at hs
  rw [hw₁, ← Option.some.inj hs] at he
  exact hv₁.append_ne hv he

/-- What a page with sized file data answers says where the data is from. -/
theorem Answers.source {sources : List (Disk × FileData)} (hd : data.Sized)
    (hs : requestSendfile data = some written) (h : Answers sources input written) :
    ∃ p ∈ sources, (∃ fuel, requestInit fuel input = some (.asks p.2.fileName)) ∧
      Complete p.1 p.2 ∧ data.fileBuf = p.2.fileBuf := by
  rw [requestSendfile_ok hd] at hs
  obtain ⟨r, hv, he, h200⟩ := h
  rw [← Option.some.inj hs] at he
  obtain rfl := (filePage_valid data).inj hv he
  exact (h200 rfl).1

/-- What a request is answered with, when the condition holds. -/
theorem Clear.answers {o : Option ReadResult} (h : Clear m w input disk) (hw : SiteOK w)
    (hs : Served disk m fuel input w.cache written o t) :
    Answers (w.sources disk o) input written := by
  obtain ⟨fuel₀, rq, hrq, hcase⟩ := h
  cases hs with
  | refused hi =>
    obtain ⟨method, hwritten⟩ := requestInit_refused hi
    refine ⟨_, errorPage_valid (by decide) (by decide), hwritten, fun hst => ?_⟩
    have hne : text "501" ++ text " " ++ text "Not Implemented" ≠ text "200 OK" := by decide
    exact absurd hst hne
  | @hit name e t data written hi hl hf hsend =>
    obtain rfl := requestInit_unique hrq hi
    obtain ⟨fuel₁, found, t', hl', hfound⟩ := hcase
    obtain ⟨rfl, -⟩ := lookupSection_unique hl' hl
    obtain ⟨p, hp, hc, hf'⟩ := hfound
    obtain ⟨hrel, hname⟩ := lookupSection_ok hl
    obtain rfl : p.2 = data := by
      rw [hrel.fileOf, hf'] at hf
      exact Option.some.inj hf
    have hn : p.2.fileName = name := by simpa [Wc.nameOf, hf'] using hname e rfl
    rw [requestSendfile_ok (hw.record p hp)] at hsend
    rw [← Option.some.inj hsend]
    exact filePage_answers hp hc (hn ▸ hi)
  | @miss name t rd sent hi hl hr hsend =>
    obtain rfl := requestInit_unique hrq hi
    obtain ⟨fuel₁, found, t', hl', hfound⟩ := hcase
    obtain ⟨rfl, -⟩ := lookupSection_unique hl' hl
    have hok := requestReadfile_ok hr
    have hret : rd.ret = true := by
      by_contra hne
      exact (hok.failed (by simpa using hne)).1 hfound.readable
    have hc : Complete disk rd.data := (requestReadfile_complete hr).2 hfound
    rw [requestSendfile_ok hok.sized] at hsend
    rw [(hok.passed hret).2, ← Option.some.inj hsend]
    exact filePage_answers (p := (disk, rd.data)) (by simp [Site.sources]) hc (hok.fileName ▸ hi)

/-- The request is served, when the condition holds. -/
theorem Clear.returns (h : Clear m w input disk) (hw : SiteOK w) :
    ∃ written w', siteStep m w (.serve input disk written) w' := by
  obtain ⟨fuel₀, rq, hrq, hcase⟩ := h
  cases rq with
  | refused page => exact ⟨_, _, fuel₀, _, _, serve_served.2 (.refused hrq), rfl⟩
  | asks name =>
    obtain ⟨fuel₁, found, t, hl, hfound⟩ := hcase
    have hi := requestInit_mono hrq (le_max_left fuel₀ fuel₁)
    have hl := lookupSection_mono hl (le_max_right fuel₀ fuel₁)
    cases found with
    | some e =>
      obtain ⟨p, hp, -, hf⟩ := hfound
      have hsend := requestSendfile_ok (hw.record p hp)
      rw [← (lookupSection_ok hl).1.fileOf] at hf
      exact ⟨_, _, _, _, _, serve_served.2 (.hit hi hl hf hsend), rfl⟩
    | none =>
      obtain ⟨rd, hr, -⟩ := requestReadfile_returns hfound.readable
      have hsend := requestSendfile_ok (requestReadfile_ok hr).sized
      exact ⟨_, _, _, _, _, serve_served.2 (.miss hi hl hr hsend), rfl⟩

/-- What was answered with one response meets the condition. -/
theorem Answers.clear {o : Option ReadResult} (hw : SiteOK w)
    (hs : Served disk m fuel input w.cache written o t)
    (h : Answers (w.sources disk o) input written) : Clear m w input disk := by
  cases hs with
  | refused hi => exact ⟨fuel, _, hi, trivial⟩
  | @hit name e t data written hi hl hf hsend =>
    refine ⟨fuel, _, hi, fuel, _, t, hl, ?_⟩
    obtain ⟨hrel, hname⟩ := lookupSection_ok hl
    have hfile : w.cache.fileOf e = some data := by rw [← hrel.fileOf, hf]
    have hn : data.fileName = name := by simpa [Wc.nameOf, hfile] using hname e rfl
    have hsized : data.Sized := by
      obtain ⟨el, -, hfd⟩ := Option.bind_eq_some_iff.1 hfile
      exact hw.files _ _ hfd
    obtain ⟨p, hp, ⟨fuel', hi'⟩, hc, hbuf⟩ := h.source hsized hsend
    -- what was read then is what the entry holds
    have hn' : p.2.fileName = name := Request.asks.inj (requestInit_unique hi' hi)
    have hsized' : p.2.Sized := hw.record p hp
    have heq : p.2 = data := by
      obtain ⟨n, b, z⟩ := data
      obtain ⟨d, n', b', z'⟩ := p
      simp only [FileData.Sized] at hsized hsized' hbuf hn hn'
      rw [hsized, hsized', hbuf, hn, hn']
    exact ⟨p, hp, hc, heq ▸ hfile⟩
  | @miss name t rd sent hi hl hr hsend =>
    refine ⟨fuel, _, hi, fuel, _, t, hl, ?_⟩
    have hok := requestReadfile_ok hr
    cases hret : rd.ret with
    | true =>
      -- nothing was written before the page, so the page is the response
      rw [(hok.passed hret).2, List.nil_append] at h
      obtain ⟨p, hp, -, hc, -⟩ := h.source hok.sized hsend
      obtain rfl : p = (disk, rd.data) := by simpa [Site.sources] using hp
      exact (requestReadfile_complete hr).1 hc
    | false => exact absurd h (two_responses hr hret hsend)

/-- **One response for each request**, exactly when the file that is asked for does not fail the
checks and all of it is read, now or when it was put into the cache. -/
theorem respondsOnce_iff {ls : List SiteLab} (hr : Run (siteStep m) (siteInit m) ls w)
    (input : List UInt8) (disk : Disk) : RespondsOnce m w input disk ↔ Clear m w input disk := by
  have hw := site_ok hr
  constructor
  · intro h
    obtain ⟨written, w', fuel, o, t, hrun, -⟩ := h.returns
    exact (h.answers fuel written o t hrun).clear hw (serve_served.1 hrun)
  · intro h
    refine ⟨h.returns hw, ?_⟩
    intro fuel written o t hrun
    exact h.answers hw (serve_served.1 hrun)

/-- The request for `/a`. -/
def getA : List UInt8 := text "GET /a HTTP/1.0\r\n\r\n"

theorem getA_asks : requestInit 3 getA = some (.asks (text ".//a")) := by decide +kernel

/-- A disk with a file of three bytes. -/
def threeBytes : Disk := fun name =>
  if name = text ".//a" then some ⟨true, true, true, [1, 2, 3]⟩ else none

/-- The file data, and the page with it. -/
def threeData : FileData := ⟨text ".//a", [1, 2, 3], 3⟩

def pageOfThree : List UInt8 := (filePage threeData).bytes

theorem threeBytes_read :
    requestReadfile threeBytes (text ".//a") = some ⟨true, threeData, []⟩ := rfl

theorem threeBytes_passes : Passes threeBytes (text ".//a") ⟨true, true, true, [1, 2, 3]⟩ :=
  ⟨by decide, by decide, by decide, if_pos rfl, rfl, rfl⟩

/-- A miss, after which the file is put into the cache, where the next lookup finds it. -/
theorem threeBytes_cached : ∃ s u r t,
    Served threeBytes 10 4 getA (cacheInit 10) pageOfThree (some ⟨true, threeData, []⟩) s ∧
    (CacheOp.insert 0 threeData 0).run 4 s = some (r, u) ∧ u.fileOf 0 = some threeData ∧
    lookupSection 10 4 (text ".//a") u = some (some 0, t) := by
  have hall : ((lookupSection 10 4 (text ".//a") (cacheInit 10)).any fun p =>
      decide (p.1 = none) && (((CacheOp.insert 0 threeData 0).run 4 p.2).any fun q =>
        decide ((q.2.elements 0).map (·.file) = some 0) &&
          (lookupSection 10 4 (text ".//a") q.2).any fun r => decide (r.1 = some 0))) = true := by
    decide +kernel
  obtain ⟨⟨found, s⟩, hl, hp⟩ := (Option.any_eq_true _ _).1 hall
  rw [Bool.and_eq_true] at hp
  obtain ⟨hnone, hp⟩ := hp
  obtain ⟨⟨r, u⟩, hins, hq⟩ := (Option.any_eq_true _ _).1 hp
  rw [Bool.and_eq_true] at hq
  obtain ⟨hfile, hq⟩ := hq
  obtain ⟨⟨found', t⟩, hl', ht⟩ := (Option.any_eq_true _ _).1 hq
  obtain rfl : found = none := of_decide_eq_true hnone
  obtain rfl : found' = some 0 := of_decide_eq_true ht
  refine ⟨s, u, r, t, ?_, hins, ?_, hl'⟩
  · exact Served.miss (requestInit_mono getA_asks (by omega)) hl threeBytes_read
      (requestSendfile_ok rfl)
  · obtain ⟨el, hel, hf⟩ := Option.map_eq_some_iff.1 (of_decide_eq_true hfile)
    have hfiles := insert_files.of_run hins
    show (u.elements 0).bind _ = _
    rw [hel, Option.bind_some, hf, hfiles, Function.update_self]

/-- The first request for the file is answered with the file, and one after that with the file from
the cache, be it on disk or not. -/
theorem respondsOnce_three_bytes : RespondsOnce 10 (siteInit 10) getA threeBytes ∧
    ∃ ls w, Run (siteStep 10) (siteInit 10) ls w ∧ ∀ disk, RespondsOnce 10 w getA disk := by
  constructor
  · have hl : lookupSection 10 1 (text ".//a") (cacheInit 10) = some (none, cacheInit 10) := rfl
    refine (respondsOnce_iff (Run.nil _) getA threeBytes).2 ⟨3, _, getA_asks, 1, none, _, hl, ?_⟩
    exact ⟨_, threeBytes_passes, by decide, Or.inr rfl⟩
  · obtain ⟨s, u, r, t, hserved, hins, hfile, hl⟩ := threeBytes_cached
    have hfirst : siteStep 10 (siteInit 10) (.serve getA threeBytes pageOfThree)
        ((siteInit 10).served threeBytes 10 (some ⟨true, threeData, []⟩) s) :=
      ⟨4, _, s, serve_served.2 hserved, rfl⟩
    have hsecond : siteStep 10 ((siteInit 10).served threeBytes 10 (some ⟨true, threeData, []⟩) s)
        (.insert threeData) ⟨u, [], [(threeBytes, threeData)]⟩ :=
      ⟨4, 0, 0, [], [], r, u, rfl, hins, rfl⟩
    have hr := ((Run.nil _).snoc hfirst).snoc hsecond
    refine ⟨_, _, hr, fun disk => (respondsOnce_iff hr getA disk).2 ?_⟩
    exact ⟨3, _, getA_asks, 4, _, t, hl, (threeBytes, threeData), by simp,
      ⟨_, threeBytes_passes, rfl⟩, hfile⟩

/-- Without the file the error page is followed by `200 OK` and an empty body. -/
theorem missing_file_twice : ¬∀ (m : ℤ) (ls : List SiteLab) (w : Site),
    Run (siteStep m) (siteInit m) ls w → ∀ (input : List UInt8) (disk : Disk),
      (∃ fuel rq, requestInit fuel input = some rq) → RespondsOnce m w input disk := by
  intro h
  have hone := h 0 [] (siteInit 0) (Run.nil _) getA (fun _ => none) ⟨3, _, getA_asks⟩
  obtain ⟨written, w', fuel, o, t, hrun, -⟩ := hone.returns
  have hans := hone.answers fuel written o t hrun
  cases serve_served.1 hrun with
  | refused hi => cases requestInit_unique hi getA_asks
  | hit hi hl hf hsend => cases hl
  | @miss name t rd sent hi hl hr hsend =>
    have hret : rd.ret = false := by
      by_contra hne
      obtain ⟨f, hp, -⟩ := ((requestReadfile_ok hr).passed (by simpa using hne)).1
      cases hp.found
    exact two_responses hr hret hsend hans

end OSLab.Webserver

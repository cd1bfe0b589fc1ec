import OSLab.Webserver.OneResponse

/-!
# The cache changes no response

As long as no request hits the entry of a file that fails a check, a server with a cache writes
the bytes a server without one writes (`caching_transparent`). The two run in lockstep: what
the cache holds for a name is what `request_readfile` makes of it (`Cached`), so a hit sends what
a read would send.
-/

namespace OSLab.Webserver

open Prog

variable {s t u : Wc} {m : ℤ} {fuel file element : ℕ} {name : Name} {disk : Disk}
  {input written : List UInt8} {held : Name → Option ℕ} {rd : ReadResult} {o : Option ReadResult}

/-! ### One request -/

theorem doServerRequest_eq :
    doServerRequest disk m fuel file element input s = some (written, t) ↔
      ∃ o u, Served disk m fuel input s written o u ∧
        insertSection m fuel file element o u = some ((), t) := by
  unfold doServerRequest
  simp only [bind_eq_some, pure_eq_some]
  constructor
  · rintro ⟨⟨w, o⟩, u, hs, ⟨⟩, v, hi, rfl, rfl⟩
    exact ⟨o, u, serve_served.1 hs, hi⟩
  · rintro ⟨o, u, hs, hi⟩
    exact ⟨(written, o), u, serve_served.2 hs, (), t, hi, rfl, rfl⟩

/-- What a server without a cache writes. -/
inductive Uncached (disk : Disk) (input : List UInt8) : List UInt8 → Prop
  | refused {fuel : ℕ} {written : List UInt8}
      (hi : requestInit fuel input = some (.refused written)) : Uncached disk input written
  | read {fuel : ℕ} {name : Name} {rd : ReadResult} {sent : List UInt8}
      (hi : requestInit fuel input = some (.asks name)) (hr : requestReadfile disk name = some rd)
      (hs : requestSendfile rd.data = some sent) : Uncached disk input (rd.written ++ sent)

theorem serverStep_uncached :
    serverStep disk 0 s (input, written) t ↔ Uncached disk input written ∧ t = s := by
  have hsection : ∀ fuel name, lookupSection 0 fuel name s = some (none, s) := fun _ _ => rfl
  constructor
  · rintro ⟨fuel, file, element, h⟩
    obtain ⟨o, u, hs, hins⟩ := doServerRequest_eq.1 h
    have hu : u = t := by
      cases o with
      | none => exact (pure_eq_some.1 hins).2
      | some rd => exact (pure_eq_some.1 hins).2
    subst hu
    cases hs with
    | refused hi => exact ⟨.refused hi, rfl⟩
    | hit hi hl hf hs =>
      rw [hsection] at hl
      cases hl
    | miss hi hl hr hs =>
      rw [hsection] at hl
      exact ⟨.read hi hr hs, (Prod.mk.inj (Option.some.inj hl)).2.symm⟩
  · rintro ⟨h, rfl⟩
    cases h with
    | @refused fuel written hi =>
      exact ⟨fuel, 0, 0, doServerRequest_eq.2 ⟨_, _, .refused hi, rfl⟩⟩
    | @read fuel name rd sent hi hr hs =>
      exact ⟨fuel, 0, 0, doServerRequest_eq.2 ⟨_, _, .miss hi (hsection _ _) hr hs, rfl⟩⟩

/-! ### What the cache holds -/

/-- The cache holds what `request_readfile` makes of the files on disk, and there are addresses
left to allocate. -/
structure Cached (disk : Disk) (s : Wc) (entries : Name → Option ℕ) : Prop extends
    Holding s entries where
  read : ∀ n e, entries n = some e → ∃ rd, requestReadfile disk n = some rd ∧
    s.fileOf e = some rd.data
  spare : ∃ N, ∀ a, N ≤ a → s.files a = none ∧ s.elements a = none

theorem init_cached (h0 : 0 < m) (hm : m * 11 < 2 ^ 31) :
    Cached disk (cacheInit m) fun _ => none where
  toHolding := init_holding h0 hm
  read n e h := by cases h
  spare := ⟨0, fun _ _ => ⟨rfl, rfl⟩⟩

/-- Relinking the list in order of use. -/
theorem Cached.relink (h : Cached disk s held) (hr : Relinked s t) (ht : Holding t held) :
    Cached disk t held where
  toHolding := ht
  read n e he := by
    obtain ⟨rd, hrd, hf⟩ := h.read n e he
    exact ⟨rd, hrd, by rw [hr.fileOf, hf]⟩
  spare := by
    obtain ⟨N, hN⟩ := h.spare
    refine ⟨N, fun a ha => ⟨by rw [hr.files]; exact (hN a ha).1, ?_⟩⟩
    exact (hr.adds (a + 1)).free a (by omega) (hN a ha).2

/-- The second section after a read. -/
theorem Cached.insert {r : Option ℕ × List ℕ} (h : Cached disk s held) (hs : s.SmallKeys name)
    (hrd : requestReadfile disk name = some rd)
    (hrun : (CacheOp.insert file rd.data element).run fuel s = some (r, t)) :
    ∃ held', Cached disk t held' ∧ ∀ n, n ≠ name → held' n = held n := by
  have hname : rd.data.fileName = name := (requestReadfile_ok hrd).fileName
  have hw : wp True ((CacheOp.insert file rd.data element).run fuel) _ s :=
    h.toHolding.insert (hname.symm ▸ hs) (Or.inl trivial)
  obtain ⟨-, hfresh, hadds, hins⟩ := hw.of_run hrun
  have hfile : ∀ x d, s.fileOf x = some d → t.fileOf x = some d := fun x d hd =>
    hadds.fileOf x d (fileOf_setFile hfresh hd)
  have hspare : ∃ N, ∀ a, N ≤ a → t.files a = none ∧ t.elements a = none := by
    obtain ⟨N, hN⟩ := h.spare
    refine ⟨N + file + element + 1, fun a ha => ?_⟩
    obtain ⟨hf, he⟩ := hN a (by omega)
    refine ⟨?_, hadds.free a (by omega) he⟩
    rw [hadds.files]
    show Function.update s.files file _ a = none
    rw [Function.update_of_ne (by omega), hf]
  cases hr : r.1 with
  | none =>
    rw [hr] at hins
    refine ⟨held, ⟨hins, fun n e he => ?_, hspare⟩, fun _ _ => rfl⟩
    obtain ⟨rd', hrd', hf⟩ := h.read n e he
    exact ⟨rd', hrd', hfile e _ hf⟩
  | some x =>
    rw [hr] at hins
    obtain ⟨rfl, hnew, hh⟩ := hins
    refine ⟨_, ⟨hh, fun n e he => ?_, hspare⟩, fun n hn => Function.update_of_ne (hname ▸ hn) _ _⟩
    rw [Function.update_apply] at he
    split_ifs at he with hn
    · obtain rfl := Option.some.inj he
      rw [hn, hname]
      exact ⟨rd, hrd, hnew⟩
    · obtain ⟨rd', hrd', hf⟩ := h.read n e he
      exact ⟨rd', hrd', hfile e _ hf⟩

/-- The request's lookup squares no key above 46340 and comes to an end, and if the cache has an
entry for the file, the file passes the checks. -/
structure Safe (disk : Disk) (s : Wc) (name : Name) : Prop where
  small : s.SmallKeys name
  stops : ∃ n, s.StopsAt name n
  passes : (∃ e, s.Stores e ∧ s.nameOf e = some name) → Readable disk name

/-- A request for a file whose entry, if there is one, is of a file that passes the checks. -/
def SafeRequest (disk : Disk) (s : Wc) (input : List UInt8) : Prop :=
  ∀ fuel name, requestInit fuel input = some (.asks name) → Safe disk s name

/-- What is held was read, so it is sent as a read would send it. -/
theorem Cached.hit {e : ℕ} (h : Cached disk s held) (hsafe : Safe disk s name)
    (he : held name = some e) : ∃ rd, requestReadfile disk name = some rd ∧
      s.fileOf e = some rd.data ∧ rd.written = [] := by
  obtain ⟨rd, hrd, hf⟩ := h.read name e he
  have hok := requestReadfile_ok hrd
  have hread := hsafe.passes ⟨e, (h.held name e).1 he⟩
  have hret : rd.ret = true := by
    by_contra hne
    exact (hok.failed (by simpa using hne)).1 hread
  exact ⟨rd, hrd, hf, (hok.passed hret).2⟩

/-- The first section of a server with a cache. -/
theorem Cached.lookup {found : Option ℕ} (h0 : 0 < m) (h : Cached disk s held)
    (hs : s.SmallKeys name) (hl : lookupSection m fuel name s = some (found, t)) :
    found = held name ∧ Relinked s t ∧ Cached disk t held := by
  unfold lookupSection at hl
  rw [if_pos h0] at hl
  obtain ⟨p, v, hp, hl⟩ := bind_eq_some.1 hl
  obtain ⟨rfl, rfl⟩ := pure_eq_some.1 hl
  obtain ⟨r, v', hr, hp⟩ := bind_eq_some.1 hp
  obtain ⟨rfl, rfl⟩ := pure_eq_some.1 hp
  have hw : wp True (cacheLookup fuel name true) _ s := h.toHolding.lookup true hs (Or.inl trivial)
  obtain ⟨hfound, hrel, hhold⟩ := hw.of_run hr
  exact ⟨hfound, hrel, h.relink hrel hhold⟩

/-- **A request of the cached server** writes what a server without a cache writes, and adds no
entry but for the file it asks for. -/
theorem Cached.to (h0 : 0 < m) (h : Cached disk s held) (hsafe : SafeRequest disk s input)
    (hs : serverStep disk m s (input, written) t) :
    Uncached disk input written ∧ ∃ held', Cached disk t held' ∧
      ∀ n, held n = none → (∀ fuel, requestInit fuel input ≠ some (.asks n)) → held' n = none := by
  obtain ⟨fuel, file, element, hrun⟩ := hs
  obtain ⟨o, u, hserved, hins⟩ := doServerRequest_eq.1 hrun
  cases hserved with
  | refused hi =>
    obtain ⟨-, rfl⟩ := pure_eq_some.1 hins
    exact ⟨.refused hi, held, h, fun _ hn _ => hn⟩
  | @hit name e t' data written hi hl hf hs =>
    obtain ⟨-, rfl⟩ := pure_eq_some.1 hins
    have hname := hsafe _ _ hi
    obtain ⟨hfound, hrel, hc⟩ := h.lookup h0 hname.small hl
    obtain ⟨rd, hrd, hfile, hw⟩ := h.hit hname hfound.symm
    -- the entry holds what a read returns
    rw [hrel.fileOf, hfile] at hf
    obtain rfl := Option.some.inj hf
    have hread := Uncached.read hi hrd hs
    rw [hw] at hread
    exact ⟨hread, held, hc, fun _ hn _ => hn⟩
  | @miss name t' rd sent hi hl hr hs =>
    have hname := hsafe _ _ hi
    obtain ⟨-, hrel, hc⟩ := h.lookup h0 hname.small hl
    refine ⟨.read hi hr hs, ?_⟩
    unfold insertSection at hins
    simp only at hins
    rw [if_pos h0] at hins
    obtain ⟨r, v, hr', hv⟩ := bind_eq_some.1 hins
    obtain ⟨-, rfl⟩ := pure_eq_some.1 hv
    obtain ⟨held', hc', hother⟩ :=
      hc.insert (hrel.sameTable.smallKeys h.live hname.small) hr hr'
    refine ⟨held', hc', fun n hn hasks => ?_⟩
    rw [hother n fun he => hasks _ (he ▸ hi), hn]

/-- **What a server without a cache writes** is written by the cached one. -/
theorem Cached.from (h0 : 0 < m) (h : Cached disk s held) (hsafe : SafeRequest disk s input)
    (hu : Uncached disk input written) : ∃ t, serverStep disk m s (input, written) t := by
  cases hu with
  | @refused fuel written hi =>
    exact ⟨s, fuel, 0, 0, doServerRequest_eq.2 ⟨_, _, .refused hi, rfl⟩⟩
  | @read fuel name rd sent hi hr hs =>
    have hname := hsafe _ _ hi
    obtain ⟨n, hst⟩ := hname.stops
    have hi' := requestInit_mono hi (le_max_left fuel (n + 1))
    set k := max fuel (n + 1) with hk
    have hn : n < k := by omega
    have hw : wp False (cacheLookup k name true) _ s :=
      h.toHolding.lookup true hname.small (Or.inr ⟨n, hn, hst⟩)
    obtain ⟨found, t, hl, rfl, hrel, hhold⟩ := hw.returns
    have hl : lookupSection m k name s = some (held name, t) := by
      unfold lookupSection
      rw [if_pos h0]
      exact bind_eq_some.2 ⟨_, t, bind_eq_some.2 ⟨_, t, hl, rfl⟩, rfl⟩
    have hc := h.relink hrel hhold
    cases hfound : held name with
    | some e =>
      -- a hit
      obtain ⟨rd', hrd', hfile, hw'⟩ := h.hit hname hfound
      obtain rfl := Option.some.inj (hr.symm.trans hrd')
      rw [hw', List.nil_append]
      rw [hfound] at hl
      rw [← hrel.fileOf] at hfile
      exact ⟨t, k, 0, 0, doServerRequest_eq.2 ⟨_, _, .hit hi' hl hfile hs, rfl⟩⟩
    | none =>
      -- a miss, and the second section finds a free slot
      rw [hfound] at hl
      obtain ⟨N, hN⟩ := hc.spare
      have hdata : rd.data.fileName = name := (requestReadfile_ok hr).fileName
      have hsmall := hrel.sameTable.smallKeys h.live hname.small
      have hstops := hrel.sameTable.stopsAt h.live hst
      have hins : wp False ((CacheOp.insert N rd.data N).run k) _ t :=
        hhold.insert (hdata.symm ▸ hsmall)
          (Or.inr ⟨(hN N le_rfl).1, (hN N le_rfl).2, n, hn, hdata.symm ▸ hstops⟩)
      obtain ⟨r, u, hrun, -⟩ := hins.returns
      refine ⟨u, k, N, N, doServerRequest_eq.2 ⟨_, _, .miss hi' hl hr hs, ?_⟩⟩
      unfold insertSection
      simp only
      rw [if_pos h0]
      exact bind_eq_some.2 ⟨r, u, hrun, rfl⟩

/-! ### Runs -/

/-- **Caching is transparent**: as long as no request hits an entry of a file that fails a check,
and lookups come to an end, a server with a cache writes what a server without one does. -/
theorem caching_transparent {ls : List (List UInt8 × List UInt8)} (h0 : 0 < m)
    (hm : m * 11 < 2 ^ 31) (hsafe : ∀ ls₁ l s, ls₁ ++ [l] <+: ls →
      Run (serverStep disk m) (cacheInit m) ls₁ s → SafeRequest disk s l.1) :
    (∃ s, Run (serverStep disk m) (cacheInit m) ls s) ↔
      ∃ s, Run (serverStep disk 0) (cacheInit 0) ls s := by
  refine run_lockstep (R := fun s t => (∃ held, Cached disk s held) ∧ t = cacheInit 0)
    ⟨⟨_, init_cached h0 hm⟩, rfl⟩ ?_ ?_ hsafe
  · intro s t l s' hR hG hs
    obtain ⟨⟨held, hc⟩, rfl⟩ := hR
    obtain ⟨hu, hc'⟩ := hc.to h0 hG hs
    exact ⟨_, serverStep_uncached.2 ⟨hu, rfl⟩, hc'.imp fun _ h => h.1, rfl⟩
  · intro s t l t' hR hG ht
    obtain ⟨⟨held, hc⟩, rfl⟩ := hR
    obtain ⟨hu, rfl⟩ := serverStep_uncached.1 ht
    obtain ⟨s', hs'⟩ := hc.from h0 hG hu
    exact ⟨s', hs', (hc.to h0 hG hs').2.imp fun _ h => h.1, rfl⟩

theorem threeBytes_uncached : Uncached threeBytes getA pageOfThree :=
  .read getA_asks threeBytes_read (requestSendfile_ok rfl)

/-- A cache without entries for other names stops the lookup of a name at once. -/
theorem Holding.safe (h : Holding s held) (honly : ∀ n, n ≠ name → held n = none) :
    s.SmallKeys name ∧ s.StopsAt name 0 := by
  have hnot : ¬s.Other name (s.lookupKey name 0) := by
    rintro ⟨e, he, hne⟩
    obtain ⟨fd, hfd⟩ := h.live _ e he
    have hn : s.nameOf e = some fd.fileName := by simp [Wc.nameOf, hfd]
    have hheld := (h.held fd.fileName e).2 ⟨⟨_, he⟩, hn⟩
    rw [honly _ fun heq => hne (hn.trans (congrArg some heq))] at hheld
    cases hheld
  exact ⟨fun n hp => absurd (hp 0 (by omega)) hnot, fun i hi => absurd hi (by omega),
    Wc.not_other_iff.1 hnot⟩

/-- The cache holds no file but one. -/
def OnlyFile (disk : Disk) (name : Name) (s : Wc) : Prop :=
  ∃ held, Cached disk s held ∧ ∀ n, n ≠ name → held n = none

/-- The request asks for no file but one. -/
def AsksOnly (name : Name) (input : List UInt8) : Prop :=
  ∀ fuel n, requestInit fuel input = some (.asks n) → n = name

theorem OnlyFile.safe (h : OnlyFile disk name s) (hread : Readable disk name)
    (hasks : AsksOnly name input) : SafeRequest disk s input := by
  intro fuel n hi
  obtain rfl := hasks fuel n hi
  obtain ⟨held, hc, honly⟩ := h
  obtain ⟨hsmall, hstops⟩ := hc.toHolding.safe honly
  exact ⟨hsmall, ⟨0, hstops⟩, fun _ => hread⟩

/-- Requests for one file leave only it in the cache. -/
theorem OnlyFile.step (h0 : 0 < m) (h : OnlyFile disk name s) (hread : Readable disk name)
    (hasks : AsksOnly name input) (hs : serverStep disk m s (input, written) t) :
    OnlyFile disk name t := by
  have hsafe := h.safe hread hasks
  obtain ⟨held, hc, honly⟩ := h
  obtain ⟨-, held', hc', hother⟩ := hc.to h0 hsafe hs
  exact ⟨held', hc', fun n hn => hother n (honly n hn) fun fuel hi => hn (hasks fuel n hi)⟩

theorem getA_only : AsksOnly (text ".//a") getA := fun _ _ hi =>
  Request.asks.inj (requestInit_unique hi getA_asks)

theorem threeBytes_readable : Readable threeBytes (text ".//a") :=
  ⟨_, threeBytes_passes, Or.inr ⟨rfl, by decide⟩⟩

/-- Of two requests for the file the second is a hit. -/
theorem caching_transparent_three_bytes :
    (∃ s, Run (serverStep threeBytes 10) (cacheInit 10)
      [(getA, pageOfThree), (getA, pageOfThree)] s) ∧
    ∃ s t, Run (serverStep threeBytes 10) (cacheInit 10) [(getA, pageOfThree)] s ∧
      lookupSection 10 4 (text ".//a") s = some (some 0, t) := by
  have hu : serverStep threeBytes 0 (cacheInit 0) (getA, pageOfThree) (cacheInit 0) :=
    serverStep_uncached.2 ⟨threeBytes_uncached, rfl⟩
  constructor
  · refine (caching_transparent (by decide) (by decide) ?_).2 ⟨_, ((Run.nil _).snoc hu).snoc hu⟩
    intro ls₁ l s hp hr
    have hall : ∀ k ∈ ls₁ ++ [l], k.1 = getA := fun k hk => by
      simpa using congrArg Prod.fst (show k = (getA, pageOfThree) by simpa using hp.subset hk)
    have hg := hr.guard (P := fun _ k => k.1 = getA) fun k hk _ => hall k (by simp [hk])
    have honly : OnlyFile threeBytes (text ".//a") s := by
      refine run_inv ?_ hg ⟨_, init_cached (by decide) (by decide), fun _ _ => rfl⟩
      rintro u ⟨input, written⟩ v hu ⟨rfl, hs⟩
      exact hu.step (by decide) threeBytes_readable getA_only hs
    rw [hall l (by simp)]
    exact honly.safe threeBytes_readable getA_only
  · obtain ⟨s, u, r, t, hserved, hins, -, hl⟩ := threeBytes_cached
    refine ⟨u, t, (Run.nil _).snoc ⟨4, 0, 0, doServerRequest_eq.2 ⟨_, s, hserved, ?_⟩⟩, hl⟩
    exact bind_eq_some.2 ⟨r, u, hins, rfl⟩

/-- Serve a request as a step of a server with a cache of ten bytes and no file on disk. -/
def serveMissing (s : Wc) (l : List UInt8 × List UInt8) : Option Wc :=
  match doServerRequest (fun _ => none) 10 4 0 0 l.1 s with
  | some (written, t) => if written = l.2 then some t else none
  | none => none

/-- The page for an empty file, and the error page with that behind it. -/
def emptyPage : List UInt8 := (filePage ⟨text ".//a", [], 0⟩).bytes

def missingPage : List UInt8 :=
  (errorPage (text ".//a") (text "404") (text "Not found")
    (text "OS Web Server could not find this file")).bytes ++ emptyPage

theorem serveMissing_step {l : List UInt8 × List UInt8} (h : serveMissing s l = some t) :
    serverStep (fun _ => none) 10 s l t := by
  unfold serveMissing at h
  split at h
  · rename_i written u hrun
    split_ifs at h with hw
    obtain rfl := Option.some.inj h
    exact ⟨4, 0, 0, hw ▸ hrun⟩
  · cases h

theorem missing_uncached : ¬Uncached (fun _ => none) getA emptyPage := by
  intro h
  generalize hw : emptyPage = written at h
  cases h with
  | refused hi => cases requestInit_unique hi getA_asks
  | @read fuel name rd sent hi hr hs =>
    obtain rfl := Request.asks.inj (requestInit_unique hi getA_asks)
    have hok := requestReadfile_ok hr
    have hret : rd.ret = false := by
      by_contra hne
      obtain ⟨f, hp, -⟩ := (hok.passed (by simpa using hne)).1
      cases hp.found
    obtain ⟨-, r, hv, hr⟩ := hok.failed hret
    rw [requestSendfile_ok hok.sized] at hs
    rw [hr, ← Option.some.inj hs] at hw
    exact hv.append_ne (filePage_valid _) hw.symm

/-- The second request for a file that is not there gets `200 OK` alone. -/
theorem second_miss_differs : ¬∀ (disk : Disk) (m : ℤ) (ls : List (List UInt8 × List UInt8)),
    0 < m → ((∃ s, Run (serverStep disk m) (cacheInit m) ls s) ↔
      ∃ s, Run (serverStep disk 0) (cacheInit 0) ls s) := by
  intro h
  obtain ⟨t, hr, -⟩ := runAll_any serveMissing (cacheInit 10)
    [(getA, missingPage), (getA, emptyPage)] (fun _ => true) (by decide +kernel)
  have hcached := hr.mono fun _ _ _ hs => serveMissing_step hs
  obtain ⟨s, hs⟩ := (h _ 10 _ (by decide)).1 ⟨t, hcached⟩
  have hsplit : Run (serverStep (fun _ => none) 0) (cacheInit 0)
      ([(getA, missingPage)] ++ [(getA, emptyPage)]) s := hs
  obtain ⟨u, -, hlast⟩ := run_concat_iff.1 hsplit
  exact missing_uncached (serverStep_uncached.1 hlast).1

end OSLab.Webserver

import OSLab.Fs.Proof.Lookups

/-!
# Commands that go through directories

`ls` and `lsr` list the entries of a directory, `lsr` those below it as well, and `pwd` climbs from
the current directory to the root. Both load the inodes they come across and give them up again.
-/

namespace OSLab.Fs

open Prog

variable {N : ℤ → Option Node} {W : Set ℤ} {v w : Volume} {s t : Testfs} {n m r : ℤ} {ino : Inode}
  {nd : Node} {name : CString} {args : List CString} {reply : Reply} {entries : CString → Option ℤ}
  {F : Set ℤ} {l l₁ l₂ : List DirSlot} {out : List Byte}

theorem mem_liveSlots : (name, m) ∈ liveSlots l ↔ ⟨name, some m⟩ ∈ l := by
  unfold liveSlots
  rw [List.mem_filterMap]
  constructor
  · rintro ⟨⟨key, val⟩, he, heq⟩
    obtain ⟨k, hk, hpair⟩ := Option.map_eq_some_iff.1 heq
    obtain rfl : val = some k := hk
    obtain ⟨rfl, rfl⟩ := Prod.mk.inj hpair
    exact he
  · intro he
    exact ⟨⟨name, some m⟩, he, rfl⟩

/-- The slots of a directory list its entries. -/
structure Slots (v : Volume) (s : Testfs) (n : ℤ) (l : List DirSlot) : Prop where
  holds : DirHolds (others s.sb (s.dinode n)) l (fileOf s.sb (s.dinode n))
  distinct : SlotTable.Distinct l
  find : ∀ name, SlotTable.find name l = v.entries n name

theorem Slots.enumerates (h : Slots v s n l) : v.Enumerates n (liveSlots l) := by
  refine ⟨liveSlots_nodup h.distinct, fun name m => ?_⟩
  rw [mem_liveSlots, ← SlotTable.find_eq_some h.distinct, h.find]

theorem Slots.looked (h : Slots v s n l) (hl : Looked N W s t) : Slots v t n l := by
  refine ⟨?_, h.distinct, h.find⟩
  rw [hl.sb, hl.dinode]
  exact h.holds

theorem Slots.entry {e : DirSlot} (h : Slots v s n l) (hmem : e ∈ l) (he : e.val = some m) :
    v.entries n e.key = some m := by
  rw [← h.find, SlotTable.find_eq_some h.distinct, ← he]
  exact hmem

theorem Held.dirSlots (h : Held v.node W s) (hd : v.isDir n = true) : ∃ l, Slots v s n l := by
  obtain ⟨l, hl, hdist, hfind⟩ := DirEntries.slots (h.stores.node n _ (Volume.node_of_isDir hd))
  exact ⟨l, hl, hdist, hfind⟩

/-- An entry is read from the inode in memory as from the one on the device. -/
theorem nextDirent_fileOf (hf : s.find n = some ino) (off : ℤ) :
    testfsNextDirent s.sb ino off = testfsNextDirent s.sb (fileOf s.sb (s.dinode n)).ino off :=
  nextDirent_congr (din_of_find hf) off

theorem printName_slot (e : DirSlot) : printName (slotDirent e) = e.key.val :=
  (cname_eq_some (cname_slot e)).1

theorem isProper_slot (e : DirSlot) : (slotDirent e).isProper =
    some (decide (e.key ≠ CString.dot ∧ e.key ≠ CString.dotdot)) := by
  unfold Dirent.isProper
  rw [named_slot, named_slot]
  by_cases hd : e.key = CString.dot
  · rw [decide_eq_true hd]
    simp [hd]
  · rw [decide_eq_false hd]
    by_cases hdd : e.key = CString.dotdot
    · simp [hdd]
    · simp [hd, hdd]

theorem slotDirent_free {e : DirSlot} (he : e.val = none) : (slotDirent e).dInodeNr < 0 := by
  show slotNr e < 0
  rw [slotNr_free he]
  decide

/-- `lsr` lists what is below an entry when it is a directory other than `.` and `..`. -/
theorem slot_descends {e : DirSlot} {recursive down : Bool} {type : ℤ}
    (hnd : v.node m = some nd) (htype : type = iDir ↔ nd.isDir = true)
    (hdown : (if recursive ∧ type = iDir then (slotDirent e).isProper else some false) =
      some down) : down = true ↔ recursive = true ∧ v.isDir m = true ∧ e.key ≠ CString.dot ∧
        e.key ≠ CString.dotdot := by
  rw [isProper_slot] at hdown
  rw [Volume.isDir_of_node hnd, ← htype, ← and_assoc]
  split_ifs at hdown with hx
  · rw [← Option.some.inj hdown, decide_eq_true_iff]
    exact (and_iff_right hx).symm
  · rw [← Option.some.inj hdown]
    exact iff_of_false Bool.false_ne_true fun hy => hx hy.1

/-- **The loop of `ls`** lists the entries from a slot on. -/
theorem testfsLs_lists (hok : v.OK) {recursive : Bool} {fuel : ℕ} {offset : ℤ}
    (h : Held v.node W s) (hl : Slots v s n (l₁ ++ l₂)) (hoff : offset = (dirBytes l₁).length)
    (hr : testfsLs fuel n recursive offset s = some (out, t)) :
    Looked v.node W s t ∧ v.Lists recursive (liveSlots l₂) out := by
  -- the fuel goes down along the slots and into the directories
  induction fuel generalizing s t n l₁ l₂ out offset with
  | zero => cases hr
  | succ fuel ih =>
    subst hoff
    obtain ⟨ino, s₀, hino, hr₁⟩ := bind_eq_some.1 hr
    obtain ⟨hf, rfl⟩ := reads_eq_some.1 hino
    obtain ⟨o, s₁, hreads, hr₂⟩ := bind_eq_some.1 hr₁
    obtain ⟨hnext, rfl⟩ := reads_eq_some.1 hreads
    rw [nextDirent_fileOf hf] at hnext
    cases l₂ with
    | nil =>
      rw [List.append_nil] at hl
      obtain rfl := Option.some.inj ((nextDirent_end hl.holds).symm.trans hnext)
      obtain ⟨rfl, rfl⟩ := pure_eq_some.1 hr₂
      exact ⟨h.looked, .nil⟩
    | cons e l₂ =>
      obtain rfl := Option.some.inj ((nextDirent_slot hl.holds).symm.trans hnext)
      simp only at hr₂
      have hl' : Slots v s₁ n (l₁ ++ [e] ++ l₂) := by
        rw [List.append_assoc]
        exact hl
      have hmem : e ∈ l₁ ++ e :: l₂ := List.mem_append_right _ List.mem_cons_self
      cases he : e.val with
      | none =>
        rw [if_pos (slotDirent_free he)] at hr₂
        have hlive : liveSlots (e :: l₂) = liveSlots l₂ := by
          unfold liveSlots
          rw [List.filterMap_cons_none (by rw [he]; rfl)]
        rw [hlive]
        exact ih h hl' rfl hr₂
      | some m =>
        have hnr : (slotDirent e).dInodeNr = m := slotNr_live he
        have h0 := (hl.holds.numbers e hmem m he).1
        have hlive : liveSlots (e :: l₂) = (e.key, m) :: liveSlots l₂ := by
          unfold liveSlots
          rw [List.filterMap_cons_some (by rw [he]; rfl)]
        obtain ⟨nd, hnd⟩ := Option.isSome_iff_exists.1 (hok.target _ _ _ (hl.entry hmem he))
        rw [hnr, if_neg (not_lt.2 h0)] at hr₂
        obtain ⟨_, s₂, hget, hr₃⟩ := bind_eq_some.1 hr₂
        obtain ⟨hlook₂, cin, hcin, -, htype⟩ := h.load hnd hget
        rw [bind_of_run (inode_run hcin)] at hr₃
        obtain ⟨down, s₃, hproper, hr₄⟩ := bind_eq_some.1 hr₃
        obtain ⟨hdown, rfl⟩ := reads_eq_some.1 hproper
        obtain ⟨below, s₄, hbelow, hr₅⟩ := bind_eq_some.1 hr₄
        obtain ⟨_, s₅, hput, hr₆⟩ := bind_eq_some.1 hr₅
        obtain ⟨rest, s₆, hrest, hr₇⟩ := bind_eq_some.1 hr₆
        obtain ⟨rfl, rfl⟩ := pure_eq_some.1 hr₇
        rw [hlive]
        have hdir : v.isDir m = nd.isDir := Volume.isDir_of_node hnd
        have hline : printName (slotDirent e) ++ (if cin.din.iType = iDir then [slash] else []) ++
            [newline] = v.line (e.key, m) := by
          unfold Volume.line
          rw [printName_slot, hdir]
          by_cases hd : nd.isDir = true
          · rw [if_pos hd, if_pos (htype.2 hd)]
          · rw [if_neg hd, if_neg fun hx => hd (htype.1 hx)]
        have hdown' := slot_descends hnd htype hdown
        rw [hline]
        cases down with
        | true =>
          rw [if_pos rfl] at hbelow
          have hcond := hdown'.1 rfl
          obtain ⟨l', hl₂⟩ := hlook₂.held.dirSlots hcond.2.1
          have hl₂' : Slots v s₃ m ([] ++ l') := hl₂
          obtain ⟨hlook₄, hlists⟩ := ih hlook₂.held hl₂' rfl hbelow
          have hlook := (hlook₂.trans hlook₄).trans (hlook₄.held.putInode hput)
          obtain ⟨hlook₆, hrest⟩ := ih hlook.held (hl'.looked hlook) rfl hrest
          exact ⟨hlook.trans hlook₆, .down hcond hl₂.enumerates hlists hrest⟩
        | false =>
          rw [if_neg Bool.false_ne_true] at hbelow
          obtain ⟨rfl, rfl⟩ := pure_eq_some.1 hbelow
          have hlook := hlook₂.trans (hlook₂.held.putInode hput)
          obtain ⟨hlook₆, hrest⟩ := ih hlook.held (hl'.looked hlook) rfl hrest
          rw [List.append_nil]
          exact ⟨hlook.trans hlook₆,
            .entry (fun hx => Bool.false_ne_true (hdown'.2 hx)) hrest⟩

/-- `ls` and `lsr`, but not of a file. -/
theorem cmdLs_does (h : Rests v s) {recursive : Bool} {fuel : ℕ} {c : Command}
    (hc : c = ⟨if recursive then .lsr else .ls, args⟩) (hfile : ¬ListsFile s args)
    (hr : cmdLsInternal fuel args recursive s = some (reply, t)) : Does v c reply t := by
  subst hc
  rcases args with _ | ⟨name, _ | ⟨b, l⟩⟩
  · obtain ⟨rfl, rfl⟩ := pure_eq_some.1 hr
    cases recursive <;> exact .look h h.held.looked (.invalid trivial)
  · obtain ⟨r, s₁, hlook, hr₁⟩ := bind_eq_some.1 hr
    obtain ⟨hs, hres⟩ := h.lookupCur hlook
    subst hs
    rcases hres with ⟨hl, rfl⟩ | ⟨nd, hl, hnd, h0⟩
    · obtain ⟨rfl, rfl⟩ := pure_eq_some.1 hr₁
      cases recursive <;> exact .look h h.held.looked (.missing (fun hx => hx) rfl hl)
    rw [if_neg (not_lt.2 h0)] at hr₁
    obtain ⟨_, s₂, hget, hr₂⟩ := bind_eq_some.1 hr₁
    obtain ⟨hlook₂, ino, hf, hdin, htype⟩ := h.held.load hnd hget
    rw [bind_of_run (inode_run hf)] at hr₂
    split_ifs at hr₂ with hd
    · obtain ⟨out, s₃, hls, hr₃⟩ := bind_eq_some.1 hr₂
      obtain ⟨_, s₄, hput, hr₄⟩ := bind_eq_some.1 hr₃
      obtain ⟨rfl, rfl⟩ := pure_eq_some.1 hr₄
      have hdir : v.isDir r = true := by
        rw [Volume.isDir_of_node hnd]
        exact htype.1 hd
      obtain ⟨l, hslots⟩ := hlook₂.held.dirSlots hdir
      have hslots' : Slots v s₂ r ([] ++ l) := hslots
      obtain ⟨hlook₃, hlists⟩ := testfsLs_lists h.ok hlook₂.held hslots' rfl hls
      have hlook := (hlook₂.trans hlook₃).trans (hlook₃.held.putInode hput)
      cases recursive with
      | false => exact .look h hlook (.ls (Or.inl rfl) hl hdir hslots.enumerates hlists)
      | true => exact .look h hlook (.ls (Or.inr rfl) hl hdir hslots.enumerates hlists)
    · -- the inode of a file is not given up
      obtain ⟨cur, hcur⟩ := h.find_cur
      have hname := h.held.lookup hcur h.node_cur name
      rw [← h.cur] at hname
      unfold Volume.lookup at hl
      rw [hl] at hname
      exact absurd ⟨name, cur, r, rfl, hcur, hname, h0, hdin ▸ hd⟩ hfile
  · obtain ⟨rfl, rfl⟩ := pure_eq_some.1 hr
    cases recursive <;> exact .look h h.held.looked (.invalid trivial)

/-! ### `pwd` -/

/-- The entry that `testfs_find_dirent` finds. -/
theorem findDirent_slot {f : FileState} {d : Dirent} (h : DirHolds F l f) (hn : 0 ≤ n)
    (hr : testfsFindDirent f.sb f.ino n = some (some d)) : ∃ e ∈ l, d = slotDirent e ∧ e.val = some n := by
  have hds : direntsFrom f.sb f.ino.din (l.length + 1) 0 = some (l.map slotDirent) :=
    direntsFrom_slots (show DirHolds F ([] ++ l) f from h)
  unfold testfsFindDirent at hr
  rw [if_neg (not_lt.2 hn)] at hr
  have hscan : (testfsScan f.sb f.ino (fun _ => numberVisit n) 0).map Sum.getLeft? = _ :=
    scan_dirents hds
  have hhit := hscan.symm.trans hr
  clear hr hds h hscan
  induction l with
  | nil => cases hhit
  | cons e l ih =>
    rw [List.map_cons] at hhit
    unfold firstHit numberVisit at hhit
    by_cases he : (slotDirent e).dInodeNr = n
    · rw [if_pos he] at hhit
      obtain rfl := Option.some.inj (Option.some.inj hhit)
      refine ⟨e, List.mem_cons_self, rfl, ?_⟩
      have hnr : slotNr e = n := he
      cases hv : e.val with
      | none =>
        rw [slotNr_free hv] at hnr
        omega
      | some m => rw [← hnr, slotNr_live hv]
    · rw [if_neg he] at hhit
      obtain ⟨e', hmem, hd, hv⟩ := ih hhit
      exact ⟨e', List.mem_cons_of_mem _ hmem, hd, hv⟩

/-- What `..` is: the root itself, or the directory above. -/
theorem Volume.OK.up_cases (h : v.OK) (hd : v.isDir n = true) :
    (n = 0 ∧ v.entries n CString.dotdot = some 0) ∨
      ∃ p m, v.Child p m n ∧ v.entries n CString.dotdot = some p ∧ p ≠ n := by
  obtain ⟨ns, hr, -⟩ := h.tree.path n (Volume.isSome_of_isDir hd)
  cases hr with
  | nil => exact Or.inl ⟨rfl, h.rootUp⟩
  | snoc _ he => exact Or.inr ⟨_, _, he, h.up _ _ _ he hd, h.tree.edge_ne (h.edge _ _ _ he).1 he⟩

/-- An entry in the directory above is a proper one. -/
theorem Volume.OK.child_of_entry {p : ℤ} {name' : CString} (h : v.OK) (hc : v.Child p name' n)
    (he : v.entries p name = some n) : v.Child p name n := by
  have hp := (h.edge _ _ _ hc).1
  have hne := h.tree.edge_ne hp hc
  have hd := Volume.isDir_of_entry he
  refine ⟨he, ?_, ?_⟩
  · rintro rfl
    rw [h.dot p hd] at he
    exact hne (Option.some.inj he)
  · rintro rfl
    rcases h.up_cases hd with ⟨rfl, h0⟩ | ⟨q, m, hq, hdd, -⟩
    · rw [h0] at he
      exact hne (Option.some.inj he)
    · rw [hdd] at he
      obtain rfl := Option.some.inj he
      exact h.tree.edge_not_back hp hc hq

/-- **The climb of `pwd`** prints the path from the root. -/
theorem testfsPwd_path (hok : v.OK) {fuel : ℕ} (h : Held v.node W s) (hd : v.isDir n = true)
    (hr : testfsPwd fuel n s = some ((r, out), t)) :
    Looked v.node W s t ∧ ∃ ns, Run v.Child 0 ns n ∧ out = printPath ns ∧ (r = 1 ↔ ns = []) := by
  -- each turn goes one directory up
  induction fuel generalizing s t n r out with
  | zero => cases hr
  | succ fuel ih =>
    obtain ⟨ino, s₀, hino, hr₁⟩ := bind_eq_some.1 hr
    obtain ⟨hf, rfl⟩ := reads_eq_some.1 hino
    obtain ⟨p, s₁, hreads, hr₂⟩ := bind_eq_some.1 hr₁
    obtain ⟨hup, rfl⟩ := reads_eq_some.1 hreads
    rw [h.lookup hf (Volume.node_of_isDir hd)] at hup
    obtain ⟨_, s₂, hreq, hr₃⟩ := bind_eq_some.1 hr₂
    obtain ⟨h0, rfl⟩ := require_eq_some.1 hreq
    rcases hok.up_cases hd with ⟨rfl, hdd⟩ | ⟨q, m, hc, hdd, hne⟩
    · -- the root
      rw [hdd] at hup
      obtain rfl : 0 = p := Option.some.inj hup
      rw [if_pos rfl] at hr₃
      obtain ⟨hx, rfl⟩ := pure_eq_some.1 hr₃
      obtain ⟨rfl, rfl⟩ := Prod.mk.inj hx
      exact ⟨h.looked, [], .nil 0, rfl, iff_of_true rfl rfl⟩
    · rw [hdd] at hup
      obtain rfl : q = p := Option.some.inj hup
      rw [if_neg hne] at hr₃
      have hdq := Volume.isDir_of_entry hc.1
      obtain ⟨_, s₃, hget, hr₄⟩ := bind_eq_some.1 hr₃
      obtain ⟨hlook₃, pIn, hpIn, -, -⟩ := h.load (Volume.node_of_isDir hdq) hget
      rw [bind_of_run (inode_run hpIn)] at hr₄
      obtain ⟨o, s₄, hreads, hr₅⟩ := bind_eq_some.1 hr₄
      obtain ⟨hfind, rfl⟩ := reads_eq_some.1 hreads
      cases o with
      | none => cases hr₅
      | some d =>
        simp only at hr₅
        obtain ⟨⟨r', out'⟩, s₅, hrec, hr₆⟩ := bind_eq_some.1 hr₅
        obtain ⟨_, s₆, hput, hr₇⟩ := bind_eq_some.1 hr₆
        obtain ⟨hx, rfl⟩ := pure_eq_some.1 hr₇
        obtain ⟨rfl, rfl⟩ := Prod.mk.inj hx
        obtain ⟨hlook₅, ns, hrun, rfl, hr'⟩ := ih hlook₃.held hdq hrec
        have hlook := (hlook₃.trans hlook₅).trans (hlook₅.held.putInode hput)
        obtain ⟨l, hl, hdist, hslot⟩ := hlook₃.held.slots hpIn (Volume.node_of_isDir hdq)
        have hn0 := (h.stores.range n (Volume.isSome_of_isDir hd)).1
        obtain ⟨e, he, rfl, hv⟩ := findDirent_slot hl hn0 hfind
        have hentry : v.entries q e.key = some n := by
          rw [← hslot, SlotTable.find_eq_some hdist, ← hv]
          exact he
        refine ⟨hlook, ns ++ [e.key], hrun.snoc (hok.child_of_entry hc hentry), ?_, ?_⟩
        · rw [printPath_snoc, printName_slot]
          simp only [hr']
        · exact iff_of_false (by decide) (List.append_ne_nil_of_right_ne_nil _ (List.cons_ne_nil _ _))

theorem cmdPwd_does (h : Rests v s) {fuel : ℕ} (hr : cmdPwd fuel args s = some (reply, t)) :
    Does v ⟨.pwd, args⟩ reply t := by
  rcases args with _ | ⟨b, l⟩
  · unfold cmdPwd at hr
    simp only at hr
    rw [bind_of_run (getState_run s)] at hr
    obtain ⟨⟨r, out⟩, s₁, hpwd, hr₁⟩ := bind_eq_some.1 hr
    obtain ⟨rfl, rfl⟩ := pure_eq_some.1 hr₁
    rw [← h.cur] at hpwd
    obtain ⟨hlook, ns, hrun, rfl, -⟩ := testfsPwd_path h.ok h.held h.ok.curDir hpwd
    exact .look h hlook (.pwd hrun)
  · obtain ⟨rfl, rfl⟩ := pure_eq_some.1 hr
    exact .look h h.held.looked (.invalid trivial)

end OSLab.Fs

import OSLab.Fs.Proof.Listing

/-!
# Commands that change the volume

`write` stores bytes of a file, `create` and `mkdir` add a node and its entry, and `rm` removes
both. Each is followed through the intermediate states in which the inodes of `W` are still to be
written back; at its end none is.
-/

namespace OSLab.Fs

open Prog

variable {N : ℤ → Option Node} {W : Set ℤ} {v w : Volume} {s t : Testfs} {n m r : ℤ} {ino : Inode}
  {nd : Node} {name : CString} {args : List CString} {reply : Reply} {entries : CString → Option ℤ}
  {F : Set ℤ} {f g : FileState} {k p size : ℕ} {bytes : ℕ → Option Byte} {buf : Buf}

/-! ### `write` -/

/-- **The bytes of a write are stored**, and the others stay. -/
theorem FileHolds.wrote {data : CString} (h : FileHolds F k bytes f)
    (hw : Wrote F f (Buf.ofList data.bytes) p data.length g) (hpos : 0 < data.length)
    (hmax : p + data.length ≤ maxFileSize) :
    FileHolds F (max k (p + data.length)) (Node.overwrite bytes p data.val) g := by
  refine ⟨hw.file, hw.shaped h.shaped hpos hmax, hw.iType.trans h.iType, ?_, fun q b hb => ?_⟩
  · rw [hw.iSize, h.iSize]
    omega
  · unfold Node.overwrite at hb
    split_ifs at hb with hq
    · obtain ⟨hmap, hget⟩ := hw.inside q hq.1 hq.2
      refine ⟨hmap, Option.some.inj (hget.symm.trans ?_)⟩
      have hlt : q - p < data.val.length := by
        have hlen : data.val.length = data.length := rfl
        omega
      show (data.val ++ [0])[q - p]? = some b
      rw [List.getElem?_append_left hlt]
      exact hb
    · obtain ⟨hmap, hcontent⟩ := h.stored q b hb
      obtain ⟨hmap', hcontent'⟩ := hw.outside q hq hmap
      exact ⟨hmap', hcontent'.trans hcontent⟩

/-- A write that succeeds returns how much it has written. -/
theorem writeData_returns (h : FileOK F f) (hmax : p + size ≤ maxFileSize) (hsize : size < 2 ^ 31)
    (hr : testfsWriteData buf p size f = some (r, g)) (h0 : 0 ≤ r) : r = size := by
  obtain ⟨hL, -⟩ := start_block hmax
  have hwp : wp True (testfsWriteData buf p size) _ f :=
    writeData_ok h (Int.natCast_nonneg p) (Int.natCast_nonneg size) hL (Or.inl trivial)
  rcases hwp.of_run hr with ⟨hret, -⟩ | ⟨l, s₂, -, -, ⟨s₁, -, hst⟩, -⟩
  · rw [hret, toInt32_of_lt (by omega) (by omega)]
  · exact absurd h0 hst.neg.not_ge

theorem cmdWrite_does (h : Rests v s) (hin : (⟨.write, args⟩ : Command).InRange s)
    (hr : cmdWrite args s = some (reply, t)) (hsp : reply.1 ≠ -enospc) :
    Does v ⟨.write, args⟩ reply t := by
  rcases args with _ | ⟨name, _ | ⟨offset, _ | ⟨data, _ | ⟨b, l⟩⟩⟩⟩
  · obtain ⟨rfl, rfl⟩ := pure_eq_some.1 hr
    exact .look h h.held.looked (.invalid trivial)
  · obtain ⟨rfl, rfl⟩ := pure_eq_some.1 hr
    exact .look h h.held.looked (.invalid trivial)
  · obtain ⟨rfl, rfl⟩ := pure_eq_some.1 hr
    exact .look h h.held.looked (.invalid trivial)
  · unfold cmdWrite at hr
    rcases offset_cases offset with ⟨hbad, ho | ⟨o, hneg, ho⟩⟩ | ⟨p, ho⟩
    · simp only [ho] at hr
      obtain ⟨rfl, rfl⟩ := pure_eq_some.1 hr
      exact .look h h.held.looked (.invalid hbad)
    · simp only [ho, if_pos hneg] at hr
      obtain ⟨rfl, rfl⟩ := pure_eq_some.1 hr
      exact .look h h.held.looked (.invalid hbad)
    simp only [ho, if_neg (not_lt.2 (Int.natCast_nonneg p))] at hr
    have hvalid : ¬(⟨.write, [name, offset, data]⟩ : Command).Invalid := fun hx => hx p ho
    obtain ⟨r, s₁, hget, hr₁⟩ := bind_eq_some.1 hr
    obtain ⟨hlook, ⟨hl, rfl⟩ | ⟨n, hl, hd, rfl⟩ | ⟨h0, hl, k, bytes, ino, hnd, hf, hfile⟩⟩ :=
      h.getFileInode hget
    · obtain ⟨rfl, rfl⟩ := pure_eq_some.1 hr₁
      exact .look h hlook (.missing hvalid rfl hl)
    · obtain ⟨rfl, rfl⟩ := pure_eq_some.1 hr₁
      exact .look h hlook (.onDir (Or.inr rfl) hvalid rfl hl hd)
    rw [if_neg (not_lt.2 h0)] at hr₁
    obtain ⟨ret, s₂, hwrite, hr₂⟩ := bind_eq_some.1 hr₁
    obtain ⟨_, s₃, hsync, hr₃⟩ := bind_eq_some.1 hr₂
    obtain ⟨_, s₄, hput, hr₄⟩ := bind_eq_some.1 hr₃
    obtain ⟨rfl, rfl⟩ := pure_eq_some.1 hr₄
    obtain ⟨ino', g, hf', hrun, hs₂⟩ := onInode_cases hwrite
    obtain rfl := Option.some.inj (hf.symm.trans hf')
    obtain rfl : s₂ = s₁.wrote r g := hs₂
    obtain ⟨hpos, hlt, hmax⟩ := hin p ho
    rw [blockSize_eq] at hlt
    by_cases hret : ret < 0
    · exact absurd (writeData_error hfile.file hmax hpos (by omega) hrun hret).1 hsp
    have hwrote := writeData_wrote hfile.file hmax hpos (by omega) hrun (not_lt.1 hret)
    obtain rfl := writeData_returns hfile.file hmax (by omega) hrun (not_lt.1 hret)
    have hnew := hfile.wrote hwrote hpos hmax
    rw [← hlook.sb, ← hlook.dinode] at hwrote hnew
    have hnode : NodeHolds (others s₁.sb (s₁.dinode r)) g
      (.file (max k (p + data.length)) (Node.overwrite bytes p data.val)) := hnew
    have hheld := hlook.held.wrote hf hnd hwrote.frame hnode
    obtain ⟨hheld₃, hcur₃, -⟩ := hheld.syncInode hsync
    have hlook₄ := hheld₃.putInode hput
    refine ⟨_, .write ho hl hnd, hlook₄.held.mono ?_, ?_⟩
    · rintro x ⟨hx | hx, hne⟩
      · exact hne hx
      · exact hx
    · exact h.cur.trans (hlook.curDir.symm.trans (hcur₃.symm.trans hlook₄.curDir.symm))
  · obtain ⟨rfl, rfl⟩ := pure_eq_some.1 hr
    exact .look h h.held.looked (.invalid trivial)

/-! ### Entries of a directory -/

variable {l : List DirSlot}

/-- An entry that is added makes the directory longer by its own length at most. -/
theorem addDirent_size (h : DirHolds F l f) (hfree : SlotTable.find name l = none)
    (hr : testfsAddDirent name m f = some (r, g)) (h0 : 0 ≤ r) :
    g.ino.din.iSize ≤ f.ino.din.iSize + name.length + 9 := by
  rcases addDirent_cases h hfree hr with ⟨-, he⟩ | ⟨l₁, old, l₂, hl, -, -, -, hlt, hw⟩
  · rw [he] at h0
    exact absurd h0 (by decide)
  have hlen := length_slotBytes ⟨name, some m⟩
  have hkey : (⟨name, some m⟩ : DirSlot).key.length = name.length := rfl
  have hd : direntSize = 8 := rfl
  rw [hkey, hd] at hlen
  have hs := h.small
  have hsize := h.iSize
  rw [hl, dirBytes_splice, List.length_append, List.length_append] at hs hsize
  have hmax : (dirBytes l₁).length + (slotBytes ⟨name, some m⟩).length ≤ maxFileSize := by
    rw [maxFileSize_eq]
    omega
  have hgrow := writeData_iSize h.file hmax (by omega) hw h0
  rw [hgrow]
  push_cast at hsize
  refine max_le ?_ ?_ <;> omega

namespace Held

/-- The account of an update of one inode: the volume, and what stays. -/
structure Changed (N : ℤ → Option Node) (W : Set ℤ) (n : ℤ) (s t : Testfs) : Prop where
  held : Held N W t
  curDir : t.curDir = s.curDir
  dinode : ∀ x : ℤ, 0 ≤ x ∧ x < maxInodes → x ≠ n → t.dinode x = s.dinode x

/-- **An entry is added** to a directory. -/
theorem addDirent (h : Held N W s) (hN : N n = some (.dir entries)) (hfree : entries name = none)
    (hm : m < 2 ^ 31) (hr : onInode n (testfsAddDirent name m) s = some (r, t)) (h0 : 0 ≤ r)
    (hsmall : (t.dinode n).iSize < 2 ^ 31) :
    Changed (Function.update N n (some (.dir (Function.update entries name (some m))))) (insert n W)
      n s t := by
  obtain ⟨ino, g, hf, hrun, ht⟩ := onInode_cases hr
  obtain rfl : t = s.wrote n g := ht
  obtain ⟨l, hl, hdist, hfind⟩ := h.slots hf hN
  have hfree' : SlotTable.find name l = none := (hfind name).trans hfree
  rw [← din_of_find (wrote_find hf)] at hsmall
  obtain ⟨hframe, hshape⟩ := addDirent_keeps hl hfree' hrun h0 hsmall
  have hnew := addDirent_ok hl hfree' hm hrun h0 hsmall
  have hdir : NodeHolds (others s.sb (s.dinode n)) g
      (.dir (Function.update entries name (some m))) := by
    refine ⟨hshape (h.node hf hN).shaped, _, hnew, hdist.put hfree', fun c => ?_⟩
    rw [SlotTable.find_put hfree', hfind, Function.update_apply]
  refine ⟨h.wrote hf hN hframe hdir, rfl, fun x hx hne => ?_⟩
  rw [wrote_dinode hframe rfl h.stores.super hnew.file.super hf hx, if_neg hne]

/-- How much longer the directory is. -/
theorem addDirent_iSize (h : Held N W s) (hN : N n = some (.dir entries))
    (hfree : entries name = none) (hr : onInode n (testfsAddDirent name m) s = some (r, t))
    (h0 : 0 ≤ r) : (t.dinode n).iSize ≤ (s.dinode n).iSize + name.length + 9 := by
  obtain ⟨ino, g, hf, hrun, ht⟩ := onInode_cases hr
  obtain rfl : t = s.wrote n g := ht
  obtain ⟨l, hl, -, hfind⟩ := h.slots hf hN
  rw [← din_of_find (wrote_find hf), ← din_of_find hf]
  exact addDirent_size hl ((hfind name).trans hfree) hrun h0

/-- An entry that is not added: the file system is full. -/
theorem addDirent_refused (h : Held N W s) (hN : N n = some (.dir entries))
    (hfree : entries name = none) (hname : name.length < 2 ^ 31 - 9)
    (hr : onInode n (testfsAddDirent name m) s = some (r, t)) (hneg : r < 0) : r = -enospc := by
  obtain ⟨ino, g, hf, hrun, -⟩ := onInode_cases hr
  obtain ⟨l, hl, -, hfind⟩ := h.slots hf hN
  exact (addDirent_error hl ((hfind name).trans hfree) hname hrun hneg).1

end Held

/-! ### `create` and `mkdir` -/

theorem createUndo_returns {j : ℕ} {ret : ℤ} (hr : createUndo j ret s = some (r, t)) : r = ret := by
  obtain ⟨_, s₁, -, hr₁⟩ := bind_eq_some.1 hr
  exact (pure_eq_some.1 hr₁).1.symm

/-- **A new directory** gets its two entries. -/
theorem createEmptyDir_ok {j : ℕ} (h : Held N W s) (hN : N j = some (.dir fun _ => none))
    (hsize : (s.dinode j).iSize = 0) (hj : (j : ℤ) < maxInodes) (hp : n < 2 ^ 31)
    (hr : testfsCreateEmptyDir n j s = some (r, t)) (hsp : r ≠ -enospc) :
    r = 0 ∧ Held.Changed (Function.update N j (some (.newDir j n))) (insert (j : ℤ) W) j s t := by
  have hm : maxInodes = 16384 := rfl
  have hdot : CString.dot.length = 1 := rfl
  have hdotdot : CString.dotdot.length = 2 := rfl
  unfold testfsCreateEmptyDir at hr
  obtain ⟨r₁, s₁, hadd₁, hr₁⟩ := bind_eq_some.1 hr
  split_ifs at hr₁ with hneg
  · obtain ⟨rfl, rfl⟩ := pure_eq_some.1 hr₁
    exact absurd (h.addDirent_refused hN rfl (by omega) hadd₁ hneg) hsp
  have hsize₁ := h.addDirent_iSize hN rfl hadd₁ (not_lt.1 hneg)
  rw [hsize, hdot] at hsize₁
  have hch₁ := h.addDirent hN rfl (by omega) hadd₁ (not_lt.1 hneg) (by omega)
  obtain ⟨r₂, s₂, hadd₂, hr₂⟩ := bind_eq_some.1 hr₁
  have hN₁ : Function.update N j (some (Node.dir
      (Function.update (fun _ => none) CString.dot (some (j : ℤ))))) j = some (.dir _) :=
    Function.update_self ..
  have hfree : Function.update (fun _ => none) CString.dot (some (j : ℤ)) CString.dotdot = none :=
    Function.update_of_ne (by decide) ..
  split_ifs at hr₂ with hneg₂
  · obtain ⟨_, s₃, -, hr₃⟩ := bind_eq_some.1 hr₂
    obtain ⟨rfl, -⟩ := pure_eq_some.1 hr₃
    exact absurd (hch₁.held.addDirent_refused hN₁ hfree (by omega) hadd₂ hneg₂) hsp
  obtain ⟨rfl, rfl⟩ := pure_eq_some.1 hr₂
  have hsize₂ := hch₁.held.addDirent_iSize hN₁ hfree hadd₂ (not_lt.1 hneg₂)
  rw [hdotdot] at hsize₂
  have hch₂ := hch₁.held.addDirent hN₁ hfree hp hadd₂ (not_lt.1 hneg₂) (by omega)
  have hentries : Function.update (Function.update (fun _ => none) CString.dot (some (j : ℤ)))
      CString.dotdot (some n) = (Node.newDir j n).entries := by
    funext c
    rw [Node.newDir_entries, Function.update_apply, Function.update_apply]
    by_cases hd : c = CString.dot
    · rw [if_pos hd, hd, if_neg (by decide), if_pos rfl]
    · rw [if_neg hd, if_neg hd]
  have hheld := hch₂.held
  rw [Function.update_idem, hentries, Set.insert_idem] at hheld
  refine ⟨rfl, hheld, hch₂.curDir.trans hch₁.curDir, fun x hx hne => ?_⟩
  rw [hch₂.dinode x hx hne, hch₁.dinode x hx hne]

/-- **The entry of a new node**, after which both inodes are written back. -/
theorem createEntry_ok {j : ℕ} (h : Held N W s) (hN : N n = some (.dir entries))
    (hfree : entries name = none) (hj : (j : ℤ) < maxInodes)
    (hroom : (s.dinode n).iSize + name.length + 9 < 2 ^ 31)
    (hr : createEntry (some (n, name)) j s = some (r, t)) (hsp : r ≠ -enospc) :
    r = 0 ∧ Held (Function.update N n (some (.dir (Function.update entries name (some (j : ℤ))))))
      (W \ {(j : ℤ)}) t ∧ t.curDir = s.curDir := by
  have hm : maxInodes = 16384 := rfl
  have hsize := (h.stores.node n _ hN).shaped.nonneg
  have hname : name.length < 2 ^ 31 - 9 := by
    have hroom' : (fileOf s.sb (s.dinode n)).ino.din.iSize + name.length + 9 < 2 ^ 31 := hroom
    omega
  obtain ⟨ret, s₁, hadd, hr₁⟩ := bind_eq_some.1 hr
  split_ifs at hr₁ with hneg
  · obtain rfl := createUndo_returns hr₁
    exact absurd (h.addDirent_refused hN hfree hname hadd hneg) hsp
  obtain ⟨_, s₂, hsync₁, hr₂⟩ := bind_eq_some.1 hr₁
  obtain ⟨_, s₃, hsync₂, hr₃⟩ := bind_eq_some.1 hr₂
  obtain ⟨_, s₄, hput, hr₄⟩ := bind_eq_some.1 hr₃
  obtain ⟨rfl, rfl⟩ := pure_eq_some.1 hr₄
  have hlonger := h.addDirent_iSize hN hfree hadd (not_lt.1 hneg)
  have hch := h.addDirent hN hfree (by omega) hadd (not_lt.1 hneg) (by omega)
  obtain ⟨hheld₂, hcur₂, -⟩ := hch.held.syncInode hsync₁
  obtain ⟨hheld₃, hcur₃, -⟩ := hheld₂.syncInode hsync₂
  have hlook₄ := hheld₃.putInode hput
  refine ⟨rfl, hlook₄.held.mono ?_, ?_⟩
  · rintro x ⟨⟨hx, hne⟩, hnj⟩
    exact ⟨hx.resolve_left hne, hnj⟩
  · rw [hlook₄.curDir, hcur₃, hcur₂, hch.curDir]

theorem Volume.node_link_eq (hne : n ≠ v.cur) : (v.link name n nd).node =
    Function.update (Function.update v.node n (some nd)) v.cur
      (some (.dir (Function.update (v.entries v.cur) name (some n)))) := by
  have hcur : (v.set n (some nd)).cur = v.cur := rfl
  unfold link setEntry
  rw [hcur, entries_set_of_ne v _ hne.symm]
  rfl

namespace Rests

variable {u : Testfs} {j : ℕ}

/-- **A new node is linked** into the current directory. -/
theorem createEntry (h : Rests v s) (hu : Held (Function.update v.node j (some nd)) {(j : ℤ)} u)
    (hj : v.node j = none) (hlt : (j : ℤ) < maxInodes) (hcur : u.curDir = s.curDir)
    (hdin : u.dinode s.curDir = s.dinode s.curDir) (hl : v.lookup name = none)
    (hroom : (s.dinode s.curDir).iSize + name.length + 9 < 2 ^ 31)
    (hr : Fs.createEntry (some (s.curDir, name)) j u = some (r, t)) (hsp : r ≠ -enospc) :
    r = 0 ∧ t.curDir = s.curDir ∧ Held (v.link name j nd).node ∅ t := by
  have hne : (j : ℤ) ≠ v.cur := by
    intro hx
    rw [hx, h.cur, h.node_cur] at hj
    cases hj
  have hN : Function.update v.node j (some nd) s.curDir = some (.dir (v.entries s.curDir)) :=
    (Function.update_of_ne (h.cur ▸ hne.symm) ..).trans h.node_cur
  have hfree : v.entries s.curDir name = none := by
    rw [← h.cur]
    exact hl
  rw [← hdin] at hroom
  obtain ⟨h0, hheld, hcur'⟩ := createEntry_ok hu hN hfree hlt hroom hr hsp
  refine ⟨h0, hcur'.trans hcur, ?_⟩
  rw [Volume.node_link_eq hne, h.cur]
  exact hheld.mono fun x hx => absurd hx.1 hx.2

/-- **A new file or directory**, whose name is not there yet. -/
theorem createInode (h : Rests v s) {type : ℤ} (htype : type = iFile ∨ type = iDir)
    (hl : v.lookup name = none) (hroom : (s.dinode s.curDir).iSize + name.length + 9 < 2 ^ 31)
    (hr : Fs.createInode (some (s.curDir, name)) type s = some (r, t))
    (hsp : r ≠ -enospc) : r = 0 ∧ t.curDir = s.curDir ∧ ∃ j, v.node j = none ∧
      Held (v.link name j (if type = iDir then .newDir j v.cur else .newFile)).node ∅ t := by
  obtain ⟨res, s₁, hcreate, hr₁⟩ := bind_eq_some.1 hr
  cases res with
  | error e =>
    obtain ⟨rfl, rfl⟩ := pure_eq_some.1 hr₁
    exact absurd (createInode_error h.held hcreate) hsp
  | ok j =>
    simp only at hr₁
    have hcurR := h.held.stores.range s.curDir (by rw [h.node_cur]; rfl)
    have hsingle : insert (j : ℤ) ∅ ⊆ ({(j : ℤ)} : Set ℤ) := fun x hx => hx.resolve_right fun hx => hx
    have hm : maxInodes = 16384 := rfl
    rcases htype with rfl | rfl
    · rw [if_neg (by decide)] at hr₁
      obtain ⟨hheld, hj, hcur, -, -, hdin⟩ := h.held.createInode (fun _ hok => newFile_holds hok)
        hcreate
      have hjr := hheld.stores.range j (by rw [Function.update_self]; rfl)
      have hne : s.curDir ≠ j := fun hx => by rw [← hx, h.node_cur] at hj; cases hj
      obtain ⟨h0, hcur', hlink⟩ := h.createEntry (hheld.mono hsingle) hj hjr.2 hcur
        (hdin _ hcurR hne) hl hroom hr₁ hsp
      refine ⟨h0, hcur', j, hj, ?_⟩
      rw [if_neg (by decide)]
      exact hlink
    · rw [if_pos rfl] at hr₁
      obtain ⟨hheld, hj, hcur, hnew, -, hdin⟩ := h.held.createInode (fun _ hok => emptyDir_holds hok)
        hcreate
      have hjr := hheld.stores.range j (by rw [Function.update_self]; rfl)
      have hne : s.curDir ≠ j := fun hx => by rw [← hx, h.node_cur] at hj; cases hj
      obtain ⟨ret, s₂, hempty, hr₂⟩ := bind_eq_some.1 hr₁
      have hN := Function.update_self (j : ℤ) (some (Node.dir fun _ => none)) v.node
      have hsize : (s₁.dinode j).iSize = 0 := by
        rw [hnew]
        rfl
      have hspace : ret ≠ -enospc := by
        rintro rfl
        rw [if_pos (by decide)] at hr₂
        exact hsp (createUndo_returns hr₂)
      obtain ⟨rfl, hch⟩ := createEmptyDir_ok hheld hN hsize hjr.2 (n := s.curDir) (by omega) hempty hspace
      rw [if_neg (by decide)] at hr₂
      have hheld₂ := hch.held
      rw [Function.update_idem, Set.insert_idem] at hheld₂
      have hdin₂ : s₂.dinode s.curDir = s.dinode s.curDir := by
        rw [hch.dinode _ hcurR hne, hdin _ hcurR hne]
      obtain ⟨h0, hcur', hlink⟩ := h.createEntry (hheld₂.mono hsingle) hj hjr.2
        (hch.curDir.trans hcur) hdin₂ hl hroom hr₂ hsp
      rw [← h.cur] at hlink
      refine ⟨h0, hcur', j, hj, ?_⟩
      rw [if_pos rfl]
      exact hlink

end Rests

theorem cmdCreate_does (h : Rests v s) {type : ℤ} {c : Command}
    (hc : type = iFile ∧ c = ⟨.create, args⟩ ∨ type = iDir ∧ c = ⟨.mkdir, args⟩)
    (hin : c.InRange s) (hr : cmdCreateType type args s = some (reply, t)) (hsp : reply.1 ≠ -enospc) :
    Does v c reply t := by
  rcases args with _ | ⟨name, _ | ⟨b, l⟩⟩
  · obtain ⟨rfl, rfl⟩ := pure_eq_some.1 hr
    rcases hc with ⟨-, rfl⟩ | ⟨-, rfl⟩ <;> exact .look h h.held.looked (.invalid trivial)
  · have hroom : (s.dinode s.curDir).iSize + name.length + 9 < 2 ^ 31 := by
      rcases hc with ⟨-, rfl⟩ | ⟨-, rfl⟩ <;> exact hin
    unfold cmdCreateType at hr
    simp only at hr
    rw [bind_of_run (getState_run s)] at hr
    obtain ⟨ret, s₁, hcreate, hr₁⟩ := bind_eq_some.1 hr
    obtain ⟨rfl, rfl⟩ := pure_eq_some.1 hr₁
    obtain ⟨cur, hcur⟩ := h.find_cur
    unfold testfsCreateFileOrDir at hcreate
    simp only at hcreate
    rw [bind_of_run (inode_run hcur)] at hcreate
    obtain ⟨nr, s₂, hreads, hcreate⟩ := bind_eq_some.1 hcreate
    obtain ⟨hlook, hs₂⟩ := reads_eq_some.1 hreads
    subst hs₂
    rw [h.held.lookup hcur h.node_cur, ← h.cur] at hlook
    have hlook : (v.lookup name).getD (-enoent) = nr := Option.some.inj hlook
    cases hl : v.lookup name with
    | some n =>
      rw [hl, Option.getD_some] at hlook
      subst hlook
      have h0 := (h.held.stores.range n (h.ok.target _ _ _ hl)).1
      rw [if_pos h0] at hcreate
      obtain ⟨rfl, rfl⟩ := pure_eq_some.1 hcreate
      exact .look h h.held.looked (.taken (hc.imp And.right And.right) hl)
    | none =>
      rw [hl, Option.getD_none] at hlook
      subst hlook
      rw [if_neg (by decide)] at hcreate
      have htype : type = iFile ∨ type = iDir := hc.imp And.left And.left
      obtain ⟨rfl, hcur', j, hj, hlink⟩ := h.createInode htype hl hroom hcreate hsp
      rcases hc with ⟨rfl, rfl⟩ | ⟨rfl, rfl⟩
      · rw [if_neg (by decide)] at hlink
        exact ⟨_, .create hl hj, hlink, h.cur.trans hcur'.symm⟩
      · rw [if_pos rfl] at hlink
        exact ⟨_, .mkdir hl hj, hlink, h.cur.trans hcur'.symm⟩
  · obtain ⟨rfl, rfl⟩ := pure_eq_some.1 hr
    rcases hc with ⟨-, rfl⟩ | ⟨-, rfl⟩ <;> exact .look h h.held.looked (.invalid trivial)

/-! ### `rm` -/

variable {l₁ l₂ : List DirSlot} {e : DirSlot}

theorem allowedVisit_slot (h : DirHolds F l f) (he : e ∈ l) (off : ℤ) :
    allowedVisit off (slotDirent e) = some (if e.val.isSome ∧ e.key ≠ CString.dot ∧
      e.key ≠ CString.dotdot then some (-enotempty) else none) := by
  unfold allowedVisit
  rw [isProper_slot]
  have hnr : (slotDirent e).dInodeNr = slotNr e := rfl
  rw [hnr]
  cases hv : e.val with
  | none =>
    rw [slotNr_free hv, if_pos (by decide), if_neg fun hx => Bool.false_ne_true hx.1]
  | some n =>
    rw [slotNr_live hv, if_neg (not_lt.2 (h.numbers e he n hv).1), Option.map_some]
    by_cases hp : e.key ≠ CString.dot ∧ e.key ≠ CString.dotdot
    · rw [decide_eq_true hp, if_pos rfl, if_pos ⟨rfl, hp⟩]
    · rw [decide_eq_false hp, if_neg Bool.false_ne_true, if_neg fun hx => hp hx.2]

/-- The loop of `testfs_remove_dirent_allowed` stops at an entry other than `.` and `..`. -/
theorem allowed_scan (h : DirHolds F l f) (hdist : SlotTable.Distinct l)
    (hfind : ∀ name, SlotTable.find name l = entries name)
    (hr : (testfsScan f.sb f.ino allowedVisit 0).map (fun x => x.getLeft?.getD 0) = some r) :
    (Node.dir entries).Removable ∧ r = 0 ∨ ¬(Node.dir entries).Removable ∧ r = -enotempty := by
  have hentry : ∀ c n, entries c = some n ↔ ⟨c, some n⟩ ∈ l := by
    intro c n
    rw [← hfind, SlotTable.find_eq_some hdist]
  cases hproper : l.find? fun e =>
      decide (e.val.isSome ∧ e.key ≠ CString.dot ∧ e.key ≠ CString.dotdot) with
  | none =>
    rw [List.find?_eq_none] at hproper
    have hno : ∀ e ∈ l, ¬(e.val.isSome ∧ e.key ≠ CString.dot ∧ e.key ≠ CString.dotdot) :=
      fun e he hx => hproper e he (decide_eq_true hx)
    rw [scan_ends h fun e he off => by rw [allowedVisit_slot h he, if_neg (hno e he)]] at hr
    refine Or.inl ⟨fun c n hc => ?_, (Option.some.inj hr).symm⟩
    by_contra hp
    rw [not_or] at hp
    exact hno _ ((hentry c n).1 hc) ⟨rfl, hp⟩
  | some e =>
    obtain ⟨hp, l₁, l₂, rfl, hbefore⟩ := List.find?_eq_some_iff_append.1 hproper
    have hp := of_decide_eq_true hp
    have hmem : e ∈ l₁ ++ e :: l₂ := List.mem_append_right _ List.mem_cons_self
    have hstop : testfsScan f.sb f.ino allowedVisit 0 = some (.inl (-enotempty)) := by
      refine scan_stops h (fun a ha off => ?_) ?_
      · have hno := hbefore a ha
        rw [not_decide_eq_true] at hno
        rw [allowedVisit_slot h (List.mem_append_left _ ha), if_neg hno]
      · rw [allowedVisit_slot h hmem, if_pos hp]
    rw [hstop] at hr
    refine Or.inr ⟨fun hx => ?_, (Option.some.inj hr).symm⟩
    obtain ⟨n, hn⟩ := Option.isSome_iff_exists.1 hp.1
    have hmem' : ⟨e.key, some n⟩ ∈ l₁ ++ e :: l₂ := by
      rw [← hn]
      exact hmem
    rcases hx e.key n ((hentry e.key n).2 hmem') with hd | hd
    · exact hp.2.1 hd
    · exact hp.2.2 hd

namespace Held

/-- **`testfs_remove_dirent_allowed`** looks whether the node may go. -/
theorem removeAllowed (h : Held N W s) (hN : N n = some nd)
    (hr : testfsRemoveDirentAllowed n s = some (r, t)) : Looked N W s t ∧
      (nd.Removable ∧ r = 0 ∨ ¬nd.Removable ∧ r = -enotempty) := by
  obtain ⟨_, s₁, hget, hr₁⟩ := bind_eq_some.1 hr
  obtain ⟨hlook, dir, hf, -, htype⟩ := h.load hN hget
  rw [bind_of_run (inode_run hf)] at hr₁
  obtain ⟨ret, s₂, hreads, hr₂⟩ := bind_eq_some.1 hr₁
  obtain ⟨hret, rfl⟩ := reads_eq_some.1 hreads
  obtain ⟨_, s₃, hput, hr₃⟩ := bind_eq_some.1 hr₂
  obtain ⟨rfl, rfl⟩ := pure_eq_some.1 hr₃
  refine ⟨hlook.trans (hlook.held.putInode hput), ?_⟩
  cases nd with
  | file k bytes =>
    rw [if_pos fun hx => Bool.false_ne_true (htype.1 hx)] at hret
    have hremovable : (Node.file k bytes).Removable := fun c n hc => by cases hc
    exact Or.inl ⟨hremovable, (Option.some.inj hret).symm⟩
  | dir entries =>
    rw [if_neg (not_not.2 (htype.2 rfl))] at hret
    obtain ⟨l, hl, hdist, hfind⟩ := hlook.held.slots hf hN
    exact allowed_scan hl hdist hfind hret

/-- **An entry is removed** from its slot. -/
theorem freeEntry (h : Held N W s) (hN : N n = some (.dir entries))
    (hl : DirHolds (others s.sb (s.dinode n)) (l₁ ++ ⟨name, some m⟩ :: l₂) (fileOf s.sb (s.dinode n)))
    (hdist : SlotTable.Distinct (l₁ ++ ⟨name, some m⟩ :: l₂))
    (hfind : ∀ c, SlotTable.find c (l₁ ++ ⟨name, some m⟩ :: l₂) = entries c)
    (hrem : SlotTable.remove name (l₁ ++ ⟨name, some m⟩ :: l₂) = l₁ ++ ⟨name, none⟩ :: l₂)
    (hr : onInode n (testfsWriteData (removedBuf (slotDirent ⟨name, some m⟩)) (dirBytes l₁).length
      (slotBytes ⟨name, none⟩).length) s = some (r, t)) :
    0 ≤ r ∧ Changed (Function.update N n (some (.dir (Function.update entries name none))))
      (insert n W) n s t := by
  obtain ⟨ino, g, hf, hrun, ht⟩ := onInode_cases hr
  obtain rfl : t = s.wrote n g := ht
  have hl' : DirHolds (others s.sb (s.dinode n)) (l₁ ++ ⟨name, some m⟩ :: l₂) ⟨s.sb, ino⟩ :=
    hl.congr rfl (din_of_find hf)
  obtain ⟨hframe, hshape⟩ := freeSlot_keeps hl' hrun
  obtain ⟨h0, hnew⟩ := hl'.freeSlot hrun
  rw [← hrem] at hnew
  have hdir : NodeHolds (others s.sb (s.dinode n)) g
      (.dir (Function.update entries name none)) := by
    refine ⟨hshape (h.node hf hN).shaped, _, hnew, hdist.remove, fun c => ?_⟩
    rw [SlotTable.find_remove hdist, hfind, Function.update_apply]
  refine ⟨h0, h.wrote hf hN hframe hdir, rfl, fun x hx hne => ?_⟩
  rw [wrote_dinode hframe rfl h.stores.super hnew.file.super hf hx, if_neg hne]

end Held

/-- **`testfs_remove_dirent`** in the current directory. -/
theorem Rests.removeDirent (h : Rests v s)
    (hr : testfsRemoveDirent s.curDir name s = some (r, t)) :
    (name = CString.dot ∨ name = CString.dotdot) ∧ r = -einval ∧ t = s ∨
    ¬(name = CString.dot ∨ name = CString.dotdot) ∧ (v.lookup name = none ∧ r = -enoent ∧ t = s ∨
      ∃ n nd, v.lookup name = some n ∧ v.node n = some nd ∧ 0 ≤ n ∧
        (¬nd.Removable ∧ r = -enotempty ∧ Looked v.node ∅ s t ∨ nd.Removable ∧ r = n ∧
          Held (v.setEntry name none).node {v.cur} t ∧ t.curDir = s.curDir)) := by
  obtain ⟨ino, hf⟩ := h.find_cur
  obtain ⟨l, hl, hdist, hfind⟩ := h.held.slots hf h.node_cur
  have hlookup : SlotTable.find name l = v.lookup name := by
    rw [hfind, ← h.cur]
    rfl
  rcases removeDirent_cases hf hl hr with ⟨hd, rfl, rfl⟩ | ⟨hd, hno, rfl, rfl⟩ |
    ⟨l₁, n, l₂, ret, u, hd, rfl, hn, hrem, hallowed, hret⟩
  · exact Or.inl ⟨hd, rfl, rfl⟩
  · exact Or.inr ⟨hd, Or.inl ⟨hlookup.symm.trans hno, rfl, rfl⟩⟩
  have hentry := hlookup.symm.trans hn
  have hsome := h.ok.target _ _ _ hentry
  obtain ⟨nd, hnd⟩ := Option.isSome_iff_exists.1 hsome
  have h0 := (h.held.stores.range n hsome).1
  refine Or.inr ⟨hd, Or.inr ⟨n, nd, hentry, hnd, h0, ?_⟩⟩
  obtain ⟨hlook, hcases⟩ := h.held.removeAllowed hnd hallowed
  rcases hcases with ⟨hremovable, rfl⟩ | ⟨hremovable, rfl⟩
  · rcases hret with ⟨hneg, -, -⟩ | ⟨-, ret', hw, rfl⟩
    · exact absurd hneg (lt_irrefl 0)
    have hslots : DirHolds (others u.sb (u.dinode s.curDir)) (l₁ ++ ⟨name, some n⟩ :: l₂)
        (fileOf u.sb (u.dinode s.curDir)) := by
      rw [hlook.sb, hlook.dinode]
      exact hl.congr rfl (din_of_find hf).symm
    obtain ⟨hret', hch⟩ := hlook.held.freeEntry h.node_cur hslots hdist hfind hrem hw
    rw [if_pos hret']
    refine Or.inr ⟨hremovable, rfl, ?_, hch.curDir.trans hlook.curDir⟩
    have hheld := hch.held
    rw [← h.cur] at hheld
    exact hheld.mono fun x hx => hx.resolve_right fun hx => hx
  · rcases hret with ⟨-, rfl, rfl⟩ | ⟨hpos, -⟩
    · exact Or.inl ⟨hremovable, rfl, hlook⟩
    · exact absurd hpos (by decide)

theorem cmdRm_does (h : Rests v s) (hr : cmdRm args s = some (reply, t)) :
    Does v ⟨.rm, args⟩ reply t := by
  rcases args with _ | ⟨name, _ | ⟨b, l⟩⟩
  · obtain ⟨rfl, rfl⟩ := pure_eq_some.1 hr
    exact .look h h.held.looked (.invalid trivial)
  · unfold cmdRm at hr
    simp only at hr
    rw [bind_of_run (getState_run s)] at hr
    obtain ⟨r, s₁, hremove, hr₁⟩ := bind_eq_some.1 hr
    rcases h.removeDirent hremove with ⟨hd, rfl, rfl⟩ | ⟨hd, ⟨hl, rfl, rfl⟩ |
      ⟨n, nd, hl, hnd, h0, ⟨hno, rfl, hlook⟩ | ⟨hremovable, hn, hheld, hcur⟩⟩⟩
    · obtain ⟨rfl, rfl⟩ := pure_eq_some.1 hr₁
      exact .look h h.held.looked (.invalid hd)
    · obtain ⟨rfl, rfl⟩ := pure_eq_some.1 hr₁
      exact .look h h.held.looked (.missing hd rfl hl)
    · obtain ⟨rfl, rfl⟩ := pure_eq_some.1 hr₁
      exact .look h hlook (.notEmpty hd hl hnd hno)
    subst hn
    rw [if_neg (not_lt.2 h0)] at hr₁
    obtain ⟨_, s₂, hget, hr₂⟩ := bind_eq_some.1 hr₁
    obtain ⟨_, s₃, hrem, hr₃⟩ := bind_eq_some.1 hr₂
    obtain ⟨_, s₄, hsync, hr₄⟩ := bind_eq_some.1 hr₃
    obtain ⟨rfl, rfl⟩ := pure_eq_some.1 hr₄
    have hne := h.ok.child_ne_cur (h.ok.child hl (fun hx => hd (Or.inl hx)) fun hx => hd (Or.inr hx))
    have hnd' : (v.setEntry name none).node r = some nd := (Function.update_of_ne hne ..).trans hnd
    obtain ⟨hlook₂, -⟩ := hheld.load hnd' hget
    obtain ⟨hheld₃, hcur₃, -⟩ := hlook₂.held.removeInode hnd' hrem
    obtain ⟨hheld₄, hcur₄, -⟩ := hheld₃.syncInode hsync
    refine ⟨_, .rm hd hl hnd hremovable, hheld₄.mono ?_, ?_⟩
    · rintro x ⟨⟨hx, -⟩, hnot⟩
      exact hnot (hx.trans h.cur)
    · exact h.cur.trans (hcur.symm.trans (hlook₂.curDir.symm.trans (hcur₃.symm.trans hcur₄.symm)))
  · obtain ⟨rfl, rfl⟩ := pure_eq_some.1 hr
    exact .look h h.held.looked (.invalid trivial)

end OSLab.Fs

import OSLab.Fs.Proof.Held

/-!
# Commands that only look

`Rests v s` says that the file system is between two commands and holds the volume `v`. A command
that changes no node replies what the volume's `Step` says, and the volume stays held.
-/

namespace OSLab.Fs

open Prog

variable {N : ℤ → Option Node} {W : Set ℤ} {v w : Volume} {s t : Testfs} {n m r : ℤ} {ino : Inode}
  {nd : Node} {name : CString} {args : List CString} {reply : Reply} {entries : CString → Option ℤ}
  {x : Unit}

/-- **Between two commands**: the volume is held, all inodes are written back, and only that of the
current directory is in memory. -/
structure Rests (v : Volume) (s : Testfs) : Prop where
  held : Held v.node ∅ s
  cur : v.cur = s.curDir
  ok : v.OK
  one : OneInode s

/-- The command does what the volume allows. -/
def Does (v : Volume) (c : Command) (reply : Reply) (t : Testfs) : Prop :=
  ∃ w : Volume, v.Step ⟨c, reply⟩ w ∧ Held w.node ∅ t ∧ w.cur = t.curDir

/-- The numbers that the command's `int` and `off_t` arithmetic can hold: a read ends less than 2^31
bytes past the start of its first block, and not at once at the end of the largest file; a write is
not empty and ends within the largest file; a directory stays smaller than 2^31 bytes. -/
def Command.InRange (c : Command) (s : Testfs) : Prop :=
  match c.cmd, c.args with
  | .read, [_, offset, size] => ∀ p k : ℕ, strToOffset offset = some (p : ℤ) →
    strToSize size = some (k : ℤ) → p % blockSize + k < 2 ^ 31 ∧ (p = maxFileSize → 0 < k)
  | .write, [_, offset, data] => ∀ p : ℕ, strToOffset offset = some (p : ℤ) →
    0 < data.length ∧ data.length < 2 ^ 31 - blockSize ∧ p + data.length ≤ maxFileSize
  | .create, [name] | .mkdir, [name] => (s.dinode s.curDir).iSize + name.length + 9 < 2 ^ 31
  | _, _ => True

/-- The command leaves the volume as it is. -/
theorem Does.look {c : Command} (h : Rests v s) (hl : Looked v.node ∅ s t)
    (hs : v.Step ⟨c, reply⟩ v) : Does v c reply t :=
  ⟨v, hs, hl.held, h.cur.trans hl.curDir.symm⟩

theorem Held.looked (h : Held N W s) : Looked N W s s := ⟨h, rfl, rfl, fun _ => rfl⟩

namespace Held

/-- The slots of a directory. -/
theorem slots (h : Held N W s) (hf : s.find n = some ino) (hN : N n = some (.dir entries)) :
    ∃ l, DirHolds (others s.sb (s.dinode n)) l ⟨s.sb, ino⟩ ∧ SlotTable.Distinct l ∧
      ∀ name, SlotTable.find name l = entries name := DirEntries.slots (h.node hf hN)

/-- **A name is looked up** in a directory. -/
theorem lookup (h : Held N W s) (hf : s.find n = some ino) (hN : N n = some (.dir entries))
    (name : CString) :
    testfsDirNameToInodeNr s.sb ino name = some ((entries name).getD (-enoent)) := by
  obtain ⟨l, hl, -, hfind⟩ := h.slots hf hN
  rw [← hfind]
  exact hl.name_lookup name

theorem iType (h : Held N W s) (hN : N n = some nd) :
    (s.dinode n).iType = if nd.isDir then iDir else iFile := (h.stores.node n nd hN).iType

/-- The inode of a node is loaded. -/
theorem load (h : Held N W s) (hN : N n = some nd) (hr : testfsGetInode n s = some (x, t)) :
    Looked N W s t ∧ ∃ ino, t.find n = some ino ∧ ino.din = s.dinode n ∧
      (ino.din.iType = iDir ↔ nd.isDir = true) := by
  obtain ⟨hlook, ino, hf, hdin⟩ := h.getInode hr
  refine ⟨hlook, ino, hf, hdin, ?_⟩
  rw [hdin, h.iType hN]
  cases nd.isDir <;> decide

end Held

namespace Rests

/-- The current directory is in memory. -/
theorem find_cur (h : Rests v s) : ∃ ino, s.find s.curDir = some ino := by
  obtain ⟨ino, hs, hnr, -⟩ := h.one
  refine ⟨ino, ?_⟩
  unfold Testfs.find inodeHashFind
  rw [hs, List.find?_cons, decide_eq_true hnr]

theorem node_cur (h : Rests v s) : v.node s.curDir = some (.dir (v.entries s.curDir)) :=
  h.cur ▸ Volume.node_of_isDir h.ok.curDir

/-- **A name is looked up in the current directory.** -/
theorem lookupCur (h : Rests v s) (hr : lookupCur name s = some (r, t)) : t = s ∧
    (v.lookup name = none ∧ r = -enoent ∨
      ∃ nd, v.lookup name = some r ∧ v.node r = some nd ∧ 0 ≤ r) := by
  obtain ⟨ino, hf⟩ := h.find_cur
  unfold Fs.lookupCur at hr
  rw [bind_of_run (getState_run s), bind_of_run (inode_run hf)] at hr
  obtain ⟨hres, rfl⟩ := reads_eq_some.1 hr
  rw [h.held.lookup hf h.node_cur, ← h.cur] at hres
  refine ⟨rfl, ?_⟩
  unfold Volume.lookup
  cases hl : v.entries v.cur name with
  | none =>
    rw [hl] at hres
    exact Or.inl ⟨rfl, (Option.some.inj hres).symm⟩
  | some n =>
    rw [hl] at hres
    obtain rfl := Option.some.inj hres
    have hsome := h.ok.target _ _ _ hl
    obtain ⟨nd, hnd⟩ := Option.isSome_iff_exists.1 hsome
    exact Or.inr ⟨nd, rfl, hnd, (h.held.stores.range _ hsome).1⟩

end Rests

/-! ### `cd`, `stat` and `fsstat` -/

theorem cmdCd_does (h : Rests v s) (hr : cmdCd args s = some (reply, t)) :
    Does v ⟨.cd, args⟩ reply t := by
  rcases args with _ | ⟨name, _ | ⟨b, l⟩⟩
  · obtain ⟨rfl, rfl⟩ := pure_eq_some.1 hr
    exact .look h h.held.looked (.invalid trivial)
  · obtain ⟨r, s₁, hlook, hr₁⟩ := bind_eq_some.1 hr
    obtain ⟨rfl, ⟨hl, rfl⟩ | ⟨nd, hl, hnd, h0⟩⟩ := h.lookupCur hlook
    · obtain ⟨rfl, rfl⟩ := pure_eq_some.1 hr₁
      exact .look h h.held.looked (.missing (fun hx => hx) rfl hl)
    rw [if_neg (not_lt.2 h0)] at hr₁
    obtain ⟨_, s₂, hget, hr₂⟩ := bind_eq_some.1 hr₁
    obtain ⟨hlook₂, ino, hf, -, htype⟩ := h.held.load hnd hget
    rw [bind_of_run (inode_run hf)] at hr₂
    split_ifs at hr₂ with hd
    · obtain ⟨_, s₃, hput, hr₃⟩ := bind_eq_some.1 hr₂
      obtain ⟨rfl, rfl⟩ := pure_eq_some.1 hr₃
      have hfile : v.isDir r = false := by
        rw [Volume.isDir_of_node hnd]
        exact Bool.eq_false_iff.2 fun hx => hd (htype.2 hx)
      exact .look h (hlook₂.trans (hlook₂.held.putInode hput)) (.cdFile hl hfile)
    · rw [bind_of_run (getState_run s₂)] at hr₂
      obtain ⟨_, s₃, hput, hr₃⟩ := bind_eq_some.1 hr₂
      obtain ⟨_, s₄, hmod, hr₄⟩ := bind_eq_some.1 hr₃
      obtain ⟨-, rfl⟩ := Prod.mk.inj (Option.some.inj hmod)
      obtain ⟨rfl, rfl⟩ := pure_eq_some.1 hr₄
      have hlook₃ := hlook₂.held.putInode hput
      have hdir : v.isDir r = true := by
        rw [Volume.isDir_of_node hnd]
        exact htype.1 (not_not.1 hd)
      have hheld := hlook₃.held
      exact ⟨{ v with cur := r }, .cd hl hdir, ⟨hheld.stores, ⟨hheld.counted.nodup, hheld.counted.pos⟩,
        hheld.inMemory⟩, rfl⟩
  · obtain ⟨rfl, rfl⟩ := pure_eq_some.1 hr
    exact .look h h.held.looked (.invalid trivial)

theorem cmdStat_does (h : Rests v s) (hr : cmdStat args s = some (reply, t)) :
    Does v ⟨.stat, args⟩ reply t := by
  rcases args with _ | ⟨name, _ | ⟨b, l⟩⟩
  · obtain ⟨rfl, rfl⟩ := pure_eq_some.1 hr
    exact .look h h.held.looked (.invalid trivial)
  · obtain ⟨r, s₁, hlook, hr₁⟩ := bind_eq_some.1 hr
    obtain ⟨rfl, ⟨hl, rfl⟩ | ⟨nd, hl, hnd, h0⟩⟩ := h.lookupCur hlook
    · obtain ⟨rfl, rfl⟩ := pure_eq_some.1 hr₁
      exact .look h h.held.looked (.missing (fun hx => hx) rfl hl)
    rw [if_neg (not_lt.2 h0)] at hr₁
    obtain ⟨_, s₂, hget, hr₂⟩ := bind_eq_some.1 hr₁
    obtain ⟨hlook₂, ino, hf, hdin, -⟩ := h.held.load hnd hget
    rw [bind_of_run (inode_run hf)] at hr₂
    obtain ⟨_, s₃, hput, hr₃⟩ := bind_eq_some.1 hr₂
    obtain ⟨rfl, rfl⟩ := pure_eq_some.1 hr₃
    have hnode := h.held.stores.node r nd hnd
    have hsize : ino.din.iSize % 2 ^ 64 = ino.din.iSize := by
      have hshape := hnode.shaped
      have h1 := hshape.nonneg
      have h2 := hshape.le
      rw [maxFileSize_eq] at h2
      rw [hdin]
      exact Int.emod_eq_of_lt h1 (h2.trans_lt (by decide))
    rw [hsize, (find_mem hf).2, hdin, h.held.iType hnd]
    refine .look h (hlook₂.trans (hlook₂.held.putInode hput)) (.stat hl hnd fun k bytes hk => ?_)
    subst hk
    exact FileHolds.iSize hnode
  · obtain ⟨rfl, rfl⟩ := pure_eq_some.1 hr
    exact .look h h.held.looked (.invalid trivial)

/-- The inode freemap has the numbers of the nodes. -/
theorem Held.usedInodes (h : Held N W s) :
    s.sb.sb.usedInodeCount = Set.ncard {n | (N n).isSome} := by
  have himage : {n | (N n).isSome} = Nat.cast '' (s.sb.inodeFreemap.members : Set ℕ) := by
    ext n
    constructor
    · intro hn
      obtain ⟨k, rfl⟩ := Int.eq_ofNat_of_zero_le (h.stores.range n hn).1
      exact ⟨k, (h.stores.alloc k).2 hn, rfl⟩
    · rintro ⟨k, hk, rfl⟩
      exact (h.stores.alloc k).1 hk
  rw [himage, Set.ncard_image_of_injective _ Nat.cast_injective, Set.ncard_coe_finset]
  exact h.stores.super.usedInodes

theorem cmdFsstat_does (h : Rests v s) (hr : cmdFsstat args s = some (reply, t)) :
    Does v ⟨.fsstat, args⟩ reply t := by
  rcases args with _ | ⟨b, l⟩
  · unfold cmdFsstat at hr
    simp only at hr
    rw [bind_of_run (getState_run s)] at hr
    obtain ⟨rfl, rfl⟩ := pure_eq_some.1 hr
    rw [h.held.usedInodes]
    exact .look h h.held.looked .fsstat
  · obtain ⟨rfl, rfl⟩ := pure_eq_some.1 hr
    exact .look h h.held.looked (.invalid trivial)

/-! ### `read` -/

variable {F : Set ℤ} {k p c : ℕ} {bytes : ℕ → Option Byte}

/-- **Reading a file** gives its bytes, those no write has stored being open. -/
theorem readFile_does (hf : s.find n = some ino) (hfile : FileHolds F k bytes ⟨s.sb, ino⟩)
    (hfit : p % blockSize + c < 2 ^ 31) (hpos : p = maxFileSize → 0 < c)
    (hr : readFile n p c s = some (reply, t)) : t = s ∧ (k < p + c ∧ reply = (-einval, []) ∨
      p + c ≤ k ∧ ∃ data : List Byte, data.length = c ∧
        (∀ i < c, ∀ b, bytes (p + i) = some b → data[i]? = some b) ∧
        reply = ((c : ℤ), data.takeWhile (· ≠ 0) ++ [newline])) := by
  have hbs : (blockSize : ℤ) = 8192 := rfl
  have hsize : ino.din.iSize = k := hfile.iSize
  have hmax : (k : ℤ) ≤ maxFileSize := hsize ▸ hfile.shaped.le
  have h64 : toInt64 (c : ℤ) = c := toInt64_of_lt (by omega) (by omega)
  have h32 : toInt32 (c : ℤ) = c := toInt32_of_lt (by omega) (by omega)
  unfold readFile at hr
  rw [bind_of_run (inode_run hf)] at hr
  obtain ⟨_, s₁, hreq, hr₁⟩ := bind_eq_some.1 hr
  obtain ⟨-, rfl⟩ := require_eq_some.1 hreq
  have hroom : toSize ((c : ℤ) + 1) = c + 1 := toSize_of_lt (by omega) (by omega)
  rw [h64, hsize, hroom] at hr₁
  split_ifs at hr₁ with hlt hmalloc
  · obtain ⟨rfl, rfl⟩ := pure_eq_some.1 hr₁
    exact ⟨rfl, Or.inl ⟨by exact_mod_cast hlt, rfl⟩⟩
  · -- a size below 2^31 is not refused
    unfold ptrdiffMax at hmalloc
    omega
  obtain ⟨⟨ret, buf⟩, s₂, hread, hr₂⟩ := bind_eq_some.1 hr₁
  obtain ⟨hread, rfl⟩ := reads_eq_some.1 hread
  have hp : (p : ℤ) < maxFileSize := by omega
  have hfit' : (p : ℤ) % blockSize + c ≤ 2 ^ 31 := by
    rw [blockSize_eq] at hfit
    rw [hbs]
    omega
  have hok : _ ∨ ∃ n buf', testfsReadData s₂.sb ino (Buf.fresh ((c : ℤ) + 1).toNat) p c = some _ ∧ _ :=
    readData_ok hfile.file (Int.natCast_nonneg p) (Int.natCast_nonneg c) hp (by rw [hsize]; omega)
      (by rw [hsize]; exact hmax)
  rcases hok with ⟨-, hno⟩ | ⟨m, buf', hrun, -, -, hd, hm⟩
  · exact absurd ⟨hfit', by show (c : ℤ) ≤ (((c : ℤ) + 1).toNat : ℤ); omega⟩ hno
  obtain ⟨rfl, rfl⟩ := Prod.mk.inj (Option.some.inj (hrun.symm.trans hread))
  obtain rfl := hm.2 hfit'
  simp only at hr₂
  rw [h32, if_pos (Int.natCast_nonneg c)] at hr₂
  obtain ⟨_, s₃, hreq, hr₃⟩ := bind_eq_some.1 hr₂
  obtain ⟨-, rfl⟩ := require_eq_some.1 hreq
  obtain ⟨rfl, rfl⟩ := pure_eq_some.1 hr₃
  rw [Int.toNat_natCast]
  refine ⟨rfl, Or.inr ⟨by exact_mod_cast not_lt.1 hlt, _, ?_, fun i hi b hb => ?_, rfl⟩⟩
  · rw [List.length_map, List.length_range]
  · obtain ⟨hmap, hcontent⟩ := hfile.stored (p + i) b hb
    have hget := hd.get i
    rw [if_pos (by omega), ← Int.natCast_add, Int.toNat_natCast, readByte_mapped hmap, hcontent] at hget
    rw [List.getElem?_map, List.getElem?_range hi, Option.map_some, hget, Option.getD_some]

/-- A file is opened by its name. -/
theorem Rests.getFileInode (h : Rests v s) (hr : testfsGetFileInode name s = some (r, t)) :
    Looked v.node ∅ s t ∧ (v.lookup name = none ∧ r = -enoent ∨
      (∃ n, v.lookup name = some n ∧ v.isDir n = true ∧ r = -eisdir) ∨
      0 ≤ r ∧ v.lookup name = some r ∧ ∃ k bytes ino, v.node r = some (.file k bytes) ∧
        t.find r = some ino ∧ FileHolds (others s.sb (s.dinode r)) k bytes ⟨t.sb, ino⟩) := by
  obtain ⟨n, s₁, hlook, hr₁⟩ := bind_eq_some.1 hr
  obtain ⟨rfl, ⟨hl, rfl⟩ | ⟨nd, hl, hnd, h0⟩⟩ := h.lookupCur hlook
  · obtain ⟨rfl, rfl⟩ := pure_eq_some.1 hr₁
    exact ⟨h.held.looked, Or.inl ⟨hl, rfl⟩⟩
  rw [if_neg (not_lt.2 h0)] at hr₁
  obtain ⟨_, s₂, hget, hr₂⟩ := bind_eq_some.1 hr₁
  obtain ⟨hlook₂, ino, hf, hdin, htype⟩ := h.held.load hnd hget
  rw [bind_of_run (inode_run hf)] at hr₂
  split_ifs at hr₂ with hd
  · obtain ⟨_, s₃, hput, hr₃⟩ := bind_eq_some.1 hr₂
    obtain ⟨rfl, rfl⟩ := pure_eq_some.1 hr₃
    refine ⟨hlook₂.trans (hlook₂.held.putInode hput), Or.inr (Or.inl ⟨n, hl, ?_, rfl⟩)⟩
    rw [Volume.isDir_of_node hnd]
    exact htype.1 hd
  · obtain ⟨rfl, rfl⟩ := pure_eq_some.1 hr₂
    cases nd with
    | dir => exact absurd (htype.2 rfl) hd
    | file k bytes =>
      have hnode := hlook₂.held.node hf hnd
      rw [hlook₂.sb, hlook₂.dinode] at hnode
      exact ⟨hlook₂, Or.inr (Or.inr ⟨h0, hl, k, bytes, ino, hnd, hf, hlook₂.sb ▸ hnode⟩)⟩

/-- A negative offset is no offset. -/
theorem offset_cases (offset : CString) : (∀ p : ℕ, strToOffset offset ≠ some (p : ℤ)) ∧
    (strToOffset offset = none ∨ ∃ o < 0, strToOffset offset = some o) ∨
    ∃ p : ℕ, strToOffset offset = some (p : ℤ) := by
  cases ho : strToOffset offset with
  | none =>
    refine Or.inl ⟨fun p hp => ?_, Or.inl rfl⟩
    cases hp
  | some o =>
    rcases lt_or_ge o 0 with hneg | h0
    · refine Or.inl ⟨fun p hp => ?_, Or.inr ⟨o, hneg, rfl⟩⟩
      obtain rfl := Option.some.inj hp
      exact absurd (Int.natCast_nonneg p) (not_le.2 hneg)
    · obtain ⟨p, rfl⟩ := Int.eq_ofNat_of_zero_le h0
      exact Or.inr ⟨p, rfl⟩

theorem cmdRead_does (h : Rests v s) (hin : (⟨.read, args⟩ : Command).InRange s)
    (hr : cmdRead args s = some (reply, t)) : Does v ⟨.read, args⟩ reply t := by
  rcases args with _ | ⟨name, _ | ⟨offset, _ | ⟨size, _ | ⟨b, l⟩⟩⟩⟩
  · obtain ⟨rfl, rfl⟩ := pure_eq_some.1 hr
    exact .look h h.held.looked (.invalid trivial)
  · obtain ⟨rfl, rfl⟩ := pure_eq_some.1 hr
    exact .look h h.held.looked (.invalid trivial)
  · obtain ⟨rfl, rfl⟩ := pure_eq_some.1 hr
    exact .look h h.held.looked (.invalid trivial)
  · unfold cmdRead at hr
    rcases offset_cases offset with ⟨hbad, ho | ⟨o, hneg, ho⟩⟩ | ⟨p, ho⟩
    · simp only [ho] at hr
      obtain ⟨rfl, rfl⟩ := pure_eq_some.1 hr
      exact .look h h.held.looked (.invalid (Or.inl hbad))
    · simp only [ho, if_pos hneg] at hr
      obtain ⟨rfl, rfl⟩ := pure_eq_some.1 hr
      exact .look h h.held.looked (.invalid (Or.inl hbad))
    simp only [ho, if_neg (not_lt.2 (Int.natCast_nonneg p))] at hr
    cases hs : strToSize size with
    | none =>
      simp only [hs] at hr
      obtain ⟨rfl, rfl⟩ := pure_eq_some.1 hr
      exact .look h h.held.looked (.invalid (Or.inr hs))
    | some c =>
      obtain ⟨c, rfl⟩ := Int.eq_ofNat_of_zero_le (strToSize_range hs).1
      simp only [hs] at hr
      have hvalid : ¬(⟨.read, [name, offset, size]⟩ : Command).Invalid := by
        rintro (hx | hx)
        · exact hx p ho
        · rw [hs] at hx
          cases hx
      obtain ⟨r, s₁, hget, hr₁⟩ := bind_eq_some.1 hr
      obtain ⟨hlook, ⟨hl, rfl⟩ | ⟨n, hl, hd, rfl⟩ | ⟨h0, hl, k, bytes, ino, hnd, hf, hfile⟩⟩ :=
        h.getFileInode hget
      · obtain ⟨rfl, rfl⟩ := pure_eq_some.1 hr₁
        exact .look h hlook (.missing hvalid rfl hl)
      · obtain ⟨rfl, rfl⟩ := pure_eq_some.1 hr₁
        exact .look h hlook (.onDir (Or.inl rfl) hvalid rfl hl hd)
      rw [if_neg (not_lt.2 h0)] at hr₁
      obtain ⟨reply', s₂, hread, hr₂⟩ := bind_eq_some.1 hr₁
      obtain ⟨_, s₃, hput, hr₃⟩ := bind_eq_some.1 hr₂
      obtain ⟨rfl, rfl⟩ := pure_eq_some.1 hr₃
      obtain ⟨hfit, hpos⟩ := hin p c ho hs
      obtain ⟨rfl, ⟨hlt, rfl⟩ | ⟨hle, data, hlen, hdata, rfl⟩⟩ :=
        readFile_does hf hfile hfit hpos hread
      · exact .look h (hlook.trans (hlook.held.putInode hput)) (.pastEnd ho hs hl hnd hlt)
      · exact .look h (hlook.trans (hlook.held.putInode hput))
          (.read ho hs hl hnd hle hlen hdata)
  · obtain ⟨rfl, rfl⟩ := pure_eq_some.1 hr
    exact .look h h.held.looked (.invalid trivial)

end OSLab.Fs

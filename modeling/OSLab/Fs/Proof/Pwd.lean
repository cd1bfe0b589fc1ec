import OSLab.Fs.Proof.Entries
import OSLab.Lib.RootedTree

/-!
# The path that `pwd` prints leads back

`DirTree D`: the directories `D` form a tree rooted at inode 0, with the entries `.` and `..` that
they should have. `lookupPath` looks names up one after another.

* `pwd_run`: the climb along `..`, by induction on the path from the root.
* `lookupPath_run`: the way down.
* `pwd_leads_back`: what `testfs_pwd` prints is the path from the root, and the path leads back.
-/

namespace OSLab.Fs

open Prog

variable {s t u : Testfs} {nr p q c cur : ℤ} {n m name : CString} {ns ms : List CString} {ino : Inode}
  {D : ℤ → Option (List (CString × ℤ))} {l : List (CString × ℤ)}

/-- Entry `n` of directory `p` is the directory `c`. -/
def Child (D : ℤ → Option (List (CString × ℤ))) (p : ℤ) (n : CString) (c : ℤ) : Prop :=
  ∃ l, D p = some l ∧ (n, c) ∈ l ∧ n ≠ CString.dot ∧ n ≠ CString.dotdot ∧ (D c).isSome

/-- **The directories are a tree** rooted at inode 0. -/
structure DirTree (D : ℤ → Option (List (CString × ℤ))) : Prop where
  tree : RootedTree (Child D) (fun p => (D p).isSome) 0
  names : ∀ p l, D p = some l → (l.map Prod.fst).Nodup
  dot : ∀ p l, D p = some l → (CString.dot, p) ∈ l
  rootUp : ∀ l, D 0 = some l → (CString.dotdot, 0) ∈ l
  up : ∀ p n c l, Child D p n c → D c = some l → (CString.dotdot, p) ∈ l

/-- Between two commands: what is in memory is in use, and written back but for the current
directory. -/
structure AtRest (cur : ℤ) (s : Testfs) : Prop where
  nodup : (s.inodes.map (·.iNr)).Nodup
  onDevice : s.sb.HasInodes
  counted : ∀ nr ino, s.find nr = some ino → 0 < ino.iCount
  clean : ∀ nr ino, s.find nr = some ino → nr ≠ cur → ino.dirty = false

/-! ### Looking names up -/

/-- Look up a name in a directory. -/
def lookupName (dir : ℤ) (name : CString) : Prog Testfs ℤ := do
  testfsGetInode dir
  let ino ← inode dir
  let nr ← reads fun s => testfsDirNameToInodeNr s.sb ino name
  testfsPutInode dir
  return nr

/-- Look up names in turn. -/
def lookupPath : List CString → ℤ → Prog Testfs ℤ
  | [], nr => pure nr
  | name :: names, nr => do
    let nr ← lookupName nr name
    lookupPath names nr

/-- A path as it is printed. -/
def printPath (names : List CString) : List Byte :=
  slash :: List.intercalate [slash] (names.map (·.val))

theorem lookupPath_snoc {a b : ℤ} (h : lookupPath ns a s = some (b, t))
    (hn : lookupName b n t = some (c, u)) : lookupPath (ns ++ [n]) a s = some (c, u) := by
  induction ns generalizing a s with
  | nil =>
    obtain ⟨rfl, rfl⟩ := pure_eq_some.1 h
    show (lookupName a n >>= fun nr => lookupPath [] nr) s = _
    rw [bind_of_run hn]
    rfl
  | cons m ns ih =>
    obtain ⟨a', s', hm, hrest⟩ := bind_eq_some.1 h
    show (lookupName a m >>= fun nr => lookupPath (ns ++ [n]) nr) s = _
    rw [bind_of_run hm]
    exact ih hrest

theorem intercalate_snoc {α : Type} {sep x : List α} {xs : List (List α)} (h : xs ≠ []) :
    List.intercalate sep (xs ++ [x]) = List.intercalate sep xs ++ sep ++ x := by
  induction xs with
  | nil => exact absurd rfl h
  | cons y xs ih =>
    cases xs with
    | nil => simp
    | cons z xs =>
      have hrest := ih (List.cons_ne_nil z xs)
      rw [List.cons_append, List.intercalate_cons_of_ne_nil (by simp), hrest,
        List.intercalate_cons_of_ne_nil (List.cons_ne_nil z xs)]
      simp

/-- The next name of a printed path. -/
theorem printPath_snoc (ns : List CString) (n : CString) :
    printPath (ns ++ [n]) = printPath ns ++ (if ns = [] then [] else [slash]) ++ n.val := by
  unfold printPath
  by_cases h : ns = []
  · subst h
    simp [slash]
  · rw [List.map_append, List.map_singleton, if_neg h,
      intercalate_snoc (by simpa using h)]
    simp

/-! ### Opening a directory and closing it again -/

/-- The same inodes are in memory, in whatever order. -/
structure SameTable (s t : Testfs) : Prop where
  sb : t.sb = s.sb
  find : ∀ x, t.find x = s.find x
  nodup : (t.inodes.map (·.iNr)).Nodup

theorem SameTable.trans (h : SameTable s t) (h' : SameTable t u) : SameTable s u where
  sb := h'.sb.trans h.sb
  find x := (h'.find x).trans (h.find x)
  nodup := h'.nodup

theorem SameTable.rest (h : SameTable s t) (hs : AtRest cur s) : AtRest cur t where
  nodup := h.nodup
  onDevice := by
    rw [h.sb]
    exact hs.onDevice
  counted nr ino hf := hs.counted nr ino ((h.find nr).symm.trans hf)
  clean nr ino hf := hs.clean nr ino ((h.find nr).symm.trans hf)

theorem dir_congr (hsb : t.sb = s.sb) (hd : ∀ x, t.dinode x = s.dinode x) : t.dir = s.dir := by
  funext x
  unfold Testfs.dir
  rw [hsb, hd x]

theorem SameTable.dir (h : SameTable s t) : t.dir = s.dir := by
  apply dir_congr h.sb
  intro x
  unfold Testfs.dinode
  rw [h.sb, h.find x]

/-- State `t` has inode `p` open once more than `s`. -/
structure Opened (cur : ℤ) (s : Testfs) (p : ℤ) (t : Testfs) (ino : Inode) : Prop where
  rest : AtRest cur t
  sb : t.sb = s.sb
  dinode : ∀ x, t.dinode x = s.dinode x
  find : t.find p = some ino
  din : ino.din = s.dinode p
  close : ∀ u, SameTable t u → ∃ v, testfsPutInode p u = some ((), v) ∧ SameTable s v

theorem AtRest.load (h : AtRest cur s) (hsb : t.sb = s.sb) (hn : (t.inodes.map (·.iNr)).Nodup)
    (hf : t.find p = some ino) (hc : 0 < ino.iCount) (hd : ino.dirty = false)
    (hother : ∀ x, x ≠ p → t.find x = s.find x) : AtRest cur t where
  nodup := hn
  onDevice := by
    rw [hsb]
    exact h.onDevice
  counted x y hy := by
    by_cases hx : x = p
    · rw [hx, hf] at hy
      exact Option.some.inj hy ▸ hc
    · exact h.counted x y ((hother x hx).symm.trans hy)
  clean x y hy hne := by
    by_cases hx : x = p
    · rw [hx, hf] at hy
      exact Option.some.inj hy ▸ hd
    · exact h.clean x y ((hother x hx).symm.trans hy) hne

theorem dinode_of_load (hsb : t.sb = s.sb) (hf : t.find p = some ino)
    (hdin : ino.din = s.dinode p) (hother : ∀ x, x ≠ p → t.find x = s.find x) (x : ℤ) :
    t.dinode x = s.dinode x := by
  by_cases hx : x = p
  · rw [hx, ← hdin]
    unfold Testfs.dinode
    rw [hf, Option.elim_some]
  · unfold Testfs.dinode
    rw [hother x hx, hsb]

/-- **A directory is opened**, and closing it leads back to the table there was. -/
theorem getInode_opened (h : AtRest cur s) (hr : 0 ≤ p ∧ p < maxInodes) (hp : p ≠ cur) :
    ∃ t ino, testfsGetInode p s = some ((), t) ∧ Opened cur s p t ino := by
  have hwp := getInode_found s p
  cases hf : s.find p with
  | some x =>
    -- one reference more, and one reference less again
    have hg : Assigns 1 fun ino : Inode => { ino with iCount := ino.iCount + 1 } :=
      ⟨fun _ => rfl, fun _ => rfl⟩
    have hg' : Assigns (-1) fun ino : Inode => { ino with iCount := ino.iCount - 1 } :=
      ⟨fun _ => rfl, fun _ => rfl⟩
    have hrun := getInode_hit hf
    obtain ⟨hsb, -, ⟨ino, hino, hdin⟩, hother⟩ := hwp.of_run hrun
    have hpos := h.counted p x hf
    have hclean := h.clean p x hf hp
    have heq : ino = { x with iCount := x.iCount + 1 } := by
      rw [find_update hg, hf, Option.map_some, if_pos (find_mem hf).2] at hino
      exact (Option.some.inj hino).symm
    refine ⟨_, ino, hrun, ?_, hsb, dinode_of_load hsb hino hdin hother, hino, hdin, ?_⟩
    · apply h.load hsb (update_nodup hg h.nodup) hino
      · rw [heq]
        simp only
        omega
      · rw [heq]
        exact hclean
      · exact hother
    · intro u hu
      have hfu : u.find p = some ino := (hu.find p).trans hino
      refine ⟨_, putInode_release hfu ?_ ?_, hu.sb.trans hsb, ?_, update_nodup hg' hu.nodup⟩
      · rw [heq]
        exact hclean
      · rw [heq]
        simp only
        omega
      · intro y
        by_cases hy : y = p
        · rw [hy, find_update hg', hfu, Option.map_some, if_pos (find_mem hfu).2, hf, heq]
          simp
        · exact (find_update_of_ne hg' hy).trans ((hu.find y).trans (hother y hy))
  | none =>
    -- the inode is loaded, and dropped again
    have hrun := getInode_load hf h.onDevice hr
    obtain ⟨hsb, -, ⟨ino, hino, hdin⟩, hother⟩ := hwp.of_run hrun
    have heq : ino = ⟨s.sb.diskInode p, false, p, 1⟩ := by
      simpa [Testfs.find, inodeHashFind] using hino.symm
    refine ⟨_, ino, hrun, ?_, hsb, dinode_of_load hsb hino hdin hother, hino, hdin, ?_⟩
    · apply h.load hsb (load_nodup hf h.nodup) hino
      · rw [heq]
        exact Int.one_pos
      · rw [heq]
      · exact hother
    · intro u hu
      have hfu : u.find p = some ino := (hu.find p).trans hino
      have hsub : (inodeHashRemove u.inodes p).Sublist u.inodes := List.eraseP_sublist
      refine ⟨_, putInode_drop hfu ?_ ?_, hu.sb.trans hsb, ?_, hu.nodup.sublist (hsub.map _)⟩
      · rw [heq]
      · rw [heq]
      · intro y
        have hrem := find_remove p y hu.nodup
        by_cases hy : y = p
        · rw [if_pos hy] at hrem
          rw [hy] at hrem ⊢
          rw [hf]
          exact hrem
        · rw [if_neg hy] at hrem
          exact hrem.trans ((hu.find y).trans (hother y hy))

/-! ### The way down -/

theorem lookupName_run (h : AtRest cur s) (hD : s.dir p = some l) (hn : (l.map Prod.fst).Nodup)
    (hm : (n, c) ∈ l) (hp : p ≠ cur) : ∃ t, lookupName p n s = some (c, t) ∧ SameTable s t := by
  obtain ⟨t, ino, hget, ho⟩ := getInode_opened h (dir_eq_some hD).1 hp
  have hDt : t.dir p = some l := by
    rw [dir_congr ho.sb ho.dinode]
    exact hD
  have hlook : reads (fun s : Testfs => testfsDirNameToInodeNr s.sb ino n) t = some (c, t) := by
    apply reads_run
    exact dirNameToInodeNr_mem hDt hn hm (ho.din.trans (ho.dinode p).symm)
  obtain ⟨v, hput, hv⟩ := ho.close t ⟨rfl, fun _ => rfl, ho.rest.nodup⟩
  refine ⟨v, ?_, hv⟩
  unfold lookupName
  rw [bind_of_run hget, bind_of_run (inode_run ho.find), bind_of_run hlook, bind_of_run hput]
  rfl

/-- No directory above the current one is the current one. -/
theorem above_ne (ht : DirTree D) (he : Child D p n c) (hd : Run (Child D) c ms cur) : p ≠ cur := by
  intro heq
  obtain ⟨l, hl, -⟩ := id he
  rw [← heq] at hd
  cases ht.tree.no_cycle (Option.isSome_of_eq_some hl) (Run.cons he hd)

/-- **Looking the names of a path up leads to its end.** -/
theorem lookupPath_run {a : ℤ} (ht : DirTree D) (hr : Run (Child D) a ns c)
    (hd : Run (Child D) c ms cur) (h : AtRest cur s) (hD : s.dir = D) :
    ∃ t, lookupPath ns a s = some (c, t) ∧ SameTable s t := by
  induction hr generalizing ms with
  | nil => exact ⟨s, rfl, rfl, fun _ => rfl, h.nodup⟩
  | @snoc p c ns n hr he ih =>
    obtain ⟨t, hrun, hst⟩ := ih (Run.cons he hd)
    obtain ⟨l, hl, hm, -⟩ := id he
    have hlt : t.dir p = some l := by
      rw [hst.dir, hD]
      exact hl
    obtain ⟨u, hname, htu⟩ :=
      lookupName_run (hst.rest h) hlt (ht.names p l hl) hm (above_ne ht he hd)
    exact ⟨u, lookupPath_snoc hrun hname, hst.trans htu⟩

/-! ### The climb -/

theorem number_unique {b : ℤ} (hn : (l.map Prod.fst).Nodup) (hc : (name, c) ∈ l)
    (hb : (name, b) ∈ l) : c = b := by
  have hfc := find_of_mem hn hc
  rw [find_of_mem hn hb, Option.some_inj, Prod.mk.injEq] at hfc
  exact hfc.2.symm

/-- The parent of a directory on a path from the root. -/
theorem up_cases (ht : DirTree D) (hr : Run (Child D) 0 ns p) (hl : D p = some l) :
    (p = 0 ∧ (CString.dotdot, 0) ∈ l) ∨ ∃ q m, Child D q m p ∧ (CString.dotdot, q) ∈ l := by
  generalize ha : (0 : ℤ) = a at hr
  cases hr with
  | nil =>
    subst ha
    exact Or.inl ⟨rfl, ht.rootUp l hl⟩
  | @snoc q _ ns m hr he => exact Or.inr ⟨q, m, he, ht.up q m p l he hl⟩

/-- **The name found for a subdirectory** is the name of its entry: neither `.` nor `..` has its
number. -/
theorem name_found (ht : DirTree D) (hr : Run (Child D) 0 ns p) (he : Child D p n c)
    (hl : D p = some l) (hm : (m, c) ∈ l) : m = n := by
  have hV : (D p).isSome := Option.isSome_of_eq_some hl
  obtain ⟨_, _, _, _, _, hVc⟩ := id he
  have hdot : m ≠ CString.dot := by
    intro hd
    rw [hd] at hm
    exact ht.tree.edge_ne hV he (number_unique (ht.names p l hl) (ht.dot p l hl) hm)
  have hdotdot : m ≠ CString.dotdot := by
    intro hd
    rw [hd] at hm
    rcases up_cases ht hr hl with ⟨h0, hup⟩ | ⟨q, k, hq, hup⟩
    · apply ht.tree.edge_ne hV he
      rw [h0]
      exact number_unique (ht.names p l hl) hup hm
    · have hqc := number_unique (ht.names p l hl) hup hm
      rw [hqc] at hq
      exact ht.tree.edge_not_back hV he hq
  exact ht.tree.label_unique hV hVc ⟨l, hl, hm, hdot, hdotdot, hVc⟩ he

/-- What a call of `testfs_pwd` does at a directory below the root. -/
theorem pwd_step {fuel : ℕ} {d : Dirent} {r : ℤ} {out : List Byte} {v : Testfs} {x pIn : Inode}
    (hx : s.find nr = some x) (hlook : testfsDirNameToInodeNr s.sb x CString.dotdot = some p)
    (hp : 0 ≤ p) (hne : p ≠ nr) (hget : testfsGetInode p s = some ((), t))
    (hpIn : t.find p = some pIn) (hfind : testfsFindDirent t.sb pIn nr = some (some d))
    (hrec : testfsPwd fuel p t = some ((r, out), u)) (hput : testfsPutInode p u = some ((), v)) :
    testfsPwd (fuel + 1) nr s =
      some ((0, out ++ (if r = 1 then [] else [slash]) ++ printName d), v) := by
  have hlook' : reads (fun s : Testfs => testfsDirNameToInodeNr s.sb x CString.dotdot) s =
      some (p, s) := reads_run hlook
  have hfind' : reads (fun s : Testfs => testfsFindDirent s.sb pIn nr) t = some (some d, t) :=
    reads_run hfind
  rw [testfsPwd, bind_of_run (inode_run hx), bind_of_run hlook', bind_of_run (require_run hp),
    if_neg hne, bind_of_run hget, bind_of_run (inode_run hpIn), bind_of_run hfind']
  simp only
  rw [bind_of_run hrec]
  simp only
  rw [bind_of_run hput]
  rfl

theorem pwd_root {fuel : ℕ} {x : Inode} (hx : s.find 0 = some x)
    (hlook : testfsDirNameToInodeNr s.sb x CString.dotdot = some 0) :
    testfsPwd (fuel + 1) 0 s = some ((1, [slash]), s) := by
  have hlook' : reads (fun s : Testfs => testfsDirNameToInodeNr s.sb x CString.dotdot) s =
      some (0, s) := reads_run hlook
  rw [testfsPwd, bind_of_run (inode_run hx), bind_of_run hlook', bind_of_run (require_run le_rfl),
    if_pos rfl]
  rfl

/-- The inode in memory is the one that is read. -/
theorem din_of_find {x : Inode} (hx : s.find nr = some x) : x.din = s.dinode nr := by
  unfold Testfs.dinode
  rw [hx, Option.elim_some]

/-- **The climb from a directory prints its path**, and leaves the table as it was. -/
theorem pwd_run (ht : DirTree D) {a : ℤ} (ha : a = 0) (hr : Run (Child D) a ns nr)
    (hd : Run (Child D) nr ms cur) (h : AtRest cur s) (hD : s.dir = D)
    (hheld : (s.find nr).isSome) :
    ∃ r u, (∀ fuel, ns.length < fuel → testfsPwd fuel nr s = some ((r, printPath ns), u)) ∧
      SameTable s u ∧ (r = 1 ↔ ns = []) := by
  induction hr generalizing ms s with
  | nil =>
    subst ha
    obtain ⟨x, hx⟩ := Option.isSome_iff_exists.1 hheld
    obtain ⟨l, hl⟩ := Option.isSome_iff_exists.1 ht.tree.vertex
    have hls : s.dir 0 = some l := by
      rw [hD]
      exact hl
    have hlook := dirNameToInodeNr_mem hls (ht.names 0 l hl) (ht.rootUp l hl) (din_of_find hx)
    refine ⟨1, s, ?_, ⟨rfl, fun _ => rfl, h.nodup⟩, by simp⟩
    intro fuel hfuel
    obtain ⟨f, rfl⟩ : ∃ f, fuel = f + 1 := ⟨fuel - 1, by omega⟩
    exact pwd_root hx hlook
  | @snoc p c ns n hr he ih =>
    obtain ⟨x, hx⟩ := Option.isSome_iff_exists.1 hheld
    obtain ⟨l, hl, hm, _, _, hV⟩ := id he
    obtain ⟨lc, hlc⟩ := Option.isSome_iff_exists.1 hV
    have hls : s.dir c = some lc := by
      rw [hD]
      exact hlc
    have hlook := dirNameToInodeNr_mem hls (ht.names c lc hlc) (ht.up p n c lc he hlc)
      (din_of_find hx)
    -- open the parent
    have hlp : s.dir p = some l := by
      rw [hD]
      exact hl
    have hrange := (dir_eq_some hlp).1
    obtain ⟨t, pIn, hget, ho⟩ := getInode_opened h hrange (above_ne ht he hd)
    have hDt : t.dir = D := (dir_congr ho.sb ho.dinode).trans hD
    have hlt : t.dir p = some l := by
      rw [hDt]
      exact hl
    obtain ⟨d, m, hfind, hname, hmem⟩ :=
      findDirent_mem hlt hm (dir_eq_some hls).1.1 (din_of_find ho.find)
    have hmn : m = n := by
      rw [ha] at hr
      exact name_found ht hr he hl hmem
    -- climb on from the parent, and close it
    obtain ⟨r, u, hrec, hsame, hroot⟩ :=
      ih (Run.cons he hd) ho.rest hDt (Option.isSome_of_eq_some ho.find)
    obtain ⟨v, hput, hv⟩ := ho.close u hsame
    refine ⟨0, v, ?_, hv, by simp⟩
    intro fuel hfuel
    rw [List.length_append, List.length_singleton] at hfuel
    obtain ⟨f, rfl⟩ : ∃ f, fuel = f + 1 := ⟨fuel - 1, by omega⟩
    have hne : p ≠ c := ht.tree.edge_ne (Option.isSome_of_eq_some hl) he
    rw [pwd_step hx hlook hrange.1 hne hget ho.find hfind (hrec f (by omega)) hput,
      printPath_snoc, (cname_eq_some hname).1, hmn]
    simp only [hroot]

/-- **What `pwd` prints is the path from the root to the current directory**: `testfs_pwd` comes
to its end without a failed assertion, and looking the printed names up one after another from
the root leads back. -/
theorem pwd_leads_back (ht : DirTree s.dir) (h : AtRest cur s) (hheld : (s.find cur).isSome)
    (hcur : (s.dir cur).isSome) : ∃ ns r t,
      (∀ fuel, ns.length < fuel → testfsPwd fuel cur s = some ((r, printPath ns), t)) ∧
      (∃ u, lookupPath ns 0 t = some (cur, u)) ∧ (ns = [] ↔ cur = 0) := by
  obtain ⟨ns, hr, -⟩ := ht.tree.path cur hcur
  obtain ⟨r, t, hrun, hsame, -⟩ := pwd_run ht rfl hr (.nil cur) h rfl hheld
  obtain ⟨u, hlook, -⟩ := lookupPath_run ht hr (.nil cur) (hsame.rest h) hsame.dir
  exact ⟨ns, r, t, hrun, ⟨u, hlook⟩, ht.tree.path_nil_iff hr⟩

/-! ### A root with one subdirectory -/

def subName : CString := ⟨[0x73], by decide⟩

def rootBytes : List Byte :=
  direntBytes CString.dot 0 ++ direntBytes CString.dotdot 0 ++ direntBytes subName 1

def subBytes : List Byte := direntBytes CString.dot 1 ++ direntBytes CString.dotdot 0

/-- A directory of one block. -/
def dirInode (block size : ℤ) : DInode := { DInode.zero with
  iType := iDir
  iBlockNr := fun k => if (k : ℕ) = 0 then block else 0
  blockCount := 1
  iSize := size }

/-- The root in block 146 and its subdirectory in block 147, both open. -/
def treeFs : Testfs where
  sb := {
    sb := ⟨1, 2, 18, 146, 2, 2, 2⟩
    dev := {
      data := fun b =>
        if b = 146 then Block.ofFn fun i => rootBytes.getD i 0
        else if b = 147 then Block.ofFn fun i => subBytes.getD i 0
        else Block.zero
      len := 148 }
    inodeFreemap := ⟨0, fun _ => 0⟩
    blockFreemap := ⟨0, fun _ => 0⟩ }
  inodes := [⟨dirInode 147 21, false, 1, 1⟩, ⟨dirInode 146 31, false, 0, 1⟩]
  curDir := 1

/-- Its directories. -/
def treeDirs (p : ℤ) : Option (List (CString × ℤ)) :=
  if p = 0 then some [(CString.dot, 0), (CString.dotdot, 0), (subName, 1)]
  else if p = 1 then some [(CString.dot, 1), (CString.dotdot, 0)]
  else none

theorem treeFs_root : treeFs.dir 0 = treeDirs 0 := by decide +kernel

theorem treeFs_sub : treeFs.dir 1 = treeDirs 1 := by decide +kernel

/-- Every other inode on the device is zero. -/
theorem treeFs_other {p : ℤ} (h0 : p ≠ 0) (h1 : p ≠ 1) : treeFs.dir p = none := by
  unfold Testfs.dir
  apply if_neg
  rintro ⟨hp, hlt, htype⟩
  have hfind : treeFs.find p = none := by
    unfold Testfs.find inodeHashFind treeFs
    simp [h0.symm, h1.symm]
  have hzero : treeFs.dinode p = DInode.zero := by
    obtain ⟨hle, hbound⟩ := inodeBlock_bounds treeFs.sb ⟨hp, hlt⟩
    have hstart : (treeFs.sb.sb.inodeBlocksStart : ℤ) + nrInodeBlocks = 146 := rfl
    rw [hstart] at hbound
    have hdata : ∀ b < 146, treeFs.sb.dev.data b = Block.zero := by
      intro b hb
      unfold treeFs
      simp only
      rw [if_neg hb.ne, if_neg (by omega)]
    unfold Testfs.dinode
    rw [hfind, Option.elim_none]
    apply decode_zero
    intro i
    show (treeFs.sb.dev.data (treeFs.sb.inodeBlock p)).get _ = 0
    rw [hdata _ hbound, Block.get_zero]
  rw [hzero] at htype
  cases htype

theorem treeFs_dir : treeFs.dir = treeDirs := by
  funext p
  by_cases h0 : p = 0
  · rw [h0]
    exact treeFs_root
  · by_cases h1 : p = 1
    · rw [h1]
      exact treeFs_sub
    · unfold treeDirs
      rw [treeFs_other h0 h1, if_neg h0, if_neg h1]

theorem treeDirs_isSome (h : (treeDirs p).isSome) : p = 0 ∨ p = 1 := by
  unfold treeDirs at h
  split_ifs at h
  · left
    assumption
  · right
    assumption
  · cases h

/-- There is one edge. -/
theorem treeDirs_child : Child treeDirs p n c ↔ p = 0 ∧ n = subName ∧ c = 1 := by
  constructor
  · rintro ⟨l, hl, hm, hdot, hdotdot, -⟩
    unfold treeDirs at hl
    split_ifs at hl with h0 h1
    · cases hl
      simp only [List.mem_cons, Prod.mk.injEq, hdot, hdotdot, false_and, false_or,
        List.not_mem_nil, or_false] at hm
      exact ⟨h0, hm⟩
    · cases hl
      simp only [List.mem_cons, Prod.mk.injEq, hdot, hdotdot, false_and, false_or,
        List.not_mem_nil] at hm
  · rintro ⟨rfl, rfl, rfl⟩
    exact ⟨_, rfl, by simp, by decide, by decide, rfl⟩

theorem treeDirs_tree : RootedTree (Child treeDirs) (fun p => (treeDirs p).isSome) 0 where
  vertex := rfl
  path := by
    have hroot : ∀ ns, Run (Child treeDirs) 0 ns 0 → ns = [] := by
      intro ns hr
      generalize hb : (0 : ℤ) = b at hr
      cases hr with
      | nil => rfl
      | snoc hr he =>
        have hc := (treeDirs_child.1 he).2.2
        omega
    intro b hb
    rcases treeDirs_isSome hb with rfl | rfl
    · exact ⟨[], .nil 0, hroot⟩
    · refine ⟨[subName], Run.edge (treeDirs_child.2 ⟨rfl, rfl, rfl⟩), ?_⟩
      intro ns hr
      generalize hb : (1 : ℤ) = b at hr
      cases hr with
      | nil => cases hb
      | snoc hr he =>
        obtain ⟨rfl, rfl, -⟩ := treeDirs_child.1 he
        rw [hroot _ hr]
        rfl

theorem treeFs_tree : DirTree treeFs.dir := by
  rw [treeFs_dir]
  constructor
  · exact treeDirs_tree
  · intro p l hl
    unfold treeDirs at hl
    split_ifs at hl <;> cases hl <;> decide
  · intro p l hl
    unfold treeDirs at hl
    split_ifs at hl with h0 h1 <;> cases hl
    · simp [h0]
    · simp [h1]
  · intro l hl
    cases hl
    simp
  · intro p n c l he hl
    obtain ⟨rfl, -, rfl⟩ := treeDirs_child.1 he
    cases hl
    simp

theorem treeFs_rest : AtRest 1 treeFs where
  nodup := by decide
  onDevice := by
    show (18 : ℤ) + (128 : ℕ) ≤ 148
    decide
  counted nr ino hf := by
    have hmem := (find_mem hf).1
    unfold treeFs at hmem
    simp only [List.mem_cons, List.not_mem_nil, or_false] at hmem
    rcases hmem with rfl | rfl
    · exact Int.one_pos
    · exact Int.one_pos
  clean nr ino hf _ := by
    have hmem := (find_mem hf).1
    unfold treeFs at hmem
    simp only [List.mem_cons, List.not_mem_nil, or_false] at hmem
    rcases hmem with rfl | rfl
    · rfl
    · rfl

/-- In the subdirectory. -/
theorem pwd_leads_back_sub : ∃ ns r t,
    (∀ fuel, ns.length < fuel → testfsPwd fuel 1 treeFs = some ((r, printPath ns), t)) ∧
    (∃ u, lookupPath ns 0 t = some (1, u)) ∧ (ns = [] ↔ (1 : ℤ) = 0) :=
  pwd_leads_back treeFs_tree treeFs_rest (by decide) (by rw [treeFs_sub]; decide)

end OSLab.Fs

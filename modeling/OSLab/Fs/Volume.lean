import OSLab.Fs.Shell
import OSLab.Lib.RootedTree
import Mathlib.Data.Set.Card

/-!
# What the file system is for

A `Volume` is the file system as its user sees it: numbered nodes, each a file or a directory, and
the current directory. `Volume.Step` says what each command replies and what it does to the volume.
What it leaves open is

* the number of a new node,
* the bytes of a file that no write has stored,
* the order of a listing,
* the numbers of blocks that `stat` and `fsstat` print, and the size that `stat` prints for a
  directory.

`Volume.Step.ok`: the nodes stay a tree, in which every directory knows itself and its parent.
-/

namespace OSLab.Fs

/-- A file knows its size and the bytes that were written, `none` where none was. A directory maps
names to numbers, `.` and `..` among them. -/
inductive Node
  | file (size : ℕ) (bytes : ℕ → Option Byte)
  | dir (entries : CString → Option ℤ)

namespace Node

def entries : Node → CString → Option ℤ
  | .file _ _ => fun _ => none
  | .dir entries => entries

def isDir : Node → Bool
  | .file _ _ => false
  | .dir _ => true

/-- A new file. -/
def newFile : Node := .file 0 fun _ => none

/-- A new directory `n` in directory `p`. -/
def newDir (n p : ℤ) : Node :=
  .dir fun name => if name = CString.dot then some n else if name = CString.dotdot then some p else none

/-- The bytes after a write at `p`. -/
def overwrite (bytes : ℕ → Option Byte) (p : ℕ) (data : List Byte) (i : ℕ) : Option Byte :=
  if p ≤ i ∧ i < p + data.length then data[i - p]? else bytes i

/-- A directory with entries other than `.` and `..` is not removed. -/
def Removable (nd : Node) : Prop :=
  ∀ name n, nd.entries name = some n → name = CString.dot ∨ name = CString.dotdot

theorem newDir_entries (n p : ℤ) (name : CString) : (newDir n p).entries name =
    if name = CString.dot then some n else if name = CString.dotdot then some p else none := rfl

theorem newDir_dot (n p : ℤ) : (newDir n p).entries CString.dot = some n := by
  rw [newDir_entries, if_pos rfl]

theorem newDir_dotdot (n p : ℤ) : (newDir n p).entries CString.dotdot = some p := by
  rw [newDir_entries, if_neg (by decide), if_pos rfl]

theorem removable_newDir (n p : ℤ) : (newDir n p).Removable := by
  intro name m h
  by_contra hno
  rw [not_or] at hno
  rw [newDir_entries, if_neg hno.1, if_neg hno.2] at h
  cases h

end Node

structure Volume where
  node : ℤ → Option Node
  cur : ℤ

variable {v w : Volume} {p q n m : ℤ} {name name' : CString} {nd : Node}

namespace Volume

/-- The entries of a directory; a file has none. -/
def entries (v : Volume) (n : ℤ) : CString → Option ℤ := (v.node n).elim (fun _ => none) Node.entries

def lookup (v : Volume) (name : CString) : Option ℤ := v.entries v.cur name

def isDir (v : Volume) (n : ℤ) : Bool := (v.node n).any Node.isDir

/-- The volume after node `n` was changed. -/
def set (v : Volume) (n : ℤ) (o : Option Node) : Volume :=
  { v with node := Function.update v.node n o }

/-- The volume after an entry of the current directory was changed. -/
def setEntry (v : Volume) (name : CString) (o : Option ℤ) : Volume :=
  v.set v.cur (some (.dir (Function.update (v.entries v.cur) name o)))

/-- A new node with an entry in the current directory. -/
def link (v : Volume) (name : CString) (n : ℤ) (nd : Node) : Volume :=
  (v.set n (some nd)).setEntry name (some n)

/-- The node and its entry in the current directory are removed. -/
def unlink (v : Volume) (name : CString) (n : ℤ) : Volume := (v.setEntry name none).set n none

/-- Below directory `p` there is `n`. -/
def Child (v : Volume) (p : ℤ) (name : CString) (n : ℤ) : Prop :=
  v.entries p name = some n ∧ name ≠ CString.dot ∧ name ≠ CString.dotdot

/-- `es` are the entries of a directory, in some order. -/
def Enumerates (v : Volume) (n : ℤ) (es : List (CString × ℤ)) : Prop :=
  (es.map Prod.fst).Nodup ∧ ∀ name m, (name, m) ∈ es ↔ v.entries n name = some m

/-- The line that `ls` prints for an entry. -/
def line (v : Volume) (e : CString × ℤ) : List Byte :=
  e.1.val ++ (if v.isDir e.2 then [slash] else []) ++ [newline]

/-- What `ls`, or the recursive `lsr`, prints for the entries of a directory. -/
inductive Lists (v : Volume) (recursive : Bool) : List (CString × ℤ) → List Byte → Prop
  | nil : Lists v recursive [] []
  | entry {e es out} (h : ¬(recursive = true ∧ v.isDir e.2 = true ∧ e.1 ≠ CString.dot ∧
      e.1 ≠ CString.dotdot)) (hr : Lists v recursive es out) :
      Lists v recursive (e :: es) (v.line e ++ out)
  | down {e es below out es'} (h : recursive = true ∧ v.isDir e.2 = true ∧ e.1 ≠ CString.dot ∧
      e.1 ≠ CString.dotdot) (he : v.Enumerates e.2 es') (hb : Lists v recursive es' below)
      (hr : Lists v recursive es out) : Lists v recursive (e :: es) (v.line e ++ below ++ out)

end Volume

/-- The command has a wrong number of arguments, or one that is not allowed. -/
def Command.Invalid (c : Command) : Prop :=
  match c.cmd, c.args with
  | .pwd, [] | .fsstat, [] => False
  | .cd, [_] | .ls, [_] | .lsr, [_] | .create, [_] | .stat, [_] | .mkdir, [_] => False
  | .rm, [name] => name = CString.dot ∨ name = CString.dotdot
  | .read, [_, offset, size] =>
    (∀ p : ℕ, strToOffset offset ≠ some (p : ℤ)) ∨ strToSize size = none
  | .write, [_, offset, _] => ∀ p : ℕ, strToOffset offset ≠ some (p : ℤ)
  | _, _ => True

/-- The name the command looks up, when it needs one that is there. -/
def Command.needs (c : Command) : Option CString :=
  if c.cmd = .create ∨ c.cmd = .mkdir then none else c.args.head?

namespace Volume

/-- **The commands.** -/
inductive Step (v : Volume) : Event → Volume → Prop
  | invalid {c : Command} (h : c.Invalid) : Step v ⟨c, (-einval, [])⟩ v
  | missing {c : Command} {name : CString} (h : ¬c.Invalid) (hn : c.needs = some name)
      (hl : v.lookup name = none) : Step v ⟨c, (-enoent, [])⟩ v
  | cd {name : CString} {n : ℤ} (hl : v.lookup name = some n) (hd : v.isDir n = true) :
      Step v ⟨⟨.cd, [name]⟩, (0, [])⟩ { v with cur := n }
  | cdFile {name : CString} {n : ℤ} (hl : v.lookup name = some n) (hd : v.isDir n = false) :
      Step v ⟨⟨.cd, [name]⟩, (-enotdir, [])⟩ v
  | pwd {names : List CString} (h : Run v.Child 0 names v.cur) :
      Step v ⟨⟨.pwd, []⟩, (0, slash :: List.intercalate [slash] (names.map (·.val)) ++ [newline])⟩ v
  | ls {c : Command} {name : CString} {n : ℤ} {es : List (CString × ℤ)} {out : List Byte}
      (hc : c = ⟨.ls, [name]⟩ ∨ c = ⟨.lsr, [name]⟩) (hl : v.lookup name = some n)
      (hd : v.isDir n = true) (he : v.Enumerates n es)
      (h : v.Lists (decide (c.cmd = .lsr)) es out) : Step v ⟨c, (0, out)⟩ v
  | taken {c : Command} {name : CString} {n : ℤ}
      (hc : c = ⟨.create, [name]⟩ ∨ c = ⟨.mkdir, [name]⟩) (hl : v.lookup name = some n) :
      Step v ⟨c, (-eexist, [])⟩ v
  | create {name : CString} {n : ℤ} (hl : v.lookup name = none) (hn : v.node n = none) :
      Step v ⟨⟨.create, [name]⟩, (0, [])⟩ (v.link name n .newFile)
  | mkdir {name : CString} {n : ℤ} (hl : v.lookup name = none) (hn : v.node n = none) :
      Step v ⟨⟨.mkdir, [name]⟩, (0, [])⟩ (v.link name n (.newDir n v.cur))
  | rm {name : CString} {n : ℤ} {nd : Node} (hv : ¬(⟨.rm, [name]⟩ : Command).Invalid)
      (hl : v.lookup name = some n) (hd : v.node n = some nd) (h : nd.Removable) :
      Step v ⟨⟨.rm, [name]⟩, (0, [])⟩ (v.unlink name n)
  | notEmpty {name : CString} {n : ℤ} {nd : Node} (hv : ¬(⟨.rm, [name]⟩ : Command).Invalid)
      (hl : v.lookup name = some n) (hd : v.node n = some nd) (h : ¬nd.Removable) :
      Step v ⟨⟨.rm, [name]⟩, (-enotempty, [])⟩ v
  | onDir {c : Command} {name : CString} {n : ℤ} (hc : c.cmd = .read ∨ c.cmd = .write)
      (hv : ¬c.Invalid) (hn : c.needs = some name) (hl : v.lookup name = some n)
      (hd : v.isDir n = true) : Step v ⟨c, (-eisdir, [])⟩ v
  | read {name offset size : CString} {n : ℤ} {p k fileSize : ℕ} {bytes : ℕ → Option Byte}
      {data : List Byte} (ho : strToOffset offset = some (p : ℤ)) (hs : strToSize size = some (k : ℤ))
      (hl : v.lookup name = some n) (hf : v.node n = some (.file fileSize bytes))
      (hin : p + k ≤ fileSize) (hk : data.length = k)
      (h : ∀ i < k, ∀ b, bytes (p + i) = some b → data[i]? = some b) :
      Step v ⟨⟨.read, [name, offset, size]⟩, (k, data.takeWhile (· ≠ 0) ++ [newline])⟩ v
  | pastEnd {name offset size : CString} {n : ℤ} {p k fileSize : ℕ} {bytes : ℕ → Option Byte}
      (ho : strToOffset offset = some (p : ℤ)) (hs : strToSize size = some (k : ℤ))
      (hl : v.lookup name = some n) (hf : v.node n = some (.file fileSize bytes))
      (hin : fileSize < p + k) : Step v ⟨⟨.read, [name, offset, size]⟩, (-einval, [])⟩ v
  | write {name offset data : CString} {n : ℤ} {p fileSize : ℕ} {bytes : ℕ → Option Byte}
      (ho : strToOffset offset = some (p : ℤ)) (hl : v.lookup name = some n)
      (hf : v.node n = some (.file fileSize bytes)) :
      Step v ⟨⟨.write, [name, offset, data]⟩, (data.length, [])⟩
        (v.set n (some (.file (max fileSize (p + data.length)) (Node.overwrite bytes p data.val))))
  | stat {name : CString} {n blocks size : ℤ} {nd : Node} (hl : v.lookup name = some n)
      (hd : v.node n = some nd) (hs : ∀ k bytes, nd = .file k bytes → size = k) :
      Step v ⟨⟨.stat, [name]⟩, (0, name.val ++ printString ": i_nr = " ++ printInt n ++
        printString ", i_type = " ++ printInt (if nd.isDir then iDir else iFile) ++
        printString ", i_size = " ++ printInt size ++
        printString ", block_count = " ++ printInt blocks ++ [newline])⟩ v
  | fsstat {blocks : ℕ} :
      Step v ⟨⟨.fsstat, []⟩, (0, printString "nr of allocated inodes = " ++
        printInt (Set.ncard {n | (v.node n).isSome}) ++ [newline] ++
        printString "nr of allocated blocks = " ++ printInt blocks ++ [newline])⟩ v

/-! ### The tree of the nodes -/

/-- **The volume is a tree.** Every entry leads to a node, `.` to the directory itself and `..` to
the directory it is in. -/
structure OK (v : Volume) : Prop where
  tree : RootedTree v.Child (fun n => (v.node n).isSome) 0
  target : ∀ p name n, v.entries p name = some n → (v.node n).isSome
  dot : ∀ p, v.isDir p = true → v.entries p CString.dot = some p
  rootUp : v.entries 0 CString.dotdot = some 0
  up : ∀ p name n, v.Child p name n → v.isDir n = true → v.entries n CString.dotdot = some p
  root : v.isDir 0 = true
  curDir : v.isDir v.cur = true

theorem entries_of_node (h : v.node n = some nd) : v.entries n = nd.entries := by
  unfold entries
  rw [h]
  rfl

theorem isDir_of_node (h : v.node n = some nd) : v.isDir n = nd.isDir := by
  unfold isDir
  rw [h]
  rfl

theorem node_of_isDir (h : v.isDir n = true) : v.node n = some (.dir (v.entries n)) := by
  unfold isDir at h
  cases hn : v.node n with
  | none =>
    rw [hn] at h
    cases h
  | some nd =>
    rw [entries_of_node hn]
    rw [hn] at h
    cases nd with
    | file => cases h
    | dir => rfl

/-- Only directories have entries. -/
theorem isDir_of_entry (h : v.entries p name = some n) : v.isDir p = true := by
  unfold entries at h
  unfold isDir
  cases hn : v.node p with
  | none =>
    rw [hn] at h
    cases h
  | some nd =>
    rw [hn] at h
    cases nd with
    | file => cases h
    | dir => rfl

theorem isSome_of_isDir (h : v.isDir p = true) : (v.node p).isSome := by
  rw [node_of_isDir h]
  rfl

theorem child_end (p : ℤ) (name : CString) (n m : ℤ) (hn : v.Child p name n)
    (hm : v.Child p name m) : n = m := Option.some.inj (hn.1.symm.trans hm.1)

namespace OK

theorem edge (h : v.OK) (p : ℤ) (name : CString) (n : ℤ) (he : v.Child p name n) :
    (v.node p).isSome ∧ (v.node n).isSome :=
  ⟨isSome_of_isDir (isDir_of_entry he.1), h.target p name n he.1⟩

theorem child (_ : v.OK) (hl : v.lookup name = some n) (hd : name ≠ CString.dot)
    (hdd : name ≠ CString.dotdot) : v.Child v.cur name n := ⟨hl, hd, hdd⟩

/-- The current directory is not an entry of its own. -/
theorem child_ne_cur (h : v.OK) (hc : v.Child v.cur name n) : n ≠ v.cur :=
  (h.tree.edge_ne (h.edge _ _ _ hc).1 hc).symm

theorem child_ne_root (h : v.OK) (hc : v.Child p name n) : n ≠ 0 :=
  h.tree.edge_ne_root (h.edge _ _ _ hc).1 hc

/-- A node without entries of its own is reached by one entry only. -/
theorem entry_unique (h : v.OK) (hc : v.Child p name n)
    (hleaf : ∀ name m, v.entries n name = some m → name = CString.dot ∨ name = CString.dotdot)
    (hq : v.entries q name' = some n) (hne : q ≠ n) : q = p ∧ name' = name := by
  have hedge := h.edge _ _ _ hc
  have hdir := isDir_of_entry hq
  by_cases hd : name' = CString.dot
  · rw [hd, h.dot q hdir] at hq
    exact absurd (Option.some.inj hq) hne
  by_cases hdd : name' = CString.dotdot
  · -- the parent of `q` would be `n`
    rw [hdd] at hq
    obtain ⟨ns, hr, -⟩ := h.tree.path q (isSome_of_isDir hdir)
    cases hr with
    | nil =>
      rw [h.rootUp] at hq
      exact absurd (Option.some.inj hq).symm (h.child_ne_root hc)
    | snoc _ he =>
      rw [h.up _ _ _ he hdir] at hq
      rw [Option.some.inj hq] at he
      rcases hleaf _ _ he.1 with hx | hx
      · exact absurd hx he.2.1
      · exact absurd hx he.2.2
  exact h.tree.edge_unique child_end (isSome_of_isDir hdir) hedge.1 hedge.2 ⟨hq, hd, hdd⟩ hc

/-- A change that keeps the directories. -/
theorem congr (h : v.OK) (hentries : ∀ p, w.entries p = v.entries p)
    (hdir : ∀ p, w.isDir p = v.isDir p) (hsome : ∀ p, (w.node p).isSome = (v.node p).isSome)
    (hcur : v.isDir w.cur = true) : w.OK := by
  have hchild : w.Child = v.Child := by
    funext p name n
    unfold Child
    rw [hentries]
  have hnodes : (fun n => ((w.node n).isSome = true)) = fun n => ((v.node n).isSome = true) := by
    funext n
    rw [hsome]
  refine ⟨?_, ?_, ?_, ?_, ?_, ?_, ?_⟩
  · rw [hchild, hnodes]
    exact h.tree
  · intro p name n he
    rw [hsome]
    rw [hentries] at he
    exact h.target p name n he
  · intro p hp
    rw [hdir] at hp
    rw [hentries]
    exact h.dot p hp
  · rw [hentries]
    exact h.rootUp
  · intro p name n hc hn
    rw [hchild] at hc
    rw [hdir] at hn
    rw [hentries]
    exact h.up p name n hc hn
  · rw [hdir]
    exact h.root
  · rw [hdir]
    exact hcur

end OK

/-! ### Adding and removing a node -/

theorem node_set (v : Volume) (n : ℤ) (o : Option Node) (q : ℤ) :
    (v.set n o).node q = if q = n then o else v.node q := Function.update_apply ..

theorem entries_set_of_ne (v : Volume) (o : Option Node) (hne : q ≠ n) :
    (v.set n o).entries q = v.entries q := by
  unfold entries
  rw [node_set, if_neg hne]

theorem node_link (hne : n ≠ v.cur) (q : ℤ) : (v.link name n nd).node q =
    if q = v.cur then some (.dir (Function.update (v.entries v.cur) name (some n)))
    else if q = n then some nd else v.node q := by
  have hc : (v.set n (some nd)).cur = v.cur := rfl
  unfold link setEntry
  rw [hc, entries_set_of_ne v _ hne.symm, node_set, node_set]

theorem node_unlink (q : ℤ) : (v.unlink name n).node q =
    if q = n then none
    else if q = v.cur then some (.dir (Function.update (v.entries v.cur) name none))
    else v.node q := by
  unfold unlink setEntry
  rw [node_set, node_set]

theorem entries_link (hne : n ≠ v.cur) (q : ℤ) : (v.link name n nd).entries q =
    if q = v.cur then Function.update (v.entries v.cur) name (some n)
    else if q = n then nd.entries else v.entries q := by
  unfold entries
  rw [node_link hne]
  split_ifs <;> rfl

theorem isDir_link (hne : n ≠ v.cur) (q : ℤ) : (v.link name n nd).isDir q =
    if q = v.cur then true else if q = n then nd.isDir else v.isDir q := by
  unfold isDir
  rw [node_link hne]
  split_ifs <;> rfl

theorem entries_unlink (q : ℤ) : (v.unlink name n).entries q =
    if q = n then fun _ => none
    else if q = v.cur then Function.update (v.entries v.cur) name none else v.entries q := by
  unfold entries
  rw [node_unlink]
  split_ifs <;> rfl

theorem isDir_unlink (q : ℤ) : (v.unlink name n).isDir q =
    if q = n then false else if q = v.cur then true else v.isDir q := by
  unfold isDir
  rw [node_unlink]
  split_ifs <;> rfl

namespace OK

theorem dotdot_isSome (h : v.OK) (hp : v.isDir p = true) :
    (v.entries p CString.dotdot).isSome := by
  obtain ⟨ns, hr, -⟩ := h.tree.path p (isSome_of_isDir hp)
  cases hr with
  | nil =>
    rw [h.rootUp]
    rfl
  | snoc _ he =>
    rw [h.up _ _ _ he hp]
    rfl

/-- A name that is not found is a proper one. -/
theorem proper_of_missing (h : v.OK) (hl : v.lookup name = none) :
    name ≠ CString.dot ∧ name ≠ CString.dotdot := by
  constructor
  · rintro rfl
    have hd := h.dot _ h.curDir
    unfold lookup at hl
    rw [hl] at hd
    cases hd
  · rintro rfl
    have hd := h.dotdot_isSome h.curDir
    unfold lookup at hl
    rw [hl] at hd
    cases hd

/-- **A new node.** -/
theorem link (h : v.OK) (hl : v.lookup name = none) (hn : v.node n = none) (hr : nd.Removable)
    (hdot : nd.isDir = true → nd.entries CString.dot = some n)
    (hup : nd.isDir = true → nd.entries CString.dotdot = some v.cur) :
    (v.link name n nd).OK := by
  have hne : n ≠ v.cur := by
    intro hc
    rw [hc, node_of_isDir h.curDir] at hn
    cases hn
  have hnone : ∀ q m, v.entries q m ≠ some n := by
    intro q m he
    have ht := h.target q m n he
    rw [hn] at ht
    cases ht
  have hn0 : n ≠ 0 := by
    intro h0
    rw [h0, node_of_isDir h.root] at hn
    cases hn
  obtain ⟨hnd, hndd⟩ := h.proper_of_missing hl
  have hsome : ∀ q, ((v.link name n nd).node q).isSome = true ↔ (v.node q).isSome ∨ q = n := by
    intro q
    rw [node_link hne]
    split_ifs with hq hq'
    · rw [hq, node_of_isDir h.curDir]
      exact iff_of_true rfl (Or.inl rfl)
    · exact iff_of_true rfl (Or.inr hq')
    · exact ⟨Or.inl, fun hh => hh.resolve_right hq'⟩
  have hchild : ∀ q m b, (v.link name n nd).Child q m b ↔
      v.Child q m b ∨ q = v.cur ∧ m = name ∧ b = n := by
    intro q m b
    unfold Child
    rw [entries_link hne]
    split_ifs with hq hq'
    · subst hq
      by_cases hm : m = name
      · subst hm
        unfold lookup at hl
        rw [Function.update_self, hl]
        constructor
        · intro hh
          exact Or.inr ⟨rfl, rfl, (Option.some.inj hh.1).symm⟩
        · intro hh
          rcases hh with hh | hh
          · cases hh.1
          · exact ⟨congrArg some hh.2.2.symm, hnd, hndd⟩
      · rw [Function.update_of_ne hm]
        exact ⟨Or.inl, fun hh => hh.resolve_right fun hx => hm hx.2.1⟩
    · subst hq'
      have hold : v.entries q m ≠ some b := by
        unfold entries
        rw [hn]
        exact fun hh => by cases hh
      constructor
      · intro hh
        rcases hr m b hh.1 with hx | hx
        · exact absurd hx hh.2.1
        · exact absurd hx hh.2.2
      · intro hh
        rcases hh with hh | hh
        · exact absurd hh.1 hold
        · exact absurd hh.1 hq
    · exact ⟨Or.inl, fun hh => hh.resolve_right fun hx => hq hx.1⟩
  refine ⟨?_, ?_, ?_, ?_, ?_, ?_, ?_⟩
  · exact h.tree.addLeaf h.edge (isSome_of_isDir h.curDir) (by rw [hn]; exact fun hx => by cases hx)
      hchild hsome
  · intro q m b he
    rw [entries_link hne] at he
    rw [hsome]
    split_ifs at he with hq hq'
    · by_cases hm : m = name
      · rw [hm, Function.update_self] at he
        exact Or.inr (Option.some.inj he).symm
      · rw [Function.update_of_ne hm] at he
        exact Or.inl (h.target _ _ _ he)
    · subst hq'
      have hdir : nd.isDir = true := by
        cases nd with
        | file => cases he
        | dir => rfl
      rcases hr m b he with hm | hm
      · rw [hm, hdot hdir] at he
        exact Or.inr (Option.some.inj he).symm
      · rw [hm, hup hdir] at he
        rw [← Option.some.inj he]
        exact Or.inl (isSome_of_isDir h.curDir)
    · exact Or.inl (h.target _ _ _ he)
  · intro q hq
    rw [isDir_link hne] at hq
    rw [entries_link hne]
    split_ifs at hq ⊢ with hc hn'
    · rw [hc, Function.update_of_ne (Ne.symm hnd)]
      exact h.dot _ h.curDir
    · rw [hn']
      exact hdot hq
    · exact h.dot _ hq
  · rw [entries_link hne]
    split_ifs with hc hn'
    · rw [Function.update_of_ne (Ne.symm hndd), ← hc]
      exact h.rootUp
    · exact absurd hn'.symm hn0
    · exact h.rootUp
  · intro q m b hc hb
    rw [isDir_link hne] at hb
    rw [entries_link hne]
    rcases (hchild q m b).1 hc with hc | ⟨rfl, rfl, rfl⟩
    · have hbn : b ≠ n := fun hx => hnone q m (hx ▸ hc.1)
      rw [if_neg hbn] at hb ⊢
      split_ifs at hb ⊢ with hbc
      · rw [Function.update_of_ne (Ne.symm hndd), ← hbc]
        exact h.up _ _ _ hc (hbc ▸ h.curDir)
      · exact h.up _ _ _ hc hb
    · rw [if_neg hne] at hb ⊢
      rw [if_pos rfl] at hb ⊢
      exact hup hb
  · rw [isDir_link hne, if_neg (Ne.symm hn0), h.root, ite_self]
  · have hcur : (v.link name n nd).cur = v.cur := rfl
    rw [hcur, isDir_link hne, if_pos rfl]

/-- **A node without entries of its own is removed.** -/
theorem unlink (h : v.OK) (hc : v.Child v.cur name n) (hd : v.node n = some nd)
    (hr : nd.Removable) : (v.unlink name n).OK := by
  have hne := h.child_ne_cur hc
  have hn0 := h.child_ne_root hc
  have hleaf : ∀ m b, v.entries n m = some b → m = CString.dot ∨ m = CString.dotdot := by
    intro m b he
    rw [entries_of_node hd] at he
    exact hr m b he
  have hsome : ∀ q, ((v.unlink name n).node q).isSome = true ↔ (v.node q).isSome ∧ q ≠ n := by
    intro q
    rw [node_unlink]
    split_ifs with hq hq'
    · exact iff_of_false (fun hx => by cases hx) fun hx => hx.2 hq
    · rw [hq', node_of_isDir h.curDir]
      exact iff_of_true rfl ⟨rfl, hne.symm⟩
    · exact ⟨fun hx => ⟨hx, hq⟩, And.left⟩
  have hentry : ∀ q m b, (v.unlink name n).entries q m = some b →
      v.entries q m = some b ∧ q ≠ n ∧ ¬(q = v.cur ∧ m = name) := by
    intro q m b he
    rw [entries_unlink] at he
    split_ifs at he with hq hq'
    · subst hq'
      by_cases hm : m = name
      · rw [hm, Function.update_self] at he
        cases he
      · rw [Function.update_of_ne hm] at he
        exact ⟨he, hq, fun hx => hm hx.2⟩
    · exact ⟨he, hq, fun hx => hq' hx.1⟩
  have hentry' : ∀ q m, q ≠ n → ¬(q = v.cur ∧ m = name) →
      (v.unlink name n).entries q m = v.entries q m := by
    intro q m hq hqm
    rw [entries_unlink, if_neg hq]
    split_ifs with hq'
    · rw [Function.update_of_ne fun hm => hqm ⟨hq', hm⟩, hq']
    · rfl
  have hchild : ∀ q m b, (v.unlink name n).Child q m b ↔
      v.Child q m b ∧ ¬(q = v.cur ∧ m = name) := by
    intro q m b
    constructor
    · intro hx
      obtain ⟨he, -, hqm⟩ := hentry q m b hx.1
      exact ⟨⟨he, hx.2⟩, hqm⟩
    · rintro ⟨hx, hqm⟩
      have hq : q ≠ n := by
        rintro rfl
        rcases hleaf m b hx.1 with hm | hm
        · exact hx.2.1 hm
        · exact hx.2.2 hm
      exact ⟨(hentry' q m hq hqm).trans hx.1, hx.2⟩
  have hdir : ∀ q, (v.unlink name n).isDir q = true → v.isDir q = true ∧ q ≠ n := by
    intro q hq
    rw [isDir_unlink] at hq
    split_ifs at hq with h1 h2
    · exact ⟨h2 ▸ h.curDir, h1⟩
    · exact ⟨hq, h1⟩
  refine ⟨?_, ?_, ?_, ?_, ?_, ?_, ?_⟩
  · refine h.tree.removeLeaf child_end h.edge hc (fun m b hx => ?_) hchild hsome
    rcases hleaf m b hx.1 with hm | hm
    · exact hx.2.1 hm
    · exact hx.2.2 hm
  · intro q m b he
    obtain ⟨hold, hq, hqm⟩ := hentry q m b he
    refine (hsome b).2 ⟨h.target q m b hold, ?_⟩
    rintro rfl
    exact hqm (h.entry_unique hc hleaf hold hq)
  · intro q hq
    obtain ⟨hq, hqn⟩ := hdir q hq
    rw [hentry' q _ hqn fun hx => hc.2.1 hx.2.symm]
    exact h.dot q hq
  · rw [hentry' 0 _ hn0.symm fun hx => hc.2.2 hx.2.symm]
    exact h.rootUp
  · intro q m b hx hb
    obtain ⟨hb, hbn⟩ := hdir b hb
    rw [hentry' b _ hbn fun hy => hc.2.2 hy.2.symm]
    exact h.up q m b ((hchild q m b).1 hx).1 hb
  · rw [isDir_unlink, if_neg hn0.symm, h.root, ite_self]
  · have hcur : (v.unlink name n).cur = v.cur := rfl
    rw [hcur, isDir_unlink, if_neg hne.symm, if_pos rfl]

/-- Writing to a file. -/
theorem store (h : v.OK) {size size' : ℕ} {bytes bytes' : ℕ → Option Byte}
    (hf : v.node n = some (.file size bytes)) : (v.set n (some (.file size' bytes'))).OK := by
  refine h.congr ?_ ?_ ?_ h.curDir
  · intro q
    unfold entries
    rw [node_set]
    split_ifs with hq
    · rw [hq, hf]
      rfl
    · rfl
  · intro q
    unfold isDir
    rw [node_set]
    split_ifs with hq
    · rw [hq, hf]
      rfl
    · rfl
  · intro q
    rw [node_set]
    split_ifs with hq
    · rw [hq, hf]
      rfl
    · rfl

end OK

/-- **Every command keeps the tree.** -/
theorem Step.ok {e : Event} (hs : Step v e w) (h : v.OK) : w.OK := by
  cases hs with
  | cd hl hd => exact h.congr (fun _ => rfl) (fun _ => rfl) (fun _ => rfl) hd
  | create hl hn =>
    exact h.link hl hn (fun _ _ he => by cases he) (fun hd => by cases hd) fun hd => by cases hd
  | mkdir hl hn =>
    exact h.link hl hn (Node.removable_newDir _ _) (fun _ => Node.newDir_dot _ _)
      fun _ => Node.newDir_dotdot _ _
  | rm hv hl hd hr =>
    have hv : ¬(_ = CString.dot ∨ _ = CString.dotdot) := hv
    rw [not_or] at hv
    exact h.unlink ⟨hl, hv⟩ hd hr
  | write _ _ hf => exact h.store hf
  | _ => exact h

/-- The volume of a new file system. -/
def new : Volume := ⟨fun n => if n = 0 then some (.newDir 0 0) else none, 0⟩

end Volume

end OSLab.Fs

import OSLab.Fs.Proof.NewVolume

/-!
# Whole sessions at the shell

`command_does`: every command replies what the volume's `Step` allows and keeps `Rests`. From the
file system that `mktestfs` makes, every sequence of commands and restarts is one of the volume
(`session_refines_volume`), and can be left and taken up again (`session_reopens`).
-/

namespace OSLab.Fs

open Prog

variable {v w : Volume} {s t u : Testfs} {dev : Device} {reply : Reply} {c : Command} {fuel mb : ℕ}

/-- **Every command** does what the volume allows. -/
theorem command_does (h : Rests v s) (hin : c.InRange s) (hleak : ¬c.Leaks s)
    (hr : c.run fuel s = some (reply, t)) (hspace : reply.1 ≠ -enospc) : Does v c reply t := by
  obtain ⟨cmd, args⟩ := c
  cases cmd with
  | cd => exact cmdCd_does h hr
  | pwd => exact cmdPwd_does h hr
  | ls =>
    have hfile : ¬ListsFile s args := fun hx => hleak ⟨Or.inl rfl, hx⟩
    have hr : cmdLsInternal fuel args false s = some (reply, t) := hr
    exact cmdLs_does h rfl hfile hr
  | lsr =>
    have hfile : ¬ListsFile s args := fun hx => hleak ⟨Or.inr rfl, hx⟩
    have hr : cmdLsInternal fuel args true s = some (reply, t) := hr
    exact cmdLs_does h rfl hfile hr
  | create => exact cmdCreate_does h (Or.inl ⟨rfl, rfl⟩) hin hr hspace
  | stat => exact cmdStat_does h hr
  | rm => exact cmdRm_does h hr
  | mkdir => exact cmdCreate_does h (Or.inr ⟨rfl, rfl⟩) hin hr hspace
  | read => exact cmdRead_does h hin hr
  | write => exact cmdWrite_does h hin hr hspace
  | fsstat => exact cmdFsstat_does h hr

/-- What happens at the shell: a command with its reply, or quitting and starting again. -/
inductive Action
  | command (e : Event)
  | restart

/-- A command whose numbers are in range, that does not list a file, and that is not refused for
lack of space. -/
def Event.Regular (e : Event) (s : Testfs) : Prop :=
  e.command.InRange s ∧ ¬e.command.Leaks s ∧ e.reply.1 ≠ -enospc

/-- **A step of a session.** -/
def sessionStep (s : Testfs) (a : Action) (t : Testfs) : Prop :=
  match a with
  | .command e => e.Regular s ∧ step s e t
  | .restart => restart s = some t

/-- What it is for the volume: a restart leads back to the root. -/
def Volume.sessionStep (v : Volume) (a : Action) (w : Volume) : Prop :=
  match a with
  | .command e => v.Step e w
  | .restart => w = { v with cur := 0 }

/-- **A step of a session is one of the volume.** -/
theorem Rests.step {a : Action} (h : Rests v s) (hs : sessionStep s a t) :
    ∃ w, v.sessionStep a w ∧ Rests w t := by
  cases a with
  | command e =>
    obtain ⟨⟨hin, hleak, hspace⟩, hstep⟩ := hs
    obtain ⟨fuel, hr⟩ := hstep
    obtain ⟨w, hw, hheld, hcur⟩ := command_does h hin hleak hr hspace
    have hone := (oneInode_step h.one ⟨fuel, hr⟩).2 hleak
    exact ⟨w, hw, hheld, hcur, hw.ok h.ok, hone⟩
  | restart =>
    obtain ⟨u, hu, hrests, -⟩ := h.restart
    obtain rfl := Option.some.inj (hu.symm.trans hs)
    exact ⟨_, rfl, hrests⟩

/-- **A session is one of the volume.** -/
theorem Rests.run (h : Rests v s) {as : List Action} (hr : Run sessionStep s as t) :
    ∃ w, Run Volume.sessionStep v as w ∧ Rests w t :=
  hr.simulate (fun _ _ _ _ h hs => h.step hs) h

/-- What `mktestfs` made is the new volume. -/
theorem new_rests (hd : mktestfs mb = some dev) (hm : mount dev = some s) : Rests Volume.new s := by
  obtain ⟨s', hm', h⟩ := mktestfs_rests hd
  obtain rfl := Option.some.inj (hm.symm.trans hm')
  exact h

/-! ### A session that is run -/

/-- Take a step of a session, in a directory that is not too large. -/
def Action.next (a : Action) (s : Testfs) : Option Testfs :=
  match a with
  | .command e => if (s.dinode s.curDir).iSize < 2 ^ 20 then e.next s else none
  | .restart => Fs.restart s

/-- A command there is regular. -/
def Action.Regular (a : Action) (s : Testfs) : Prop :=
  ∀ e, a = .command e → (s.dinode s.curDir).iSize < 2 ^ 20 → e.Regular s

theorem Action.Regular.step {a : Action} (ha : a.Regular s) (h : a.next s = some t) :
    sessionStep s a t := by
  cases a with
  | command e =>
    unfold Action.next at h
    dsimp only at h
    split_ifs at h with hsmall
    exact ⟨ha e rfl hsmall, Event.next_step h⟩
  | restart => exact h

def digit0 : CString := ⟨[0x30], by decide⟩
def digit1 : CString := ⟨[0x31], by decide⟩

/-- Make a file in a new directory, write to it and read it; start again, and remove it. -/
def sampleSession : List Action :=
  [.command ⟨⟨.mkdir, [nameB]⟩, (0, [])⟩, .command ⟨⟨.create, [nameA]⟩, (0, [])⟩,
    .command ⟨⟨.write, [nameA, digit0, nameB]⟩, (1, [])⟩, .restart,
    .command ⟨⟨.read, [nameA, digit0, digit1]⟩, (1, [0x62, newline])⟩,
    .command ⟨⟨.rm, [nameA]⟩, (0, [])⟩]

theorem sampleSession_ends :
    (smallFs.bind fun s => runAll (fun s a => Action.next a s) s sampleSession).any
      (fun t => decide (t.sb.sb.usedBlockCount = 2)) = true := by decide +kernel

theorem sampleSession_regular : ∀ a ∈ sampleSession, ∀ s, Action.Regular a s := by
  have h0 : strToOffset digit0 = some 0 := by decide
  have h1 : strToSize digit1 = some 1 := by decide
  have ha : nameA.length = 1 := rfl
  have hb : nameB.length = 1 := rfl
  have hmax : maxFileSize = 34376597504 := rfl
  have he : enospc = 28 := rfl
  have hbs : blockSize = 8192 := rfl
  simp only [sampleSession, Action.Regular, Event.Regular, Command.InRange, Command.Leaks,
    List.forall_mem_cons, Action.command.injEq, forall_eq', reduceCtorEq, or_self, false_and,
    not_false_eq_true, h0, h1, ha, hb, hmax, he, hbs, Option.some.injEq, true_and, List.not_mem_nil,
    false_imp_iff, implies_true, and_true]
  refine ⟨fun s h => ⟨?_, ?_⟩, fun s h => ⟨?_, ?_⟩, fun s h => ⟨fun p hp => ?_, ?_⟩,
    fun s h => ⟨fun p k hp hk => ?_, ?_⟩, fun s h => ?_⟩ <;> omega

theorem sampleSession_run : ∃ dev s t, mktestfs 1 = some dev ∧ mount dev = some s ∧
    Run sessionStep s sampleSession t ∧ t.sb.sb.usedBlockCount = 2 := by
  obtain ⟨t, ht, hgood⟩ := (Option.any_eq_true _ _).1 sampleSession_ends
  obtain ⟨s, hs, hrun⟩ := Option.bind_eq_some_iff.1 ht
  obtain ⟨dev, hd, hm⟩ := Option.bind_eq_some_iff.1 hs
  have hr : Run (fun s a t => Action.next a s = some t) s sampleSession t :=
    runAll_run (.nil s) hrun
  have hreg := hr.guard fun a ha s => sampleSession_regular a ha s
  exact ⟨dev, s, t, hd, hm, hreg.mono fun _ _ _ h => h.1.step h.2, of_decide_eq_true hgood⟩

/-! ### All sessions -/

variable {as : List Action}

/-- **The file system is the volume.** From the file system that `mktestfs` makes, every session is
one of the volume, with the same replies, and at its end the volume is what the file system
holds. -/
theorem session_refines_volume (hd : mktestfs mb = some dev) (hm : mount dev = some s)
    (hr : Run sessionStep s as t) :
    ∃ v, Run Volume.sessionStep Volume.new as v ∧ Rests v t := by
  have h : Rests Volume.new s := new_rests hd hm
  exact h.run hr

theorem session_refines_volume_sample : ∃ dev s t v, mktestfs 1 = some dev ∧ mount dev = some s ∧
    Run sessionStep s sampleSession t ∧ Run Volume.sessionStep Volume.new sampleSession v ∧
    Rests v t := by
  obtain ⟨dev, s, t, hd, hm, hr, -⟩ := sampleSession_run
  obtain ⟨v, hv, h⟩ := session_refines_volume hd hm hr
  exact ⟨dev, s, t, v, hd, hm, hr, hv, h⟩

/-- Quitting has kept the file system: the volume is the same, and the current directory is the
root. -/
structure Kept (s t : Testfs) : Prop where
  curDir : t.curDir = 0
  super : t.sb.sb = s.sb.sb
  dev : t.sb.dev = s.sb.dev
  blocks : t.sb.live = s.sb.live
  inodes : t.sb.inodeFreemap.members = s.sb.inodeFreemap.members
  dinode : ∀ n, t.dinode n = s.dinode n

/-- **Every session can be left and taken up again.** -/
theorem session_reopens (hd : mktestfs mb = some dev) (hm : mount dev = some s)
    (hr : Run sessionStep s as t) : ∃ u, Fs.restart t = some u ∧ Kept t u := by
  obtain ⟨v, -, hv⟩ := (new_rests hd hm).run hr
  obtain ⟨u, hu, -, hopen⟩ := hv.restart
  have hok : SuperOK t.sb := hv.held.stores.super
  refine ⟨u, hu, hopen.curDir, ?_, ?_, ?_, ?_, fun n => (hopen.dinode n).trans (hv.held.onDisk n)⟩
  · rw [hopen.super]
    rfl
  · rw [hopen.super]
    rfl
  · rw [hopen.super, hok.reopened_live]
  · rw [hopen.super, hok.inodeMembers]

theorem session_reopens_sample : ∃ dev s t u, mktestfs 1 = some dev ∧ mount dev = some s ∧
    Run sessionStep s sampleSession t ∧ Fs.restart t = some u ∧ Kept t u := by
  obtain ⟨dev, s, t, hd, hm, hr, -⟩ := sampleSession_run
  obtain ⟨u, hu, hk⟩ := session_reopens hd hm hr
  exact ⟨dev, s, t, u, hd, hm, hr, hu, hk⟩

end OSLab.Fs

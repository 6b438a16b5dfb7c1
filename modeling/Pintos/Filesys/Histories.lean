/-
  Histories of calls (`filesys/filesys.c`).

  The machine of `Filesys/Filesys.lean` starts on a formatted device with no file open.  Each call
  keeps the invariant with the callers' files as its references, so every history does.

  1. **Owners** (`sector_owners`) — no sector ever has two owners, every open inode is counted right,
     and every call comes back: the assertion of `free_map_release` among others never fails.

  2. **Creations that fail** — `filesys_create` leaves the free map as it was UNLESS it comes to
     `dir_add` with data sectors marked (`Leaks`): its clean-up releases the sector of the inode only.
     That is said of the map in memory, and of its copy on the disk if the writes of it succeed.
-/
import Pintos.Filesys.Mount

namespace Pintos.Filesys

open Base Lib List

/-- The file system is consistent, and its references are those of the open files. -/
structure SysOk (P : Prop) (s : Sys) : Prop where
  consistent : Consistent P s.fs (s.files.map File.ref)
  plain : ∀ f ∈ s.files, f.Plain

/-- There is memory for the writes of the free map that a call makes. -/
def Call.MapWrites : Call → Prop
  | .filesysCreate _ _ m => m.MapWrites
  | .filesysOpen _ m => m.MapWrites
  | .filesysRemove _ m => m.MapWrites
  | .fileReopen _ m => m.MapWrites
  | .fileWrite _ _ _ _ => True
  | .fileClose _ m => m.MapWrites

instance (m : Memory) : Decidable m.MapWrites := inferInstanceAs (Decidable (_ ∧ _))

instance : (c : Call) → Decidable c.MapWrites
  | .filesysCreate _ _ m | .filesysOpen _ m | .filesysRemove _ m | .fileReopen _ m
  | .fileClose _ m => inferInstanceAs (Decidable m.MapWrites)
  | .fileWrite _ _ _ _ => inferInstanceAs (Decidable True)

instance (s : Sys) (c : Call) : Decidable (machine.enabled s c) := inferInstanceAs (Decidable (c.Ok s))

variable {s : Sys}

section Steps

variable {P : Prop} {s' : Sys} {c : Call}

theorem SysOk.opened (h : SysOk P s) {f : Option File} {fs : Fs}
    (hc : Consistent P fs (f.toList.map File.ref ++ s.files.map File.ref)) (hf : ∀ g ∈ f, g.Plain) :
    SysOk P ⟨fs, f.toList ++ s.files⟩ := by
  refine ⟨by rwa [map_append], fun g hg => ?_⟩
  rcases mem_append.mp hg with hg | hg
  · exact hf g (Option.mem_toList.mp hg)
  · exact h.plain g hg

/-- **A call comes back**, and keeps the invariant. -/
theorem SysOk.step (h : SysOk P s) (hc : c.Ok s) (hP : P → c.MapWrites) :
    ∃ s', s.step c = .ok s' ∧ SysOk P s' := by
  cases c with
  | filesysCreate name =>
    obtain ⟨ok, fs', heq, h', -⟩ := filesysCreate_spec h.consistent name hc.1 hc.2 hP
    exact ⟨⟨fs', s.files⟩, bind_of_ok heq rfl, h', h.plain⟩
  | filesysOpen name =>
    obtain ⟨f, fs', heq, h', hf⟩ := filesysOpen_spec h.consistent name hP
    exact ⟨⟨fs', f.toList ++ s.files⟩, bind_of_ok heq rfl, h.opened h' hf⟩
  | filesysRemove name =>
    obtain ⟨ok, fs', heq, h'⟩ := filesysRemove_spec h.consistent name hP
    exact ⟨⟨fs', s.files⟩, bind_of_ok heq rfl, h', h.plain⟩
  | fileReopen =>
    obtain ⟨f, fs', heq, h', hf⟩ := fileReopen_spec h.consistent (mem_map_of_mem hc) hP
    exact ⟨⟨fs', f.toList ++ s.files⟩, bind_of_ok heq rfl, h.opened h' hf⟩
  | fileWrite file buffer size bounce =>
    obtain ⟨file', fs', heq, h', href, hplain⟩ :=
      fileWrite_spec h.consistent (mem_map_of_mem hc) (h.plain file hc) buffer size bounce
    refine ⟨⟨fs', s.files.map fun f => if f = file then file' else f⟩, bind_of_ok heq rfl, ?_, ?_⟩
    · -- the file has moved, and refers to the inode it did
      have hrefs : (s.files.map fun f => if f = file then file' else f).map File.ref =
          s.files.map File.ref := by
        rw [map_map]
        refine map_congr_left fun f _ => ?_
        show (if f = file then file' else f).ref = f.ref
        split
        · rw [href, ‹f = file›]
        · rfl
      rwa [hrefs]
    · intro g hg
      obtain ⟨f, hf, rfl⟩ := mem_map.mp hg
      split
      · exact hplain
      · exact h.plain f hf
  | fileClose file =>
    have hperm : (s.files.map File.ref).Perm (file.ref :: (s.files.erase file).map File.ref) :=
      (perm_cons_erase hc).map File.ref
    obtain ⟨fs', heq, h'⟩ := fileClose_spec (h.consistent.perm hperm) (h.plain file hc)
      fun hp => (hP hp).2.2.2
    exact ⟨⟨fs', s.files.erase file⟩, bind_of_ok heq rfl, h',
      fun g hg => h.plain g (mem_of_mem_erase hg)⟩

/-- **The invariant of a history** whose calls write the free map, if `P` asks for that. -/
theorem sysOk_run {fs : Fs} {tr : List (Sys × Call)} (h0 : Consistent True fs [])
    (hrun : (machine.guard fun _ c => P → c.MapWrites).Run ⟨fs, []⟩ tr s) : SysOk P s := by
  refine hrun.invariant ⟨{ h0 with synced := fun _ => h0.synced trivial }, ?_⟩ ?_
  · intro f hf
    cases hf
  · rintro s c s' hs ⟨hc, hP⟩ hstep
    obtain ⟨s'', heq, hs'⟩ := hs.step hc hP
    cases heq.symm.trans hstep
    exact hs'

end Steps

theorem exists_history (M : Machine Sys Call Stop) [∀ s c, Decidable (M.enabled s c)] (dev : Device)
    (m : BootMemory) (calls : List Call) (p : Sys → Bool)
    (h : ((filesysInit dev true m).toOption.any fun fs =>
      (M.play ⟨fs, []⟩ calls).any fun r => p r.2) = true) :
    ∃ fs tr s, filesysInit dev true m = .ok fs ∧ M.Run ⟨fs, []⟩ tr s ∧ p s = true := by
  obtain ⟨fs, hinit, hplay⟩ := exists_ok_of_any h
  obtain ⟨tr, s, hrun, hp⟩ := M.exists_run_of_play ⟨fs, []⟩ calls (fun _ s => p s) hplay
  exact ⟨fs, tr, s, hinit, hrun, hp⟩

def blank (size : Nat) : Device := ⟨size, fun _ => 0⟩

def nameA : Name := ⟨[97], by decide⟩

/-! ## Owners -/

variable {dev : Device} {fs : Fs} {tr : List (Sys × Call)}

section Owners

variable {m : BootMemory}

theorem sysOk_of_run (hsize : dev.size < 4294967296) (hinit : filesysInit dev true m = .ok fs)
    (hrun : machine.Run ⟨fs, []⟩ tr s) : SysOk False s :=
  sysOk_run (filesysInit_format hsize hinit).1 (hrun.to_guard fun _ _ => False.elim)

/-- **Each sector has one owner**: in every history from a formatted device the sectors of the files,
    of the free map and of the directory are marked and pairwise apart, each open sector has one
    inode, which counts its handles, and no call stops. -/
theorem sector_owners (hsize : dev.size < 4294967296) (hinit : filesysInit dev true m = .ok fs)
    (hrun : machine.Run ⟨fs, []⟩ tr s) :
    (∀ o r, s.fs.claims o r → s.fs.used r) ∧
    (∀ o o' r, s.fs.claims o r → s.fs.claims o' r → o = o') ∧
    (s.fs.openInodes.map (·.sector)).Nodup ∧
    (∀ i ∈ s.fs.openInodes, i.data = s.fs.disk i.sector ∧
      i.openCnt = (s.fs.mapRefs ++ s.files.map (·.inode)).count i.id) ∧
    (∀ f ∈ s.files, ∃ i ∈ s.fs.openInodes, i.id = f.inode) ∧
    ∀ c, c.Ok s → ∃ s', s.step c = .ok s' := by
  have h := sysOk_of_run hsize hinit hrun
  refine ⟨fun _ _ => h.consistent.owned.used_of_claim, fun _ _ _ => h.consistent.owned.unique,
    h.consistent.sectors, fun i hi => ?_, fun f hf => ?_, fun c hc => ?_⟩
  · have ho := h.consistent.opened i hi
    refine ⟨ho.data, ho.count.trans ?_⟩
    rw [map_map]
    rfl
  · obtain ⟨i, hi, hid, -⟩ := h.consistent.refs f.ref (mem_map_of_mem hf)
    exact ⟨i, hi, hid⟩
  · obtain ⟨s', heq, -⟩ := h.step hc False.elim
    exact ⟨s', heq⟩

/-- A file is created, opened and removed, and another one of the name is created. -/
theorem sector_owners_removed_file : ∃ fs tr s, filesysInit (blank 12) true .ready = .ok fs ∧
    machine.Run ⟨fs, []⟩ tr s ∧ s.files.length = 1 ∧
    (∀ o o' r, s.fs.claims o r → s.fs.claims o' r → o = o') := by
  obtain ⟨fs, tr, s, hinit, hrun, hp⟩ := exists_history machine (blank 12) .ready
    [.filesysCreate nameA 600 .ready, .filesysOpen nameA .ready, .filesysRemove nameA .ready,
      .filesysCreate nameA 600 .ready] (fun s => s.files.length == 1) (by decide)
  exact ⟨fs, tr, s, hinit, hrun, eq_of_beq hp, (sector_owners (by decide) hinit hrun).2.1⟩

end Owners

/-! ## Creations that fail -/

section Failures

variable {b : BootMemory} {fs' : Fs} {name : Name} {size : Int} {m : Memory}

/-- With a negative size the call returns only if it does not come to `inode_create`. -/
theorem filesysCreate_negative {r : Bool × Fs} (hsize : size < 0)
    (h : filesysCreate fs name size m = .ok r) : filesysCreate fs name 0 m = .ok r := by
  obtain ⟨⟨o, fs1⟩, hroot, h⟩ := bind_eq_ok.mp h
  refine bind_of_ok hroot ?_
  cases o with
  | none => exact h
  | some =>
    obtain ⟨c, hsteps, h⟩ := bind_eq_ok.mp h
    refine bind_eq_ok.mpr ⟨c, ?_, h⟩
    obtain ⟨⟨o, fs2⟩, halloc, hsteps⟩ := bind_eq_ok.mp hsteps
    refine bind_of_ok halloc ?_
    cases o with
    | none => exact hsteps
    | some =>
      obtain ⟨c', hinode, -⟩ := bind_eq_ok.mp hsteps
      unfold inodeCreate at hinode
      rw [if_pos hsize] at hinode
      cases hinode

/-- **A creation that fails leaves nothing behind** exactly if it does not leak: the free map is as
    before in memory, and on the disk too if `P` says that all writes of it have memory. -/
theorem failed_create (P : Prop) (hdev : dev.size < 4294967296)
    (hinit : filesysInit dev true b = .ok fs)
    (hrun : (machine.guard fun _ c => P → c.MapWrites).Run ⟨fs, []⟩ tr s) (name : Name) (m : Memory)
    (hm : P → m.MapWrites) (h1 : size < 2147483648) :
    (∀ fs', filesysCreate s.fs name size m = .ok (false, fs') →
      LeftAlone s.fs fs' ∧ (∀ k, fs'.freeMap.bit k = s.fs.freeMap.bit k) ∧
      (P → ∀ k < s.fs.dev.size, fs'.mapBit k = s.fs.mapBit k)) ↔
    ¬ (0 ≤ size ∧ Leaks s.fs name size m) := by
  have h := (sysOk_run (filesysInit_format hdev hinit).1 hrun).consistent
  constructor
  · rintro hall ⟨h0, hleak⟩
    obtain ⟨ok, fs', heq, -, htrue, hfalse⟩ := filesysCreate_spec h name h0 h1 hm
    cases ok with
    | true => exact htrue rfl hleak.fails
    | false =>
      rcases (hfalse rfl).2 with ⟨-, k, -, hk, hk'⟩ | ⟨hno, -⟩
      · rw [(hall fs' heq).2.1 k, hk] at hk'
        cases hk'
      · exact hno hleak
  · intro hno fs' heq
    -- a negative size is as good as none
    have hcases : (0 ≤ size ∧ ¬ Leaks s.fs name size m) ∨
        filesysCreate s.fs name 0 m = .ok (false, fs') := by
      by_cases h0 : 0 ≤ size
      · exact Or.inl ⟨h0, fun hleak => hno ⟨h0, hleak⟩⟩
      · exact Or.inr (filesysCreate_negative (by omega) heq)
    have hend : ∀ n : Int, 0 ≤ n → n < 2147483648 → ¬ Leaks s.fs name n m →
        filesysCreate s.fs name n m = .ok (false, fs') →
        LeftAlone s.fs fs' ∧ (∀ k, fs'.freeMap.bit k = s.fs.freeMap.bit k) ∧
        (P → ∀ k < s.fs.dev.size, fs'.mapBit k = s.fs.mapBit k) := by
      intro n h0 h1 hn heq
      obtain ⟨ok, fs'', heq', h', -, hfalse⟩ := filesysCreate_spec h name h0 h1 hm
      obtain ⟨rfl, rfl⟩ := Prod.mk.inj (Except.ok.inj (heq'.symm.trans heq))
      obtain ⟨halone, hmap⟩ := hfalse rfl
      rcases hmap with ⟨hleak, -⟩ | ⟨-, hbits⟩
      · exact absurd hleak hn
      · -- both copies agree before the call and after it
        refine ⟨halone, hbits, fun hp k hk => ?_⟩
        rw [h'.synced hp k (halone.size ▸ hk), h.synced hp k hk, hbits k]
    rcases hcases with ⟨h0, hn⟩ | hzero
    · exact hend size h0 h1 hn heq
    · refine hend 0 (Int.le_refl 0) (by decide) (fun hleak => ?_) hzero
      exact absurd hleak.data (by decide)

/-- A name that is there already, for a file without data: the call fails, and both copies of the free
    map are as before. -/
theorem failed_create_no_data : ∃ fs tr s fs', filesysInit (blank 10) true .ready = .ok fs ∧
    (machine.guard fun _ c => True → c.MapWrites).Run ⟨fs, []⟩ tr s ∧
    filesysCreate s.fs nameA 0 .ready = .ok (false, fs') ∧ LeftAlone s.fs fs' ∧
    (∀ k, fs'.freeMap.bit k = s.fs.freeMap.bit k) ∧
    ∀ k < s.fs.dev.size, fs'.mapBit k = s.fs.mapBit k := by
  obtain ⟨fs, tr, s, hinit, hrun, hp⟩ := exists_history (machine.guard fun _ c => True → c.MapWrites)
    (blank 10) .ready [.filesysCreate nameA 600 .ready]
    (fun s => (filesysCreate s.fs nameA 0 .ready).toOption.any (!·.1)) (by decide)
  obtain ⟨⟨ok, fs'⟩, hcreate, hfails⟩ := exists_ok_of_any hp
  obtain rfl : ok = false := by simpa using hfails
  obtain ⟨halone, hbits, hdisk⟩ := (failed_create True (by decide) hinit hrun nameA .ready
    (fun _ => by decide) (by decide)).mpr (fun hleak => absurd hleak.2.data (by decide)) fs' hcreate
  exact ⟨fs, tr, s, fs', hinit, hrun, hcreate, halone, hbits, hdisk trivial⟩

/-- **A name that is there already**: the call fails, and two sectors stay marked that no file has. -/
theorem failed_create_leaks : ∃ fs tr s fs', filesysInit (blank 10) true .ready = .ok fs ∧
    machine.Run ⟨fs, []⟩ tr s ∧ filesysCreate s.fs nameA 600 .ready = .ok (false, fs') ∧
    s.fs.freeMap.bit 8 = false ∧ fs'.freeMap.bit 8 = true := by
  obtain ⟨fs, tr, s, hinit, hrun, hp⟩ := exists_history machine (blank 10) .ready
    [.filesysCreate nameA 600 .ready]
    (fun s => (filesysCreate s.fs nameA 600 .ready).toOption.any fun r =>
      !r.1 && !s.fs.freeMap.bit 8 && r.2.freeMap.bit 8) (by decide)
  obtain ⟨⟨ok, fs'⟩, hcreate, hmarked⟩ := exists_ok_of_any hp
  simp only [Bool.and_eq_true, Bool.not_eq_true'] at hmarked
  obtain ⟨⟨rfl, h8⟩, h8'⟩ := hmarked
  exact ⟨fs, tr, s, fs', hinit, hrun, hcreate, h8, h8'⟩

end Failures

end Pintos.Filesys

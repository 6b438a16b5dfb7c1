/-
  Mounting again (`filesys/filesys.c`, `filesys/free-map.c`).

  When every file is closed, all that a program can find out about the file system is on the device:
  the free map is there because each of its changes was written (`synced`), and what `filesys_open` and
  `file_read` say is read from the directory and the inodes there (`contents_find`).  Mounting reads
  the same device.
-/
import Pintos.Filesys.Contents
import Pintos.Filesys.Histories

namespace Pintos.Filesys

open Base Lib

section Remount

variable {dev : Device} {m m' : BootMemory} {fs : Fs} {tr : List (Sys × Call)} {s : Sys}

/-- **Mounting again** gives the file system that there was: after every history that ends with all
    files closed, the same free map, the same names, and the same files. -/
theorem remount_same (hsize : dev.size < 4294967296) (hinit : filesysInit dev true m = .ok fs)
    (hrun : (machine.guard fun _ c => c.MapWrites).Run ⟨fs, []⟩ tr s) (hclosed : s.files = [])
    (hm : m'.bitmap = true ∧ m'.openInode = true ∧ m'.openFile = true ∧ m'.openRead = true) :
    ∃ fs', filesysInit s.fs.dev false m' = .ok fs' ∧ fs'.freeMap.bitCnt = s.fs.freeMap.bitCnt ∧
      (∀ k < s.fs.freeMap.bitCnt, fs'.freeMap.bit k = s.fs.freeMap.bit k) ∧
      ∀ name, ∃ r, contents s.fs name = .ok r ∧ contents fs' name = .ok r ∧
        (r.isSome = true ↔ ∃ k < rootEntries, s.fs.Named name k) := by
  have h : Consistent True s.fs [] := by
    have hs := (sysOk_run (filesysInit_format hsize hinit).1
      (hrun.guard_mono fun _ _ hc (_ : True) => hc)).consistent
    rwa [hclosed] at hs
  obtain ⟨b, hb, hcnt, -⟩ := Bitmap.create_eq s.fs.dev.size m'.words
  have hbit : b.bitCnt = s.fs.freeMap.bitCnt := hcnt.trans h.bitCnt.symm
  have hl : Fs.openInodes ⟨s.fs.dev, (b.mark freeMapSector).mark rootDirSector, none, [], 0⟩ = [] :=
    rfl
  obtain ⟨hex, hall⟩ := freeMapOpen_spec h hl rfl hbit (m := m')
  obtain ⟨fs', hopen⟩ := hex ⟨hm.2.1, hm.2.2.1, Or.inl hm.2.2.2⟩
  obtain ⟨h', -, hdev, hbits⟩ := hall fs' hopen
  refine ⟨fs', ?_, ?_, fun k hk => hbits k (by rwa [← h.bitCnt]), contents_congr h h' hdev⟩
  · have hmap : freeMapInit s.fs.dev m' =
        .ok ⟨s.fs.dev, (b.mark freeMapSector).mark rootDirSector, none, [], 0⟩ := by
      unfold freeMapInit
      rw [if_pos hm.1, hb]
      rfl
    exact bind_eq_ok.mpr ⟨_, hmap, bind_eq_ok.mpr ⟨_, rfl, hopen⟩⟩
  · rw [h'.bitCnt, h.bitCnt, hdev]

/-- After a file has been created, written and closed. -/
theorem remount_same_written : ∃ fs tr s, filesysInit (blank 10) true .ready = .ok fs ∧
    (machine.guard fun _ c => c.MapWrites).Run ⟨fs, []⟩ tr s ∧ s.fs.freeMap.bit 6 = true ∧
    ∃ fs', filesysInit s.fs.dev false .ready = .ok fs' ∧ fs'.freeMap.bitCnt = s.fs.freeMap.bitCnt ∧
      (∀ k < s.fs.freeMap.bitCnt, fs'.freeMap.bit k = s.fs.freeMap.bit k) ∧
      ∀ name, ∃ r, contents s.fs name = .ok r ∧ contents fs' name = .ok r ∧
        (r.isSome = true ↔ ∃ k < rootEntries, s.fs.Named name k) := by
  obtain ⟨fs, tr, s, hinit, hrun, hp⟩ := exists_history (machine.guard fun _ c => c.MapWrites)
    (blank 10) .ready
    [.filesysCreate nameA 600 .ready, .filesysOpen nameA .ready,
      .fileWrite ⟨7, 6, 0, false⟩ (fun _ => 1) 5 true, .fileClose ⟨7, 6, 5, false⟩ .ready]
    (fun s => s.files.isEmpty && s.fs.freeMap.bit 6) (by decide)
  simp only [Bool.and_eq_true, List.isEmpty_iff] at hp
  exact ⟨fs, tr, s, hinit, hrun, hp.2,
    remount_same (by decide) hinit hrun hp.1 ⟨rfl, rfl, rfl, rfl⟩⟩

end Remount
end Pintos.Filesys

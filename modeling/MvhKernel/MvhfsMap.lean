-- The filesystem is a finite map: with no fault, every call answers as the map of
-- `MvhfsFiles.lean` does, and a mount in between changes no answer.
import MvhKernel.MvhfsShows

open flat_memory write_list slot_table mvh.block mvh.crc

namespace mvh.mvhfs

/-! ## Runs of the map -/

def plain (c : Call) : Event := ⟨c, [], blankHandle⟩

def World.calls (id : UInt32) (w : World) (cs : List Call) : List Answer × World :=
  w.run id (cs.map plain)

/-- What the map answers to a call. -/
def Files.Answers (files : Files) : Call → Answer → Prop
  | .mount, answer => answer = .replied (.status 0)
  | .change op, answer => answer = .replied (.status (files.exec op).1)
  | .read name buffer capacity size, answer =>
    answer = .replied (.read (files.read name buffer capacity size))
  | .list capacity, answer => ∃ l, files.Listing l ∧
    answer = .replied (.list l.length ((l.take capacity).map listed))

def Files.after (files : Files) : Call → Files
  | .change op => (files.exec op).2
  | _ => files

def Files.commits (files : Files) : Call → Nat
  | .change op => if (files.exec op).1 = 0 then 1 else 0
  | _ => 0

def Files.Conforms : Files → List Call → List Answer → Prop
  | _, [], [] => True
  | files, c :: cs, a :: as => files.Answers c a ∧ Files.Conforms (files.after c) cs as
  | _, _, _ => False

/-- No mount comes when the commits so far, `n` before these calls, are one short of a multiple
of 2^64. -/
def MountsFit : Nat → Files → List Call → Prop
  | _, _, [] => True
  | n, files, c :: cs =>
    (c = .mount → (n + 1) % 2 ^ 64 ≠ 0) ∧ MountsFit (n + files.commits c) (files.after c) cs

/-! ## One call -/

section
variable {id : UInt32} {d : BlockDevice} {w : World} {files : Files} {n : Nat}

theorem event_plain {c : Call} {r : Reply} {fs' : Mvhfs} {m' : Machine}
    (h : invoke id w.fs c (w.machine.withPlan []) = (some (r, fs'), m')) (hp : m'.plan = []) :
    w.event id (plain c) = (.replied r, ⟨fs', m'⟩) := by
  have hc : Outcome.cut ∉ m'.plan := by simp [hp]
  grind [World.event, plain]

theorem ofNat_succ_ne_zero (h : (n + 1) % 2 ^ 64 ≠ 0) : UInt64.ofNat (n + 1) ≠ 0 := by
  rw [ne_eq, ← UInt64.toNat_inj, UInt64.toNat_ofNat', UInt64.toNat_zero]
  exact h

theorem Shows.one_call (h : Shows id d w files) (hg : w.fs.generation = UInt64.ofNat (n + 1)) (c : Call)
    (hf : c = .mount → (n + 1) % 2 ^ 64 ≠ 0) :
    ∃ answer w', w.event id (plain c) = (answer, w') ∧ files.Answers c answer ∧
      Shows id d w' (files.after c) ∧
      w'.fs.generation = UInt64.ofNat (n + files.commits c + 1) := by
  obtain ⟨fs, m⟩ := w
  have h' := h.withPlan []
  cases c with
  | mount =>
    have hne : fs.generation ≠ 0 := by grind [ofNat_succ_ne_zero]
    exact ⟨_, _, event_plain (h'.mount hne fs) rfl, rfl, h', hg⟩
  | change op =>
    obtain ⟨fs', m', hi, hp, hs, hg'⟩ := h'.change_without_fault op rfl
    refine ⟨_, _, event_plain hi hp, rfl, hs, ?_⟩
    show fs'.generation = _
    rw [hg', hg, Files.commits]
    split
    · simp
    · rw [UInt64.add_zero, Nat.add_zero]
  | read nm buffer cp s =>
    have hr := h'.exposes.2 nm buffer cp s
    have hi : invoke id fs (.read nm buffer cp s) (m.withPlan []) =
        (some (.read (files.read nm buffer cp s), fs), m.withPlan []) := by
      rw [invoke, Io.bind_some _ hr]
      rfl
    exact ⟨_, _, event_plain hi rfl, rfl, h', hg⟩
  | list cp =>
    obtain ⟨l, hl, hls⟩ := h'.exposes.1
    refine ⟨_, _, event_plain (invoke_list cp) rfl, ⟨l, hl, ?_⟩, h', hg⟩
    rw [hls]

/-! ## Runs -/

theorem Shows.calls (h : Shows id d w files) (hg : w.fs.generation = UInt64.ofNat (n + 1))
    (cs : List Call) (hf : MountsFit n files cs) :
    files.Conforms cs (w.calls id cs).1 := by
  induction cs generalizing w files n with
  | nil => trivial
  | cons c cs ih =>
    obtain ⟨answer, w', he, ha, hs, hg'⟩ := h.one_call hg c hf.1
    have hr : w.calls id (c :: cs) = (answer :: (w'.calls id cs).1, (w'.calls id cs).2) := by
      rw [World.calls, List.map_cons, World.run, he]
      rfl
    rw [hr]
    exact ⟨ha, ih hs hg' hf.2⟩

theorem World.calls_append (id : UInt32) (w : World) (cs ds : List Call) :
    (w.calls id (cs ++ ds)).1 = (w.calls id cs).1 ++ ((w.calls id cs).2.calls id ds).1 := by
  rw [World.calls, List.map_append, World.run_append]
  rfl

theorem World.calls_length (id : UInt32) (w : World) (cs : List Call) :
    (w.calls id cs).1.length = cs.length := by
  induction cs generalizing w with
  | nil => rfl
  | cons c cs ih =>
    have := ih (w.event id (plain c)).2
    simp [World.calls, List.map_cons, World.run, List.length_cons, ← this]

theorem calls_withPlan (fs : Mvhfs) (m : Machine) (p : List Outcome) (cs : List Call) :
    (World.calls id ⟨fs, m.withPlan p⟩ cs).1 = (World.calls id ⟨fs, m⟩ cs).1 := by
  cases cs with
  | nil => rfl
  | cons c cs => rfl

theorem Shows.mount_changes_nothing (h : Shows id d w files)
    (hg : w.fs.generation = UInt64.ofNat (n + 1)) (b after : List Call)
    (hf : MountsFit n files (b ++ .mount :: after)) :
    (w.calls id (b ++ .mount :: after)).1 =
      (w.calls id b).1 ++ .replied (.status 0) :: ((w.calls id b).2.calls id after).1 := by
  induction b generalizing w files n with
  | nil =>
    obtain ⟨fs, m⟩ := w
    have hne : fs.generation ≠ 0 := by
      rw [hg]
      exact ofNat_succ_ne_zero (hf.1 rfl)
    have he : World.event id ⟨fs, m⟩ (plain .mount) =
        (.replied (.status 0), ⟨fs, m.withPlan []⟩) :=
      event_plain ((h.withPlan []).mount hne fs) rfl
    have hr : (World.calls id ⟨fs, m⟩ (.mount :: after)).1 =
        .replied (.status 0) :: (World.calls id ⟨fs, m.withPlan []⟩ after).1 := by
      rw [World.calls, List.map_cons, World.run, he]
      rfl
    rw [List.nil_append, hr, calls_withPlan]
    rfl
  | cons c b ih =>
    obtain ⟨answer, w', he, _, hs, hg'⟩ := h.one_call hg c hf.1
    have hr : ∀ cs, w.calls id (c :: cs) = (answer :: (w'.calls id cs).1, (w'.calls id cs).2) := by
      simp [World.calls, List.map_cons, World.run, he]
    rw [List.cons_append, hr, hr]
    simp only [List.cons_append]
    rw [ih hs hg' hf.2]

end

/-- After a format and a mount, every call answers as the map does, and a mount at a place that
fits changes no later answer. -/
theorem the_filesystem_is_a_map {id : UInt32} {m m0 : Machine} {memory : Mvhfs} {w : World}
    (hformat : mvhfs_format id m = (some 0, m0))
    (hmount : World.event id ⟨memory, m0⟩ (plain .mount) = (.replied (.status 0), w))
    (calls : List Call) (hfit : MountsFit 0 ∅ calls) :
    Files.Conforms ∅ calls (w.calls id calls).1 ∧
      ∀ before after, calls = before ++ .mount :: after →
        ∃ as bs, (w.calls id (before ++ after)).1 = as ++ bs ∧ as.length = before.length ∧
          (w.calls id calls).1 = as ++ .replied (.status 0) :: bs := by
  obtain ⟨d, hd, hw, hs⟩ := mvhfs_format_sound hformat
  have hw0 : w = ⟨formatted id, m0.withPlan []⟩ := by
    have := mount_formatted hd hs memory blankHandle
    rw [plain, this] at hmount
    exact (Prod.mk.inj hmount).2.symm
  subst hw0
  have hshows := shows_formatted (hd.withPlan []) hw hs
  refine ⟨hshows.calls rfl calls hfit, ?_⟩
  rintro before after rfl
  exact ⟨_, _, World.calls_append id _ before after, World.calls_length id _ before,
    hshows.mount_changes_nothing rfl before after hfit⟩

/-- A file is created on the small disk, the disk is mounted again, and the files are listed. -/
theorem the_small_disk_is_a_map :
    ∃ m0 w, mvhfs_format 0 smallMachine = (some 0, m0) ∧
      World.event 0 ⟨blankHandle, m0⟩ (plain .mount) = (.replied (.status 0), w) ∧
      Files.Conforms ∅ [.change (.create (some nameA)), .mount, .list 32]
        (w.calls 0 [.change (.create (some nameA)), .mount, .list 32]).1 := by
  obtain ⟨m0, hformat, hdevice, hs⟩ := small_disk
  obtain ⟨w, hmount⟩ : ∃ w, World.event 0 ⟨blankHandle, m0⟩ (plain .mount) =
      (.replied (.status 0), w) := ⟨_, mount_formatted hdevice hs blankHandle blankHandle⟩
  have hfit : MountsFit 0 ∅ [.change (.create (some nameA)), .mount, .list 32] := by
    refine ⟨fun h => (by cases h), fun _ => ?_, fun h => (by cases h), trivial⟩
    unfold Files.commits
    simp only
    split <;> decide
  exact ⟨m0, w, hformat, hmount, (the_filesystem_is_a_map hformat hmount _ hfit).1⟩

/-! ## A history that is too long

After 2^64 - 1 commits the generation is 0 again, and a mount takes the superblock before the
last one. -/

def fileA : Name := ⟨[0x61], by simp [ValidName]⟩

def byte (b : UInt8) : Contents := ⟨[b], by simp⟩

def writeA (b : UInt8) : Op := .write (some nameA) (some fun _ => b) 1

def readA : Call := .read (some nameA) true 1 true

theorem nameOf_nameA : nameOf nameA = some fileA := by
  decide +kernel

theorem contentsOf_byte (b : UInt8) : contentsOf (some fun _ => b) 1 = some (byte b) := rfl

theorem exec_create_nameA : Files.exec ∅ (.create (some nameA)) =
    (0, Finmap.insert fileA Contents.empty ∅) := by
  rw [Files.exec, Option.bind_some, nameOf_nameA]
  exact if_neg (by simp [Finmap.notMem_empty])

theorem exec_writeA {files : Files} (h : fileA ∈ files) (b : UInt8) :
    files.exec (writeA b) = (0, files.insert fileA (byte b)) := by
  rw [writeA, Files.exec, Option.bind_some, nameOf_nameA, contentsOf_byte]
  exact if_pos h

theorem read_fileA {files : Files} {b : UInt8} (h : files.lookup fileA = some (byte b)) :
    files.read (some nameA) true 1 true = ⟨0, some 1, [b]⟩ := by
  unfold Files.read
  simp only [Option.bind_some, nameOf_nameA, h]
  rfl

section
variable {id : UInt32} {d : BlockDevice} {w : World} {files : Files}

theorem calls_cons {c : Call} {answer : Answer} {w' : World}
    (h : w.event id (plain c) = (answer, w')) (cs : List Call) :
    w.calls id (c :: cs) = (answer :: (w'.calls id cs).1, (w'.calls id cs).2) := by
  rw [World.calls, List.map_cons, World.run, h]
  rfl

theorem Shows.event_change (h : Shows id d w files) {op : Op} {f' : Files}
    (he : files.exec op = (0, f')) :
    ∃ w', w.event id (plain (.change op)) = (.replied (.status 0), w') ∧ Shows id d w' f' ∧
      w'.fs.generation = w.fs.generation + 1 := by
  obtain ⟨fs, m⟩ := w
  obtain ⟨fs', m', hi, hp, hs, hg⟩ := (h.withPlan []).change_without_fault op rfl
  rw [he] at hi hs hg
  exact ⟨_, event_plain hi hp, hs, hg⟩

theorem Shows.many_writes (h : Shows id d w files) {b : UInt8}
    (hf : files.lookup fileA = some (byte b)) (n : Nat) :
    ∃ w' f', (w.calls id (List.replicate n (.change (writeA b)))).2 = w' ∧
      Shows id d w' f' ∧ f'.lookup fileA = some (byte b) ∧
      w'.fs.generation = w.fs.generation + UInt64.ofNat n := by
  induction n generalizing w files with
  | zero => exact ⟨w, files, rfl, h, hf, (UInt64.add_zero _).symm⟩
  | succ n ih =>
    have hm := Finmap.mem_of_lookup_eq_some hf
    obtain ⟨w1, he, hs, hg⟩ := h.event_change (exec_writeA hm b)
    obtain ⟨w', f', hr, hs', hf', hg'⟩ := ih hs (Finmap.lookup_insert _)
    refine ⟨w', f', ?_, hs', hf', ?_⟩
    · rw [List.replicate_succ, calls_cons he]
      exact hr
    grind

theorem calls_getLast (b : List Call) (c : Call) :
    (w.calls id (b ++ [c])).1.getLast? =
      some ((w.calls id b).2.event id (plain c)).1 := by
  rw [World.calls_append, List.getLast?_append]
  rfl

theorem Shows.event_readA (h : Shows id d w files) {b : UInt8}
    (hf : files.lookup fileA = some (byte b)) :
    (w.event id (plain readA)).1 = .replied (.read ⟨0, some 1, [b]⟩) := by
  obtain ⟨fs, m⟩ := w
  have hr := (h.withPlan []).exposes.2 (some nameA) true 1 true
  rw [read_fileA hf] at hr
  have hi : invoke id fs readA (m.withPlan []) =
      (some (.read ⟨0, some 1, [b]⟩, fs), m.withPlan []) := by
    rw [readA, invoke, Io.bind_some _ hr]
    rfl
  rw [event_plain hi rfl]

end

/-- Create the file, write 0 into it up to the last generation, then write 1. -/
def longHistory (n : Nat) : List Call :=
  .change (.create (some nameA)) :: .change (writeA 0) ::
    (List.replicate n (.change (writeA 0)) ++ [.change (writeA 1)])

theorem World.calls_world_append (id : UInt32) (w : World) (cs ds : List Call) :
    (w.calls id (cs ++ ds)).2 = ((w.calls id cs).2.calls id ds).2 := by
  rw [World.calls, List.map_append, World.run_append]
  rfl

theorem longHistory_shows {id : UInt32} {d : BlockDevice} {w : World} (h : Shows id d w ∅)
    (hg : w.fs.generation = 1) {n : Nat} (hn : UInt64.ofNat n = 0 - 4) :
    ∃ fs ws fs1 m', planOf fs (writeA 1) = some (ws, fs1) ∧
      (w.calls id (longHistory n)).2 = ⟨committed fs1, m'⟩ ∧ fs.generation ≠ 0 ∧
      (∃ files, Shows id d ⟨committed fs1, m'⟩ files ∧ files.lookup fileA = some (byte 1)) ∧
      ∃ files, Shows id d ⟨fs, m'⟩ files ∧ files.lookup fileA = some (byte 0) := by
  obtain ⟨w1, he1, hs1, hg1⟩ := h.event_change exec_create_nameA
  obtain ⟨w2, he2, hs2, hg2⟩ :=
    hs1.event_change (exec_writeA (Finmap.mem_insert.mpr (Or.inl rfl)) 0)
  obtain ⟨w3, f3, hr3, hs3, hf3, hg3⟩ :=
    hs2.many_writes (Finmap.lookup_insert _) n
  obtain ⟨fs, m⟩ := w3
  have hl : fs.generation + 1 = 0 := by grind
  have he := exec_writeA (Finmap.mem_of_lookup_eq_some hf3) 1
  obtain ⟨ws, fs1, m', hp, hi, hpl, hs', _, hold⟩ :=
    (hs3.withPlan []).change_wrapped (by rw [he]) rfl hl
  refine ⟨fs, ws, fs1, m', hp, ?_, ?_, ⟨_, hs', ?_⟩, ⟨f3, hold, hf3⟩⟩
  · rw [longHistory, calls_cons he1, calls_cons he2]
    simp only
    rw [World.calls_world_append, hr3, calls_cons (event_plain hi hpl)]
    rfl
  · grind
  simp [he]

/-- After 2^64 - 1 commits a read gives 1, and a read after a mount gives 0. -/
theorem a_mount_can_bring_old_bytes_back :
    ∃ m0 w, mvhfs_format 0 smallMachine = (some 0, m0) ∧
      World.event 0 ⟨blankHandle, m0⟩ (plain .mount) = (.replied (.status 0), w) ∧
      (w.calls 0 (longHistory (2 ^ 64 - 4) ++ [readA])).1.getLast? =
        some (.replied (.read ⟨0, some 1, [1]⟩)) ∧
      (w.calls 0 (longHistory (2 ^ 64 - 4) ++ [.mount] ++ [readA])).1.getLast? =
        some (.replied (.read ⟨0, some 1, [0]⟩)) := by
  obtain ⟨m0, hformat, hdevice, hs⟩ := small_disk
  refine ⟨m0, _, hformat, mount_formatted hdevice hs blankHandle blankHandle, ?_⟩
  have hshows := shows_formatted (hdevice.withPlan []) (by decide) hs
  have hn : UInt64.ofNat (2 ^ 64 - 4) = 0 - 4 := by decide
  obtain ⟨fs, ws, fs1, m', _, hrun, hgen, ⟨files, hnew, hfile⟩, ⟨files0, hold, hfile0⟩⟩ :=
    longHistory_shows hshows rfl hn
  generalize 2 ^ 64 - 4 = n at hrun
  constructor
  · rw [calls_getLast, hrun, hnew.event_readA hfile]
  · have hmount : World.event 0 ⟨committed fs1, m'⟩ (plain .mount) =
        (.replied (.status 0), ⟨fs, m'.withPlan []⟩) :=
      event_plain ((hold.withPlan []).mount hgen _) rfl
    have hrun' : (World.calls 0 ⟨formatted 0, m0.withPlan []⟩ (longHistory n ++ [.mount])).2 =
        ⟨fs, m'.withPlan []⟩ := by
      rw [World.calls_world_append, hrun, calls_cons hmount]
      rfl
    rw [calls_getLast, hrun', (hold.withPlan []).event_readA hfile0]

end mvh.mvhfs

-- Power cuts: a call that loses its power has all of its effect if its last write, the
-- superblock, is on the disk, and no effect if it is not.
import MvhKernel.MvhfsMap

open flat_memory write_list slot_table mvh.block mvh.crc

namespace mvh.mvhfs

/-! ## What a run should leave -/

/-- The files that the calls so far should have left, and if the handle should be mounted. -/
structure Expected where
  files : Files
  mounted : Bool

/-- What should be there after a call. -/
def Expected.after (x : Expected) : Call → Option Bool → Expected
  | .change op, none => if x.mounted then { x with files := (x.files.exec op).2 } else x
  | .change op, some true => { files := (x.files.exec op).2, mounted := true }
  | .mount, _ => { x with mounted := true }
  | _, some _ => { x with mounted := true }
  | _, none => x

/-- How an event ended, from its answer and the log of the writes. -/
def cutOf (id : UInt32) (w : World) : Answer × World → Option Bool
  | (.replied _, _) => none
  | (.cut _, w') => some (decide (commitsIn id w.machine.written < commitsIn id w'.machine.written))

def World.trial (id : UInt32) (w : World) (x : Expected) : List Event → World × Expected
  | [] => (w, x)
  | e :: es => World.trial id (w.event id e).2 (x.after e.call (cutOf id w (w.event id e))) es

/-! ## The invariant -/

def commitsSince (id : UInt32) (m0 m : Machine) : Nat :=
  commitsIn id m.written - commitsIn id m0.written

/-- The disk shows the files that should be there, and the generation counts the commits. -/
structure Fits (id : UInt32) (d : BlockDevice) (m0 : Machine) (fs : Mvhfs) (m : Machine)
    (files : Files) : Prop where
  shows_files : Shows id d ⟨fs, m⟩ files
  log : commitsIn id m0.written ≤ commitsIn id m.written
  generation : fs.generation = UInt64.ofNat (commitsSince id m0 m + 1)

section
variable {id : UInt32} {d : BlockDevice} {m0 m : Machine} {fs : Mvhfs} {w : World} {x : Expected}
  {files : Files} {e : Event}

theorem Fits.withPlan (h : Fits id d m0 fs m files) (p : List Outcome) :
    Fits id d m0 fs (m.withPlan p) files :=
  ⟨h.shows_files.withPlan p, h.log, h.generation⟩

theorem Fits.generation_ne (h : Fits id d m0 fs m files)
    (hb : commitsSince id m0 m < 2 ^ 64 - 1) : fs.generation ≠ 0 := by
  rw [h.generation]
  apply ofNat_succ_ne_zero
  omega

theorem Fits.restart (h : Fits id d m0 fs m files) (hb : commitsSince id m0 m < 2 ^ 64 - 1)
    (mm : Mvhfs) : World.restart id mm m = (.cut (some (.status 0)), ⟨fs, m⟩) := by
  rw [World.restart, h.shows_files.mount (h.generation_ne hb) mm]

/-- The handle of the caller is the one that fits, or it is not mounted and should not be. -/
def HandleFits (x : Expected) (fs handle : Mvhfs) : Prop :=
  (x.mounted = true ∧ handle = fs) ∨ (x.mounted = false ∧ handle.mounted = 0)

/-- What a call leaves when it is through, or when it has lost its power on the way. -/
def CallFits (id : UInt32) (d : BlockDevice) (m0 : Machine) (x : Expected) (m : Machine) (c : Call) :
    Option (Reply × Mvhfs) × Machine → Prop
  | (some (reply, handle), m') => (c = .mount → reply = .status 0) ∧
    ∃ fs', Fits id d m0 fs' m' (x.after c none).files ∧ HandleFits (x.after c none) fs' handle ∧
      (x.after c (some (decide (commitsIn id m.written < commitsIn id m'.written)))).files =
        (x.after c none).files
  | (none, m') => ∃ fs', Fits id d m0 fs' m'
    (x.after c (some (decide (commitsIn id m.written < commitsIn id m'.written)))).files

theorem change_fits (h : Fits id d m0 fs m x.files) (hm : x.mounted = true) (op : Op)
    (hpl : Outcome.fail ∉ m.plan) :
    CallFits id d m0 x m (.change op) (invoke id fs (.change op) m) := by
  have hsm : ∀ b, (x.after (.change op) (some b)).files =
      if b then (x.files.exec op).2 else x.files := by
    intro b
    cases b <;> rfl
  have hn : x.after (.change op) none = { x with files := (x.files.exec op).2 } := by
    rw [Expected.after, if_pos hm]
  rcases h.shows_files.change op with ⟨he, hi⟩ | ⟨he, row, fs', hi, hg, hd, hp, hl⟩
  · rw [hi]
    refine ⟨fun hc => (by cases hc), fs, ?_, ?_, ?_⟩
    · rw [hn, he]
      exact h
    · rw [hn]
      exact Or.inl ⟨hm, rfl⟩
    · rw [hsm, hn, he]
      simp
  · rw [hi]
    rcases hen : ending m.plan row.length
    · rw [hen] at hd hl
      simp only [if_true] at hl
      have hlt : commitsIn id m.written < commitsIn id (m.play id row).written := by omega
      have hl0 := h.log
      refine ⟨fun hc => (by cases hc), fs', ?_, ?_, ?_⟩
      · rw [hn]
        refine ⟨hd rfl, by omega, ?_⟩
        have hcn : commitsSince id m0 (m.play id row) = commitsSince id m0 m + 1 := by
          unfold commitsSince
          omega
        simp [hcn, hg, h.generation, UInt64.ofNat_add]
      · rw [hn]
        exact Or.inl ⟨hm, rfl⟩
      grind
    · exact absurd hen (ending_ne_fail hpl _)
    · rw [hen] at hp hl
      have hs : commitsIn id (m.play id row).written = commitsIn id m.written := by
        simpa using hl
      refine ⟨fs, ?_⟩
      rw [hsm, hs]
      simp only [lt_self_iff_false, decide_false, Bool.false_eq_true, if_false]
      refine ⟨hp (by decide), by rw [hs]; exact h.log, ?_⟩
      rw [commitsSince, hs]
      exact h.generation

theorem call_fits (h : Fits id d m0 fs m x.files) {hn : Mvhfs} (hh : HandleFits x fs hn)
    (c : Call) (hp : Outcome.fail ∉ m.plan) (hb : commitsSince id m0 m < 2 ^ 64 - 1) :
    CallFits id d m0 x m c (invoke id hn c m) := by
  have hmn := h.shows_files.mount (h.generation_ne hb) hn
  rcases c with _ | op | ⟨n, buffer, cp, s⟩ | cp
  · rw [hmn]
    exact ⟨fun _ => rfl, fs, h, Or.inl ⟨rfl, rfl⟩, rfl⟩
  · rcases hh with ⟨hm, rfl⟩ | ⟨hm, h0⟩
    · exact change_fits h hm op hp
    · rw [invoke_unmounted h0 (by simp)]
      have hnn : x.after (.change op) none = x := by
        rw [Expected.after, hm]
        rfl
      refine ⟨fun hc => (by cases hc), fs, ?_, ?_, ?_⟩
      · rw [hnn]
        exact h
      · rw [hnn]
        exact Or.inr ⟨hm, h0⟩
      grind [Expected.after]
  · rcases hh with ⟨hm, rfl⟩ | ⟨hm, h0⟩
    · have hr := h.shows_files.exposes.2 n buffer cp s
      rw [invoke, Io.bind_some _ hr]
      exact ⟨fun hc => (by cases hc), hn, h, Or.inl ⟨hm, rfl⟩, rfl⟩
    · rw [invoke_unmounted h0 (by simp)]
      exact ⟨fun hc => (by cases hc), fs, h, Or.inr ⟨hm, h0⟩, rfl⟩
  · rcases hh with ⟨hm, rfl⟩ | ⟨hm, h0⟩
    · exact ⟨fun hc => (by cases hc), hn, h, Or.inl ⟨hm, rfl⟩, rfl⟩
    · rw [invoke_unmounted h0 (by simp)]
      exact ⟨fun hc => (by cases hc), fs, h, Or.inr ⟨hm, h0⟩, rfl⟩

/-! ## Events and runs -/

theorem Fits.soundWorld (h : Fits id d m0 fs w.machine x.files) (hh : HandleFits x fs w.fs) :
    SoundWorld id d w := by
  refine ⟨h.shows_files.device, h.shows_files.writable, fs, h.shows_files.handle,
    h.shows_files.sound, ?_⟩
  rcases hh with ⟨_, hfs⟩ | ⟨_, h0⟩
  · exact Or.inl hfs
  · exact Or.inr h0

def MountsWell (e : Event) (answer : Answer) : Prop :=
  (e.call = .mount → answer = .replied (.status 0) ∨ answer = .cut (some (.status 0))) ∧
    ∀ mount, answer = .cut mount → mount = some (.status 0)

theorem restart_fits (h : Fits id d m0 fs m files) (e : Event) {x' : Expected}
    (hx : x'.files = files) (hm : x'.mounted = true)
    (hb : commitsSince id m0 (World.restart id e.memory m).2.machine < 2 ^ 64 - 1) :
    ∃ fs', Fits id d m0 fs' (World.restart id e.memory m).2.machine x'.files ∧
      HandleFits x' fs' (World.restart id e.memory m).2.fs ∧
      MountsWell e (World.restart id e.memory m).1 := by
  have hw : SoundWorld id d ⟨fs, m⟩ := ⟨h.shows_files.device, h.shows_files.writable, fs,
    h.shows_files.handle, h.shows_files.sound, Or.inl rfl⟩
  rw [(hw.restart e.memory).2] at hb
  rw [h.restart hb e.memory, hx]
  refine ⟨fs, h, Or.inl ⟨hm, rfl⟩, fun _ => Or.inr rfl, ?_⟩
  intro mount he
  cases he
  rfl

theorem mounted_after_cut (x : Expected) (c : Call) (b : Bool) :
    (x.after c (some b)).mounted = true := by
  rcases c with _ | op | _ | _ <;> cases b <;> rfl

theorem event_fits (h : Fits id d m0 fs w.machine x.files) (hh : HandleFits x fs w.fs)
    (hp : Outcome.fail ∉ e.plan) (hbf : commitsSince id m0 w.machine < 2 ^ 64 - 1)
    (hb : commitsSince id m0 (w.event id e).2.machine < 2 ^ 64 - 1) :
    ∃ fs', Fits id d m0 fs' (w.event id e).2.machine
        (x.after e.call (cutOf id w (w.event id e))).files ∧
      HandleFits (x.after e.call (cutOf id w (w.event id e))) fs' (w.event id e).2.fs ∧
      MountsWell e (w.event id e).1 := by
  have hcl := call_fits (h.withPlan e.plan) hh e.call hp hbf
  rcases hi : invoke id w.fs e.call (w.machine.withPlan e.plan) with ⟨_ | ⟨r, hn⟩, m'⟩
  · rw [hi] at hcl
    obtain ⟨fs', hf⟩ := hcl
    have hev : w.event id e = World.restart id e.memory m' := by rw [World.event, hi]
    rw [hev] at hb ⊢
    have hm := ((hf.soundWorld (w := ⟨fs', m'⟩) (Or.inl ⟨mounted_after_cut _ _ _, rfl⟩)).restart
      e.memory).2
    have hcu := restart_fits hf e rfl (mounted_after_cut _ _ _) hb
    have hct : cutOf id w (World.restart id e.memory m') =
        some (decide (commitsIn id w.machine.written < commitsIn id m'.written)) := by
      rw [hm] at hb
      rw [hf.restart hb e.memory]
      rfl
    rw [hct]
    exact hcu
  · rw [hi] at hcl
    obtain ⟨hr, fs', hf, hhn, hs⟩ := hcl
    by_cases hl : Outcome.cut ∈ m'.plan
    · have hev : w.event id e = World.restart id e.memory m' := by grind [World.event]
      rw [hev] at hb ⊢
      have hm := ((hf.soundWorld (w := ⟨hn, m'⟩) hhn).restart e.memory).2
      have hct : cutOf id w (World.restart id e.memory m') =
          some (decide (commitsIn id w.machine.written < commitsIn id m'.written)) := by
        rw [hm] at hb
        rw [hf.restart hb e.memory]
        rfl
      rw [hct]
      exact restart_fits hf e hs (mounted_after_cut _ _ _) hb
    · have hev : w.event id e = (.replied r, ⟨hn, m'⟩) := by grind [World.event]
      rw [hev]
      refine ⟨fs', hf, hhn, fun hc => ?_, fun mount he => (by cases he)⟩
      rw [hr hc]
      exact Or.inl rfl

theorem commitsSince_mono (id : UInt32) (m0 : Machine) {m1 m2 : Machine} (h : m1.written <+: m2.written) :
    commitsSince id m0 m1 ≤ commitsSince id m0 m2 := by
  obtain ⟨log, hl⟩ := h
  have := commitsIn_append id m1.written log
  grind [commitsSince]

theorem SoundWorld.trial (h : SoundWorld id d w) (x : Expected) (es : List Event) :
    SoundWorld id d (World.trial id w x es).1 := by
  induction es generalizing w x with
  | nil => exact h
  | cons e es ih => exact ih (h.event e).1 _

theorem SoundWorld.trial_log (h : SoundWorld id d w) (x : Expected) (es : List Event) :
    w.machine.written <+: (World.trial id w x es).1.machine.written := by
  induction es generalizing w x with
  | nil => exact List.prefix_rfl
  | cons e es ih => exact (h.event e).2.trans (ih (h.event e).1 _)

theorem trial_fits (h : Fits id d m0 fs w.machine x.files) (hh : HandleFits x fs w.fs)
    (es : List Event) (hp : ∀ e ∈ es, Outcome.fail ∉ e.plan)
    (hb : commitsSince id m0 (World.trial id w x es).1.machine < 2 ^ 64 - 1) :
    ∃ fs', Fits id d m0 fs' (World.trial id w x es).1.machine (World.trial id w x es).2.files ∧
      HandleFits (World.trial id w x es).2 fs' (World.trial id w x es).1.fs := by
  induction es generalizing w x fs with
  | nil => exact ⟨fs, h, hh⟩
  | cons e es ih =>
    have hw := h.soundWorld hh
    have hl := commitsSince_mono id m0
      ((hw.event e).1.trial_log (x.after e.call (cutOf id w (w.event id e))) es)
    have he := commitsSince_mono id m0 (hw.event e).2
    rw [World.trial] at hb ⊢
    obtain ⟨fs', hf, hhn, _⟩ := event_fits h hh (hp e List.mem_cons_self)
      (by omega) (by omega)
    grind

theorem fits_formatted (hd : HasSectors m0 id d) (hw : d.writable ≠ 0)
    (hs : Sound (m0.disk id) d (formatted id)) : Fits id d m0 (formatted id) m0 ∅ := by
  refine ⟨shows_formatted hd hw hs, Nat.le_refl _, ?_⟩
  rw [commitsSince, Nat.sub_self]
  rfl

end

/-- After a format, any calls may follow, and each may lose its power after any of its writes.
With fewer than 2^64 - 1 commits, every mount then gives 0 and shows just the files of the calls
that came through, and of a call that lost its power when its superblock is on the disk. -/
theorem a_power_cut_is_all_or_nothing {id : UInt32} {m m0 : Machine} {memory : Mvhfs}
    (hformat : mvhfs_format id m = (some 0, m0)) (hmemory : memory.mounted = 0)
    (events : List Event) (e : Event) (hplans : ∀ e' ∈ events ++ [e], Outcome.fail ∉ e'.plan)
    {w w' : World} {x : Expected} {answer : Answer}
    (htrial : World.trial id ⟨memory, m0⟩ ⟨∅, false⟩ events = (w, x))
    (hevent : w.event id e = (answer, w')) (hcommits : commitsSince id m0 w'.machine < 2 ^ 64 - 1)
    (hmount : e.call = .mount ∨ ∃ mount, answer = .cut mount) :
    (answer = .replied (.status 0) ∨ answer = .cut (some (.status 0))) ∧
      Exposes w'.fs w'.machine (x.after e.call (cutOf id w (answer, w'))).files := by
  obtain ⟨d, hd, hw, hs⟩ := mvhfs_format_sound hformat
  have hstart := fits_formatted hd hw hs
  have hhandle : HandleFits ⟨∅, false⟩ (formatted id) memory := Or.inr ⟨rfl, hmemory⟩
  have hbefore : commitsSince id m0 w.machine < 2 ^ 64 - 1 := by
    have hworld : SoundWorld id d w := by
      have hrun := (hstart.soundWorld (w := ⟨memory, m0⟩) (x := ⟨∅, false⟩) hhandle).trial
        ⟨∅, false⟩ events
      rwa [htrial] at hrun
    have := commitsSince_mono id m0 (hworld.event e).2
    rw [hevent] at this
    exact Nat.lt_of_le_of_lt this hcommits
  obtain ⟨fs, hfits, hfs⟩ := trial_fits (w := ⟨memory, m0⟩) (x := ⟨∅, false⟩) hstart hhandle events
    (fun e' he' => hplans e' (List.mem_append_left _ he')) (by rw [htrial]; exact hbefore)
  rw [htrial] at hfits hfs
  obtain ⟨fs', hfits', hfs', hwell⟩ := event_fits hfits hfs
    (hplans e (List.mem_append_right _ (List.mem_singleton.mpr rfl))) hbefore
    (by rw [hevent]; exact hcommits)
  rw [hevent] at hfits' hfs' hwell
  have hmounted : (x.after e.call (cutOf id w (answer, w'))).mounted = true := by
    rcases hmount with hc | ⟨mount, rfl⟩
    · rw [hc]
      rfl
    · exact mounted_after_cut _ _ _
  rcases hfs' with ⟨_, rfl⟩ | ⟨hno, _⟩
  · refine ⟨?_, hfits'.shows_files.exposes⟩
    rcases hmount with hc | ⟨mount, rfl⟩
    · exact hwell.1 hc
    · exact Or.inr (by rw [hwell.2 mount rfl])
  · rw [hmounted] at hno
    cases hno

/-- The power goes after two of the five writes that create the first file. -/
theorem a_power_cut_on_the_small_disk :
    ∃ m0 w w', mvhfs_format 0 smallMachine = (some 0, m0) ∧
      World.trial 0 ⟨blankHandle, m0⟩ ⟨∅, false⟩ [plain .mount] = (w, ⟨∅, true⟩) ∧
      w.event 0 ⟨.change (.create (some nameA)), [.done, .done, .cut], blankHandle⟩ =
        (.cut (some (.status 0)), w') ∧ Exposes w'.fs w'.machine ∅ := by
  obtain ⟨m0, hformat, hdevice, hs⟩ := small_disk
  have htrial : World.trial 0 ⟨blankHandle, m0⟩ ⟨∅, false⟩ [plain .mount] =
      (⟨formatted 0, m0.withPlan []⟩, ⟨∅, true⟩) := by
    rw [World.trial, plain, mount_formatted hdevice hs]
    rfl
  have hrow := invoke_row 0 (hdevice.withPlan [.done, .done, .cut]) (by decide) hs small_create rfl
  generalize hr : [] ++ commitWrites smallDevice.sector_count
    ((formatted 0).edit (createEdit nameA (entry_at 0))) = row at hrow
  have hlen : row.length = 5 := by rw [← hr]; rfl
  have hplayed : played [.done, .done, .cut] row.length = 2 := by rw [hlen]; rfl
  have hending : ending [.done, .done, .cut] row.length = .cut := by rw [hlen]; rfl
  have hsound : Sound (((m0.withPlan [.done, .done, .cut]).play 0 row).disk 0) smallDevice
      (formatted 0) := by
    rw [disk_play, plan_withPlan, hplayed, ← hr]
    exact hs.part small_create (by rw [hr, hlen]; decide)
  have hevent : World.event 0 ⟨formatted 0, m0.withPlan []⟩
      ⟨.change (.create (some nameA)), [.done, .done, .cut], blankHandle⟩ =
      (.cut (some (.status 0)), ⟨formatted 0, (m0.withPlan [.done, .done, .cut]).play 0 row⟩) := by
    rw [plan_withPlan, hending] at hrow
    rw [World.event, withPlan_withPlan, hrow]
    exact restart_eq ⟨by rw [table_play]; exact hdevice.get, hdevice.size⟩ hs.room blankHandle
      (hsound.mountable_eq (by simp [formatted]))
  have hlog : commitsIn 0 ((m0.withPlan [.done, .done, .cut]).play 0 row).written =
      commitsIn 0 m0.written := by
    rw [written_play, commitsIn_append, plan_withPlan, hplayed, ← hr,
      commitsIn_row small_create hs.slot_le hs.slots 0 (by rw [hr, hlen]; decide), hr, hlen]
    rfl
  refine ⟨m0, _, _, hformat, htrial, hevent, ?_⟩
  have hresult := (a_power_cut_is_all_or_nothing hformat rfl [plain .mount] _ (by simp [plain]) htrial
    hevent (by rw [commitsSince, hlog, Nat.sub_self]; decide) (Or.inr ⟨_, rfl⟩)).2
  have hcut : cutOf 0 ⟨formatted 0, m0.withPlan []⟩ (.cut (some (.status 0)),
      ⟨formatted 0, (m0.withPlan [.done, .done, .cut]).play 0 row⟩) = some false := by
    simp only [cutOf, hlog]
    simp [Machine.withPlan]
  rw [hcut] at hresult
  exact hresult

end mvh.mvhfs

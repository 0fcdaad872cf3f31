-- The reader/writer lock of `sync.c`.
import Mathlib.Data.Fintype.Basic
import MvhKernel.Runs
import MvhKernel.Tally

namespace mvh.rwlock

/-- Where a thread stands: outside, inside as a reader or as a writer, or in front of the next
atomic operation of a lock call. -/
inductive Point where
  | outside
  /-- In the inner loop of `rwlock_read_lock`, which waits for the writer to go. -/
  | waiting
  /-- In front of the `readers + 1`. -/
  | announcing
  /-- In front of the second look at `writer`. -/
  | rechecking
  /-- In front of the `readers - 1` of a reader that saw a writer. -/
  | retracting
  | reader
  /-- In front of the compare-and-exchange of `rwlock_write_lock`. -/
  | claiming
  /-- In the loop that waits for the readers to go. -/
  | draining
  | writer
  deriving DecidableEq

section
variable {T : Type*} [DecidableEq T]

/-- The two words of the lock and the threads. -/
structure Lock (T : Type*) where
  readers : UInt32
  writer : UInt32
  point : T → Point

def Lock.goTo (s : Lock T) (t : T) (point : Point) : Lock T :=
  { s with point := Function.update s.point t point }

def rwlock_init : Lock T where
  readers := 0
  writer := 0
  point _ := .outside

def rwlock_read_lock (s : Lock T) (t : T) : Lock T :=
  match s.point t with
  | .waiting => if s.writer ≠ 0 then s else s.goTo t .announcing
  | .announcing => { s with readers := s.readers + 1 }.goTo t .rechecking
  | .rechecking => if s.writer = 0 then s.goTo t .reader else s.goTo t .retracting
  | .retracting => { s with readers := s.readers + (-1) }.goTo t .waiting
  | _ => s

def rwlock_write_lock (s : Lock T) (t : T) : Lock T :=
  match s.point t with
  | .claiming => if s.writer = 0 then { s with writer := 1 }.goTo t .draining else s
  | .draining => if s.readers ≠ 0 then s else s.goTo t .writer
  | _ => s

def rwlock_read_unlock (s : Lock T) (t : T) : Lock T :=
  { s with readers := s.readers + (-1) }.goTo t .outside

def rwlock_write_unlock (s : Lock T) (t : T) : Lock T := { s with writer := 0 }.goTo t .outside

inductive Event (T : Type*) where
  | callReadLock (t : T)
  | callWriteLock (t : T)
  /-- The lock call of the thread makes its next atomic operation. -/
  | proceed (t : T)
  /-- The thread unlocks what it has locked. -/
  | unlock (t : T)

def Lock.step (s : Lock T) : Event T → Lock T
  | .callReadLock t => if s.point t = .outside then s.goTo t .waiting else s
  | .callWriteLock t => if s.point t = .outside then s.goTo t .claiming else s
  | .proceed t =>
    match s.point t with
    | .claiming | .draining => rwlock_write_lock s t
    | _ => rwlock_read_lock s t
  | .unlock t =>
    match s.point t with
    | .reader => rwlock_read_unlock s t
    | .writer => rwlock_write_unlock s t
    | _ => s

end

/-! ## The invariant -/

def Point.announced : Point → Bool
  | .rechecking | .retracting | .reader => true
  | _ => false

def Point.claimed : Point → Bool
  | .draining | .writer => true
  | _ => false

section
variable {T : Type*} [Fintype T]

structure Inv (s : Lock T) : Prop where
  counted : s.readers.toNat = tally.count (fun t => (s.point t).announced) true
  flagged : ∀ t, (s.point t).claimed = true → s.writer ≠ 0
  single : ∀ t u, (s.point t).claimed = true → (s.point u).claimed = true → t = u
  alone : ∀ t u, s.point t = .writer → s.point u ≠ .reader

theorem Inv.init : Inv (rwlock_init : Lock T) where
  counted := by simp [rwlock_init, tally.count, Point.announced]
  flagged := by simp [rwlock_init, Point.claimed]
  single := by simp [rwlock_init, Point.claimed]
  alone := by simp [rwlock_init]

theorem Inv.readers_pos {s : Lock T} (h : Inv s) {t : T} (ht : (s.point t).announced = true) :
    0 < s.readers.toNat := by
  rw [h.counted]
  exact tally.count_pos ht

theorem Inv.readers_lt {s : Lock T} (h : Inv s) {t : T} (ht : (s.point t).announced = false) :
    s.readers.toNat < Fintype.card T := by
  rw [h.counted]
  exact tally.count_lt (by rw [ht]; decide)

theorem Inv.no_claim {s : Lock T} (h : Inv s) (hw : s.writer = 0) (u : T) :
    (s.point u).claimed = false := by
  cases hu : (s.point u).claimed with
  | false => rfl
  | true => exact absurd hw (h.flagged u hu)

theorem Inv.no_reader {s : Lock T} (h : Inv s) (hr : s.readers = 0) (u : T) :
    s.point u ≠ .reader := by
  intro hu
  have hp := h.readers_pos (t := u) (by rw [hu]; rfl)
  rw [hr] at hp
  exact absurd hp (by decide)

variable [DecidableEq T]

theorem Inv.goTo {s : Lock T} (h : Inv s) {t : T} {p : Point} {readers writer : UInt32}
    (hr : readers.toNat + (if (s.point t).announced = true then 1 else 0) =
      s.readers.toNat + (if p.announced = true then 1 else 0))
    (hw : p.claimed = true ∨ (∃ u, u ≠ t ∧ (s.point u).claimed = true) → writer ≠ 0)
    (hcl : p.claimed = true → ∀ u, u ≠ t → (s.point u).claimed = false)
    (he : p = .writer → ∀ u, s.point u ≠ .reader)
    (hrd : p = .reader → ∀ u, s.point u ≠ .writer) :
    Inv (Lock.goTo { s with readers := readers, writer := writer } t p) := by
  have hs : Function.update s.point t p t = p := Function.update_self ..
  have ho {u : T} (hu : u ≠ t) : Function.update s.point t p u = s.point u :=
    Function.update_of_ne hu ..
  constructor
  · have hm := tally.count_move s.point Point.announced t p true
    have hc := h.counted
    simp only [Lock.goTo]
    omega
  · intro u hu
    simp only [Lock.goTo] at hu ⊢
    grind
  · intro u v hu hv
    simp only [Lock.goTo] at hu hv
    by_cases hut : u = t <;> by_cases hvt : v = t
    · rw [hut, hvt]
    · grind
    · grind
    · rw [ho hut] at hu
      rw [ho hvt] at hv
      exact h.single u v hu hv
  · intro u v hu hv
    simp only [Lock.goTo] at hu hv
    by_cases hut : u = t <;> by_cases hvt : v = t
    · grind
    · grind
    · grind
    · rw [ho hut] at hu
      rw [ho hvt] at hv
      exact h.alone u v hu hv

theorem Inv.goTo_quiet {s : Lock T} (h : Inv s) {t : T} {p : Point} {readers : UInt32}
    (hr : readers.toNat + (if (s.point t).announced = true then 1 else 0) =
      s.readers.toNat + (if p.announced = true then 1 else 0))
    (hc : p.claimed = false) (hp : p ≠ .reader) :
    Inv (Lock.goTo { s with readers := readers } t p) := by
  refine h.goTo hr ?_ ?_ ?_ (fun hpr => absurd hpr hp)
  · rintro (hcl | ⟨u, -, hu⟩)
    · grind
    · exact h.flagged u hu
  · simp [hc]
  · intro hpw
    rw [hpw] at hc
    cases hc

theorem Inv.take_off {s : Lock T} (h : Inv s) {t : T} {p : Point}
    (ht : (s.point t).announced = true) (hp : p.announced = false) (hc : p.claimed = false) :
    Inv (Lock.goTo { s with readers := s.readers + (-1) } t p) := by
  have hps := h.readers_pos ht
  refine h.goTo_quiet ?_ hc ?_
  · grind [tally.toNat_add_neg_one, Bool.false_eq_true]
  · intro hpr
    rw [hpr] at hp
    cases hp

/-! ## The steps -/

theorem Inv.read_lock {s : Lock T} (h : Inv s) (hcr : Fintype.card T < 2 ^ 32) (t : T) :
    Inv (rwlock_read_lock s t) := by
  fun_cases rwlock_read_lock s t
  case case1 => exact h
  case case2 hp _ => exact h.goTo_quiet (by rw [hp]; rfl) rfl (by decide)
  case case3 hp =>
    have hr := h.readers_lt (t := t) (by rw [hp]; rfl)
    refine h.goTo_quiet ?_ rfl (by decide)
    rw [tally.toNat_add_one (by omega), hp]
    rfl
  case case4 hp hw =>
    refine h.goTo (by rw [hp]; rfl) ?_ nofun nofun ?_
    · rintro (hc | ⟨u, -, hu⟩)
      · cases hc
      · exact h.flagged u hu
    · intro _ u hu
      have hc := h.no_claim hw u
      rw [hu] at hc
      cases hc
  case case5 hp _ => exact h.goTo_quiet (by rw [hp]; rfl) rfl (by decide)
  case case6 hp => exact h.take_off (by rw [hp]; rfl) rfl rfl
  case case7 => exact h

theorem Inv.write_lock {s : Lock T} (h : Inv s) (t : T) : Inv (rwlock_write_lock s t) := by
  fun_cases rwlock_write_lock s t
  case case1 hp hw =>
    refine h.goTo (by rw [hp]; rfl) (fun _ => by decide) ?_ nofun nofun
    exact fun _ u _ => h.no_claim hw u
  case case2 => exact h
  case case3 => exact h
  case case4 hp hr =>
    have hc : (s.point t).claimed = true := by rw [hp]; rfl
    refine h.goTo (by rw [hp]; rfl) (fun _ => h.flagged t hc) ?_ ?_ nofun
    · intro _ u hut
      cases hu : (s.point u).claimed with
      | false => rfl
      | true => exact absurd (h.single u t hu hc) hut
    · exact fun _ u => h.no_reader (not_not.mp hr) u
  case case5 => exact h

theorem Inv.read_unlock {s : Lock T} (h : Inv s) {t : T} (hp : s.point t = .reader) :
    Inv (rwlock_read_unlock s t) :=
  h.take_off (by rw [hp]; rfl) rfl rfl

theorem Inv.write_unlock {s : Lock T} (h : Inv s) {t : T} (hp : s.point t = .writer) :
    Inv (rwlock_write_unlock s t) := by
  refine h.goTo (by rw [hp]; rfl) ?_ nofun nofun nofun
  rintro (hc | ⟨u, hut, hu⟩)
  · cases hc
  · exact absurd (h.single u t hu (by rw [hp]; rfl)) hut

theorem Inv.step {s : Lock T} (h : Inv s) (hc : Fintype.card T < 2 ^ 32) (event : Event T) :
    Inv (s.step event) := by
  fun_cases Lock.step s event
  case case1 t hp => exact h.goTo_quiet (by rw [hp]; rfl) rfl (by decide)
  case case2 => exact h
  case case3 t hp => exact h.goTo_quiet (by rw [hp]; rfl) rfl (by decide)
  case case4 => exact h
  case case5 t _ => exact h.write_lock t
  case case6 t _ => exact h.write_lock t
  case case7 t _ _ => exact h.read_lock hc t
  case case8 t hp => exact h.read_unlock hp
  case case9 t hp => exact h.write_unlock hp
  case case10 => exact h

/-! ## Exclusion -/

/-- A writer inside the lock is alone there: no other writer and no reader is inside. -/
theorem a_writer_is_alone (hcard : Fintype.card T < 2 ^ 32) (events : List (Event T)) (w t : T)
    (hw : (runs.run Lock.step rwlock_init events).point w = .writer) (ht : t ≠ w) :
    (runs.run Lock.step rwlock_init events).point t ≠ .writer ∧
      (runs.run Lock.step rwlock_init events).point t ≠ .reader := by
  have h : Inv (runs.run Lock.step rwlock_init events) :=
    runs.run_keeps (fun s event hs => hs.step hcard event) Inv.init events
  refine ⟨fun htw => ht ?_, h.alone w t hw⟩
  exact h.single t w (by rw [htw]; rfl) (by rw [hw]; rfl)

/-- Of two threads one takes the lock as a writer, while the other one announces itself, sees
the flag and draws back. -/
def writerOvertakes : List (Event Bool) :=
  [Event.callReadLock false, Event.proceed false, Event.callWriteLock true, Event.proceed true,
    Event.proceed false, Event.proceed true, Event.proceed false, Event.proceed false,
    Event.proceed true]

theorem the_overtaking_writer_is_alone :
    (runs.run Lock.step rwlock_init writerOvertakes).point true = .writer ∧
      (runs.run Lock.step rwlock_init writerOvertakes).point false ≠ .writer ∧
      (runs.run Lock.step rwlock_init writerOvertakes).point false ≠ .reader :=
  ⟨by decide, a_writer_is_alone (by decide) writerOvertakes true false (by decide) (by decide)⟩

end

end mvh.rwlock

-- The sequence lock of `sync.c`, with its spinlock, around data of any number of words.
import Mathlib.Data.List.Basic
import MvhKernel.Runs
import MvhKernel.Tally

namespace mvh.seqlock

/-- Where a thread stands. -/
inductive Point (W V : Type*) where
  | outside
  /-- In front of the compare-and-exchange of `spinlock_lock`. -/
  | locking
  /-- In the inner loop of `spinlock_lock`. -/
  | spinning
  /-- In front of the first `sequence + 1`. -/
  | entering
  /-- Between `seqlock_write_lock` and `seqlock_write_unlock`. -/
  | writing
  /-- In front of the `spinlock_unlock`. -/
  | leaving
  /-- In the loop of `seqlock_read_begin`. -/
  | beginning
  | reading (sequence : UInt32) (began : Nat) (got : List (W × V))

/-- The words of the lock, the data and the threads. -/
structure Lock (T W V : Type*) where
  sequence : UInt32
  writer : UInt32
  data : W → V
  point : T → Point W V
  published : List (W → V)
  sections : Nat

section
variable {T W V : Type*} [DecidableEq T] [DecidableEq W]

def Lock.goTo (s : Lock T W V) (t : T) (point : Point W V) : Lock T W V :=
  { s with point := Function.update s.point t point }

def seqlock_init (data : W → V) : Lock T W V where
  sequence := 0
  writer := 0
  data := data
  point _ := .outside
  published := [data]
  sections := 0

def seqlock_write_lock (s : Lock T W V) (t : T) : Lock T W V :=
  match s.point t with
  | .locking =>
    if s.writer = 0 then { s with writer := 1 }.goTo t .entering else s.goTo t .spinning
  | .spinning => if s.writer ≠ 0 then s else s.goTo t .locking
  | .entering => { s with sequence := s.sequence + 1 }.goTo t .writing
  | _ => s

def seqlock_write_unlock (s : Lock T W V) (t : T) : Lock T W V :=
  match s.point t with
  | .writing =>
    { s with
      sequence := s.sequence + 1
      published := s.published ++ [s.data]
      sections := s.sections + 1 }.goTo t .leaving
  | .leaving => { s with writer := 0 }.goTo t .outside
  | _ => s

def seqlock_read_begin (s : Lock T W V) (t : T) : Lock T W V :=
  if s.sequence &&& 1 ≠ 0 then s else s.goTo t (.reading s.sequence s.sections [])

def seqlock_read_retry (s : Lock T W V) (sequence : UInt32) : UInt8 :=
  if s.sequence ≠ sequence then 1 else 0

inductive Event (T W V : Type*) where
  | callWriteLock (t : T)
  /-- The `seqlock_write_lock` of the thread makes its next atomic operation. -/
  | writeLock (t : T)
  /-- The thread stores a word of the data in its write section. -/
  | store (t : T) (word : W) (value : V)
  /-- The `seqlock_write_unlock` of the thread makes its next atomic operation. -/
  | writeUnlock (t : T)
  | callReadBegin (t : T)
  | readBegin (t : T)
  /-- The thread reads a word of the data. -/
  | load (t : T) (word : W)
  /-- The thread calls `seqlock_read_retry` and goes on without the lock, whatever it returns. -/
  | readRetry (t : T)

def Lock.step (s : Lock T W V) : Event T W V → Lock T W V
  | .callWriteLock t =>
    match s.point t with
    | .outside => s.goTo t .locking
    | _ => s
  | .writeLock t => seqlock_write_lock s t
  | .store t word value =>
    match s.point t with
    | .writing => { s with data := Function.update s.data word value }
    | _ => s
  | .writeUnlock t => seqlock_write_unlock s t
  | .callReadBegin t =>
    match s.point t with
    | .outside => s.goTo t .beginning
    | _ => s
  | .readBegin t =>
    match s.point t with
    | .beginning => seqlock_read_begin s t
    | _ => s
  | .load t word =>
    match s.point t with
    | .reading sequence began got =>
      s.goTo t (.reading sequence began (got ++ [(word, s.data word)]))
    | _ => s
  | .readRetry t =>
    match s.point t with
    | .reading _ _ _ => s.goTo t .outside
    | _ => s

end

/-! ## The invariant -/

section
variable {T W V : Type*}

/-- The thread is between the lock and the unlock of the spinlock. -/
def Point.owns : Point W V → Bool
  | .entering | .writing | .leaving => true
  | _ => false

/-- The number of increments of the sequence so far is twice the sections, and one more inside a
section. -/
structure Inv (s : Lock T W V) (increments : Nat) : Prop where
  sequence : s.sequence = UInt32.ofNat increments
  locked : ∀ t, (s.point t).owns = true → s.writer ≠ 0
  single : ∀ t u, (s.point t).owns = true → (s.point u).owns = true → t = u
  inside : ∀ t, s.point t = .writing → increments = 2 * s.sections + 1
  between : (∀ t, s.point t ≠ .writing) → increments = 2 * s.sections ∧ s.data ∈ s.published
  /-- As long as no increment was made since the reader began, its words are those of the data. -/
  reading : ∀ t sequence began got, s.point t = .reading sequence began got →
    sequence = UInt32.ofNat (2 * began) ∧ 2 * began ≤ increments ∧
      (increments = 2 * began → ∀ entry ∈ got, entry.2 = s.data entry.1)

variable {s : Lock T W V} {increments : Nat}

theorem Inv.init (d : W → V) : Inv (seqlock_init d : Lock T W V) 0 where
  sequence := rfl
  locked := by simp [seqlock_init, Point.owns]
  single := by simp [seqlock_init, Point.owns]
  inside := by simp [seqlock_init]
  between := by simp [seqlock_init]
  reading := by simp [seqlock_init]

theorem Inv.alone (h : Inv s increments) {t : T} (ht : (s.point t).owns = true) (u : T)
    (hut : u ≠ t) : (s.point u).owns = false := by
  cases hu : (s.point u).owns with
  | false => rfl
  | true => exact absurd (h.single u t hu ht) hut

theorem Inv.nobody_writes (h : Inv s increments) {t : T} (ht : (s.point t).owns = true)
    (hw : s.point t ≠ .writing) (u : T) : s.point u ≠ .writing := by
  intro hu
  have hut : u = t := h.single u t (by rw [hu]; rfl) ht
  exact hw (hut ▸ hu)

theorem Inv.even (h : Inv s increments) (he : s.sequence &&& 1 = 0) (t : T) :
    s.point t ≠ .writing := by
  intro ht
  have ho := h.inside t ht
  have hb : increments % 2 ^ 32 % 2 = 0 := by
    have htn := congrArg UInt32.toNat he
    rwa [h.sequence, UInt32.toNat_and, UInt32.toNat_ofNat', UInt32.toNat_one, Nat.and_one_is_mod]
      at htn
  omega

/-! ## The steps -/

variable [DecidableEq T]

theorem Inv.goTo_quiet (h : Inv s increments) {t : T} {p : Point W V}
    (hold : (s.point t).owns = false) (hn : p.owns = false)
    (hr : ∀ sq b got, p = .reading sq b got →
      sq = UInt32.ofNat (2 * b) ∧ 2 * b ≤ increments ∧
        (increments = 2 * b → ∀ e ∈ got, e.2 = s.data e.1)) :
    Inv (s.goTo t p) increments := by
  have ho (u : T) : ((s.goTo t p).point u).owns = (s.point u).owns := by
    by_cases hut : u = t
    · rw [hut, hold]
      simpa [Lock.goTo] using hn
    · simp [Lock.goTo, hut]
  have hw (u : T) : (s.goTo t p).point u = .writing ↔ s.point u = .writing := by
    by_cases hut : u = t
    · rw [hut]
      simp only [Lock.goTo, Function.update_self]
      constructor
      · rintro rfl
        cases hn
      · intro ht
        rw [ht] at hold
        cases hold
    · simp [Lock.goTo, hut]
  refine ⟨h.sequence, fun u hu => ?_, fun u v hu hv => ?_, fun u hu => ?_, fun hnn => ?_, ?_⟩
  · exact h.locked u (ho u ▸ hu)
  · exact h.single u v (ho u ▸ hu) (ho v ▸ hv)
  · exact h.inside u ((hw u).mp hu)
  · exact h.between fun u hu => hnn u ((hw u).mpr hu)
  · intro u sq b got hu
    by_cases hut : u = t
    · simp only [Lock.goTo, hut, Function.update_self] at hu
      exact hr sq b got hu
    · simp only [Lock.goTo, Function.update_of_ne hut] at hu
      exact h.reading u sq b got hu

theorem Inv.goTo_owner (h : Inv s increments) {t : T} {p : Point W V} {new : Lock T W V}
    {later : Nat} (hpn : new.point = s.point)
    (ha : ∀ u, u ≠ t → (s.point u).owns = false)
    (hs : new.sequence = UInt32.ofNat later)
    (hw : p.owns = true → new.writer ≠ 0)
    (hi : p = .writing → later = 2 * new.sections + 1)
    (hb : p ≠ .writing → later = 2 * new.sections ∧ new.data ∈ new.published)
    (hp : ∀ sq b got, p ≠ .reading sq b got)
    (hr : ∀ b, 2 * b ≤ increments → 2 * b ≤ later ∧
      (later = 2 * b → increments = 2 * b ∧ new.data = s.data)) :
    Inv (new.goTo t p) later := by
  have hsl : (new.goTo t p).point t = p := Function.update_self ..
  have ho {u : T} (hut : u ≠ t) : (new.goTo t p).point u = s.point u := by
    rw [← hpn]
    exact Function.update_of_ne hut ..
  have hm {u : T} (hu : ((new.goTo t p).point u).owns = true) : u = t := by grind
  refine ⟨hs, fun u hu => ?_, fun u v hu hv => ?_, fun u hu => ?_, fun hn => ?_,
    fun u sq b got hu => ?_⟩
  · rw [hm hu, hsl] at hu
    exact hw hu
  · rw [hm hu, hm hv]
  · have hut : u = t := hm (by rw [hu]; rfl)
    rw [hut, hsl] at hu
    exact hi hu
  · exact hb (hsl ▸ hn t)
  · by_cases hut : u = t
    · grind
    · rw [ho hut] at hu
      obtain ⟨hsq, hle, hg⟩ := h.reading u sq b got hu
      obtain ⟨hl', hsm⟩ := hr b hle
      refine ⟨hsq, hl', fun heq e he => ?_⟩
      rw [hg (hsm heq).1 e he]
      exact congrFun (hsm heq).2.symm e.1

theorem Inv.claim (h : Inv s increments) {t : T} (hw : s.writer = 0) :
    Inv (Lock.goTo { s with writer := 1 } t .entering) increments := by
  have hf (u : T) : (s.point u).owns = false := by
    cases hu : (s.point u).owns with
    | false => rfl
    | true => exact absurd hw (h.locked u hu)
  refine h.goTo_owner rfl (fun u _ => hf u) h.sequence (fun _ => by simp) nofun ?_ nofun
    (fun b hle => ⟨hle, fun heq => ⟨heq, rfl⟩⟩)
  refine fun _ => h.between fun u hu => ?_
  have huw := hf u
  rw [hu] at huw
  cases huw

theorem Inv.enter (h : Inv s increments) {t : T} (ht : s.point t = .entering) :
    Inv (Lock.goTo { s with sequence := s.sequence + 1 } t .writing) (increments + 1) := by
  have ho : (s.point t).owns = true := by rw [ht]; rfl
  obtain ⟨he, -⟩ := h.between (h.nobody_writes ho (by rw [ht]; nofun))
  refine h.goTo_owner rfl (h.alone ho) ?_ (fun _ => h.locked t ho) ?_ nofun nofun ?_
  · rw [tally.ofNat_succ, ← h.sequence]
  · exact fun _ => congrArg (· + 1) he
  omega

theorem Inv.store [DecidableEq W] (h : Inv s increments) {t : T} (ht : s.point t = .writing)
    (word : W) (v : V) :
    Inv { s with data := Function.update s.data word v } increments := by
  have ho : (s.point t).owns = true := by rw [ht]; rfl
  have hod := h.inside t ht
  have hs : { s with data := Function.update s.data word v } =
      Lock.goTo { s with data := Function.update s.data word v } t .writing := by
    rw [Lock.goTo, ← ht, Function.update_eq_self]
  rw [hs]
  exact h.goTo_owner rfl (h.alone ho) h.sequence (fun _ => h.locked t ho) (fun _ => hod)
    (fun hne => absurd rfl hne) nofun (fun b hle => ⟨hle, fun heq => by omega⟩)

theorem Inv.leave (h : Inv s increments) {t : T} (ht : s.point t = .writing) :
    Inv (Lock.goTo { s with
      sequence := s.sequence + 1
      published := s.published ++ [s.data]
      sections := s.sections + 1 } t .leaving) (increments + 1) := by
  have ho : (s.point t).owns = true := by rw [ht]; rfl
  have hod := h.inside t ht
  refine h.goTo_owner rfl (h.alone ho) ?_ (fun _ => h.locked t ho) nofun ?_ nofun ?_
  · rw [tally.ofNat_succ, ← h.sequence]
  · grind
  omega

theorem Inv.unlock (h : Inv s increments) {t : T} (ht : s.point t = .leaving) :
    Inv (Lock.goTo { s with writer := 0 } t .outside) increments := by
  have ho : (s.point t).owns = true := by rw [ht]; rfl
  refine h.goTo_owner rfl (h.alone ho) h.sequence nofun nofun ?_ nofun
    (fun b hle => ⟨hle, fun heq => ⟨heq, rfl⟩⟩)
  exact fun _ => h.between (h.nobody_writes ho (by rw [ht]; nofun))

def Counted (s : Lock T W V) : Prop := ∃ increments, Inv s increments

theorem Inv.write_lock (h : Inv s increments) (t : T) : Counted (seqlock_write_lock s t) := by
  fun_cases seqlock_write_lock s t
  case case1 hw => exact ⟨_, h.claim hw⟩
  case case2 ht _ => exact ⟨_, h.goTo_quiet (by rw [ht]; rfl) rfl nofun⟩
  case case3 => exact ⟨_, h⟩
  case case4 ht _ => exact ⟨_, h.goTo_quiet (by rw [ht]; rfl) rfl nofun⟩
  case case5 ht => exact ⟨_, h.enter ht⟩
  case case6 => exact ⟨_, h⟩

theorem Inv.write_unlock (h : Inv s increments) (t : T) : Counted (seqlock_write_unlock s t) := by
  fun_cases seqlock_write_unlock s t
  case case1 ht => exact ⟨_, h.leave ht⟩
  case case2 ht => exact ⟨_, h.unlock ht⟩
  case case3 => exact ⟨_, h⟩

theorem Inv.read_begin (h : Inv s increments) {t : T} (ht : s.point t = .beginning) :
    Inv (seqlock_read_begin s t) increments := by
  fun_cases seqlock_read_begin s t
  case case1 => exact h
  case case2 he =>
    obtain ⟨hc, -⟩ := h.between (h.even (not_not.mp he))
    refine h.goTo_quiet (by rw [ht]; rfl) rfl fun sq b got hp => ?_
    cases hp
    simp [h.sequence, hc]

theorem Inv.load (h : Inv s increments) {t : T} {sq : UInt32} {b : Nat}
    {got : List (W × V)} (ht : s.point t = .reading sq b got) (word : W) :
    Inv (s.goTo t (.reading sq b (got ++ [(word, s.data word)]))) increments := by
  obtain ⟨hs, hle, hg⟩ := h.reading t sq b got ht
  refine h.goTo_quiet (by rw [ht]; rfl) rfl fun _ _ _ hp => ?_
  grind

theorem Counted.step [DecidableEq W] (h : Counted s) (event : Event T W V) :
    Counted (s.step event) := by
  obtain ⟨increments, h⟩ := h
  fun_cases Lock.step s event
  case case1 ht => exact ⟨_, h.goTo_quiet (by rw [ht]; rfl) rfl nofun⟩
  case case2 => exact ⟨_, h⟩
  case case3 t => exact h.write_lock t
  case case4 ht => exact ⟨_, h.store ht _ _⟩
  case case5 => exact ⟨_, h⟩
  case case6 t => exact h.write_unlock t
  case case7 ht => exact ⟨_, h.goTo_quiet (by rw [ht]; rfl) rfl nofun⟩
  case case8 => exact ⟨_, h⟩
  case case9 ht => exact ⟨_, h.read_begin ht⟩
  case case10 => exact ⟨_, h⟩
  case case11 ht => exact ⟨_, h.load ht _⟩
  case case12 => exact ⟨_, h⟩
  case case13 ht => exact ⟨_, h.goTo_quiet (by rw [ht]; rfl) rfl nofun⟩
  case case14 => exact ⟨_, h⟩

/-! ## Consistent reads -/

/-- A reader whose `seqlock_read_retry` returns 0, less than `2 ^ 31` sections after it began, has
read all its words from one state of the data between two write sections. -/
theorem a_read_is_of_one_state [DecidableEq W] (data : W → V) (events : List (Event T W V)) (t : T)
    (sequence : UInt32) (began : Nat) (got : List (W × V))
    (ht : (runs.run Lock.step (seqlock_init data) events).point t = .reading sequence began got)
    (hretry : seqlock_read_retry (runs.run Lock.step (seqlock_init data : Lock T W V) events)
      sequence = 0)
    (hsections : (runs.run Lock.step (seqlock_init data : Lock T W V) events).sections <
      began + 2 ^ 31) :
    ∃ state ∈ (runs.run Lock.step (seqlock_init data : Lock T W V) events).published,
      ∀ entry ∈ got, entry.2 = state entry.1 := by
  have hrun : Counted (runs.run Lock.step (seqlock_init data : Lock T W V) events) :=
    runs.run_keeps (fun s event hs => hs.step event) ⟨0, Inv.init data⟩ events
  obtain ⟨increments, h⟩ := hrun
  generalize runs.run Lock.step (seqlock_init data : Lock T W V) events = s at *
  obtain ⟨hseq, hle, hgot⟩ := h.reading t sequence began got ht
  have hsame : s.sequence = sequence := by
    by_contra hne
    simp [seqlock_read_retry, hne] at hretry
  have hbound : increments ≤ 2 * s.sections + 1 := by
    by_cases hnone : ∀ u, s.point u ≠ .writing
    · have hcount := (h.between hnone).1
      omega
    · obtain ⟨u, hu⟩ := not_forall.mp hnone
      exact (h.inside u (not_not.mp hu)).le
  have hstill : 2 * began = increments :=
    tally.eq_of_ofNat_eq (by rw [← hseq, ← hsame, h.sequence]) hle (by omega)
  have hnone : ∀ u, s.point u ≠ .writing := fun u hu => by
    have hodd := h.inside u hu
    omega
  exact ⟨s.data, (h.between hnone).2, hgot hstill.symm⟩

/-- A writer stores the first word before the read and stands in front of its next section when
the reader compares. -/
def readAfterWrite : List (Event Bool Bool Nat) :=
  [Event.callWriteLock true, Event.writeLock true, Event.writeLock true, Event.store true false 7,
    Event.writeUnlock true, Event.writeUnlock true, Event.callReadBegin false,
    Event.readBegin false, Event.load false false, Event.callWriteLock true,
    Event.writeLock true, Event.load false true]

theorem the_read_after_the_write_is_of_one_state :
    ∃ state ∈ (runs.run Lock.step (seqlock_init fun _ => 0) readAfterWrite).published,
      ∀ entry ∈ [(false, 7), (true, 0)], entry.2 = state entry.1 :=
  a_read_is_of_one_state (fun _ => 0) readAfterWrite false 2 1 [(false, 7), (true, 0)] rfl rfl
    (by decide)

end

end mvh.seqlock

-- The ticket lock of `sync.c`, thread by thread and atomic operation by atomic operation.
import Mathlib.Data.Fintype.EquivFin
import MvhKernel.Runs
import MvhKernel.Tally

namespace mvh.ticket_lock

inductive Point where
  | outside
  /-- In front of the `next + 1`. -/
  | arriving
  /-- In the loop that compares `serving` with the ticket. -/
  | waiting (ticket : UInt32)
  | holder
  deriving DecidableEq

/-- The two words of the lock, the threads, and the two lists. -/
structure Lock (T : Type*) where
  next : UInt32
  serving : UInt32
  point : T → Point
  taken : List T
  entered : List T

section
variable {T : Type*} [DecidableEq T]

def Lock.goTo (s : Lock T) (t : T) (point : Point) : Lock T :=
  { s with point := Function.update s.point t point }

def ticket_lock_init : Lock T where
  next := 0
  serving := 0
  point _ := .outside
  taken := []
  entered := []

def ticket_lock_acquire (s : Lock T) (t : T) : Lock T :=
  match s.point t with
  | .arriving => { s with next := s.next + 1, taken := s.taken ++ [t] }.goTo t (.waiting s.next)
  | .waiting ticket =>
    if s.serving ≠ ticket then s else { s with entered := s.entered ++ [t] }.goTo t .holder
  | _ => s

def ticket_lock_release (s : Lock T) (t : T) : Lock T :=
  { s with serving := s.serving + 1 }.goTo t .outside

inductive Event (T : Type*) where
  | callAcquire (t : T)
  /-- The acquire call of the thread makes its next atomic operation. -/
  | proceed (t : T)
  /-- The holder releases the lock. -/
  | release (t : T)

def Lock.step (s : Lock T) : Event T → Lock T
  | .callAcquire t => if s.point t = .outside then s.goTo t .arriving else s
  | .proceed t => ticket_lock_acquire s t
  | .release t => if s.point t = .holder then ticket_lock_release s t else s

end

/-! ## The invariant -/

section
variable {T : Type*}

/-- `holder` is the thread inside, `queue` has the threads that wait, and `served` is the number
of releases so far. -/
structure Inv (s : Lock T) (holder : Option T) (queue : List T) (served : Nat) : Prop where
  next : s.next = UInt32.ofNat s.taken.length
  serving : s.serving = UInt32.ofNat served
  order : s.taken = s.entered ++ queue
  entries : served + holder.toList.length = s.entered.length
  holds : ∀ t, s.point t = .holder ↔ holder = some t
  /-- The thread at place `i` of the queue waits with the ticket that many after the entries. -/
  waiting : ∀ t ticket, s.point t = .waiting ticket ↔
    ∃ i, queue[i]? = some t ∧ ticket = UInt32.ofNat (s.entered.length + i)
  nodup : (holder.toList ++ queue).Nodup

theorem Inv.init : Inv (ticket_lock_init : Lock T) none [] 0 where
  next := rfl
  serving := rfl
  order := rfl
  entries := rfl
  holds := by simp [ticket_lock_init]
  waiting := by simp [ticket_lock_init]
  nodup := List.nodup_nil

variable {s : Lock T} {holder : Option T} {queue : List T} {served : Nat}

theorem Inv.length_le [Fintype T] (h : Inv s holder queue served) :
    holder.toList.length + queue.length ≤ Fintype.card T := by
  have hle := h.nodup.length_le_card
  rwa [List.length_append] at hle

theorem Inv.not_mem_queue (h : Inv s holder queue served) {t : T}
    (ht : ∀ tc, s.point t ≠ .waiting tc) : t ∉ queue := by
  intro hm
  obtain ⟨i, hi⟩ := List.getElem?_of_mem hm
  exact ht _ ((h.waiting t _).mpr ⟨i, hi, rfl⟩)

theorem Inv.served_is_first [Fintype T] (hc : Fintype.card T < 2 ^ 32)
    (h : Inv s holder queue served) {t : T} (ht : s.point t = .waiting s.serving) :
    holder = none ∧ ∃ rest, queue = t :: rest := by
  obtain ⟨i, hi, htc⟩ := (h.waiting t _).mp ht
  rw [h.serving] at htc
  have hp : i < queue.length := by grind
  have he := h.entries
  have hth := h.length_le
  have hs : served = s.entered.length + i :=
    tally.eq_of_ofNat_eq htc (by omega) (by omega)
  -- the releases are at most the entries, so both differences are 0
  have hf : i = 0 := by omega
  have hfr : holder.toList.length = 0 := by omega
  refine ⟨by simpa using hfr, ?_⟩
  subst hf
  cases queue with
  | nil => cases hi
  | cons u rest => exact ⟨rest, by rw [Option.some.inj hi]⟩

/-! ## The steps -/

theorem getElem?_concat {l : List T} {a b : T} {i : Nat} :
    (l ++ [a])[i]? = some b ↔ l[i]? = some b ∨ i = l.length ∧ a = b := by
  rcases lt_trichotomy i l.length with hi | rfl | hi
  · simp [List.getElem?_append_left hi, hi.ne]
  · simp
  grind

variable [DecidableEq T]

theorem Inv.arrive (h : Inv s holder queue served) {t : T} (ht : s.point t = .outside) :
    Inv (s.goTo t .arriving) holder queue served := by
  refine { h with holds := fun u => ?_, waiting := fun u tc => ?_ }
  · by_cases hut : u = t
    · have hold := h.holds u
      rw [hut, ht] at hold
      simpa [Lock.goTo, hut] using hold
    · simpa [Lock.goTo, hut] using h.holds u
  · by_cases hut : u = t
    · have hold := h.waiting u tc
      rw [hut, ht] at hold
      simpa [Lock.goTo, hut] using hold
    · simpa [Lock.goTo, hut] using h.waiting u tc

theorem Inv.take (h : Inv s holder queue served) {t : T} (ht : s.point t = .arriving) :
    Inv (Lock.goTo { s with next := s.next + 1, taken := s.taken ++ [t] } t (.waiting s.next))
      holder (queue ++ [t]) served := by
  have hq : t ∉ queue := h.not_mem_queue (by simp [ht])
  have hhl : holder ≠ some t := fun hh => by simpa [ht] using (h.holds t).mpr hh
  refine ⟨?_, h.serving, ?_, h.entries, fun u => ?_, fun u tc => ?_, ?_⟩
  · simp [Lock.goTo, h.next, tally.ofNat_succ]
  · simp [Lock.goTo, h.order]
  · by_cases hut : u = t
    · simpa [Lock.goTo, hut] using hhl
    · simpa [Lock.goTo, hut] using h.holds u
  · have hl : s.taken.length = s.entered.length + queue.length := by
      rw [h.order, List.length_append]
    by_cases hut : u = t
    · subst hut
      simp only [Lock.goTo, Function.update_self, Point.waiting.injEq, h.next, hl]
      grind
    · simp only [Lock.goTo, Function.update_of_ne hut, h.waiting u tc]
      grind
  · rw [← List.append_assoc]
    refine h.nodup.append (List.nodup_singleton t) ?_
    grind [List.disjoint_singleton]

theorem Inv.enter {rest : List T} {t : T} (h : Inv s none (t :: rest) served) :
    Inv (Lock.goTo { s with entered := s.entered ++ [t] } t .holder) (some t) rest served := by
  have he := h.entries
  have hr : t ∉ rest := (List.nodup_cons.mp h.nodup).1
  refine ⟨h.next, h.serving, ?_, ?_, fun u => ?_, fun u tc => ?_, h.nodup⟩
  · simp [Lock.goTo, h.order]
  · simpa [Lock.goTo] using he
  · by_cases hut : u = t
    · simp [Lock.goTo, hut]
    · have hn := h.holds u
      simp [reduceCtorEq, iff_false, Lock.goTo, hut, hn, Ne.symm]
  · by_cases hut : u = t
    · subst hut
      simp only [Lock.goTo, Function.update_self, reduceCtorEq, false_iff]
      grind
    · simp only [Lock.goTo, Function.update_of_ne hut, h.waiting u tc, List.length_append,
        List.length_singleton]
      constructor
      · grind
      · rintro ⟨i, hi, rfl⟩
        exact ⟨i + 1, hi, congrArg UInt32.ofNat (by omega)⟩

theorem Inv.release (h : Inv s holder queue served) {t : T} (ht : s.point t = .holder) :
    Inv (ticket_lock_release s t) none queue (served + 1) := by
  obtain rfl : holder = some t := (h.holds t).mp ht
  have hq : t ∉ queue := (List.nodup_cons.mp h.nodup).1
  refine ⟨h.next, ?_, h.order, h.entries, fun u => ?_, fun u tc => ?_, ?_⟩
  · simp [ticket_lock_release, Lock.goTo, h.serving, tally.ofNat_succ]
  · by_cases hut : u = t
    · simp [ticket_lock_release, Lock.goTo, hut]
    · simp [ticket_lock_release, Lock.goTo, hut, h.holds u, Ne.symm hut]
  · by_cases hut : u = t
    · subst hut
      simp only [ticket_lock_release, Lock.goTo, Function.update_self, reduceCtorEq, false_iff]
      grind
    · simpa [ticket_lock_release, Lock.goTo, hut] using h.waiting u tc
  · exact (List.nodup_cons.mp h.nodup).2

def Explained (s : Lock T) : Prop := ∃ holder queue served, Inv s holder queue served

theorem Explained.step [Fintype T] (hc : Fintype.card T < 2 ^ 32) (h : Explained s)
    (event : Event T) : Explained (s.step event) := by
  obtain ⟨holder, queue, served, h⟩ := h
  fun_cases Lock.step s event
  case case1 t ht => exact ⟨_, _, _, h.arrive ht⟩
  case case2 => exact ⟨_, _, _, h⟩
  case case3 t =>
    fun_cases ticket_lock_acquire s t
    case case1 ht => exact ⟨_, _, _, h.take ht⟩
    case case2 => exact ⟨_, _, _, h⟩
    case case3 ticket ht hs =>
      rw [← not_not.mp hs] at ht
      obtain ⟨rfl, rest, rfl⟩ := h.served_is_first hc ht
      exact ⟨_, _, _, h.enter⟩
    case case4 => exact ⟨_, _, _, h⟩
  case case4 t ht => exact ⟨_, _, _, h.release ht⟩
  case case5 => exact ⟨_, _, _, h⟩

/-! ## Exclusion and order -/

/-- At most one thread holds the lock, and the threads have entered in the order of their
tickets. -/
theorem threads_enter_one_by_one_in_order [Fintype T] (hcard : Fintype.card T < 2 ^ 32)
    (events : List (Event T)) :
    (∀ t u, (runs.run Lock.step ticket_lock_init events).point t = .holder →
      (runs.run Lock.step ticket_lock_init events).point u = .holder → t = u) ∧
    (runs.run Lock.step ticket_lock_init events).entered <+:
      (runs.run Lock.step ticket_lock_init events).taken := by
  have hrun : Explained (runs.run Lock.step (ticket_lock_init : Lock T) events) :=
    runs.run_keeps (fun s event hs => hs.step hcard event) ⟨none, [], 0, Inv.init⟩ events
  obtain ⟨holder, queue, served, h⟩ := hrun
  refine ⟨fun t u ht hu => ?_, ⟨queue, h.order.symm⟩⟩
  exact Option.some.inj (((h.holds t).mp ht).symm.trans ((h.holds u).mp hu))

theorem two_threads_enter_in_order :
    let s := runs.run Lock.step ticket_lock_init
      [Event.callAcquire true, Event.callAcquire false, Event.proceed false, Event.proceed true,
        Event.proceed true, Event.proceed false, Event.release false, Event.proceed true]
    s.taken = [false, true] ∧ s.entered = [false, true] ∧ s.entered <+: s.taken :=
  ⟨by decide, by decide, (threads_enter_one_by_one_in_order (by decide) _).2⟩

end

end mvh.ticket_lock

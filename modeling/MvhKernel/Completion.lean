-- The completions of `sync.c`, atomic operation by atomic operation.
import MvhKernel.Runs
import MvhKernel.Tally

namespace mvh.completion

/-- Where a thread stands in `completion_try_wait`. -/
inductive Point where
  | outside
  /-- In front of a load of `done`. -/
  | looking
  /-- In front of the compare-and-exchange with the value of `done` that it has seen. -/
  | trying (done : UInt32)
  deriving DecidableEq

/-- The word, the threads, and what has been called: the number of `completion_complete` calls,
the number of `completion_try_wait` calls that returned 1, whether `completion_complete_all` was
called, and whether ever `2 ^ 32 - 1` completions were outstanding. -/
structure Completion (T : Type*) where
  done : UInt32
  point : T → Point
  completes : Nat
  takes : Nat
  broadcast : Bool
  crowded : Bool

section
variable {T : Type*} [DecidableEq T]

def Completion.goTo (s : Completion T) (t : T) (point : Point) : Completion T :=
  { s with point := Function.update s.point t point }

def completion_init : Completion T where
  done := 0
  point _ := .outside
  completes := 0
  takes := 0
  broadcast := false
  crowded := false

def completion_complete (s : Completion T) : Completion T :=
  { s with
    done := s.done + 1
    completes := s.completes + 1
    crowded := s.crowded || decide (s.takes + (2 ^ 32 - 1) ≤ s.completes + 1) }

def completion_complete_all (s : Completion T) : Completion T :=
  { s with done := 0xFFFFFFFF, broadcast := true }

/-- The value that the `completion_try_wait` of the thread returns with its next atomic
operation. -/
def returned (s : Completion T) (t : T) : Option UInt8 :=
  match s.point t with
  | .outside => none
  | .looking => if s.done = 0 then some 0 else if s.done = 0xFFFFFFFF then some 1 else none
  | .trying done => if s.done = done then some 1 else none

def completion_try_wait (s : Completion T) (t : T) : Completion T :=
  match s.point t with
  | .outside => s
  | .looking =>
    if s.done = 0 then s.goTo t .outside
    else if s.done = 0xFFFFFFFF then { s with takes := s.takes + 1 }.goTo t .outside
    else s.goTo t (.trying s.done)
  | .trying done =>
    if s.done = done then { s with done := done - 1, takes := s.takes + 1 }.goTo t .outside
    else s.goTo t .looking

inductive Event (T : Type*) where
  | complete
  | completeAll
  | callTryWait (t : T)
  /-- The `completion_try_wait` of the thread makes its next atomic operation. -/
  | tryWait (t : T)

def Completion.step (s : Completion T) : Event T → Completion T
  | .complete => completion_complete s
  | .completeAll => completion_complete_all s
  | .callTryWait t => if s.point t = .outside then s.goTo t .looking else s
  | .tryWait t => completion_try_wait s t

end

/-! ## The invariant -/

section
variable {T : Type*}

structure Inv (s : Completion T) : Prop where
  trying : ∀ t done, s.point t = .trying done → done ≠ 0 ∧ done ≠ 0xFFFFFFFF
  broadcast : s.broadcast = true → s.done = 0xFFFFFFFF
  counted : s.broadcast = false → s.crowded = false →
    s.completes = s.takes + s.done.toNat ∧ s.done ≠ 0xFFFFFFFF

theorem toNat_max : (0xFFFFFFFF : UInt32).toNat = 2 ^ 32 - 1 := rfl

theorem Inv.init : Inv (completion_init : Completion T) where
  trying := by simp [completion_init]
  broadcast := by simp [completion_init]
  counted _ _ := ⟨rfl, by simp [completion_init]⟩

theorem Inv.complete {s : Completion T} (h : Inv s) (hc : s.broadcast = false) :
    Inv (completion_complete s) := by
  refine ⟨h.trying, fun hb => ?_, fun _ hcr => ?_⟩
  · rw [completion_complete, hc] at hb
    cases hb
  · simp only [completion_complete, Bool.or_eq_false_iff, decide_eq_false_iff_not] at hcr
    obtain ⟨hcn, -⟩ := h.counted hc hcr.1
    have hr : s.done.toNat + 1 < 2 ^ 32 - 1 := by omega
    have hn : (s.done + 1).toNat = s.done.toNat + 1 := tally.toNat_add_one (by omega)
    refine ⟨by simp only [completion_complete]; omega, fun hm => ?_⟩
    have hv := congrArg UInt32.toNat hm
    rw [toNat_max] at hv
    simp only [completion_complete, hn] at hv
    omega

theorem Inv.complete_all {s : Completion T} (h : Inv s) : Inv (completion_complete_all s) :=
  ⟨h.trying, fun _ => rfl, fun hb => by cases hb⟩

theorem Inv.take_sign {s : Completion T} (h : Inv s) (hd : s.done = 0xFFFFFFFF) :
    Inv { s with takes := s.takes + 1 } :=
  ⟨h.trying, h.broadcast,
    fun hb hc => absurd hd (h.counted hb hc).2⟩

theorem Inv.take {s : Completion T} (h : Inv s) (hz : s.done ≠ 0) (hm : s.done ≠ 0xFFFFFFFF) :
    Inv { s with done := s.done - 1, takes := s.takes + 1 } := by
  refine ⟨h.trying, fun hb => absurd (h.broadcast hb) hm,
    fun hb hc => ?_⟩
  obtain ⟨hcn, -⟩ := h.counted hb hc
  have hp : 0 < s.done.toNat := by
    rcases Nat.eq_zero_or_pos s.done.toNat with heq | hp
    · exact absurd (UInt32.toNat_inj.mp heq) hz
    · exact hp
  grind [toNat_max, tally.toNat_sub_one]

variable [DecidableEq T]

theorem Inv.goTo {s : Completion T} (h : Inv s) {t : T} {p : Point}
    (hp : ∀ d, p = .trying d → d ≠ 0 ∧ d ≠ 0xFFFFFFFF) : Inv (s.goTo t p) := by
  refine ⟨fun u d hu => ?_, h.broadcast, h.counted⟩
  by_cases hut : u = t
  · simp only [Completion.goTo, hut, Function.update_self] at hu
    exact hp d hu
  · simp only [Completion.goTo, Function.update_of_ne hut] at hu
    exact h.trying u d hu

/-! ## No completion is lost -/

/-- After a `completion_complete_all` no call returns 0, and a call that looks at the word
returns 1 at once. -/
structure Kept (s : Completion T) : Prop where
  never_zero : s.broadcast = true → ∀ t, returned s t ≠ some 0
  sticky : s.broadcast = true → ∀ t, s.point t = .looking → returned s t = some 1
  bounded : s.broadcast = false → s.crowded = false → s.takes ≤ s.completes
  zero : s.broadcast = false → s.crowded = false → ∀ t, returned s t = some 0 →
    s.completes = s.takes
  one : s.broadcast = false → s.crowded = false → ∀ t, s.point t = .looking →
    s.takes < s.completes → returned (completion_try_wait s t) t = some 1

/-- No `completion_complete` comes after a `completion_complete_all`. -/
def Careful (s : Completion T) : Event T → Prop
  | .complete => s.broadcast = false
  | _ => True

theorem Inv.try_wait {s : Completion T} (h : Inv s) (t : T) : Inv (completion_try_wait s t) := by
  fun_cases completion_try_wait s t
  case case1 => exact h
  case case2 => exact h.goTo nofun
  case case3 hd => exact (h.take_sign hd).goTo nofun
  case case4 hz hm =>
    refine h.goTo fun d hp => ?_
    cases hp
    exact ⟨hz, hm⟩
  case case5 ht =>
    obtain ⟨hz, hm⟩ := h.trying t s.done ht
    exact (h.take hz hm).goTo nofun
  case case6 => exact h.goTo nofun

theorem Inv.step {s : Completion T} (h : Inv s) (event : Event T) (hc : Careful s event) :
    Inv (s.step event) := by
  cases event with
  | complete => exact h.complete hc
  | completeAll => exact h.complete_all
  | callTryWait t =>
    simp only [Completion.step]
    split
    · exact h.goTo nofun
    · exact h
  | tryWait t => exact h.try_wait t

theorem Inv.kept {s : Completion T} (h : Inv s) : Kept s := by
  constructor
  · intro hb t
    have hd := h.broadcast hb
    grind [returned]
  · intro hb t ht
    simp [returned, ht, h.broadcast hb]
  · intro hb hc
    obtain ⟨hcn, -⟩ := h.counted hb hc
    omega
  · intro hb hc t hr
    obtain ⟨hcn, -⟩ := h.counted hb hc
    have hz : s.done = 0 := by grind [returned]
    rw [hcn, hz]
    rfl
  · intro hb hc t ht hl
    obtain ⟨hcn, hm⟩ := h.counted hb hc
    have hz : s.done ≠ 0 := by
      intro heq
      rw [heq] at hcn
      grind
    simp [completion_try_wait, ht, hz, hm, returned, Completion.goTo]

/-- In every run without a `completion_complete` after a `completion_complete_all` no completion
is lost. -/
theorem completions_are_kept (events : List (Event T))
    (hcareful : runs.Each Completion.step Careful completion_init events) :
    runs.Always Completion.step Kept (completion_init : Completion T) events :=
  runs.always_of_each (fun _ event hs => hs.step event) (fun _ hs => hs.kept) Inv.init hcareful

theorem a_broadcast_after_a_completion_is_kept :
    runs.Always Completion.step Kept (completion_init : Completion Bool)
      [Event.complete, Event.callTryWait true, Event.tryWait true, Event.completeAll,
        Event.tryWait true, Event.tryWait true] :=
  completions_are_kept _ ⟨rfl, trivial, trivial, trivial, trivial, trivial, trivial⟩

/-- A completion after the broadcast makes the word 0, and the next call returns 0. -/
theorem a_completion_takes_the_broadcast_back :
    ¬ runs.Always Completion.step Kept (completion_init : Completion Unit)
      [Event.completeAll, Event.complete, Event.callTryWait ()] :=
  fun h => h.last.never_zero rfl () rfl

end

end mvh.completion

-- Module calls that overlap.
import MvhKernel.ModuleRuns

open keyed_list

namespace mvh.module

/-! ## Calls taken apart -/

/-- One level of `module_load`: the name it was asked for, what it has saved of the slot, the
dependencies that are left, and those that it has acquired, last first. -/
structure Frame where
  name : Name
  position : Nat
  descriptor : Descriptor
  left : List Name
  acquired : List Name

/-- What the innermost level does next. -/
inductive Point where
  | enter (name : Name)
  | acquire
  | init
  | rollback (result : Int)
  | finish (result : Int)
  | back (result : Int)

/-- A call under way. -/
inductive Call where
  | loading (stack : List Frame) (point : Point) (image : Option (Name × UInt64))
  | registering (descriptor : Descriptor) (allocation allocation_size : UInt64)
  | removing (name : Name) (allocation : UInt64)
  | entering (name : Name)
  | exiting (name : Name) (position : Nat) (slot : Slot)
  | releasing (name : Name) (position : Nat) (slot : Slot) (names : List Name)
  | done (result : Int)

def Frame.next (frame : Frame) : Point :=
  match frame.left with
  | [] => .init
  | name :: _ => .enter name

/-- One step of `module_load`. -/
def load_step (r : Registry) (value : Int) : List Frame → Point → Registry × List Frame × Point
  | stack, .enter name =>
    match load_begin r name with
    | .refused => (r, stack, .back (-1))
    | .already => (r, stack, .back 0)
    | .begun position descriptor r =>
      let frame : Frame := { name, position, descriptor, left := descriptor.dependencyNames, acquired := [] }
      (r, frame :: stack, frame.next)
  | [], point => (r, [], point)
  | frame :: stack, .back result =>
    (r, frame :: stack, if result ≠ 0 then .rollback (-1) else .acquire)
  | frame :: stack, .acquire =>
    match frame.left with
    | [] => (r, frame :: stack, .init)
    | name :: names =>
      match module_acquire r name with
      | (r, result) =>
        if result ≠ 0 then (r, frame :: stack, .rollback (-1))
        else
          let frame := { frame with left := names, acquired := name :: frame.acquired }
          (r, frame :: stack, frame.next)
  | frame :: stack, .init =>
    let result := if frame.descriptor.init = 0 then 0 else value
    (r, frame :: stack, if result ≠ 0 then .rollback result else .finish 0)
  | frame :: stack, .rollback result =>
    match frame.acquired with
    | [] => (r, frame :: stack, .finish result)
    | name :: names => (module_release r name, { frame with acquired := names } :: stack, .rollback result)
  | frame :: stack, .finish result => (load_end r frame.position result, stack, .back result)

/-- One step of a call. -/
def Call.step (r : Registry) (value : Int) : Call → Option (Registry × Call)
  | .loading [] (.back result) none => some (r, .done result)
  | .loading [] (.back result) (some (name, allocation)) =>
    some (r, if result ≠ 0 then .removing name allocation else .done 0)
  | .loading stack point image =>
    match load_step r value stack point with
    | (r, stack, point) => some (r, .loading stack point image)
  | .registering descriptor allocation allocation_size =>
    match register_descriptor r (some descriptor) allocation allocation_size true false with
    | (r, result) =>
      some (if result ≠ 0 then (kfree r allocation, .done (-1))
        else (r, .loading [] (.enter descriptor.name) (some (descriptor.name, allocation))))
  | .removing name allocation => some (kfree (elf_remove r name) allocation, .done (-1))
  | .entering name =>
    match unload_begin r name with
    | none => some (r, .done (-1))
    | some (position, slot, r) => some (r, .exiting name position slot)
  | .exiting name position slot => some (r, .releasing name position slot slot.descriptor.dependencyNames)
  | .releasing name position slot (dependency :: names) =>
    some (module_release r dependency, .releasing name position slot names)
  | .releasing _ position slot [] =>
    match remove_at r position with
    | none => none
    | some r => some (if slot.owned then kfree r slot.image else r, .done 0)
  | .done result => some (r, .done result)

/-! ## The machine -/

structure Machine where
  registry : Registry
  calls : List Call

/-- A call begins, a call makes its next step, or one of the calls with a single critical
section is made. -/
inductive Event where
  | begin (call : Call)
  | proceed (index : Nat) (value : Int)
  | register (descriptor : Option Descriptor)
  | register_builtin (descriptor : Option Descriptor)
  | acquire (name : Name)
  | release (name : Name)

/-- The first points of `module_load`, `module_unload` and `module_elf_load`. -/
def Call.first : Call → Bool
  | .loading [] (.enter _) none => true
  | .registering .. => true
  | .entering _ => true
  | _ => false

def Machine.step (m : Machine) : Event → Option Machine
  | .begin call => some (if call.first then { m with calls := m.calls ++ [call] } else m)
  | .proceed index value =>
    match m.calls[index]? with
    | none => some m
    | some call =>
      match call.step m.registry value with
      | none => none
      | some (registry, call) => some { registry, calls := m.calls.set index call }
  | .register descriptor => some { m with registry := (module_register m.registry descriptor).1 }
  | .register_builtin descriptor => some { m with registry := (module_register_builtin m.registry descriptor).1 }
  | .acquire name => some { m with registry := (module_acquire m.registry name).1 }
  | .release name => some { m with registry := module_release m.registry name }

def Machine.boot : Machine := { registry := module_init, calls := [] }

/-! ## What a step should do -/

/-- The slot of that name is gone, and the others are as they were. -/
def Removes (name : Name) (before after : Registry) : Prop :=
  ∃ position slot, before.modules[position]? = some slot ∧ slot.name = name ∧
    after.modules = before.modules.eraseIdx position

/-- The slot of that name has the state, and the others are as they were. -/
def Marks (name : Name) (state : State) (before after : Registry) : Prop :=
  ∃ position slot, before.modules[position]? = some slot ∧ slot.name = name ∧
    after.modules = before.modules.set position { slot with state }

def Call.Acts (before after : Registry) : Call → Prop
  | .releasing name _ _ [] => Removes name before after
  | .loading (frame :: _) (.finish result) _ =>
    Marks frame.name (if result = 0 then .LIVE else .FAILED) before after
  | _ => True

def Call.saved : Call → List (Name × Nat)
  | .loading stack _ _ => stack.map fun frame => (frame.name, frame.position)
  | .exiting name position _ | .releasing name position _ _ => [(name, position)]
  | _ => []

def Call.removal (r : Registry) : Call → Option Nat
  | .releasing _ position _ [] => some position
  | .removing name _ => find_slot r name
  | _ => none

/-- When the event removes a slot, every other call has its slot in front of that one. -/
def Careful (m : Machine) : Event → Prop
  | .proceed index _ =>
    ∀ call ∈ m.calls[index]?, ∀ position ∈ call.removal m.registry,
      ∀ other ∈ m.calls.eraseIdx index, ∀ entry ∈ other.saved, entry.2 < position
  | _ => True

instance (m : Machine) (event : Event) : Decidable (Careful m event) :=
  match event with
  | .proceed _ _ => inferInstanceAs (Decidable (∀ _ ∈ _, _))
  | .begin _ | .register _ | .register_builtin _ | .acquire _ | .release _ => .isTrue trivial

def Machine.Acts (m : Machine) (event : Event) (m' : Machine) : Prop :=
  match event with
  | .proceed index _ => ∀ call ∈ m.calls[index]?, call.Acts m.registry m'.registry
  | _ => True

def Machine.run (m : Machine) : List Event → Option Machine
  | [] => some m
  | event :: events => (m.step event).bind fun m => m.run events

/-- Every event of the run does what it should, and no memory is overwritten. -/
def AlwaysActs (m : Machine) : List Event → Prop
  | [] => True
  | event :: events => ∃ m', m.step event = some m' ∧ m.Acts event m' ∧ AlwaysActs m' events

def AlwaysCareful (m : Machine) : List Event → Prop
  | [] => True
  | event :: events => Careful m event ∧ ∀ m' ∈ m.step event, AlwaysCareful m' events

instance decidableAlwaysCareful (m : Machine) (events : List Event) : Decidable (AlwaysCareful m events) :=
  match events with
  | [] => .isTrue trivial
  | _ :: events =>
    have : ∀ m' : Machine, Decidable (AlwaysCareful m' events) := fun m' => decidableAlwaysCareful m' events
    inferInstanceAs (Decidable (_ ∧ _))

/-! ## Positions that stay right -/

def NameAt (r : Registry) (name : Name) (position : Nat) : Prop :=
  ∃ slot, r.modules[position]? = some slot ∧ slot.name = name

def KeepsNames (r r' : Registry) : Prop := ∀ name position, NameAt r name position → NameAt r' name position

section
variable {r r' r'' : Registry}

theorem KeepsNames.refl (r : Registry) : KeepsNames r r := fun _ _ h => h

theorem Grows.keepsNames (h : Grows r r') : KeepsNames r r' := by
  rintro n p ⟨s, hs, hn⟩
  obtain ⟨s', hs', hd, _⟩ := h.slots p s hs
  exact ⟨s', hs', (congrArg Descriptor.name hd).trans hn⟩

theorem keepsNames_setState (r : Registry) (p : Nat) (s : State) :
    KeepsNames r (r.setState p s) := by
  rintro n o ⟨sl, hs, hn⟩
  by_cases heq : p = o
  · subst heq
    exact ⟨_, getElem?_update_self hs, hn⟩
  · exact ⟨sl, (getElem?_update_ne heq).trans hs, hn⟩

theorem keepsNames_register (r : Registry) (d : Option Descriptor) (im i : UInt64)
    (o l : Bool) : KeepsNames r (register_descriptor r d im i o l).1 := by
  unfold register_descriptor
  split
  · exact .refl r
  split
  · exact .refl r
  split
  · exact .refl r
  · rintro n p ⟨s, hs, hn⟩
    have hlt := (List.getElem?_eq_some_iff.mp hs).1
    exact ⟨s, (List.getElem?_append_left hlt).trans hs, hn⟩

theorem nameAt_eraseIdx {n : Name} {position removed : Nat} (h : NameAt r n position)
    (hlt : position < removed) (hm : r'.modules = r.modules.eraseIdx removed) : NameAt r' n position := by
  obtain ⟨s, hs, hn⟩ := h
  refine ⟨s, ?_, hn⟩
  grind

end

def Call.Right (r : Registry) (call : Call) : Prop := ∀ entry ∈ call.saved, NameAt r entry.1 entry.2

theorem Call.Right.mono {r r' : Registry} {call : Call} (h : call.Right r) (hk : KeepsNames r r') :
    call.Right r' := fun e he => hk _ _ (h e he)

def RightStack (r : Registry) (stack : List Frame) : Prop :=
  ∀ frame ∈ stack, NameAt r frame.name frame.position

theorem right_loading {r : Registry} {stack : List Frame} {p : Point} {i : Option (Name × UInt64)} :
    (Call.loading stack p i).Right r ↔ RightStack r stack := by
  unfold Call.Right RightStack Call.saved
  simp

section
variable {r : Registry} {stack : List Frame} {frame : Frame}

theorem RightStack.cons (hf : NameAt r frame.name frame.position) (h : RightStack r stack) :
    RightStack r (frame :: stack) := by
  intro o ho
  rcases List.mem_cons.mp ho with rfl | ho
  · exact hf
  · exact h o ho

theorem RightStack.mono {r' : Registry} (h : RightStack r stack) (hk : KeepsNames r r') : RightStack r' stack :=
  fun frame hf => hk _ _ (h frame hf)

theorem RightStack.head (h : RightStack r (frame :: stack)) : NameAt r frame.name frame.position :=
  h frame List.mem_cons_self

theorem RightStack.tail (h : RightStack r (frame :: stack)) : RightStack r stack :=
  fun o ho => h o (List.mem_cons_of_mem _ ho)

end

theorem load_step_right {r : Registry} {stack : List Frame} (h : RightStack r stack) (value : Int) (p : Point) :
    KeepsNames r (load_step r value stack p).1 ∧
      RightStack (load_step r value stack p).1 (load_step r value stack p).2.1 := by
  fun_cases load_step r value stack p
  case case1 | case2 => exact ⟨.refl r, h⟩
  case case3 name position descriptor r1 hb frame =>
    obtain ⟨s, hs, hn, _, _, rfl⟩ := load_begin_begun hb
    have hk := keepsNames_setState r position .LOADING
    exact ⟨hk, (h.mono hk).cons (hk _ _ ⟨s, hs, hn⟩)⟩
  case case4 | case5 | case6 | case9 | case10 => exact ⟨.refl r, h⟩
  case case7 frame stack name names hl r1 result ha hr =>
    have hk := (grows_acquire r name).keepsNames
    rw [ha] at hk
    exact ⟨hk, h.mono hk⟩
  case case8 frame stack name names hl r1 result ha hr frame' =>
    have hk := (grows_acquire r name).keepsNames
    rw [ha] at hk
    exact ⟨hk, (h.tail.mono hk).cons (hk _ _ h.head)⟩
  case case11 frame stack result name names hac =>
    have hk := (grows_release r name).keepsNames
    exact ⟨hk, (h.tail.mono hk).cons (hk _ _ h.head)⟩
  case case12 frame stack result =>
    have hk := keepsNames_setState r frame.position (if result = 0 then .LIVE else .FAILED)
    exact ⟨hk, h.tail.mono hk⟩

/-! ## Steps of calls -/

section
variable {r r' : Registry} {value : Int} {call call' : Call}

theorem Call.step_removal (h : call.Right r) (hs : call.step r value = some (r', call')) {p : Nat}
    (hr : call.removal r = some p) :
    r'.modules = r.modules.eraseIdx p ∧ call'.saved = [] := by
  unfold Call.removal at hr
  split at hr
  next n p' s =>
    obtain rfl := Option.some.inj hr
    obtain ⟨s', hsl, _⟩ := h (n, p') (List.mem_singleton_self _)
    have hlt := (List.getElem?_eq_some_iff.mp hsl).1
    unfold Call.step remove_at at hs
    dsimp only at hs hlt
    rw [if_neg (List.ne_nil_of_length_pos (by omega)), if_pos hlt] at hs
    cases hs
    refine ⟨?_, rfl⟩
    split <;> rfl
  next n a =>
    cases hs
    refine ⟨?_, rfl⟩
    unfold elf_remove
    rw [hr]
    rfl
  · cases hr

theorem Call.step_keeps (h : call.Right r) (hs : call.step r value = some (r', call'))
    (hr : call.removal r = none) : KeepsNames r r' ∧ call'.Right r' := by
  have hn {c : Call} (hsv : c.saved = []) : c.Right r' := by
    intro e he
    rw [hsv] at he
    cases he
  unfold Call.step at hs
  split at hs
  · cases hs
    exact ⟨.refl r, hn rfl⟩
  · cases hs
    refine ⟨.refl r, hn ?_⟩
    split <;> rfl
  next stack pn i _ _ =>
    obtain ⟨hk, hrh⟩ := load_step_right (right_loading.mp h) value pn
    cases hs
    exact ⟨hk, right_loading.mpr hrh⟩
  next d al a =>
    have hk := keepsNames_register r (some d) al a true false
    split at hs
    next r1 rs hrg =>
    rw [hrg] at hk
    split at hs
    · cases hs
      exact ⟨hk, hn rfl⟩
    · cases hs
      exact ⟨hk, hn rfl⟩
  next nm al =>
    cases hs
    refine ⟨?_, hn rfl⟩
    unfold elf_remove
    rw [show find_slot r nm = none from hr]
    exact .refl r
  next nm =>
    split at hs
    · cases hs
      exact ⟨.refl r, hn rfl⟩
    next p s r1 hb =>
      obtain ⟨hsl, hnm, _, _, rfl⟩ := unload_begin_some hb
      have hk := keepsNames_setState r p .UNLOADING
      cases hs
      refine ⟨hk, fun e he => ?_⟩
      obtain rfl := List.mem_singleton.mp he
      exact hk _ _ ⟨s, hsl, hnm⟩
  next nm p s =>
    cases hs
    exact ⟨.refl r, h⟩
  next nm p s dp n =>
    cases hs
    have hk := (grows_release r dp).keepsNames
    exact ⟨hk, h.mono hk⟩
  · cases hr
  · cases hs
    exact ⟨.refl r, hn rfl⟩

theorem Call.step_acts (h : call.Right r) (hst : call.step r value = some (r', call')) : call.Acts r r' := by
  unfold Call.Acts
  split
  next n p s =>
    obtain ⟨s', hs, hn⟩ := h (n, p) (List.mem_singleton_self _)
    exact ⟨p, s', hs, hn, (step_removal h hst rfl).1⟩
  next frame stack rs i =>
    obtain ⟨s, hs, hn⟩ := (right_loading.mp h).head
    cases hst
    refine ⟨frame.position, s, hs, hn, ?_⟩
    show r.modules.modify _ _ = _
    rw [List.modify_eq_set_getElem?, hs]
    rfl
  · trivial

theorem Call.step_some (h : call.Right r) : ∃ after, call.step r value = some after := by
  unfold Call.step
  split
  case h_9 name position slot =>
    obtain ⟨s', hs, _⟩ := h (name, position) (List.mem_singleton_self _)
    have hlt := (List.getElem?_eq_some_iff.mp hs).1
    unfold remove_at
    dsimp only at hlt
    rw [if_neg (List.ne_nil_of_length_pos (by omega)), if_pos hlt]
    exact ⟨_, rfl⟩
  case h_6 name =>
    split
    · exact ⟨_, rfl⟩
    · exact ⟨_, rfl⟩
  all_goals exact ⟨_, rfl⟩

end

/-! ## Runs -/

def Machine.Right (m : Machine) : Prop := ∀ call ∈ m.calls, call.Right m.registry

theorem Machine.Right.mono {m : Machine} (h : m.Right) {registry : Registry}
    (hkeeps : KeepsNames m.registry registry) : Machine.Right { m with registry } :=
  fun call hcall => (h call hcall).mono hkeeps

theorem Machine.Right.step {m : Machine} (h : m.Right) {event : Event} (hcareful : Careful m event) :
    ∃ m', m.step event = some m' ∧ m.Acts event m' ∧ m'.Right := by
  cases event with
  | begin call =>
    refine ⟨_, rfl, trivial, ?_⟩
    split
    next hfirst =>
      intro other hother
      rcases List.mem_append.mp hother with hother | hother
      · exact h other hother
      · obtain rfl := List.mem_singleton.mp hother
        unfold Call.first at hfirst
        split at hfirst
        · exact fun entry hentry => by cases hentry
        · exact fun entry hentry => by cases hentry
        · exact fun entry hentry => by cases hentry
        · cases hfirst
    · exact h
  | proceed index value =>
    unfold Machine.step
    dsimp only
    cases hcall : m.calls[index]? with
    | none =>
      refine ⟨m, rfl, ?_, h⟩
      intro call hmem
      rw [hcall] at hmem
      cases hmem
    | some call =>
      have hright := h call (List.mem_of_getElem? hcall)
      obtain ⟨⟨registry, call'⟩, hstep⟩ : ∃ after, call.step m.registry value = some after := Call.step_some hright
      dsimp only
      rw [hstep]
      refine ⟨_, rfl, ?_, ?_⟩
      · intro other hmem
        grind [Call.step_acts, Option.some.inj]
      · -- The call itself, or one of the others.
        have hothers {other : Call} (hother : other ∈ m.calls.set index call') :
            other = call' ∨ other ∈ m.calls.eraseIdx index := by
          obtain ⟨j, hj⟩ := List.mem_iff_getElem?.mp hother
          rw [List.getElem?_set] at hj
          split at hj
          · grind
          next hne => exact Or.inr (List.mem_eraseIdx_iff_getElem?.mpr ⟨j, Ne.symm hne, hj⟩)
        intro other hother
        cases hremoval : call.removal m.registry with
        | none =>
          obtain ⟨hkeeps, hright'⟩ := Call.step_keeps hright hstep hremoval
          rcases hothers hother with rfl | hother
          · exact hright'
          · exact (h other (List.mem_of_mem_eraseIdx hother)).mono hkeeps
        | some position =>
          obtain ⟨hmodules, hsaved⟩ := Call.step_removal hright hstep hremoval
          rcases hothers hother with rfl | hother
          · intro entry hentry
            grind
          · intro entry hentry
            have hlt := hcareful call hcall position hremoval other hother entry hentry
            exact nameAt_eraseIdx (h other (List.mem_of_mem_eraseIdx hother) entry hentry) hlt hmodules
  | register descriptor =>
    exact ⟨_, rfl, trivial, h.mono (keepsNames_register m.registry descriptor 0 0 false false)⟩
  | register_builtin descriptor =>
    refine ⟨_, rfl, trivial, h.mono ?_⟩
    unfold module_register_builtin
    split
    · exact .refl _
    split
    · exact .refl _
    · grind [keepsNames_register]
  | acquire name => exact ⟨_, rfl, trivial, h.mono (grows_acquire m.registry name).keepsNames⟩
  | release name => exact ⟨_, rfl, trivial, h.mono (grows_release m.registry name).keepsNames⟩

theorem Machine.Right.alwaysActs {m : Machine} (h : m.Right) {events : List Event}
    (hc : AlwaysCareful m events) : AlwaysActs m events := by
  induction events generalizing m with
  | nil => trivial
  | cons event events ih =>
    obtain ⟨m', hs, ha, hr⟩ := h.step hc.1
    exact ⟨m', hs, ha, ih hr (hc.2 m' hs)⟩

/-- Calls in any interleaving act on the modules they were asked for, as long as no slot is
removed in front of one that another call has saved. -/
theorem calls_act_on_their_modules (events : List Event) (hcareful : AlwaysCareful .boot events) :
    AlwaysActs .boot events :=
  Machine.Right.alwaysActs (fun _ hcall => by cases hcall) hcareful

theorem AlwaysActs.last {m : Machine} {e : List Event} {event : Event}
    (h : AlwaysActs m (e ++ [event])) :
    ∃ m1 m2, m.run e = some m1 ∧ m1.step event = some m2 ∧ m1.Acts event m2 := by
  induction e generalizing m with
  | nil =>
    obtain ⟨m', hs, ha, _⟩ := h
    exact ⟨m, m', rfl, hs, ha⟩
  | cons first e ih =>
    obtain ⟨m', hs, _, hr⟩ := h
    obtain ⟨m1, m2, hrn, hl, ha⟩ := ih hr
    grind [Machine.run]

def loadEvents (index : Nat) (name : Text) : List Event :=
  .begin (.loading [] (.enter (some name)) none) :: List.replicate 4 (.proceed index 0)

/-- The modules 65, 66 and 67 are loaded, and the first two are marked for unloading, by
the calls 3 and 4. -/
def twoUnloads : List Event :=
  [Event.register (some (plain [65] [])), Event.register (some (plain [66] [])),
    Event.register (some (plain [67] []))] ++
    loadEvents 0 [65] ++ loadEvents 1 [66] ++ loadEvents 2 [67] ++
    [Event.begin (.entering (some [65])), Event.begin (.entering (some [66])), Event.proceed 3 0, Event.proceed 4 0]

def lastFirst : List Event := twoUnloads ++ [Event.proceed 4 0, Event.proceed 4 0, Event.proceed 3 0, Event.proceed 3 0]

/-- Call 3 goes to its end, and call 4 comes to its last critical section. -/
def firstFirst : List Event := twoUnloads ++ [Event.proceed 3 0, Event.proceed 3 0, Event.proceed 4 0]

def Machine.names (m : Machine) : List Name := m.registry.modules.map Slot.name

def Call.unloaded : Call → Option Name
  | .releasing name _ _ [] => some name
  | _ => none

theorem unloads_from_the_end_are_right :
    AlwaysCareful .boot lastFirst ∧ (Machine.boot.run lastFirst).map Machine.names = some [some [67]] ∧
      AlwaysActs .boot lastFirst := by
  have hcareful : AlwaysCareful .boot lastFirst := by decide +kernel
  exact ⟨hcareful, by decide +kernel, calls_act_on_their_modules _ hcareful⟩

/-- The call that unloads module 66 removes module 67. -/
theorem an_unload_removes_another_module :
    (Machine.boot.run (firstFirst ++ [Event.proceed 4 0])).map Machine.names = some [some [66]] ∧
      ¬ AlwaysActs .boot (firstFirst ++ [Event.proceed 4 0]) := by
  refine ⟨by decide +kernel, fun hacts => ?_⟩
  obtain ⟨m1, m2, hrun, hstep, hlast⟩ := hacts.last
  have hbefore : (Machine.boot.run firstFirst).map
      (fun m => (m.names, (m.step (.proceed 4 0)).map Machine.names)) =
        some ([some [66], some [67]], some [some [66]]) := by
    decide +kernel
  have hcall : ((Machine.boot.run firstFirst).bind
      fun m => m.calls[4]?.map Call.unloaded) = some (some (some [66])) := by
    decide +kernel
  rw [hrun] at hbefore hcall
  obtain ⟨hnames, hnames'⟩ := Prod.mk.inj (Option.some.inj hbefore)
  rw [hstep] at hnames'
  have hnames' : m2.names = [some [66]] := Option.some.inj hnames'
  obtain ⟨call, hget, hname⟩ := Option.map_eq_some_iff.mp hcall
  have hacted := hlast call hget
  unfold Call.unloaded at hname
  split at hname
  next name position slot =>
    obtain rfl := Option.some.inj hname
    obtain ⟨removed, slot', hslot, hname', hmodules⟩ := hacted
    have hkept : m2.names = m1.names.eraseIdx removed := by
      unfold Machine.names
      rw [hmodules, List.eraseIdx_map]
    have hremoved : m1.names[removed]? = some (some [66]) := by
      unfold Machine.names
      rw [List.getElem?_map, hslot, Option.map_some, hname']
    rw [hnames] at hremoved hkept
    rw [hnames'] at hkept
    rcases removed with _ | _ | removed
    · exact absurd hkept (by decide)
    · exact absurd hremoved (by decide)
    · cases hremoved
  · cases hname

end mvh.module

-- When a call returns 0, every other CPU has invalidated its range, as long as no call
-- stores its range while an interrupt of an earlier one is still on its way.
import MvhKernel.Shootdown

namespace mvh.smp

variable {online : Cpu → Bool}

/-! ## What the CPUs have done -/

def Has (log : List Invalidation) (mark : Nat) (range : Range) (cpu : Cpu) : Prop :=
  ∃ e ∈ log.drop mark, e.cpu = cpu ∧ e.range.Covers range

theorem Has.append {log : List Invalidation} {mark : Nat} {range : Range} {cpu : Cpu}
    (h : Has log mark range cpu) (m : List Invalidation) : Has (log ++ m) mark range cpu := by
  obtain ⟨e, he, hc, hr⟩ := h
  refine ⟨e, ?_, hc, hr⟩
  rw [List.drop_append]
  exact List.mem_append_left _ he

theorem has_last {log : List Invalidation} {mark : Nat} (hm : mark ≤ log.length) (range : Range)
    (cpu : Cpu) : Has (log ++ [⟨cpu, range⟩]) mark range cpu := by
  refine ⟨⟨cpu, range⟩, ?_, rfl, Nat.le_refl _, Nat.le_refl _⟩
  grind

def others (online : Cpu → Bool) (caller : Cpu) : Finset Cpu :=
  Finset.univ.filter fun c => c ≠ caller ∧ online c = true

theorem mem_others {caller c : Cpu} : c ∈ others online caller ↔ c ≠ caller ∧ online c = true := by
  simp [others]

def Done (online : Cpu → Bool) (s : Smp) (caller : Cpu) (range : Range) (mark : Nat) : Prop :=
  ∀ c ∈ others online caller, Has s.log mark range c

def Quiet (s : Smp) : Prop := ∀ c, s.pending c = 0 ∧ s.handler c = .idle

/-- How far another CPU has come with the interrupt of the call. -/
inductive Progress (s : Smp) (range : Range) (mark : Nat) (c : Cpu) : Prop
  | flying (hpending : s.pending c = 1) (hhandler : s.handler c = .idle)
  | entered (hpending : s.pending c = 0) (hhandler : s.handler c = .entered)
  | gotAddress (hpending : s.pending c = 0) (hhandler : s.handler c = .gotAddress range.address)
  | gotRange (hpending : s.pending c = 0) (hhandler : s.handler c = .gotRange range)
  | invalidated (hpending : s.pending c = 0) (hhandler : s.handler c = .invalidated)
      (hhas : Has s.log mark range c)
  | finished (hpending : s.pending c = 0) (hhandler : s.handler c = .idle) (hhas : Has s.log mark range c)

def acknowledged (online : Cpu → Bool) (s : Smp) (caller : Cpu) : Finset Cpu :=
  (others online caller).filter fun c => s.pending c = 0 ∧ s.handler c = .idle

/-- The shared variables and the interrupts are those of the call. -/
structure Current (online : Cpu → Bool) (s : Smp) (caller : Cpu) (range : Range) (mark : Nat) : Prop where
  address : s.tlb_address = range.address
  size : s.tlb_size = range.size
  progress : ∀ c ∈ others online caller, Progress s range mark c
  rest : ∀ c, c ∉ others online caller → s.pending c = 0 ∧ s.handler c = .idle
  count : s.tlb_acknowledged.toNat = (acknowledged online s caller).card

theorem Current.done_of_all {s : Smp} {caller : Cpu} {range : Range} {mark : Nat}
    (h : Current online s caller range mark)
    (ha : ∀ c ∈ others online caller, s.pending c = 0 ∧ s.handler c = .idle) :
    Done online s caller range mark := by
  intro c hc
  obtain ⟨hp, hh⟩ := ha c hc
  cases h.progress c hc with
  | flying hp' => rw [hp] at hp'; contradiction
  | entered _ hh' => rw [hh] at hh'; contradiction
  | gotAddress _ hh' => rw [hh] at hh'; contradiction
  | gotRange _ hh' => rw [hh] at hh'; contradiction
  | invalidated _ _ hhs => exact hhs
  | finished _ _ hhs => exact hhs

theorem Current.done_of_quiet {s : Smp} {caller : Cpu} {range : Range} {mark : Nat}
    (h : Current online s caller range mark) (hq : Quiet s) : Done online s caller range mark :=
  h.done_of_all fun c _ => hq c

theorem card_others_le (caller : Cpu) : (others online caller).card ≤ 64 := by
  have h := Finset.card_le_univ (others online caller)
  rwa [Fintype.card_fin] at h

theorem Current.done_of_count {s : Smp} {caller : Cpu} {range : Range} {mark : Nat}
    (h : Current online s caller range mark)
    (hcn : s.tlb_acknowledged.toNat = (others online caller).card) : Done online s caller range mark := by
  apply h.done_of_all
  rw [h.count] at hcn
  have ha : acknowledged online s caller = others online caller :=
    Finset.eq_of_subset_of_card_le (Finset.filter_subset _ _) (Nat.le_of_eq hcn.symm)
  intro c hc
  rw [← ha] at hc
  exact (Finset.mem_filter.mp hc).2

/-! ## A step of a handler -/

section
variable {s s' : Smp} {caller c : Cpu} {range : Range} {mark : Nat}

theorem Progress.mono {d : Cpu} (h : Progress s range mark d) (hp : s'.pending d = s.pending d)
    (hh : s'.handler d = s.handler d) (hl : ∃ m, s'.log = s.log ++ m) :
    Progress s' range mark d := by
  obtain ⟨m, hm⟩ := hl
  have hk : Has s.log mark range d → Has s'.log mark range d := by
    rw [hm]
    exact fun hhs => hhs.append m
  cases h with
  | flying h1 h2 => exact .flying (hp.trans h1) (hh.trans h2)
  | entered h1 h2 => exact .entered (hp.trans h1) (hh.trans h2)
  | gotAddress h1 h2 => exact .gotAddress (hp.trans h1) (hh.trans h2)
  | gotRange h1 h2 => exact .gotRange (hp.trans h1) (hh.trans h2)
  | invalidated h1 h2 hhs => exact .invalidated (hp.trans h1) (hh.trans h2) (hk hhs)
  | finished h1 h2 hhs => exact .finished (hp.trans h1) (hh.trans h2) (hk hhs)

/-- Only the CPU `c` has moved. -/
structure MovedAt (s s' : Smp) (c : Cpu) : Prop where
  address : s'.tlb_address = s.tlb_address
  size : s'.tlb_size = s.tlb_size
  pending : ∀ d, d ≠ c → s'.pending d = s.pending d
  handler : ∀ d, d ≠ c → s'.handler d = s.handler d
  log : ∃ more, s'.log = s.log ++ more

/-- The CPU has answered: nothing is on its way to it, and its handler is done. -/
def Answered (s : Smp) (c : Cpu) : Prop := s.pending c = 0 ∧ s.handler c = .idle

instance (s : Smp) (c : Cpu) : Decidable (Answered s c) := inferInstanceAs (Decidable (_ ∧ _))

theorem MovedAt.answered (h : MovedAt s s' c) {d : Cpu} (hd : d ≠ c) : Answered s' d ↔ Answered s d := by
  unfold Answered
  rw [h.pending d hd, h.handler d hd]

theorem acknowledged_same (h : MovedAt s s' c) (hb : ¬ Answered s c) (ha : ¬ Answered s' c) :
    acknowledged online s' caller = acknowledged online s caller := by
  refine Finset.filter_congr fun d _ => ?_
  by_cases hd : d = c
  · subst hd
    exact ⟨fun h' => absurd h' ha, fun h' => absurd h' hb⟩
  · exact h.answered hd

theorem acknowledged_more (h : MovedAt s s' c) (hc : c ∈ others online caller) (hb : ¬ Answered s c)
    (ha : Answered s' c) :
    (acknowledged online s' caller).card = (acknowledged online s caller).card + 1 := by
  have hi : acknowledged online s' caller = insert c (acknowledged online s caller) := by
    ext d
    rw [Finset.mem_insert, acknowledged, acknowledged, Finset.mem_filter, Finset.mem_filter]
    by_cases hd : d = c
    · subst hd
      exact ⟨fun _ => Or.inl rfl, fun _ => ⟨hc, ha⟩⟩
    · rw [or_iff_right hd]
      exact and_congr_right fun _ => h.answered hd
  rw [hi, Finset.card_insert_of_notMem]
  intro hm
  exact hb (Finset.mem_filter.mp hm).2

theorem Current.movedAt (h : Current online s caller range mark) (hm : MovedAt s s' c)
    (hc : c ∈ others online caller) (hp : Progress s' range mark c)
    (hcn : s'.tlb_acknowledged.toNat = (acknowledged online s' caller).card) :
    Current online s' caller range mark where
  address := hm.address.trans h.address
  size := hm.size.trans h.size
  progress := by
    intro d hd
    by_cases hdc : d = c
    · exact hdc ▸ hp
    · exact (h.progress d hd).mono (hm.pending d hdc) (hm.handler d hdc) hm.log
  rest := by
    intro d hd
    have hdc : d ≠ c := fun he => hd (he ▸ hc)
    rw [hm.pending d hdc, hm.handler d hdc]
    exact h.rest d hd
  count := hcn

theorem smp_tlb_ipi_moved (s : Smp) (c : Cpu) : MovedAt s (smp_tlb_ipi s c) c := by
  unfold smp_tlb_ipi
  dsimp only
  split
  · split
    · exact ⟨rfl, rfl, fun _ _ => rfl, fun _ _ => rfl, [], (List.append_nil _).symm⟩
    · exact ⟨rfl, rfl, fun d hd => Function.update_of_ne hd .., fun d hd => Function.update_of_ne hd .., [],
        (List.append_nil _).symm⟩
  all_goals
    refine ⟨rfl, rfl, fun _ _ => rfl, fun d hd => Function.update_of_ne hd .., ?_⟩
    first
      | exact ⟨[], (List.append_nil _).symm⟩
      | exact ⟨_, rfl⟩

theorem Current.handle (h : Current online s caller range mark) (hmr : mark ≤ s.log.length) (c : Cpu) :
    Current online (smp_tlb_ipi s c) caller range mark := by
  by_cases hc : c ∈ others online caller
  swap
  · -- Nothing was sent to this CPU.
    obtain ⟨hp, hh⟩ := h.rest c hc
    have hsm : smp_tlb_ipi s c = s := by grind [smp_tlb_ipi]
    rwa [hsm]
  have hm := smp_tlb_ipi_moved s c
  have hsm (hb : ¬ Answered s c) (ha : ¬ Answered (smp_tlb_ipi s c) c)
      (hac : (smp_tlb_ipi s c).tlb_acknowledged = s.tlb_acknowledged) :
      (smp_tlb_ipi s c).tlb_acknowledged.toNat = (acknowledged online (smp_tlb_ipi s c) caller).card := by
    rw [hac, acknowledged_same hm hb ha, h.count]
  cases h.progress c hc with
  | flying hp hh =>
    have hs : smp_tlb_ipi s c = { s with
        handler := Function.update s.handler c .entered
        pending := Function.update s.pending c (s.pending c - 1) } := by
      simp [hh, hp, smp_tlb_ipi]
    rw [hs] at hm hsm ⊢
    refine h.movedAt hm hc (.entered ?_ ?_) (hsm ?_ ?_ rfl)
    · simp [hp]
    · simp
    · simp [Answered, hp]
    · simp [Answered]
  | entered hp hh =>
    have hs : smp_tlb_ipi s c =
        { s with handler := Function.update s.handler c (.gotAddress s.tlb_address) } := by
      unfold smp_tlb_ipi
      rw [hh]
    rw [hs] at hm hsm ⊢
    refine h.movedAt hm hc (.gotAddress hp ?_) (hsm ?_ ?_ rfl)
    · simp [h.address]
    · simp [Answered, hh]
    · simp [Answered]
  | gotAddress hp hh =>
    have hs : smp_tlb_ipi s c =
        { s with handler := Function.update s.handler c (.gotRange ⟨range.address, s.tlb_size⟩) } := by
      unfold smp_tlb_ipi
      rw [hh]
    rw [hs] at hm hsm ⊢
    refine h.movedAt hm hc (.gotRange hp ?_) (hsm ?_ ?_ rfl)
    · simp [h.size]
    · simp [Answered, hh]
    · simp [Answered]
  | gotRange hp hh =>
    have hs : smp_tlb_ipi s c = { s with
        handler := Function.update s.handler c .invalidated
        log := s.log ++ [⟨c, range⟩] } := by
      unfold smp_tlb_ipi
      rw [hh]
    rw [hs] at hm hsm ⊢
    refine h.movedAt hm hc (.invalidated hp ?_ (has_last hmr range c)) (hsm ?_ ?_ rfl)
    · simp
    · simp [Answered, hh]
    · simp [Answered]
  | invalidated hp hh hhs =>
    have hs : smp_tlb_ipi s c = { s with
        handler := Function.update s.handler c .idle
        tlb_acknowledged := s.tlb_acknowledged + 1 } := by
      unfold smp_tlb_ipi
      rw [hh]
    rw [hs] at hm ⊢
    refine h.movedAt hm hc (.finished hp ?_ hhs) ?_
    · simp
    · have hmo := acknowledged_more hm hc (by simp [Answered, hh]) (by simp [Answered, hp])
      have hle := @card_others_le online caller
      have hsb := Finset.card_filter_le (others online caller) fun c => s.pending c = 0 ∧ s.handler c = .idle
      rw [hmo, UInt32.toNat_add, h.count]
      exact Nat.mod_eq_of_lt (by unfold acknowledged; simp only [UInt32.toNat_one]; omega)
  | finished hp hh hhs =>
    have hs : smp_tlb_ipi s c = s := by grind [smp_tlb_ipi]
    rwa [hs]

end

/-! ## The invariant -/

def Call.holds : Call → Bool
  | .idle | .waiting _ | .sent .compare _ _ _ => false
  | _ => true

def Call.preparing : Call → Bool
  | .addressed _ | .stored _ _ | .zeroed _ _ => true
  | _ => false

def Call.Fits (s : Smp) : Call → Prop
  | .addressed range => s.tlb_address = range.address
  | .stored range mark => s.tlb_address = range.address ∧ s.tlb_size = range.size ∧ mark ≤ s.log.length
  | .zeroed range mark => s.tlb_address = range.address ∧ s.tlb_size = range.size ∧ mark ≤ s.log.length ∧
      s.tlb_acknowledged = 0
  | _ => True

/-- The interrupts of a call are handled, or they are the ones that are on their way. -/
structure Sent (online : Cpu → Bool) (s : Smp) (caller : Cpu) (range : Range) (mark : Nat)
    (expected : UInt32) : Prop where
  mark_le : mark ≤ s.log.length
  expected_eq : expected.toNat = (others online caller).card
  answers : Done online s caller range mark ∨ Current online s caller range mark

structure Inv (online : Cpu → Bool) (s : Smp) : Prop where
  lock : ∀ c, (s.call c).holds = true ↔ s.tlb_lock = some c
  caller : ∀ c, s.call c ≠ .idle → online c = true
  quiet : ∀ c, (s.call c).preparing = true → Quiet s
  fits : ∀ c, (s.call c).Fits s
  settled : ∀ c, (s.call c).preparing = true → ∀ d stage range mark expected,
    s.call d = .sent stage range mark expected → Done online s d range mark
  sent : ∀ d stage range mark expected, s.call d = .sent stage range mark expected →
    Sent online s d range mark expected

/-- The interrupts and the shared variables are the same, and the log may be longer. -/
structure SameShared (s s' : Smp) : Prop where
  address : s'.tlb_address = s.tlb_address
  size : s'.tlb_size = s.tlb_size
  acknowledged : s'.tlb_acknowledged = s.tlb_acknowledged
  pending : s'.pending = s.pending
  handler : s'.handler = s.handler
  log : ∃ more, s'.log = s.log ++ more

theorem Done.mono {s s' : Smp} {caller : Cpu} {range : Range} {mark : Nat}
    (h : Done online s caller range mark) (hl : ∃ m, s'.log = s.log ++ m) :
    Done online s' caller range mark := by
  obtain ⟨m, hm⟩ := hl
  intro c hc
  rw [hm]
  exact (h c hc).append m

theorem Sent.mono {s s' : Smp} {caller : Cpu} {range : Range} {mark : Nat} {expected : UInt32}
    (h : Sent online s caller range mark expected) (hs : SameShared s s') :
    Sent online s' caller range mark expected := by
  have hl := hs.log
  refine ⟨?_, h.expected_eq, ?_⟩
  · obtain ⟨m, hm⟩ := hl
    rw [hm, List.length_append]
    exact Nat.le_add_right_of_le h.mark_le
  · rcases h.answers with hd | hcr
    · exact Or.inl (hd.mono hl)
    · refine Or.inr ⟨hs.address.trans hcr.address, hs.size.trans hcr.size, ?_, ?_, ?_⟩
      · intro c hc
        exact (hcr.progress c hc).mono (congrFun hs.pending c) (congrFun hs.handler c) hl
      · rw [hs.pending, hs.handler]
        exact hcr.rest
      · rw [hs.acknowledged, hcr.count, acknowledged, acknowledged, hs.pending, hs.handler]

theorem holds_of_preparing {cl : Call} (h : cl.preparing = true) : cl.holds = true := by
  cases cl <;> simp_all [Call.preparing, Call.holds]

section
variable {s : Smp} {cpu : Cpu}

theorem Inv.holder_eq (h : Inv online s) {c d : Cpu} (hc : (s.call c).holds = true)
    (hd : (s.call d).holds = true) : c = d :=
  Option.some.inj (((h.lock c).mp hc).symm.trans ((h.lock d).mp hd))

theorem Inv.of_call {call : Call} (h : Inv online s) (tlb_lock : Option Cpu)
    (hlock : ∀ c, (Function.update s.call cpu call c).holds = true ↔ tlb_lock = some c)
    (hcaller : online cpu = true) (hpreparing : call.preparing = false)
    (hsent : ∀ stage range mark expected, call = .sent stage range mark expected →
      Sent online s cpu range mark expected ∧ ∃ stage', s.call cpu = .sent stage' range mark expected) :
    Inv online (setCall { s with tlb_lock } cpu call) := by
  have hother {c : Cpu} (hc : c ≠ cpu) : (setCall { s with tlb_lock } cpu call).call c = s.call c :=
    Function.update_of_ne hc ..
  have hsame : (setCall { s with tlb_lock } cpu call).call cpu = call := Function.update_self ..
  have hold {c : Cpu} (hc : ((setCall { s with tlb_lock } cpu call).call c).preparing = true) :
      c ≠ cpu ∧ (s.call c).preparing = true := by grind
  refine ⟨hlock, fun c hc => ?_, fun c hc => h.quiet c (hold hc).2, fun c => ?_, fun c hc d => ?_, fun d => ?_⟩
  · by_cases hne : c = cpu
    · rwa [hne]
    · rw [hother hne] at hc
      exact h.caller c hc
  · by_cases hne : c = cpu
    · rw [hne, hsame]
      cases call <;> trivial
    · rw [hother hne]
      exact h.fits c
  · intro stage range mark expected hd
    by_cases hne : d = cpu
    · rw [hne, hsame] at hd
      obtain ⟨_, stage', hbefore⟩ := hsent _ _ _ _ hd
      exact hne ▸ h.settled c (hold hc).2 cpu stage' range mark expected hbefore
    · rw [hother hne] at hd
      exact h.settled c (hold hc).2 d stage range mark expected hd
  · intro stage range mark expected hd
    by_cases hne : d = cpu
    · rw [hne, hsame] at hd
      rw [hne]
      exact (hsent _ _ _ _ hd).1.mono ⟨rfl, rfl, rfl, rfl, rfl, [], (List.append_nil _).symm⟩
    · rw [hother hne] at hd
      exact (h.sent d stage range mark expected hd).mono
        ⟨rfl, rfl, rfl, rfl, rfl, [], (List.append_nil _).symm⟩

theorem fits_of_not_preparing {cl : Call} (h : cl.preparing ≠ true) : cl.Fits s := by
  cases cl <;> trivial

theorem Inv.not_preparing (h : Inv online s) (hh : (s.call cpu).holds = true) {c : Cpu} (hc : c ≠ cpu) :
    (s.call c).preparing ≠ true :=
  fun hp => hc (h.holder_eq (holds_of_preparing hp) hh)

theorem Inv.online_of_call {s' : Smp} (h : Inv online s) (hh : (s.call cpu).holds = true)
    (ho : ∀ {c : Cpu}, c ≠ cpu → s'.call c = s.call c) {c : Cpu} (hc : s'.call c ≠ .idle) :
    online c = true := by
  by_cases hne : c = cpu
  · rw [hne]
    refine h.caller cpu fun hi => ?_
    rw [hi] at hh
    contradiction
  · rw [ho hne] at hc
    exact h.caller c hc

theorem Inv.prepare {s' : Smp} {call : Call} (h : Inv online s) (hh : (s.call cpu).holds = true)
    (hq : Quiet s)
    (hdn : ∀ d st range mark e, s.call d = .sent st range mark e →
      Done online s d range mark)
    (hsh : s'.pending = s.pending ∧ s'.handler = s.handler ∧ s'.log = s.log)
    (hl : s'.tlb_lock = s.tlb_lock) (hcl : s'.call = Function.update s.call cpu call)
    (hp : call.preparing = true) (hf : call.Fits s') : Inv online s' := by
  obtain ⟨hpn, hhn, hlg⟩ := hsh
  have ho {c : Cpu} (hc : c ≠ cpu) : s'.call c = s.call c := by rw [hcl, Function.update_of_ne hc]
  have hs : s'.call cpu = call := by rw [hcl, Function.update_self]
  have hq' : Quiet s' := by
    intro c
    rw [hpn, hhn]
    exact hq c
  have hd' : ∀ d st range mark e, s'.call d = .sent st range mark e →
      s.call d = .sent st range mark e ∧ Done online s' d range mark := by
    intro d st range mark e hd
    have hne : d ≠ cpu := by
      rintro rfl
      rw [hs] at hd
      rw [hd] at hp
      contradiction
    rw [ho hne] at hd
    exact ⟨hd, (hdn d st range mark e hd).mono ⟨[], by rw [hlg, List.append_nil]⟩⟩
  refine ⟨fun c => ?_, fun c hc => ?_, fun c _ => hq', fun c => ?_, fun c _ d st range mark e hd =>
    (hd' d st range mark e hd).2, fun d st range mark e hd => ?_⟩
  · rw [hl]
    by_cases hne : c = cpu
    · rw [hne, hs]
      exact ⟨fun _ => (h.lock cpu).mp hh, fun _ => holds_of_preparing hp⟩
    · rw [ho hne]
      exact h.lock c
  · exact h.online_of_call hh (fun hne => ho hne) hc
  · by_cases hne : c = cpu
    · rwa [hne, hs]
    · rw [ho hne]
      exact fits_of_not_preparing (h.not_preparing hh hne)
  · obtain ⟨hb, hdn⟩ := hd' d st range mark e hd
    have hsn := h.sent d st range mark e hb
    exact ⟨hlg ▸ hsn.mark_le, hsn.expected_eq, Or.inl hdn⟩

theorem card_others {caller : Cpu} (hc : online caller = true) :
    (smp_online_count online - 1).toNat = (others online caller).card := by
  have hi : (Finset.univ.filter fun c => online c = true) = insert caller (others online caller) := by
    grind [Finset.mem_insert, mem_others, Finset.mem_filter]
  have hn : caller ∉ others online caller := fun h => (mem_others.mp h).1 rfl
  have hle := @card_others_le online caller
  grind [Finset.card_insert_of_notMem, UInt32.toNat_sub, UInt32.toNat_ofNat', UInt32.toNat_one, smp_online_count]

theorem Inv.proceed {s' : Smp} {call : Call} (h : Inv online s) (hh : (s.call cpu).holds = true)
    (hcl : s'.call = Function.update s.call cpu call) (hp : call.preparing = false)
    (hl : (call.holds = true ∧ s'.tlb_lock = s.tlb_lock) ∨ (call.holds = false ∧ s'.tlb_lock = none))
    (hsn : ∀ d st range mark e, d ≠ cpu → s.call d = .sent st range mark e →
      Sent online s' d range mark e)
    (hsl : ∀ st range mark e, call = .sent st range mark e →
      Sent online s' cpu range mark e) : Inv online s' := by
  have ho {c : Cpu} (hc : c ≠ cpu) : s'.call c = s.call c := by rw [hcl, Function.update_of_ne hc]
  have hs : s'.call cpu = call := by rw [hcl, Function.update_self]
  have hn (c : Cpu) : (s'.call c).preparing ≠ true := by
    by_cases hne : c = cpu
    · simp [hne, hs, hp]
    · rw [ho hne]
      exact h.not_preparing hh hne
  have hhl := (h.lock cpu).mp hh
  refine ⟨fun c => ?_, fun c hc => ?_, fun c hc => absurd hc (hn c), fun c => fits_of_not_preparing (hn c),
    fun c hc => absurd hc (hn c), fun d st range mark e hd => ?_⟩
  · by_cases hne : c = cpu
    · grind
    · have hf : (s.call c).holds ≠ true := fun hc => hne (h.holder_eq hc hh)
      grind
  · exact h.online_of_call hh (fun hne => ho hne) hc
  grind

theorem current_broadcast {range : Range} {mark : Nat} (hq : Quiet s) (hft : (Call.zeroed range mark).Fits s)
    (cl : Call) :
    Current online (setCall (apic_broadcast_fixed online s cpu) cpu cl) cpu range mark := by
  obtain ⟨ha, hs, _, hz⟩ := hft
  have hp (c : Cpu) : (setCall (apic_broadcast_fixed online s cpu) cpu cl).pending c =
      if c ≠ cpu ∧ online c then s.pending c + 1 else s.pending c := rfl
  have hf {c : Cpu} (hc : c ∈ others online cpu) :
      (setCall (apic_broadcast_fixed online s cpu) cpu cl).pending c = 1 := by
    rw [hp, if_pos (mem_others.mp hc), (hq c).1]
  refine ⟨ha, hs, fun c hc => .flying (hf hc) (hq c).2, fun c hc => ⟨?_, (hq c).2⟩, ?_⟩
  · rw [hp, if_neg fun h => hc (mem_others.mpr h)]
    exact (hq c).1
  · have hn : acknowledged online (setCall (apic_broadcast_fixed online s cpu) cpu cl) cpu = ∅ := by
      refine Finset.filter_eq_empty_iff.mpr fun c hc hb => ?_
      grind
    rw [hn, Finset.card_empty]
    show s.tlb_acknowledged.toNat = 0
    rw [hz]
    rfl

end

/-! ## Steps -/

def Call.isLocked : Call → Bool
  | .locked _ => true
  | _ => false

/-- When the step stores the address of a call, no interrupt is on its way or being handled. -/
def StoresQuietly (s : Smp) : Op → Prop
  | .proceed cpu _ _ => (s.call cpu).isLocked = true → Quiet s
  | _ => True

instance (s : Smp) : Decidable (Quiet s) := inferInstanceAs (Decidable (∀ _, _))

instance (s : Smp) (op : Op) : Decidable (StoresQuietly s op) :=
  match op with
  | .proceed _ _ _ => inferInstanceAs (Decidable (_ → _))
  | .call _ _ | .handle _ => .isTrue trivial

/-- When the step returns 0, all others have invalidated the range since it was stored. -/
def Agrees (online : Cpu → Bool) (s : Smp) : Op → Prop
  | .proceed cpu _ _ => ∀ range mark expected, s.call cpu = .sent .compare range mark expected →
      returned s cpu = some 0 → Done online s cpu range mark
  | _ => True

section
variable {s : Smp} {cpu : Cpu}

theorem Inv.shootdown_step (h : Inv online s) (late lost : Bool)
    (hstores : StoresQuietly s (.proceed cpu late lost)) : Inv online (shootdown_step online s cpu late lost) := by
  have honline (hc : s.call cpu ≠ .idle) := h.caller cpu hc
  have hlog : ∃ more, s.log = s.log ++ more := ⟨[], (List.append_nil _).symm⟩
  unfold smp.shootdown_step
  rcases hcall : s.call cpu with
    _ | range | range | range | ⟨range, mark⟩ | ⟨range, mark⟩ | ⟨stage, range, mark, expected⟩ | _
  · exact h
  · -- waiting
    dsimp only
    split
    · exact h
    next hfree =>
      rw [Option.not_isSome_iff_eq_none] at hfree
      refine h.of_call (some cpu) (fun c => ?_) (honline (by rw [hcall]; simp)) rfl
        fun _ _ _ _ hsent => Call.noConfusion hsent
      by_cases hc : c = cpu
      · simp [hc, Call.holds]
      · rw [Function.update_of_ne hc, h.lock c, hfree]
        simp [Ne.symm hc]
  · -- locked
    have hquiet := hstores (by rw [hcall]; rfl)
    have hholds : (s.call cpu).holds = true := by rw [hcall]; rfl
    refine h.prepare hholds hquiet (fun d stage range mark expected hd => ?_) ⟨rfl, rfl, rfl⟩ rfl rfl rfl rfl
    rcases (h.sent d stage range mark expected hd).answers with hdone | hcurrent
    · exact hdone
    · exact hcurrent.done_of_quiet hquiet
  · -- addressed
    have hpreparing : (s.call cpu).preparing = true := by rw [hcall]; rfl
    have hfits := h.fits cpu
    rw [hcall] at hfits
    exact h.prepare (holds_of_preparing hpreparing) (h.quiet cpu hpreparing) (h.settled cpu hpreparing)
      ⟨rfl, rfl, rfl⟩ rfl rfl rfl ⟨hfits, rfl, Nat.le_refl _⟩
  · -- stored
    have hpreparing : (s.call cpu).preparing = true := by rw [hcall]; rfl
    have hfits := h.fits cpu
    rw [hcall] at hfits
    exact h.prepare (holds_of_preparing hpreparing) (h.quiet cpu hpreparing) (h.settled cpu hpreparing)
      ⟨rfl, rfl, rfl⟩ rfl rfl rfl ⟨hfits.1, hfits.2.1, hfits.2.2, rfl⟩
  · -- zeroed
    have hpreparing : (s.call cpu).preparing = true := by rw [hcall]; rfl
    have hholds := holds_of_preparing hpreparing
    have hfits := h.fits cpu
    rw [hcall] at hfits
    have hexpected := card_others (honline (by rw [hcall]; simp))
    have hsettled (s' : Smp) (hsame : s'.log = s.log) (d : Cpu) (stage : Stage) (range : Range) (mark : Nat)
        (expected : UInt32) (hd : s.call d = .sent stage range mark expected) :
        Sent online s' d range mark expected := by
      have hsent := h.sent d stage range mark expected hd
      have hdone := h.settled cpu hpreparing d stage range mark expected hd
      exact ⟨hsame ▸ hsent.mark_le, hsent.expected_eq, Or.inl (hdone.mono ⟨[], by rw [hsame, List.append_nil]⟩)⟩
    dsimp only
    split
    next hzero =>
      -- There is no other CPU.
      refine h.proceed hholds rfl rfl (Or.inl ⟨rfl, rfl⟩) (fun d _ _ _ _ _ hd => hsettled _ (by rfl) d _ _ _ _ hd) ?_
      rintro _ _ _ _ ⟨⟩
      refine ⟨hfits.2.2.1, hexpected, Or.inl fun c hc => ?_⟩
      rw [hzero, UInt32.toNat_zero] at hexpected
      grind
    next =>
      split
      · obtain ⟨s', hs', hcalls, hlock, hsame⟩ : ∃ s', (if lost then s else apic_broadcast_fixed online s cpu) = s' ∧
            s'.call = s.call ∧ s'.tlb_lock = s.tlb_lock ∧ s'.log = s.log := by
          cases lost <;> exact ⟨_, rfl, rfl, rfl, rfl⟩
        rw [hs']
        have hcall' : (setCall s' cpu .failed).call = Function.update s.call cpu .failed := by
          rw [← hcalls]
          rfl
        exact h.proceed hholds hcall' rfl (Or.inl ⟨rfl, hlock⟩)
          (fun d _ _ _ _ _ hd => hsettled (setCall s' cpu .failed) hsame d _ _ _ _ hd) fun _ _ _ _ hsent => Call.noConfusion hsent
      · refine h.proceed hholds rfl rfl (Or.inl ⟨rfl, rfl⟩) (fun d _ _ _ _ _ hd => hsettled _ (by rfl) d _ _ _ _ hd) ?_
        rintro _ _ _ _ ⟨⟩
        exact ⟨hfits.2.2.1, hexpected, Or.inr (current_broadcast (h.quiet cpu hpreparing) hfits _)⟩
  · have hself := h.sent cpu stage range mark expected hcall
    have hothers {s' : Smp} (hsame : SameShared s s') (d : Cpu) (stage : Stage) (range : Range) (mark : Nat)
        (expected : UInt32) (_ : d ≠ cpu) (hd : s.call d = .sent stage range mark expected) :=
      (h.sent d stage range mark expected hd).mono hsame
    rcases stage with _ | _ | _ | _
    · -- its own invalidation
      have hsame : SameShared s (setCall { s with log := s.log ++ [⟨cpu, range⟩] } cpu
          (.sent .wait range mark expected)) := ⟨rfl, rfl, rfl, rfl, rfl, _, rfl⟩
      refine h.proceed (by rw [hcall]; rfl) rfl rfl (Or.inl ⟨rfl, rfl⟩) (hothers hsame) ?_
      rintro _ _ _ _ ⟨⟩
      exact hself.mono hsame
    · -- the wait loop
      dsimp only
      split
      · have hsame : SameShared s (setCall s cpu (.sent .unlock range mark expected)) :=
          ⟨rfl, rfl, rfl, rfl, rfl, hlog⟩
        refine h.proceed (by rw [hcall]; rfl) rfl rfl (Or.inl ⟨rfl, rfl⟩) (hothers hsame) ?_
        rintro _ _ _ _ ⟨⟩
        exact hself.mono hsame
      · exact h
    · -- the unlock
      have hsame : SameShared s (setCall { s with tlb_lock := none } cpu (.sent .compare range mark expected)) :=
        ⟨rfl, rfl, rfl, rfl, rfl, hlog⟩
      refine h.proceed (by rw [hcall]; rfl) rfl rfl (Or.inr ⟨rfl, rfl⟩) (hothers hsame) ?_
      rintro _ _ _ _ ⟨⟩
      exact hself.mono hsame
    · -- the return
      refine h.of_call s.tlb_lock (fun c => ?_) (honline (by rw [hcall]; simp)) rfl
        fun _ _ _ _ hsent => Call.noConfusion hsent
      by_cases hc : c = cpu
      · have hfree := h.lock cpu
        rw [hcall] at hfree
        rw [hc, Function.update_self]
        exact hfree
      · rw [Function.update_of_ne hc]
        exact h.lock c
  · -- failed
    exact h.proceed (by rw [hcall]; rfl) rfl rfl (Or.inr ⟨rfl, rfl⟩)
      (fun d stage range mark expected _ hd => (h.sent d stage range mark expected hd).mono
        ⟨rfl, rfl, rfl, rfl, rfl, hlog⟩) fun _ _ _ _ hsent => Call.noConfusion hsent

theorem Inv.smp_tlb_shootdown (h : Inv online s) (range : Range) :
    Inv online (smp_tlb_shootdown online s cpu range) := by
  unfold smp.smp_tlb_shootdown
  split
  · exact h
  split
  next hi =>
    refine h.of_call s.tlb_lock (fun c => ?_) hi.2 rfl fun _ _ _ _ hs => Call.noConfusion hs
    by_cases hc : c = cpu
    · have hf := h.lock cpu
      rw [hi.1] at hf
      rw [hc, Function.update_self]
      exact hf
    · rw [Function.update_of_ne hc]
      exact h.lock c
  next => exact h

theorem smp_tlb_ipi_call (s : Smp) (c : Cpu) :
    (smp_tlb_ipi s c).call = s.call ∧ (smp_tlb_ipi s c).tlb_lock = s.tlb_lock := by
  unfold smp_tlb_ipi
  grind

theorem Inv.smp_tlb_ipi (h : Inv online s) (c : Cpu) : Inv online (smp_tlb_ipi s c) := by
  by_cases hp : ∃ d, (s.call d).preparing = true
  · -- Nothing is on its way, so nothing ha.
    obtain ⟨d, hd⟩ := hp
    obtain ⟨hpn, hh⟩ := h.quiet d hd c
    have hsm : smp.smp_tlb_ipi s c = s := by grind [smp.smp_tlb_ipi]
    rwa [hsm]
  have hn (d : Cpu) : (s.call d).preparing ≠ true := fun hd => hp ⟨d, hd⟩
  obtain ⟨hc, hl⟩ := smp_tlb_ipi_call s c
  have hlg := (smp_tlb_ipi_moved s c).log
  refine ⟨?_, ?_, ?_, ?_, ?_, ?_⟩
  · rw [hc, hl]
    exact h.lock
  · rw [hc]
    exact h.caller
  · rw [hc]
    exact fun d hd => absurd hd (hn d)
  · rw [hc]
    exact fun d => fits_of_not_preparing (hn d)
  · rw [hc]
    exact fun d hd => absurd hd (hn d)
  · rw [hc]
    intro d st range mark e hd
    have hs := h.sent d st range mark e hd
    refine ⟨?_, hs.expected_eq, ?_⟩
    · obtain ⟨m, hm⟩ := hlg
      rw [hm, List.length_append]
      exact Nat.le_add_right_of_le hs.mark_le
    · rcases hs.answers with hdn | hcr
      · exact Or.inl (hdn.mono hlg)
      · exact Or.inr (hcr.handle hs.mark_le c)

theorem Inv.step {op : Op} (h : Inv online s) (hs : StoresQuietly s op) : Inv online (s.step online op) := by
  cases op with
  | call cpu range => exact h.smp_tlb_shootdown range
  | proceed cpu l ls => exact h.shootdown_step l ls hs
  | handle cpu => exact h.smp_tlb_ipi cpu

theorem Inv.agrees (h : Inv online s) (op : Op) : Agrees online s op := by
  cases op with
  | proceed cpu late lost =>
    intro range mark expected hcall hzero
    have hsent := h.sent cpu _ range mark expected hcall
    unfold returned at hzero
    rw [hcall] at hzero
    have hequal : s.tlb_acknowledged = expected := by
      by_contra hne
      simp [hne] at hzero
    rcases hsent.answers with hdone | hcurrent
    · exact hdone
    · exact hcurrent.done_of_count (hequal ▸ hsent.expected_eq)
  | call | handle => trivial

theorem initial_inv : Inv online initial := by
  refine ⟨fun c => ?_, fun c hc => absurd rfl hc, fun c hc => Bool.noConfusion hc, fun c => trivial,
    fun c hc => Bool.noConfusion hc, fun d _ _ _ _ hd => Call.noConfusion hd⟩
  simp [initial, Call.holds]

end

/-! ## Runs -/

def AlwaysAgrees (online : Cpu → Bool) (s : Smp) : List Op → Prop
  | [] => True
  | op :: ops => Agrees online s op ∧ AlwaysAgrees online (s.step online op) ops

/-- Every call of the run stores its range when no interrupt is on its way or being handled. -/
def AlwaysStoresQuietly (online : Cpu → Bool) (s : Smp) : List Op → Prop
  | [] => True
  | op :: ops => StoresQuietly s op ∧ AlwaysStoresQuietly online (s.step online op) ops

instance decidableAlwaysStoresQuietly (online : Cpu → Bool) (s : Smp) (ops : List Op) :
    Decidable (AlwaysStoresQuietly online s ops) :=
  match ops with
  | [] => .isTrue trivial
  | op :: ops => @instDecidableAnd _ _ _ (decidableAlwaysStoresQuietly online (s.step online op) ops)

def Smp.run (online : Cpu → Bool) (s : Smp) : List Op → Smp
  | [] => s
  | op :: ops => (s.step online op).run online ops

theorem AlwaysAgrees.last {s : Smp} {ops : List Op} {op : Op} (h : AlwaysAgrees online s (ops ++ [op])) :
    Agrees online (s.run online ops) op := by
  induction ops generalizing s with
  | nil => exact h.1
  | cons _ _ ih => exact ih h.2

theorem Inv.alwaysAgrees {s : Smp} (h : Inv online s) {ops : List Op}
    (hs : AlwaysStoresQuietly online s ops) : AlwaysAgrees online s ops := by
  induction ops generalizing s with
  | nil => trivial
  | cons op ops ih => exact ⟨h.agrees op, ih (h.step hs.1) hs.2⟩

/-- A shootdown that returns 0 has reached every other CPU, as long as the interrupts
of the earlier ones were handled before a call stored its range. -/
theorem a_shootdown_reaches_all_others (online : Cpu → Bool) (ops : List Op)
    (hstores : AlwaysStoresQuietly online initial ops) : AlwaysAgrees online initial ops :=
  initial_inv.alwaysAgrees hstores

def twoCpus (c : Cpu) : Bool := c < 2

def untilWait (range : Range) : List Op := .call 0 range :: List.replicate 6 (.proceed 0 false false)

def oneCall : List Op :=
  untilWait ⟨0x1000, 0x1000⟩ ++ List.replicate 5 (.handle 1) ++ List.replicate 2 (.proceed 0 false false)

theorem one_shootdown_reaches_the_other_cpu :
    AlwaysStoresQuietly twoCpus initial (oneCall ++ [.proceed 0 false false]) ∧
      returned (initial.run twoCpus oneCall) 0 = some 0 ∧
      AlwaysAgrees twoCpus initial (oneCall ++ [.proceed 0 false false]) := by
  have hstores : AlwaysStoresQuietly twoCpus initial (oneCall ++ [.proceed 0 false false]) := by
    decide +kernel
  exact ⟨hstores, by decide +kernel, a_shootdown_reaches_all_others twoCpus _ hstores⟩

/-- Two calls on CPU 0. -/
def lateAnswer : List Op :=
  untilWait ⟨0x1000, 0x1000⟩ ++ List.replicate 4 (.handle 1) ++
    (.proceed 0 true false :: List.replicate 2 (.proceed 0 false false)) ++
    untilWait ⟨0x5000, 0x1000⟩ ++ [.handle 1] ++ List.replicate 2 (.proceed 0 false false)

/-- The second call returns 0, and CPU 1 has not invalidated anything since it stored its range. -/
theorem a_late_answer_counts_for_the_next_call :
    returned (initial.run twoCpus lateAnswer) 0 = some 0 ∧
      ¬ AlwaysAgrees twoCpus initial (lateAnswer ++ [.proceed 0 false false]) := by
  have hreturned : returned (initial.run twoCpus lateAnswer) 0 = some 0 := by decide +kernel
  refine ⟨hreturned, fun h => ?_⟩
  have hcall : (initial.run twoCpus lateAnswer).call 0 = .sent .compare ⟨0x5000, 0x1000⟩ 2 1 := by
    decide +kernel
  obtain ⟨e, he, hcpu, _⟩ := h.last _ _ _ hcall hreturned 1 (mem_others.mpr ⟨by decide, by decide⟩)
  have hnone : ∀ e ∈ (initial.run twoCpus lateAnswer).log.drop 2, e.cpu ≠ 1 := by decide +kernel
  exact hnone e he hcpu

end mvh.smp

-- A request and its completion.
import MvhKernel.Virtio

namespace mvh.virtio_blk

/-! ## Where the device is -/

/-- The device has done everything that was posted. -/
structure Rest (s : Virtio) : Prop where
  device : s.device = .idle
  consumed : s.available_index = s.consumed
  completed : s.completed.map Prod.fst = s.submitted

/-- The device has done everything but the last chain. -/
structure Outstanding (s : Virtio) : Prop where
  used : s.used_index = s.last_used
  progress : ∃ chain, s.submitted = s.completed.map Prod.fst ++ [chain] ∧
    ((s.device = .idle ∧ s.available_index = s.consumed + 1 ∧ chain = ⟨s.request, s.descriptors 1⟩) ∨
      (s.device = .works chain ∧ s.available_index = s.consumed) ∨
      (s.device = .wrote chain s.request_status ∧ s.available_index = s.consumed))

/-- The device has done the last chain too, and its status is there. -/
structure Finished (s : Virtio) : Prop where
  rest : Rest s
  used : s.used_index = s.last_used + 1
  status : ∃ chain, s.completed.getLast? = some (chain, s.request_status)

theorem add_one_ne (n : UInt16) : n + 1 ≠ n := by
  intro h
  grind

theorem Rest.device_step {s : Virtio} (h : Rest s) (st : UInt8) : device_step s st = s := by
  unfold virtio_blk.device_step
  rw [h.device]
  exact if_pos h.consumed

theorem Outstanding.device_step {s : Virtio} (h : Outstanding s) (st : UInt8) :
    Outstanding (device_step s st) ∨ Finished (device_step s st) := by
  obtain ⟨hu, c, hs, hi | hw | hwr⟩ := h
  · obtain ⟨hd, ha, hc⟩ := hi
    have hst : virtio_blk.device_step s st =
        { s with consumed := s.consumed + 1, device := .works ⟨s.request, s.descriptors 1⟩ } := by
      simp [hd, ha, virtio_blk.device_step]
    rw [hst]
    exact Or.inl ⟨hu, c, hs, Or.inr (Or.inl ⟨by rw [hc], ha⟩)⟩
  · obtain ⟨hd, ha⟩ := hw
    have hst : virtio_blk.device_step s st =
        { s with request_status := st, device := .wrote c st } := by
      grind [virtio_blk.device_step]
    rw [hst]
    exact Or.inl ⟨hu, c, hs, Or.inr (Or.inr ⟨rfl, ha⟩)⟩
  · obtain ⟨hd, ha⟩ := hwr
    have hst : virtio_blk.device_step s st =
        { s with
          used_index := s.used_index + 1
          device := .idle
          completed := s.completed ++ [(c, s.request_status)] } := by
      grind [virtio_blk.device_step]
    rw [hst]
    refine Or.inr ⟨⟨rfl, ha, ?_⟩, ?_, c, ?_⟩
    · grind
    · rw [hu]
    · exact List.getLast?_concat ..

/-! ## The invariant -/

def Inv (s : Virtio) : Prop :=
  match s.driver with
  | .idle | .filled => Rest s
  | .posted => Outstanding s ∨ Finished s
  | .polling used_before => used_before = s.last_used ∧ (Outstanding s ∨ Finished s)
  | .left expired => expired = false ∧ Finished s
  | .succeeds => s.request_status = 0 ∧ Finished s
  | .fails => s.request_status ≠ 0 ∧ Finished s

/-- When the step posts a request, the cursor is at the index of the used ring. -/
def Fresh (s : Virtio) : Op → Prop
  | .proceed => s.driver = .filled → s.last_used = s.used_index
  | _ => True

instance (s : Virtio) (op : Op) : Decidable (Fresh s op) :=
  match op with
  | .proceed => inferInstanceAs (Decidable (_ → _))
  | .submit .. | .expire | .device _ => .isTrue trivial

section
variable {s : Virtio}

theorem Inv.device (h : Inv s) (st : UInt8) : Inv (device_step s st) := by
  have hd : (device_step s st).driver = s.driver := by grind [device_step]
  have hl : (device_step s st).last_used = s.last_used := by grind [device_step]
  have hw (h : Outstanding s ∨ Finished s) :
      Outstanding (device_step s st) ∨ Finished (device_step s st) := by
    rcases h with ho | hf
    · exact ho.device_step st
    · rw [hf.rest.device_step]
      exact Or.inr hf
  unfold Inv at h ⊢
  rw [hd]
  rcases hs : s.driver with _ | _ | _ | u | e | _ | _
  all_goals rw [hs] at h
  all_goals dsimp only at h ⊢
  · rwa [h.device_step]
  · rwa [h.device_step]
  · exact hw h
  · grind
  · rwa [h.2.rest.device_step]
  · rwa [h.2.rest.device_step]
  · rwa [h.2.rest.device_step]

theorem Inv.submit (h : Inv s) (type : UInt32) (sc : UInt64) (c : UInt32) (buffer : UInt64) :
    Inv (submit s type sc c buffer) := by
  unfold virtio_blk.submit
  split
  · exact h
  split
  · exact h
  next hi =>
    have hr : Rest s := by grind [Inv]
    exact ⟨hr.device, hr.consumed, hr.completed⟩

theorem outstanding_of_post (h : Rest s) (hf : s.last_used = s.used_index) (r : Nat → UInt16) :
    Outstanding { s with
      available_ring := r
      available_index := s.available_index + 1
      submitted := s.submitted ++ [⟨s.request, s.descriptors 1⟩]
      driver := .posted } := by
  refine ⟨hf.symm, ⟨s.request, s.descriptors 1⟩, ?_, Or.inl ⟨h.device, ?_, rfl⟩⟩
  · rw [h.completed]
  · rw [h.consumed]

theorem Inv.proceed (h : Inv s) (hf : Fresh s .proceed) : Inv (submit_step s) := by
  unfold submit_step
  unfold Inv at h
  rcases hs : s.driver with _ | _ | _ | u | e | _ | _
  all_goals rw [hs] at h
  all_goals dsimp only at h ⊢
  · unfold Inv
    rwa [hs]
  · exact Or.inl (outstanding_of_post h (hf hs) _)
  · rcases h with ⟨hu, hp⟩ | ⟨⟨h1, h2, h3⟩, hu, hst⟩
    · exact ⟨rfl, Or.inl ⟨hu, hp⟩⟩
    · exact ⟨rfl, Or.inr ⟨⟨h1, h2, h3⟩, hu, hst⟩⟩
  · obtain ⟨hb, hw⟩ := h
    split
    next hc =>
      -- The index has changed, so the device has advanced it.
      rcases hw with ho | ⟨⟨h1, h2, h3⟩, hu, hst⟩
      · exact absurd (ho.used.trans hb.symm) hc
      · exact ⟨rfl, ⟨h1, h2, h3⟩, hu, hst⟩
    grind [Inv]
  · obtain ⟨he, ⟨h1, h2, h3⟩, hu, hst⟩ := h
    by_cases hz : s.request_status = 0
    · rw [if_neg (by simp [he, hz])]
      exact ⟨hz, ⟨h1, h2, h3⟩, hu, hst⟩
    · rw [if_pos (Or.inr hz)]
      exact ⟨hz, ⟨h1, h2, h3⟩, hu, hst⟩
  · obtain ⟨_, ⟨h1, h2, h3⟩, _, _⟩ := h
    exact ⟨h1, h2, h3⟩
  · obtain ⟨_, ⟨h1, h2, h3⟩, _, _⟩ := h
    exact ⟨h1, h2, h3⟩

theorem Inv.expire (h : Inv s) : Inv (submit_expire s) := by
  unfold submit_expire
  split
  next u hd hdv =>
    split
    next he =>
      unfold Inv at h
      rw [hd] at h
      obtain ⟨hb, ho | hf⟩ := h
      · obtain ⟨_, c, _, ⟨_, ha, _⟩ | ⟨hw, _⟩ | ⟨hwr, _⟩⟩ := ho
        · grind
        · grind
        grind
      · have hu := hf.used
        grind
    next => exact h
  next => exact h

theorem Inv.step {op : Op} (h : Inv s) (hf : Fresh s op) : Inv (s.step op) := by
  cases op with
  | submit type sc c buffer => exact h.submit type sc c buffer
  | proceed => exact h.proceed hf
  | expire => exact h.expire
  | device st => exact h.device st

theorem initial_inv (q : UInt16) : Inv (initial q) := ⟨rfl, rfl, rfl⟩

end

/-! ## Pairing -/

/-- When `submit` returns, the device has completed the request that it posted, which is the
last one, and the result is 0 exactly for the status 0. -/
def Paired (s : Virtio) : Prop :=
  ∀ value, returned s = some value → ∃ chain status, s.submitted.getLast? = some chain ∧
    s.completed[s.submitted.length - 1]? = some (chain, status) ∧ (value = 0 ↔ status = 0)

theorem Finished.last {s : Virtio} (h : Finished s) :
    ∃ c, s.submitted.getLast? = some c ∧
      s.completed[s.submitted.length - 1]? = some (c, s.request_status) := by
  obtain ⟨c, hl⟩ := h.status
  simp [← h.rest.completed, List.getLast?_map, hl, List.length_map, ← List.getLast?_eq_getElem?]

theorem Inv.paired {s : Virtio} (h : Inv s) : Paired s := by
  intro v hv
  unfold Inv at h
  unfold returned at hv
  rcases hs : s.driver with _ | _ | _ | u | e | _ | _
  all_goals rw [hs] at h hv
  all_goals try contradiction
  · obtain ⟨c, hsb, hc⟩ := h.2.last
    grind
  · obtain ⟨c, hsb, hc⟩ := h.2.last
    grind

def AlwaysPaired (s : Virtio) : List Op → Prop
  | [] => Paired s
  | op :: ops => Paired s ∧ AlwaysPaired (s.step op) ops

/-- Every request of the run is posted with the cursor at the index of the used ring. -/
def AlwaysFresh (s : Virtio) : List Op → Prop
  | [] => True
  | op :: ops => Fresh s op ∧ AlwaysFresh (s.step op) ops

instance decidableAlwaysFresh (s : Virtio) (ops : List Op) : Decidable (AlwaysFresh s ops) :=
  match ops with
  | [] => .isTrue trivial
  | op :: ops => @instDecidableAnd _ _ _ (decidableAlwaysFresh (s.step op) ops)

def Virtio.run (s : Virtio) : List Op → Virtio
  | [] => s
  | op :: ops => (s.step op).run ops

theorem Inv.alwaysPaired {s : Virtio} (h : Inv s) {ops : List Op} (hf : AlwaysFresh s ops) :
    AlwaysPaired s ops := by
  induction ops generalizing s with
  | nil => exact h.paired
  | cons op ops ih => exact ⟨h.paired, ih (h.step hf.1) hf.2⟩

theorem AlwaysPaired.last {s : Virtio} {ops : List Op} (h : AlwaysPaired s ops) : Paired (s.run ops) := by
  induction ops generalizing s with
  | nil => exact h
  | cons op ops ih => exact ih h.2

/-- A request is paired with its completion, as long as the cursor has caught up with
the device whenever a request is posted. -/
theorem a_request_gets_its_own_status (queue_size : UInt16) (ops : List Op)
    (hfresh : AlwaysFresh (initial queue_size) ops) : AlwaysPaired (initial queue_size) ops :=
  (initial_inv queue_size).alwaysPaired hfresh

def oneRead (status : UInt8) : List Op :=
  [.submit 0 7 1 4096, .proceed, .proceed, .device 0, .device status, .device 0, .proceed, .proceed]

theorem one_read_gets_its_status :
    AlwaysFresh (initial 256) (oneRead 0) ∧ returned ((initial 256).run (oneRead 0)) = some 0 ∧
      AlwaysPaired (initial 256) (oneRead 0) := by
  have hfresh : AlwaysFresh (initial 256) (oneRead 0) := by decide +kernel
  exact ⟨hfresh, by decide +kernel, a_request_gets_its_own_status 256 _ hfresh⟩

/-- A read fails with status 1. The next one is posted, and `submit` returns -1 although
the device has not begun to work on it. -/
theorem the_next_read_fails_at_once :
    let ops := oneRead 1 ++ [.proceed, .submit 0 8 1 4096, .proceed, .proceed, .proceed, .proceed]
    returned ((initial 256).run ops) = some (-1) ∧
      ((initial 256).run ops).submitted.length = 2 ∧ ((initial 256).run ops).completed.length = 1 ∧
      ¬ AlwaysPaired (initial 256) ops := by
  intro ops
  -- one evaluation of the run for all three facts
  have hrun : returned ((initial 256).run ops) = some (-1) ∧
      ((initial 256).run ops).submitted.length = 2 ∧ ((initial 256).run ops).completed.length = 1 := by
    decide +kernel
  obtain ⟨hreturned, hsubmitted, hcompleted⟩ := hrun
  refine ⟨hreturned, hsubmitted, hcompleted, fun h => ?_⟩
  obtain ⟨chain, status, _, hget, _⟩ := h.last (-1) hreturned
  rw [hsubmitted, List.getElem?_eq_none (by omega)] at hget
  contradiction

end mvh.virtio_blk
